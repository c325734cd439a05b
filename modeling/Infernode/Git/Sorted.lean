import Infernode.Git.Level

/-!
# The order of the entries of a tree

Git sorts the entries of a tree by their bytes, a directory as its name followed by a slash.
`sorttreeentries` sorts by the bare names. The two agree on the entries of a tree unless a
directory stands beside an entry that goes on from its name with a character below the slash.
-/

namespace Infernode.Git

open Limbo (Str lit string bytes)

variable {es : List TreeEntry} {a b e : TreeEntry} {s t : Str}

def keytext (e : TreeEntry) : Str := e.name ++ if e.mode = DIRMODE then ['/'] else []

def gitkey (e : TreeEntry) : List ℤ :=
  Cases.ofbytes (bytes e.name ++ if e.mode = DIRMODE then [47] else [])

def gitsort (es : List TreeEntry) : List TreeEntry :=
  es.mergeSort fun a b => decide (gitkey a ≤ gitkey b)

theorem gitkey_eq (e : TreeEntry) : gitkey e = Cases.ofbytes (bytes (keytext e)) := by
  rw [gitkey, keytext, Limbo.bytes_append]
  split_ifs <;> rfl

theorem gitkey_le : gitkey a ≤ gitkey b ↔ keytext a ≤ keytext b := by
  rw [gitkey_eq, gitkey_eq]
  exact Cases.bytes_strictMono.le_iff_le

theorem gitsort_perm (es : List TreeEntry) : (gitsort es).Perm es := List.mergeSort_perm _ _

theorem gitsort_sorted (es : List TreeEntry) :
    (gitsort es).Pairwise fun a b => keytext a ≤ keytext b := by
  have h : (gitsort es).Pairwise fun a b => decide (gitkey a ≤ gitkey b) = true := by
    refine List.pairwise_mergeSort (fun a b c hab hbc => ?_) (fun a b => ?_) es
    · exact decide_eq_true (le_trans (of_decide_eq_true hab) (of_decide_eq_true hbc))
    · simpa using le_total (gitkey a) (gitkey b)
  exact h.imp fun hab => gitkey_le.mp (of_decide_eq_true hab)

theorem insertentry_perm (sorted : List TreeEntry) (key : TreeEntry) :
    (insertentry sorted key).Perm (key :: sorted) := by
  have hsplit := List.takeWhile_append_dropWhile (l := sorted.reverse)
    (p := fun e => decide (key.name < e.name))
  have hback := congrArg List.reverse hsplit
  rw [List.reverse_append, List.reverse_reverse] at hback
  rw [insertentry]
  conv_rhs => rw [← hback]
  exact List.perm_middle

theorem insertentry_sorted {sorted : List TreeEntry}
    (h : sorted.Pairwise fun a b => a.name ≤ b.name) (key : TreeEntry) :
    (insertentry sorted key).Pairwise fun a b => a.name ≤ b.name := by
  have hsplit := List.takeWhile_append_dropWhile (l := sorted.reverse)
    (p := fun e => decide (key.name < e.name))
  have hgreater : ∀ e ∈ sorted.reverse.takeWhile fun e => decide (key.name < e.name),
      key.name ≤ e.name := fun e he => le_of_lt (by simpa using List.mem_takeWhile_imp he)
  have hback := congrArg List.reverse hsplit
  rw [List.reverse_append, List.reverse_reverse] at hback
  rw [← hback, List.pairwise_append] at h
  obtain ⟨hrest, htop, hcross⟩ := h
  rw [insertentry, List.pairwise_append, List.pairwise_cons]
  refine ⟨hrest, ⟨fun e he => hgreater e (List.mem_reverse.mp he), htop⟩, fun a ha b hb => ?_⟩
  rcases List.mem_cons.mp hb with rfl | hb
  · -- the last of the rest is not greater than the key, and the others come before it
    cases hd : sorted.reverse.dropWhile fun e => decide (b.name < e.name) with
    | nil => simp [hd] at ha
    | cons x r =>
      have hx : x.name ≤ b.name := by
        have := List.head?_dropWhile_not (fun e => decide (b.name < e.name)) sorted.reverse
        rw [hd] at this
        simpa using this
      rw [hd, List.reverse_cons, List.pairwise_append] at hrest
      rw [hd, List.reverse_cons, List.mem_append, List.mem_singleton] at ha
      rcases ha with ha | rfl
      · exact le_trans (hrest.2.2 a ha x (by simp)) hx
      · exact hx
  · exact hcross a ha b hb

theorem sorttreeentries_perm (es : List TreeEntry) : (sorttreeentries es).Perm es := by
  induction es using List.reverseRecOn with
  | nil => rfl
  | append_singleton es e ih =>
    rw [sorttreeentries, List.foldl_append]
    exact (insertentry_perm _ e).trans ((ih.cons e).trans (List.perm_append_singleton e es).symm)

theorem sorttreeentries_sorted (es : List TreeEntry) :
    (sorttreeentries es).Pairwise fun a b => a.name ≤ b.name := by
  induction es using List.reverseRecOn with
  | nil => exact List.Pairwise.nil
  | append_singleton es e ih =>
    rw [sorttreeentries, List.foldl_append]
    exact insertentry_sorted ih e

/-- A directory beside an entry that goes on from its name with a character below the slash. -/
def Clash (a b : TreeEntry) : Prop :=
  a.mode = DIRMODE ∧ ∃ c t, b.name = a.name ++ c :: t ∧ c < '/'

theorem lt_cases {α : Type} [LinearOrder α] {s t : List α} (h : s < t) :
    (∃ c r, t = s ++ c :: r) ∨
      ∃ p x y s' t', s = p ++ x :: s' ∧ t = p ++ y :: t' ∧ x < y := by
  induction s generalizing t with
  | nil =>
    cases t with
    | nil => exact absurd h (lt_irrefl _)
    | cons c t => exact .inl ⟨c, t, rfl⟩
  | cons a s ih =>
    cases t with
    | nil => exact absurd h (List.not_lt_nil _)
    | cons b t =>
      rcases List.cons_lt_cons_iff.mp h with hlt | ⟨rfl, hlt⟩
      · exact .inr ⟨[], a, b, s, t, rfl, rfl, hlt⟩
      · rcases ih hlt with ⟨c, r, rfl⟩ | ⟨p, x, y, s', t', rfl, rfl, hxy⟩
        · exact .inl ⟨c, r, rfl⟩
        · exact .inr ⟨a :: p, x, y, s', t', rfl, rfl, hxy⟩

theorem append_lt {α : Type} [LinearOrder α] (p : List α) {x y : α} (h : x < y) (s t : List α) :
    p ++ x :: s < p ++ y :: t := by
  induction p with
  | nil => exact List.cons_lt_cons_iff.mpr (.inl h)
  | cons a p ih => exact List.cons_lt_cons_iff.mpr (.inr ⟨rfl, ih⟩)

theorem lt_append {α : Type} [LinearOrder α] (s : List α) (c : α) (t : List α) :
    s < s ++ c :: t := by
  induction s with
  | nil => exact List.nil_lt_cons _ _
  | cons a s ih => exact List.cons_lt_cons_iff.mpr (.inr ⟨rfl, ih⟩)

theorem keytext_lt (h : a.name < b.name) (hb : '/' ∉ b.name) (hc : ¬Clash a b) :
    keytext a < keytext b := by
  rcases lt_cases h with ⟨c, r, hr⟩ | ⟨p, x, y, s, t, ha, hb', hxy⟩
  · have hkey : keytext b = a.name ++ c :: (r ++ if b.mode = DIRMODE then ['/'] else []) := by
      rw [keytext, hr]
      simp
    rw [hkey, keytext]
    by_cases hdir : a.mode = DIRMODE
    · have hslash : c ≠ '/' := by
        rintro rfl
        exact hb (by simp [hr])
      have hlt : '/' < c :=
        lt_of_le_of_ne (not_lt.mp fun hl => hc ⟨hdir, c, r, hr, hl⟩) hslash.symm
      rw [if_pos hdir]
      exact append_lt a.name hlt [] _
    · rw [if_neg hdir, List.append_nil]
      exact lt_append _ _ _
  · rw [keytext, keytext, ha, hb']
    simpa using append_lt p hxy _ _

theorem Clash.lt (h : Clash a b) : a.name < b.name ∧ keytext b < keytext a := by
  obtain ⟨hdir, c, t, hb, hc⟩ := h
  constructor
  · rw [hb]
    exact lt_append _ _ _
  · have hkey : keytext b = a.name ++ c :: (t ++ if b.mode = DIRMODE then ['/'] else []) := by
      rw [keytext, hb]
      simp
    rw [hkey, keytext, if_pos hdir]
    exact append_lt a.name hc _ []

theorem gitsort_eq_iff (hn : (es.map TreeEntry.name).Nodup) (hslash : ∀ e ∈ es, '/' ∉ e.name) :
    sorttreeentries es = gitsort es ↔ ∀ a ∈ es, ∀ b ∈ es, ¬Clash a b := by
  have hsub : ∀ {x}, x ∈ sorttreeentries es ↔ x ∈ es := (sorttreeentries_perm es).mem_iff
  constructor
  · intro h a ha b hb hclash
    obtain ⟨hname, hkey⟩ := hclash.lt
    have hpair := (sorttreeentries_sorted es).and (h ▸ gitsort_sorted es)
    have hne : a ≠ b := by
      rintro rfl
      exact lt_irrefl _ hname
    have hboth : ∀ x ∈ sorttreeentries es, ∀ y ∈ sorttreeentries es, x ≠ y →
        (x.name ≤ y.name ∧ keytext x ≤ keytext y) ∨ (y.name ≤ x.name ∧ keytext y ≤ keytext x) :=
      List.Pairwise.forall_of_forall_of_flip (fun x _ hx => absurd rfl hx)
        (hpair.imp fun h _ => .inl h) (hpair.imp fun h _ => .inr h)
    rcases hboth a (hsub.mpr ha) b (hsub.mpr hb) hne with h | h
    · exact absurd hkey (not_lt.mpr h.2)
    · exact absurd hname (not_lt.mpr h.1)
  · intro h
    have hnames : (sorttreeentries es).Pairwise fun a b => a.name ≠ b.name :=
      List.pairwise_map.mp (((sorttreeentries_perm es).map TreeEntry.name).nodup_iff.mpr hn)
    have hkeys : (sorttreeentries es).Pairwise fun a b => keytext a ≤ keytext b := by
      refine ((sorttreeentries_sorted es).and hnames).imp_of_mem fun {a b} ha hb hab => ?_
      exact le_of_lt (keytext_lt (lt_of_le_of_ne hab.1 hab.2) (hslash b (hsub.mp hb))
        (h a (hsub.mp ha) b (hsub.mp hb)))
    refine List.Perm.eq_of_pairwise (fun a b ha hb hab hba => ?_) hkeys (gitsort_sorted es)
      ((sorttreeentries_perm es).trans (gitsort_perm es).symm)
    -- two entries of one key have one name
    by_contra hne
    have ha' := hsub.mp ha
    have hb' : b ∈ es := (gitsort_perm es).mem_iff.mp hb
    have hname : a.name ≠ b.name := fun heq => hne (List.inj_on_of_nodup_map hn ha' hb' heq)
    rcases lt_or_gt_of_ne hname with hlt | hlt
    · exact absurd (keytext_lt hlt (hslash b hb') (h a ha' b hb')) (not_lt.mpr hba)
    · exact absurd (keytext_lt hlt (hslash a ha') (h b hb' a ha')) (not_lt.mpr hab)

end Infernode.Git
