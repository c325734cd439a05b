import Infernode.Git.Recorded

/-!
# The tree of a commit

The tree of an index does not depend on the order of its entries, so that a commit of what
`HEAD` lists has the tree of `HEAD`.
-/

namespace Infernode.Git

open Limbo (Str lit string bytes)

variable {es es' l : List IndexEntry} {e f : IndexEntry} {a b : List TreeEntry} {d s t : Str}
  {n : ℕ} {hashobj : ℕ → List UInt8 → Hash}

theorem sorttreeentries_congr (hp : a.Perm b) (hn : (a.map TreeEntry.name).Nodup) :
    sorttreeentries a = sorttreeentries b := by
  have ha := sorttreeentries_perm a
  have hb := sorttreeentries_perm b
  refine List.Perm.eq_of_pairwise (fun x y hx hy hxy hyx => ?_) (sorttreeentries_sorted a)
    (sorttreeentries_sorted b) ((ha.trans hp).trans hb.symm)
  exact List.inj_on_of_nodup_map hn (ha.mem_iff.mp hx)
    (hp.mem_iff.mpr (hb.mem_iff.mp hy)) (le_antisymm hxy hyx)

theorem levelof_names (h : Indexed es) : d ∈ (levelof es).2.map Prod.fst ↔
    ∃ e ∈ es, ∃ r, '/' ∉ d ∧ e.path = d ++ '/' :: r := by
  have hg := grouped_levelof es
  constructor
  · intro hd
    obtain ⟨g, hmem, rfl⟩ := List.mem_map.mp hd
    obtain ⟨hs, e, he, r, hpath, -⟩ := hg.slash hmem
    exact ⟨e, he, r, hs, hpath⟩
  · rintro ⟨e, he, r, hd, hpath⟩
    have hclean := (h.entry e he).1
    rw [hpath, clean_cut hd] at hclean
    obtain ⟨g, hmem, rfl, -⟩ := hg.group he hd hpath hclean.2.ne_nil
    exact List.mem_map_of_mem hmem

theorem entriesat_perm (h : Indexed es) (hp : es.Perm es') (hash : Str → Hash) :
    (entriesat (fun g => hash g.1) es).Perm (entriesat (fun g => hash g.1) es') := by
  have h' : Indexed es' := h.perm hp.symm
  have hnames : ((levelof es).2.map Prod.fst).Perm ((levelof es').2.map Prod.fst) := by
    refine (List.perm_ext_iff_of_nodup (grouped_levelof es).names (grouped_levelof es').names).mpr
      fun d => ?_
    rw [levelof_names h, levelof_names h']
    exact exists_congr fun e => and_congr_left' hp.mem_iff
  have hdirs : ∀ gs : List Group, gs.map (fun g => (⟨DIRMODE, g.1, hash g.1⟩ : TreeEntry)) =
      (gs.map Prod.fst).map fun d => ⟨DIRMODE, d, hash d⟩ := fun gs => by
    rw [List.map_map]
    rfl
  rw [entriesat, entriesat, levelof_files, levelof_files, hdirs, hdirs]
  refine .append ?_ ?_
  · exact (List.reverse_perm _).trans ((hp.filterMap _).trans (List.reverse_perm _).symm)
  · exact (List.reverse_perm _).trans ((hnames.map _).trans (List.reverse_perm _).symm)

theorem treesby_perm (h : Indexed es) (hp : es.Perm es') :
    (treesby sorttreeentries hashobj n es).1 = (treesby sorttreeentries hashobj n es').1 := by
  induction n generalizing es es' with
  | zero => rfl
  | succ n ih =>
    let hash : Str → Hash := fun d =>
      (treesby sorttreeentries hashobj n (es.filterMap (below d))).1
    have hes : entriesat (fun g => (treesby sorttreeentries hashobj n g.2).1) es =
        entriesat (fun g => hash g.1) es := by
      refine entriesat_congr fun g hmem => ih ?_ ((grouped_levelof es).perm g hmem)
      exact (grouped_levelof es).indexed h hmem
    have hes' : entriesat (fun g => (treesby sorttreeentries hashobj n g.2).1) es' =
        entriesat (fun g => hash g.1) es' := by
      refine entriesat_congr fun g hmem => ih ?_ ?_
      · exact (grouped_levelof es').indexed (h.perm hp.symm) hmem
      · exact ((grouped_levelof es').perm g hmem).trans (hp.symm.filterMap _)
    have hsort := sorttreeentries_congr (entriesat_perm h hp hash) (entriesat_names h _)
    rw [treesby_succ, treesby_succ, hes, hes', hsort]

theorem levels_perm (hp : es.Perm es') : levels es = levels es' := by
  have : LeftCommutative fun (e : IndexEntry) n => max (e.path.length + 1) n :=
    ⟨fun e f n => max_left_comm _ _ _⟩
  exact hp.foldr_eq 1

theorem levels_pos (es : List IndexEntry) : 0 < levels es := by
  induction es with
  | nil => exact one_pos
  | cons e es ih => exact lt_of_lt_of_le ih (le_max_right _ _)

theorem lt_levels (he : e ∈ es) : e.path.length < levels es := by
  induction es with
  | nil => simp at he
  | cons f es ih =>
    rcases List.mem_cons.mp he with rfl | he
    · exact Nat.lt_of_succ_le (le_max_left _ _)
    · exact lt_of_lt_of_le (ih he) (le_max_right _ _)

theorem buildtree_perm (h : Indexed es) (hp : es.Perm es') :
    (buildtree hashobj es).1 = (buildtree hashobj es').1 := by
  rw [buildtree, buildtree, levels_perm hp, treesby_perm h hp]

/-- One line of a commit: its text keeps to the line, and its key to the first space. -/
def Keyed (key val : Str) : Prop :=
  ' ' ∉ key ∧ '\n' ∉ key ∧ '\n' ∉ val ∧ val.getLast? ≠ some '\r' ∧ val ≠ []

theorem splitline_keyed {key val : Str} (h : Keyed key val) (t : Str) :
    splitline (key ++ ' ' :: (val ++ '\n' :: t)) = (key ++ ' ' :: val, t) ∧
      splitfirst ' ' (key ++ ' ' :: val) = (key, val) := by
  obtain ⟨hspace, hkey, hval, hlast, hne⟩ := h
  refine ⟨?_, splitfirst_eq hspace val⟩
  have hline : key ++ ' ' :: (val ++ '\n' :: t) = (key ++ ' ' :: val) ++ '\n' :: t := by simp
  rw [hline]
  refine splitline_eq ?_ ?_ t
  · simp [hkey, hval]
  · rwa [List.append_cons, List.getLast?_append_of_ne_nil _ hne]

def IsStamp (timestamp : Str) : Prop :=
  '\n' ∉ timestamp ∧ timestamp.getLast? ≠ some '\r' ∧ timestamp ≠ []

theorem hex_ne_nil (h : Hash) : h.hex ≠ [] := by
  intro hnil
  have := hex_length h
  simp [hnil] at this

theorem keyed_hex (h : Hash) {key : Str} (hs : ' ' ∉ key) (hk : '\n' ∉ key) : Keyed key h.hex := by
  refine ⟨hs, hk, hex_ne h (by decide), fun hlast => ?_, hex_ne_nil h⟩
  exact hex_ne h (by decide) (List.mem_of_getLast? hlast)

theorem keyed_stamp (ht : IsStamp s) {key : Str} (hs : ' ' ∉ key) (hk : '\n' ∉ key) :
    Keyed key s := ⟨hs, hk, ht⟩

theorem commitloop_keyed {key val : Str} (h : Keyed key val) (t : Str) (c : Commit) :
    commitloop (key ++ ' ' :: (val ++ '\n' :: t)) c =
      if key = lit "tree" then
        match parsehash val with
        | .error err => .error (lit "bad tree hash: " ++ err)
        | .ok h => commitloop t { c with tree := h }
      else if key = lit "parent" then
        match parsehash val with
        | .error err => .error (lit "bad parent hash: " ++ err)
        | .ok h => commitloop t { c with parents := h :: c.parents }
      else if key = lit "author" then commitloop t { c with author := val }
      else if key = lit "committer" then commitloop t { c with committer := val }
      else commitloop t c := by
  obtain ⟨hline, hfirst⟩ := splitline_keyed h t
  have hne : (splitline (key ++ ' ' :: (val ++ '\n' :: t))).1 ≠ [] := by
    rw [hline]
    simp
  rw [commitloop, dif_neg hne]
  simp only [hline, hfirst] <;> rfl

theorem commitloop_stamped (ht : IsStamp s) (msg : Str) (c : Commit) :
    commitloop (lit "author" ++ ' ' :: (s ++ '\n' :: (lit "committer" ++ ' ' :: (s ++ '\n' ::
      '\n' :: msg)))) c = .ok { c with author := s, committer := s, msg := msg } := by
  rw [commitloop_keyed (keyed_stamp ht (by decide) (by decide)), if_neg (by decide),
    if_neg (by decide), if_pos rfl, commitloop_keyed (keyed_stamp ht (by decide) (by decide)),
    if_neg (by decide), if_neg (by decide), if_neg (by decide), if_pos rfl, commitloop,
    dif_pos (by rfl)]
  rfl

theorem parsecommit_committext (tree : Hash) (parent : Option Hash) (ht : IsStamp s) (msg : Str) :
    ∃ c, parsecommit (bytes (committext tree parent s msg)) = .ok c ∧ c.tree = tree := by
  have hhash : ∀ h : Hash, parsehash h.hex = .ok h := fun h => by
    have := parsehash_hex h []
    rwa [List.append_nil] at this
  rw [parsecommit, Limbo.string_bytes]
  cases parent with
  | none =>
    have htext : committext tree none s msg = lit "tree" ++ ' ' :: (tree.hex ++ '\n' ::
        (lit "author" ++ ' ' :: (s ++ '\n' :: (lit "committer" ++ ' ' :: (s ++ '\n' ::
          '\n' :: (msg ++ ['\n'])))))) := by
      simp [committext, lit]
    rw [htext, commitloop_keyed (keyed_hex tree (by decide) (by decide)), if_pos rfl, hhash]
    simp only [commitloop_stamped ht]
    exact ⟨_, rfl, rfl⟩
  | some p =>
    have htext : committext tree (some p) s msg = lit "tree" ++ ' ' :: (tree.hex ++ '\n' ::
        (lit "parent" ++ ' ' :: (p.hex ++ '\n' :: (lit "author" ++ ' ' :: (s ++ '\n' ::
          (lit "committer" ++ ' ' :: (s ++ '\n' :: '\n' :: (msg ++ ['\n'])))))))) := by
      simp [committext, lit]
    rw [htext, commitloop_keyed (keyed_hex tree (by decide) (by decide)), if_pos rfl, hhash]
    simp only
    rw [commitloop_keyed (keyed_hex p (by decide) (by decide)), if_neg (by decide), if_pos rfl,
      hhash]
    simp only [commitloop_stamped ht]
    exact ⟨_, rfl, rfl⟩

/-!
## A commit records the index

What a commit of an index should keep, and when it does: the index comes back from its file,
the trees are git's, and the files of the commit are those of the index.
-/

variable {es l : List IndexEntry} {e : IndexEntry} {s : Store} {parent : Option Hash}
  {timestamp msg : Str} {hashobj : ℕ → List UInt8 → Hash} {m : ℕ}

def objects (hashobj : ℕ → List UInt8 → Hash) (es : List IndexEntry) (parent : Option Hash)
    (timestamp msg : Str) : List (ℕ × List UInt8) :=
  (buildtree hashobj es).2.map (fun d => (OBJ_TREE, d)) ++
    [(OBJ_COMMIT, bytes (committext (buildtree hashobj es).1 parent timestamp msg))]

structure Records (hashobj : ℕ → List UInt8 → Hash) (s : Store) (es : List IndexEntry)
    (parent : Option Hash) (timestamp msg : Str) : Prop where
  loads : loadfile (saveindex es) = es
  git : (buildtree hashobj es).2 = (treesby gitsort hashobj (levels es) es).2
  head : ∀ m, levels es ≤ m → ∃ l,
    headindex (commit hashobj s es parent timestamp msg).2 m
      (commit hashobj s es parent timestamp msg).1 = some (.ok l) ∧
    l.Perm es ∧ (buildtree hashobj l).1 = (buildtree hashobj es).1
  entries : ∀ ts : List TreeEntry, (∀ e ∈ ts, IsEntry e) → parsetree (encodetree ts) = .ok ts

theorem headindex_commit (h : Indexed es) (ht : IsStamp timestamp)
    (hf : Fresh hashobj s (objects hashobj es parent timestamp msg)) (hm : levels es ≤ m) :
    ∃ l, headindex (commit hashobj s es parent timestamp msg).2 m
      (commit hashobj s es parent timestamp msg).1 = some (.ok l) ∧ l.Perm es := by
  obtain ⟨c, hc, htree⟩ := parsecommit_committext (buildtree hashobj es).1 parent ht msg
  have hcommit : (commit hashobj s es parent timestamp msg).2.readobj
      (commit hashobj s es parent timestamp msg).1 =
      .ok (OBJ_COMMIT, bytes (committext (buildtree hashobj es).1 parent timestamp msg)) :=
    readobj_writes hf (List.mem_append_right _ (List.mem_singleton.mpr rfl))
  have htrees : ∀ d ∈ (treesby sorttreeentries hashobj (levels es) es).2,
      (commit hashobj s es parent timestamp msg).2.readobj (hashobj OBJ_TREE d) =
        .ok (OBJ_TREE, d) := fun d hd =>
    readobj_writes hf (List.mem_append_left _ (List.mem_map_of_mem hd))
  obtain ⟨l, hl, hread⟩ := treeindex_lists h (levels_pos es) (fun _ => lt_levels) hm
    htrees []
  have hunder : es.map (beneath []) = es := List.map_id es
  refine ⟨l.reverse, ?_, (List.reverse_perm l).trans (hunder ▸ hl)⟩
  have hindex : treeindex (commit hashobj s es parent timestamp msg).2 m c.tree [] [] =
      some (.ok l) := by
    rw [htree, buildtree, hread, List.append_nil]
  rw [headindex, hcommit]
  simp only [ne_eq, not_true_eq_false, ↓reduceIte, hc, hindex]
  rfl

theorem buildtree_git (h : Indexed es) :
    (buildtree hashobj es).2 = (treesby gitsort hashobj (levels es) es).2 ↔ Unmixed es :=
  (treesby_git hashobj (levels es) h fun _ => lt_levels).1

def dashed : List IndexEntry :=
  [⟨0o100644, nullhash, lit "a/b"⟩, ⟨0o100644, nullhash, lit "a-b"⟩]

theorem dashed_indexed : Indexed dashed where
  entry e he := by
    have hclean : Clean (lit "a/b") ∧ Clean (lit "a-b") := by
      unfold Clean
      decide
    rcases List.mem_pair.mp he with rfl | rfl
    · exact ⟨hclean.1, ⟨by decide, by decide⟩, by decide, by decide⟩
    · exact ⟨hclean.2, ⟨by decide, by decide⟩, by decide, by decide⟩
  apart := by
    unfold Apart
    decide

def hashtype (otype : ℕ) (_ : List UInt8) : Hash := fun _ => UInt8.ofNat otype

def emptystore : Store := ⟨fun _ => none, fun _ => .error (lit "object not found")⟩

end Infernode.Git
