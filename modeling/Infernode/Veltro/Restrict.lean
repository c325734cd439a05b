import Infernode.Lib.NameTree
import Infernode.Veltro.Grant

/-!
# Restricting a directory to granted paths

`restrictdirx` and `restrictpathx` of `nsconstruct.b` over the tree of names a
process sees. A bind with MREPL replaces what the target shows by what the
source showed; it fails where either is missing or one is a file and the other
a directory. A shadow directory is a fresh tree of its own, outside the
directory being restricted, and `mkshadow` says how making it ended. The
creatable and readonly flags of the binds do not decide which names resolve
and are left out. The root directory keeps its own branch: there the source
makes a directory for every item and ignores binds that fail.
-/

namespace Infernode.Veltro.Restrict
open Infernode.Limbo Infernode.Lib Infernode.Veltro.Grant

inductive Kind
  | dir
  | file
  deriving DecidableEq

abbrev Tree := NameTree Str Kind

def bindrepl (ns src : Tree) (target : List Str) : Option Tree :=
  if src [] ≠ none ∧ src [] = ns target then some (ns.graft target src) else none

def create (t : Tree) (item : Str) (kind : Kind) : Tree :=
  fun q => if q = [item] ∧ t q = none then some kind else t q

def emptydir : Tree := fun q => if q = [] then some .dir else none

def pathname (p : List Str) : String :=
  if p = [] then "/" else String.ofList (p.flatMap fun name => '/' :: name)

def shadowitem (ns : Tree) (target : List Str) (shadow : Tree) (item : Str) :
    Except String Tree :=
  let src := ns.subtree (target ++ [item])
  if target = [] then
    .ok ((bindrepl (create shadow item .dir) src [item]).getD (create shadow item .dir))
  else
    match src [] with
    | none => .ok shadow
    | some kind =>
      match bindrepl (create shadow item kind) src [item] with
      | none => .error ("cannot bind " ++ pathname (target ++ [item]))
      | some shadow' => .ok shadow'

def shadowitems (ns : Tree) (target : List Str) : Tree → List Str → Except String Tree
  | shadow, [] => .ok shadow
  | shadow, item :: items =>
    match shadowitem ns target shadow item with
    | .error e => .error e
    | .ok shadow' => shadowitems ns target shadow' items

def restrictdirx (mkshadow : List Str → Option String) (ns : Tree) (target : List Str)
    (allowed : List Str) : Except String Tree :=
  match mkshadow target with
  | some err => .error err
  | none =>
    match shadowitems ns target emptydir allowed with
    | .error e => .error e
    | .ok shadow =>
      match bindrepl ns shadow target with
      | none => .error ("cannot replace " ++ pathname target)
      | some ns' => .ok ns'

def splitfirst : Str → Str × Str
  | [] => ([], [])
  | c :: cs => if c = '/' then ([], cs) else (c :: (splitfirst cs).1, (splitfirst cs).2)

def firsts (allow : List Str) : List Str → List Str
  | [] => allow
  | p :: paths =>
    if inlist (splitfirst p).1 allow then firsts allow paths
    else firsts ((splitfirst p).1 :: allow) paths

def subpaths (name : Str) (acc : List Str) : List Str → List Str
  | [] => acc
  | q :: paths =>
    if (splitfirst q).1 = name ∧ (splitfirst q).2 ≠ [] then
      subpaths name ((splitfirst q).2 :: acc) paths
    else subpaths name acc paths

def weight (paths : List Str) : ℕ := (paths.map List.length).sum

theorem splitfirst_length (p : Str) : (splitfirst p).2.length ≤ p.length := by
  induction p with
  | nil => simp [splitfirst]
  | cons c cs ih =>
    simp only [splitfirst]
    split_ifs
    · simp
    · simp; omega

theorem splitfirst_length_lt {p : Str} (h : (splitfirst p).2 ≠ []) :
    (splitfirst p).2.length < p.length := by
  cases p with
  | nil => simp [splitfirst] at h
  | cons c cs =>
    have hcs := splitfirst_length cs
    simp only [splitfirst]
    split_ifs
    · simp
    · simp; omega

theorem subpaths_weight (name : Str) (acc paths : List Str) :
    weight (subpaths name acc paths) ≤ weight acc + weight paths := by
  induction paths generalizing acc with
  | nil => simp [subpaths, weight]
  | cons q paths ih =>
    simp only [subpaths]
    have hq := splitfirst_length q
    split_ifs
    · refine (ih _).trans ?_
      simp [weight]; omega
    · refine (ih _).trans ?_
      simp [weight]

theorem subpaths_weight_lt {name : Str} {paths : List Str} (h : subpaths name [] paths ≠ []) :
    weight (subpaths name [] paths) < weight paths := by
  induction paths with
  | nil => simp [subpaths] at h
  | cons q paths ih =>
    simp only [subpaths] at h ⊢
    split_ifs at h ⊢ with hq
    · have hlt := splitfirst_length_lt hq.2
      refine (subpaths_weight name _ paths).trans_lt ?_
      simp [weight]; omega
    · refine (ih h).trans_le ?_
      simp [weight]

theorem firsts_length (allow paths : List Str) :
    (firsts allow paths).length ≤ allow.length + paths.length := by
  induction paths generalizing allow with
  | nil => simp [firsts]
  | cons p paths ih =>
    simp only [firsts]
    split_ifs
    · exact (ih allow).trans (by simp)
    · exact (ih _).trans (by simp; omega)

mutual

def restrictpathx (mkshadow : List Str → Option String) (ns : Tree) (dir : List Str)
    (paths : List Str) : Except String Tree :=
  match restrictdirx mkshadow ns dir (firsts [] paths) with
  | .error e => .error e
  | .ok ns' => restrictnames mkshadow ns' dir paths (firsts [] paths)
termination_by (weight paths, paths.length + 1)
decreasing_by
  have hlen := firsts_length [] paths
  simp only [List.length_nil, Nat.zero_add] at hlen
  exact Prod.Lex.right _ (by omega)

def restrictnames (mkshadow : List Str → Option String) (ns : Tree) (dir : List Str)
    (paths : List Str) : List Str → Except String Tree
  | [] => .ok ns
  | name :: names =>
    if _h : subpaths name [] paths = [] then restrictnames mkshadow ns dir paths names
    else
      match restrictpathx mkshadow ns (dir ++ [name]) (subpaths name [] paths) with
      | .error e => .error e
      | .ok ns' => restrictnames mkshadow ns' dir paths names
termination_by names => (weight paths, names.length)
decreasing_by
  · exact Prod.Lex.right _ (by simp)
  · exact Prod.Lex.left _ _ (subpaths_weight_lt _h)
  · exact Prod.Lex.right _ (by simp)

end

theorem splitslash_split (cur p : Str) :
    splitslash cur p =
      (cur ++ (splitfirst p).1) ::
        if '/' ∈ p then splitslash [] (splitfirst p).2 else [] := by
  induction p generalizing cur with
  | nil => simp [splitslash, splitfirst]
  | cons c cs ih =>
    simp only [splitslash, splitfirst]
    split_ifs with hc hmem hmem
    · simp
    · simp [hc] at hmem
    · rw [ih]
      simp [Ne.symm hc] at hmem
      simp [hmem]
    · rw [ih]
      simp at hmem
      simp [hmem.2]

def Relative (p : Str) : Prop := checkcomponents (splitslash [] p) = none

instance (p : Str) : Decidable (Relative p) :=
  inferInstanceAs (Decidable (checkcomponents (splitslash [] p) = none))

theorem checkcomponents_cons {comp : Str} {rest : List Str}
    (h : checkcomponents (comp :: rest) = none) : comp ≠ [] ∧ checkcomponents rest = none := by
  simp only [checkcomponents] at h
  split_ifs at h with h1 h2
  exact ⟨h1, h⟩

theorem Relative.split {p : Str} (hp : Relative p) :
    splitslash [] p =
      (splitfirst p).1 ::
        (if (splitfirst p).2 = [] then [] else splitslash [] (splitfirst p).2) ∧
      ((splitfirst p).2 ≠ [] → Relative (splitfirst p).2) := by
  have hsplit := splitslash_split [] p
  rw [List.nil_append] at hsplit
  by_cases hs : '/' ∈ p
  · rw [if_pos hs] at hsplit
    have hrest : Relative (splitfirst p).2 := by
      rw [Relative, hsplit] at hp
      exact (checkcomponents_cons hp).2
    have hne : (splitfirst p).2 ≠ [] := by
      intro he
      rw [he] at hrest
      simp [Relative, splitslash, checkcomponents] at hrest
    refine ⟨?_, fun _ => hrest⟩
    rw [hsplit, if_neg hne]
  · rw [if_neg hs] at hsplit
    have hnil : (splitfirst p).2 = [] := by
      clear hsplit hp
      induction p with
      | nil => rfl
      | cons c cs ih =>
        simp only [List.mem_cons, not_or] at hs
        simp [splitfirst, Ne.symm hs.1, ih hs.2]
    exact ⟨by rw [hsplit, if_pos hnil], fun h => absurd hnil h⟩

theorem splitslash_ne_nil (cur p : Str) : splitslash cur p ≠ [] := by
  rw [splitslash_split]
  simp

theorem mem_firsts (name : Str) (allow paths : List Str) :
    name ∈ firsts allow paths ↔ name ∈ allow ∨ ∃ p ∈ paths, (splitfirst p).1 = name := by
  induction paths generalizing allow with
  | nil => simp [firsts]
  | cons p paths ih =>
    simp only [firsts, inlist_iff]
    split_ifs with h
    · rw [ih]
      constructor
      · rintro (ha | ⟨q, hq, rfl⟩)
        · exact Or.inl ha
        · exact Or.inr ⟨q, by simp [hq], rfl⟩
      · rintro (ha | ⟨q, hq, rfl⟩)
        · exact Or.inl ha
        · rcases List.mem_cons.mp hq with rfl | hq
          · exact Or.inl h
          · exact Or.inr ⟨q, hq, rfl⟩
    · rw [ih]
      simp only [List.mem_cons, exists_eq_or_imp, or_assoc, eq_comm (a := name), or_left_comm]

theorem firsts_nodup (allow paths : List Str) (h : allow.Nodup) : (firsts allow paths).Nodup := by
  induction paths generalizing allow with
  | nil => exact h
  | cons p paths ih =>
    simp only [firsts, inlist_iff]
    split_ifs with hp
    · exact ih allow h
    · exact ih _ (List.nodup_cons.mpr ⟨hp, h⟩)

theorem mem_subpaths (name q : Str) (acc paths : List Str) :
    q ∈ subpaths name acc paths ↔
      q ∈ acc ∨ q ≠ [] ∧ ∃ p ∈ paths, splitfirst p = (name, q) := by
  induction paths generalizing acc with
  | nil => simp [subpaths]
  | cons p paths ih =>
    simp only [subpaths]
    split_ifs with h
    · rw [ih, List.mem_cons]
      constructor
      · rintro ((rfl | ha) | ⟨hq, r, hr, hrq⟩)
        · exact Or.inr ⟨h.2, p, by simp, Prod.ext h.1 rfl⟩
        · exact Or.inl ha
        · exact Or.inr ⟨hq, r, by simp [hr], hrq⟩
      · rintro (ha | ⟨hq, r, hr, hrq⟩)
        · exact Or.inl (Or.inr ha)
        · rcases List.mem_cons.mp hr with rfl | hr
          · exact Or.inl (Or.inl (by rw [hrq]))
          · exact Or.inr ⟨hq, r, hr, hrq⟩
    · rw [ih]
      constructor
      · rintro (ha | ⟨hq, r, hr, hrq⟩)
        · exact Or.inl ha
        · exact Or.inr ⟨hq, r, by simp [hr], hrq⟩
      · rintro (ha | ⟨hq, r, hr, hrq⟩)
        · exact Or.inl ha
        · rcases List.mem_cons.mp hr with rfl | hr
          · rw [hrq] at h
            exact absurd ⟨rfl, hq⟩ h
          · exact Or.inr ⟨hq, r, hr, hrq⟩

def names (paths : List Str) : List (List Str) := paths.map (splitslash [])

theorem names_ne_nil {paths : List Str} : ∀ p ∈ names paths, p ≠ [] := by
  intro p hp
  obtain ⟨q, -, rfl⟩ := List.mem_map.mp hp
  exact splitslash_ne_nil [] q

theorem subpaths_relative {paths : List Str} (hrel : ∀ p ∈ paths, Relative p) (name : Str) :
    ∀ q ∈ subpaths name [] paths, Relative q := by
  intro q hq
  rw [mem_subpaths] at hq
  obtain hq | ⟨hne, p, hp, hpq⟩ := hq
  · simp at hq
  · have := (hrel p hp).split.2
    rw [hpq] at this
    exact this hne

theorem mem_firsts_iff {paths : List Str} (hrel : ∀ p ∈ paths, Relative p) (a : Str) :
    a ∈ firsts [] paths ↔ ∃ p ∈ names paths, p.head? = some a := by
  simp only [mem_firsts, List.not_mem_nil, false_or, names, List.mem_map]
  constructor
  · rintro ⟨p, hp, rfl⟩
    exact ⟨_, ⟨p, hp, rfl⟩, by rw [(hrel p hp).split.1]; rfl⟩
  · rintro ⟨_, ⟨p, hp, rfl⟩, ha⟩
    rw [(hrel p hp).split.1] at ha
    exact ⟨p, hp, by simpa using ha⟩

theorem mem_names_subpaths {paths : List Str} (hrel : ∀ p ∈ paths, Relative p) (a : Str)
    (r : List Str) :
    r ∈ names (subpaths a [] paths) ↔ r ∈ beyond a (names paths) := by
  rw [mem_beyond]
  simp only [names, List.mem_map, mem_subpaths, List.not_mem_nil, false_or]
  constructor
  · rintro ⟨q, ⟨hq, p, hp, hpq⟩, rfl⟩
    refine ⟨splitslash_ne_nil [] q, p, hp, ?_⟩
    have := (hrel p hp).split.1
    rw [hpq] at this
    simpa [hq] using this
  · rintro ⟨hr, p, hp, hpr⟩
    rw [(hrel p hp).split.1] at hpr
    obtain ⟨ha, hrest⟩ := List.cons.inj hpr
    split_ifs at hrest with h
    · exact absurd hrest.symm hr
    · exact ⟨(splitfirst p).2, ⟨h, p, hp, Prod.ext ha rfl⟩, hrest⟩

theorem subpaths_eq_nil_iff {paths : List Str} (hrel : ∀ p ∈ paths, Relative p) (a : Str) :
    subpaths a [] paths = [] ↔ beyond a (names paths) = [] := by
  simp only [List.eq_nil_iff_forall_not_mem, ← mem_names_subpaths hrel]
  constructor
  · intro h r hr
    obtain ⟨q, hq, -⟩ := List.mem_map.mp hr
    exact h q hq
  · intro h q hq
    exact h _ (List.mem_map.mpr ⟨q, hq, rfl⟩)

/-- What the shadow of `target` shows for the items it lists: at the root an
item that is not a directory leaves the empty directory made for it. -/
def seen (target : List Str) (t : Tree) : Tree
  | [] => some .dir
  | item :: q =>
    if target = [] ∧ t [item] ≠ some .dir then (if q = [] then some .dir else none)
    else t (item :: q)

theorem seen_of_ne_nil {target : List Str} {t : Tree} (h : target ≠ []) (ht : t [] = some .dir) :
    seen target t = t := by
  funext q
  cases q with
  | nil => exact ht.symm
  | cons item q => simp [seen, h]

theorem bindrepl_eq_some {ns src ns' : Tree} {target : List Str}
    (h : bindrepl ns src target = some ns') :
    src [] = ns target ∧ src [] ≠ none ∧ ns' = ns.graft target src := by
  simp only [bindrepl] at h
  split_ifs at h with hc
  exact ⟨hc.2, hc.1, (Option.some.inj h).symm⟩

theorem create_apply {t : Tree} {item : Str} {kind : Kind} (ht : ∀ q, t (item :: q) = none)
    (q : List Str) :
    create t item kind q = if q = [item] then some kind else t q := by
  by_cases hq : q = [item]
  · simp [create, hq, ht]
  · simp [create, hq]

theorem graft_create {t src : Tree} {item : Str} {kind : Kind} (ht : ∀ q, t (item :: q) = none)
    (q : List Str) :
    (create t item kind).graft [item] src q =
      if [item] <+: q then src (q.drop 1) else t q := by
  by_cases hq : [item] <+: q
  · simp [NameTree.graft, hq]
  · have hne : q ≠ [item] := fun h => hq (by simp [h])
    rw [NameTree.graft_apart _ _ hq, create_apply ht, if_neg hne, if_neg hq]

theorem shadowitem_ok {ns shadow shadow' : Tree} {target : List Str} {item : Str}
    (h : shadowitem ns target shadow item = .ok shadow')
    (hs : ∀ q, shadow (item :: q) = none)
    (hc : NameTree.Closed .dir (ns.subtree target)) :
    shadow' = fun q => if [item] <+: q then seen target (ns.subtree target) q else shadow q := by
  have hsub : (ns.subtree (target ++ [item])) = (ns.subtree target).subtree [item] := by
    rw [NameTree.subtree_subtree]
  simp only [shadowitem, hsub] at h
  have hat : ∀ kind, create shadow item kind [item] = some kind := fun kind => by
    rw [create_apply hs, if_pos rfl]
  split_ifs at h with ht
  · subst ht
    simp only [Except.ok.injEq] at h
    funext q
    subst h
    simp only [NameTree.subtree_nil]
    by_cases hdir : ns [item] = some .dir
    · have hb : bindrepl (create shadow item .dir) (ns.subtree [item]) [item] =
          some ((create shadow item .dir).graft [item] (ns.subtree [item])) := by
        simp [bindrepl, NameTree.subtree, hdir, hat]
      rw [hb, Option.getD_some, graft_create hs]
      split_ifs with hq
      · obtain ⟨r, rfl⟩ := hq
        simp [seen, hdir, NameTree.subtree]
      · rfl
    · have hb : bindrepl (create shadow item .dir) (ns.subtree [item]) [item] = none := by
        simp [bindrepl, NameTree.subtree, hdir, hat]
      rw [hb, Option.getD_none, create_apply hs]
      by_cases hq : [item] <+: q
      · obtain ⟨r, rfl⟩ := hq
        simp [seen, hdir, hs]
      · have hne : q ≠ [item] := fun h => hq (by simp [h])
        rw [if_neg hne, if_neg hq]
  · funext q
    have hseen : ∀ r, seen target (ns.subtree target) (item :: r) =
        (ns.subtree target) (item :: r) := fun r => by simp [seen, ht]
    rw [NameTree.subtree_apply, List.append_nil] at h
    cases hk : (ns.subtree target) [item] with
    | none =>
      simp only [hk, Except.ok.injEq] at h
      subst h
      split_ifs with hq
      · obtain ⟨r, rfl⟩ := hq
        have hnone : (ns.subtree target) ([item] ++ r) = none := by
          by_contra hne
          exact hc.exists_of_prefix (List.prefix_append [item] r) hne hk
        rw [List.singleton_append] at hnone ⊢
        rw [hs, hseen, hnone]
      · rfl
    | some kind =>
      simp only [hk] at h
      cases hb : bindrepl (create shadow item kind) ((ns.subtree target).subtree [item]) [item] with
      | none => simp [hb] at h
      | some s =>
        simp only [hb, Except.ok.injEq] at h
        obtain ⟨-, -, rfl⟩ := bindrepl_eq_some hb
        rw [← h, graft_create hs]
        split_ifs with hq
        · obtain ⟨r, rfl⟩ := hq
          exact (hseen r).symm
        · rfl

theorem shadowitems_ok {ns : Tree} {target : List Str} {items : List Str} (hn : items.Nodup)
    (hc : NameTree.Closed .dir (ns.subtree target)) :
    ∀ {shadow shadow' : Tree}, shadowitems ns target shadow items = .ok shadow' →
      (∀ item ∈ items, ∀ q, shadow (item :: q) = none) →
      shadow' [] = shadow [] ∧ ∀ a q, shadow' (a :: q) =
        if a ∈ items then seen target (ns.subtree target) (a :: q) else shadow (a :: q) := by
  induction items with
  | nil =>
    intro shadow shadow' h hs
    simp only [shadowitems, Except.ok.injEq] at h
    simp [h]
  | cons item items ih =>
    intro shadow shadow' h hs
    obtain ⟨hitem, hn'⟩ := List.nodup_cons.mp hn
    simp only [shadowitems] at h
    cases hi : shadowitem ns target shadow item with
    | error e => simp [hi] at h
    | ok s =>
      simp only [hi] at h
      have hs1 := shadowitem_ok hi (hs item (by simp)) hc
      have hs2 : ∀ b ∈ items, ∀ q, s (b :: q) = none := by
        intro b hb q
        have hne : item ≠ b := fun he => hitem (he ▸ hb)
        rw [hs1]
        simp [hne, hs b (by simp [hb]) q]
      obtain ⟨hroot, hrest⟩ := ih hn' h hs2
      refine ⟨by rw [hroot, hs1]; simp, fun a q => ?_⟩
      rw [hrest]
      by_cases ha : a = item
      · subst ha
        simp [hitem, hs1]
      · have hne : item ≠ a := Ne.symm ha
        simp [ha, hs1, hne]

theorem restrictdirx_ok {mkshadow : List Str → Option String} {ns ns' : Tree}
    {target allowed : List Str} (h : restrictdirx mkshadow ns target allowed = .ok ns')
    (hn : allowed.Nodup) (hc : NameTree.Closed .dir (ns.subtree target)) :
    ns target = some .dir ∧
      (∀ q, ns' (target ++ q) =
        if q = [] ∨ q.head? ∈ allowed.map some then seen target (ns.subtree target) q else none) ∧
      ∀ q, ¬target <+: q → ns' q = ns q := by
  simp only [restrictdirx] at h
  cases hm : mkshadow target with
  | some e => simp [hm] at h
  | none =>
    cases hi : shadowitems ns target emptydir allowed with
    | error e => simp [hm, hi] at h
    | ok shadow =>
      simp only [hm, hi] at h
      obtain ⟨hroot, hrest⟩ := shadowitems_ok hn hc hi (by simp [emptydir])
      cases hb : bindrepl ns shadow target with
      | none => simp [hb] at h
      | some s =>
        simp only [hb, Except.ok.injEq] at h
        obtain ⟨heq, -, rfl⟩ := bindrepl_eq_some hb
        subst h
        have hdir : ns target = some .dir := by
          rw [← heq, hroot]
          rfl
        refine ⟨hdir, fun q => ?_, fun q hq => NameTree.graft_apart _ _ hq⟩
        rw [NameTree.graft_append]
        cases q with
        | nil => simpa [seen, hdir] using heq
        | cons a q => simp [hrest, emptydir]

/-- What `paths` leave of the directory `dir`: the view they describe below
`dir`, and the rest of the name space as it was. -/
structure Restricts (dir : List Str) (P : List (List Str)) (ns ns' : Tree) : Prop where
  isdir : ns dir = some .dir
  below : ∀ q, ns' (dir ++ q) =
    if q = [] ∨ shown P q then seen dir (ns.subtree dir) q else none
  frame : ∀ q, ¬dir <+: q → ns' q = ns q

theorem restrictnames_ok {mkshadow : List Str → Option String} {dir : List Str}
    {paths : List Str} (hrel : ∀ p ∈ paths, Relative p)
    (hsub : ∀ name (ns ns' : Tree), subpaths name [] paths ≠ [] →
      NameTree.Closed .dir (ns.subtree (dir ++ [name])) →
      restrictpathx mkshadow ns (dir ++ [name]) (subpaths name [] paths) = .ok ns' →
      Restricts (dir ++ [name]) (names (subpaths name [] paths)) ns ns') :
    ∀ {allow : List Str} {ns ns' : Tree}, allow.Nodup →
      (∀ name ∈ allow, NameTree.Closed .dir (ns.subtree (dir ++ [name]))) →
      restrictnames mkshadow ns dir paths allow = .ok ns' →
      (∀ a q, ns' (dir ++ a :: q) =
        if a ∈ allow → beyond a (names paths) = [] ∨ q = [] ∨ shown (beyond a (names paths)) q
        then ns (dir ++ a :: q) else none) ∧
      ns' dir = ns dir ∧ ∀ q, ¬dir <+: q → ns' q = ns q := by
  intro allow
  induction allow with
  | nil =>
    intro ns ns' _ _ h
    simp only [restrictnames, Except.ok.injEq] at h
    simp [h]
  | cons name allow ih =>
    intro ns ns' hn hc h
    obtain ⟨hname, hn'⟩ := List.nodup_cons.mp hn
    rw [restrictnames] at h
    split_ifs at h with hnil
    · obtain ⟨hbelow, hdir, hframe⟩ := ih hn' (fun a ha => hc a (by simp [ha])) h
      refine ⟨fun a q => ?_, hdir, hframe⟩
      rw [hbelow]
      rw [subpaths_eq_nil_iff hrel] at hnil
      by_cases ha : a = name
      · subst ha
        simp [hnil, hname]
      · simp [ha]
    · cases hr : restrictpathx mkshadow ns (dir ++ [name]) (subpaths name [] paths) with
      | error e => simp [hr] at h
      | ok ns1 =>
        simp only [hr] at h
        have h1 := hsub name ns ns1 hnil (hc name (by simp)) hr
        have happ : ∀ a q, a ≠ name → ns1 (dir ++ a :: q) = ns (dir ++ a :: q) := by
          intro a q ha
          refine h1.frame _ fun hp => ha ?_
          simpa [List.prefix_append_right_inj, eq_comm] using hp
        have hc1 : ∀ a ∈ allow, NameTree.Closed .dir (ns1.subtree (dir ++ [a])) := by
          intro a ha
          have hne : a ≠ name := fun he => hname (he ▸ ha)
          have : ns1.subtree (dir ++ [a]) = ns.subtree (dir ++ [a]) := by
            funext q
            simpa [NameTree.subtree] using happ a q hne
          rw [this]
          exact hc a (by simp [ha])
        obtain ⟨hbelow, hdir, hframe⟩ := ih hn' hc1 h
        refine ⟨fun a q => ?_, ?_, fun q hq => ?_⟩
        · rw [hbelow]
          by_cases ha : a = name
          · subst ha
            have hq := h1.below q
            rw [seen_of_ne_nil (by simp) (by simpa [NameTree.subtree] using h1.isdir)] at hq
            have hbe : beyond a (names paths) ≠ [] := fun he =>
              hnil ((subpaths_eq_nil_iff hrel a).mpr he)
            simp only [List.append_assoc, List.singleton_append, NameTree.subtree_apply,
              shown_congr (mem_names_subpaths hrel a)] at hq
            simp [hname, hq, hbe]
          · simp [ha, happ a q ha]
        · rw [hdir]
          refine h1.frame _ fun hp => ?_
          have := hp.length_le
          simp at this
        · rw [hframe q hq]
          exact h1.frame q fun hp => hq ((List.prefix_append dir [name]).trans hp)

theorem shown_firsts {paths : List Str} (hrel : ∀ p ∈ paths, Relative p) (a : Str) (q : List Str) :
    shown (names paths) (a :: q) ↔ a ∈ firsts [] paths ∧
      (beyond a (names paths) = [] ∨ q = [] ∨ shown (beyond a (names paths)) q) := by
  rw [shown_cons names_ne_nil, mem_firsts_iff hrel]

theorem seen_closed {dir : List Str} {t : Tree} (ht : NameTree.Closed .dir t) (a : Str) :
    NameTree.Closed .dir ((seen dir t).subtree [a]) := by
  by_cases h : dir = [] ∧ t [a] ≠ some .dir
  · intro q b hq
    simp [NameTree.subtree, seen, h] at hq
  · have : (seen dir t).subtree [a] = t.subtree [a] := by
      funext q
      simp [NameTree.subtree, seen, h]
    rw [this]
    exact ht.subtree [a]

theorem restrictpathx_ok {mkshadow : List Str → Option String} (paths : List Str)
    (hrel : ∀ p ∈ paths, Relative p) {dir : List Str} {ns ns' : Tree}
    (hc : NameTree.Closed .dir (ns.subtree dir))
    (h : restrictpathx mkshadow ns dir paths = .ok ns') :
    Restricts dir (names paths) ns ns' := by
  induction hw : weight paths using Nat.strong_induction_on generalizing paths dir ns ns' with
  | _ n ih =>
    rw [restrictpathx] at h
    cases hr : restrictdirx mkshadow ns dir (firsts [] paths) with
    | error e => simp [hr] at h
    | ok ns1 =>
      simp only [hr] at h
      have hnodup := firsts_nodup [] paths List.nodup_nil
      obtain ⟨hdir, hbelow, hframe⟩ := restrictdirx_ok hr hnodup hc
      have hlevel : ∀ a q, a ∈ firsts [] paths →
          ns1 (dir ++ a :: q) = seen dir (ns.subtree dir) (a :: q) := by
        intro a q ha
        rw [hbelow]
        simp [ha]
      have hc1 : ∀ a ∈ firsts [] paths, NameTree.Closed .dir (ns1.subtree (dir ++ [a])) := by
        intro a ha
        have : ns1.subtree (dir ++ [a]) = (seen dir (ns.subtree dir)).subtree [a] := by
          funext q
          simpa [NameTree.subtree_apply] using hlevel a q ha
        rw [this]
        exact seen_closed hc a
      obtain ⟨hbelow', hdir', hframe'⟩ := restrictnames_ok hrel
        (fun name ns ns' hne hc h => ih _ (hw ▸ subpaths_weight_lt hne) _
          (subpaths_relative hrel name) hc h rfl) hnodup hc1 h
      refine ⟨hdir, fun q => ?_, fun q hq => (hframe' q hq).trans (hframe q hq)⟩
      cases q with
      | nil =>
        have := hbelow []
        simp only [List.append_nil] at this ⊢
        simp [hdir', this]
      | cons a q =>
        rw [hbelow']
        simp only [reduceCtorEq, false_or, shown_firsts hrel]
        by_cases ha : a ∈ firsts [] paths
        · simp [ha, hlevel a q ha]
        · simp [ha, hbelow]

def covers (p q : List Str) : Prop := q <+: p ∨ p <+: q

instance (p q : List Str) : Decidable (covers p q) :=
  inferInstanceAs (Decidable (q <+: p ∨ p <+: q))

/-- A name below `dir` is visible when it existed and leads to, is, or lies
below a listed path that existed; a longer list shows no less, and a list
with the same members shows the same. -/
structure ExactView (dir : List Str) (paths : List Str) (ns ns' : Tree) : Prop where
  visible : ∀ q ≠ [], ns' (dir ++ q) ≠ none ↔
    ns (dir ++ q) ≠ none ∧ ∃ p ∈ names paths, ns (dir ++ p) ≠ none ∧ covers p q
  grows : ∀ mkshadow fewer ns1, (∀ p ∈ fewer, p ∈ paths) →
    restrictpathx mkshadow ns dir fewer = .ok ns1 →
    ∀ q, ns1 (dir ++ q) ≠ none → ns' (dir ++ q) ≠ none
  order : ∀ mkshadow same ns1, (∀ p, p ∈ same ↔ p ∈ paths) →
    restrictpathx mkshadow ns dir same = .ok ns1 → ∀ q, ns1 (dir ++ q) = ns' (dir ++ q)

/-- At the root every first name listed exists, every existing name on the way
to a listed path is also on the way to or below one that exists, and every
existing name below a listed path is on the way to a listed path or below one
that no other listed path extends. -/
structure Plain (dir : List Str) (paths : List Str) (ns : Tree) : Prop where
  first : dir = [] → ∀ p ∈ names paths, ∀ a, p.head? = some a → ns [a] ≠ none
  leads : ∀ p ∈ names paths, ∀ q ≠ [], q <+: p → ns (dir ++ q) ≠ none →
    ∃ r ∈ names paths, ns (dir ++ r) ≠ none ∧ covers r q
  unextended : ∀ p ∈ names paths, ∀ q, p <+: q → ns (dir ++ q) ≠ none → shown (names paths) q

theorem seen_ne_none (dir : List Str) {t : Tree} (ht : NameTree.Closed .dir t) (a : Str)
    (q : List Str) :
    seen dir t (a :: q) ≠ none ↔ t (a :: q) ≠ none ∨ dir = [] ∧ q = [] := by
  by_cases h : dir = [] ∧ t [a] ≠ some .dir
  · have hseen : seen dir t (a :: q) = if q = [] then some .dir else none := by
      simp only [seen, if_pos h]
    rw [hseen]
    by_cases hq : q = []
    · simp [hq, h.1]
    · have : t (a :: q) = none := by
        obtain ⟨b, r, rfl⟩ := List.exists_cons_of_ne_nil hq
        exact ht.none_below h.2 r
      simp [hq, this]
  · have hseen : seen dir t (a :: q) = t (a :: q) := by simp only [seen, if_neg h]
    rw [hseen]
    constructor
    · exact Or.inl
    · rintro (h' | ⟨hd, rfl⟩)
      · exact h'
      · have : t [a] = some .dir := by
          by_contra hne
          exact h ⟨hd, hne⟩
        simp [this]

theorem Restricts.visible_iff {dir : List Str} {P : List (List Str)} {ns ns' : Tree}
    (h : Restricts dir P ns ns') (hc : NameTree.Closed .dir (ns.subtree dir)) (a : Str)
    (q : List Str) :
    ns' (dir ++ a :: q) ≠ none ↔
      shown P (a :: q) ∧ (ns (dir ++ a :: q) ≠ none ∨ dir = [] ∧ q = []) := by
  have hsn := seen_ne_none dir hc a q
  rw [NameTree.subtree_apply] at hsn
  rw [h.below, ← hsn]
  by_cases hs : shown P (a :: q)
  · simp [hs]
  · simp [hs]

theorem plain_of_visible {dir paths : List Str} {ns ns' : Tree}
    (h : Restricts dir (names paths) ns ns') (hc : NameTree.Closed .dir (ns.subtree dir))
    (hv : ∀ q ≠ [], ns' (dir ++ q) ≠ none ↔
      ns (dir ++ q) ≠ none ∧ ∃ p ∈ names paths, ns (dir ++ p) ≠ none ∧ covers p q) :
    Plain dir paths ns where
  first := by
    rintro rfl p hp a ha
    have hs : shown (names paths) [a] := by
      refine ⟨p, hp, Or.inl ?_⟩
      cases p with
      | nil => simp at ha
      | cons b p => simpa [eq_comm] using ha
    have hvis := (h.visible_iff hc a []).mpr ⟨hs, Or.inr ⟨rfl, rfl⟩⟩
    exact ((hv [a] (by simp)).mp hvis).1
  leads := by
    intro p hp q hq hqp hex
    obtain ⟨a, r, rfl⟩ := List.exists_cons_of_ne_nil hq
    have hvis := (h.visible_iff hc a r).mpr ⟨⟨p, hp, Or.inl hqp⟩, Or.inl hex⟩
    exact ((hv _ hq).mp hvis).2
  unextended := by
    intro p hp q hpq hex
    have hexp : ns (dir ++ p) ≠ none :=
      hc.exists_of_prefix (p := p) (q := q) hpq hex
    cases q with
    | nil => exact absurd (List.prefix_nil.mp hpq) (names_ne_nil p hp)
    | cons a r =>
      have hvis := (hv (a :: r) (by simp)).mpr ⟨hex, p, hp, hexp, Or.inr hpq⟩
      exact ((h.visible_iff hc a r).mp hvis).1

theorem Plain.visible {dir paths : List Str} {ns ns' : Tree} (hp : Plain dir paths ns)
    (h : Restricts dir (names paths) ns ns') (hc : NameTree.Closed .dir (ns.subtree dir))
    {q : List Str} (hq : q ≠ []) :
    ns' (dir ++ q) ≠ none ↔
      ns (dir ++ q) ≠ none ∧ ∃ p ∈ names paths, ns (dir ++ p) ≠ none ∧ covers p q := by
  obtain ⟨a, r, rfl⟩ := List.exists_cons_of_ne_nil hq
  rw [h.visible_iff hc]
  constructor
  · rintro ⟨⟨p, hpP, hpq⟩, hex⟩
    have hex' : ns (dir ++ a :: r) ≠ none := by
      rcases hex with hex | ⟨rfl, rfl⟩
      · exact hex
      · refine hp.first rfl p hpP a ?_
        cases p with
        | nil => exact absurd rfl (names_ne_nil [] hpP)
        | cons b p =>
          rcases hpq with hpq | ⟨hpq, -⟩
          · simpa [eq_comm] using hpq
          · simp_all
    refine ⟨hex', ?_⟩
    rcases hpq with hpq | ⟨hpq, -⟩
    · exact hp.leads p hpP _ hq hpq hex'
    · exact ⟨p, hpP, hc.exists_of_prefix (p := p) hpq hex', Or.inr hpq⟩
  · rintro ⟨hex, p, hpP, -, hpq⟩
    refine ⟨?_, Or.inl hex⟩
    rcases hpq with hpq | hpq
    · exact ⟨p, hpP, Or.inl hpq⟩
    · exact hp.unextended p hpP _ hpq hex

theorem names_subset {fewer paths : List Str} (h : ∀ p ∈ fewer, p ∈ paths) :
    ∀ p ∈ names fewer, p ∈ names paths := by
  intro p hp
  obtain ⟨q, hq, rfl⟩ := List.mem_map.mp hp
  exact List.mem_map.mpr ⟨q, h q hq, rfl⟩

theorem Plain.grows {dir fewer paths : List Str} {ns ns1 ns' : Tree} (hp : Plain dir paths ns)
    (h : Restricts dir (names paths) ns ns') (h1 : Restricts dir (names fewer) ns ns1)
    (hc : NameTree.Closed .dir (ns.subtree dir)) (hsub : ∀ p ∈ fewer, p ∈ paths) (q : List Str)
    (hq : ns1 (dir ++ q) ≠ none) : ns' (dir ++ q) ≠ none := by
  cases q with
  | nil =>
    rw [h.below]
    simp [seen]
  | cons a r =>
    obtain ⟨⟨p, hpP, hpq⟩, hex⟩ := (h1.visible_iff hc a r).mp hq
    have hpP' := names_subset hsub p hpP
    refine (h.visible_iff hc a r).mpr ⟨?_, hex⟩
    rcases hpq with hpq | ⟨hpq, -⟩
    · exact ⟨p, hpP', Or.inl hpq⟩
    rcases hex with hex | ⟨-, rfl⟩
    · exact hp.unextended p hpP' _ hpq hex
    · have hpa : p = [a] := by
        rcases List.prefix_cons_iff.mp hpq with rfl | ⟨s, rfl, hs⟩
        · exact absurd rfl (names_ne_nil [] hpP)
        · rw [List.prefix_nil.mp hs]
      exact ⟨p, hpP', Or.inl (by rw [hpa])⟩

theorem Restricts.order {dir same paths : List Str} {ns ns1 ns' : Tree}
    (h : Restricts dir (names paths) ns ns') (h1 : Restricts dir (names same) ns ns1)
    (hsame : ∀ p, p ∈ same ↔ p ∈ paths) (q : List Str) : ns1 (dir ++ q) = ns' (dir ++ q) := by
  have hmem : ∀ p, p ∈ names same ↔ p ∈ names paths := fun p =>
    ⟨names_subset (fun r hr => (hsame r).mp hr) p, names_subset (fun r hr => (hsame r).mpr hr) p⟩
  rw [h1.below, h.below]
  simp only [shown_congr hmem]

theorem exactview_iff {mkshadow : List Str → Option String} {ns ns' : Tree} {dir paths : List Str}
    (hc : NameTree.Closed .dir (ns.subtree dir)) (hrel : ∀ p ∈ paths, Relative p)
    (h : restrictpathx mkshadow ns dir paths = .ok ns') :
    ExactView dir paths ns ns' ↔ Plain dir paths ns := by
  have hr := restrictpathx_ok paths hrel hc h
  constructor
  · intro hv
    exact plain_of_visible hr hc hv.visible
  · intro hp
    refine ⟨fun q hq => hp.visible hr hc hq, ?_, ?_⟩
    · intro mk fewer ns1 hsub h1 q hq
      have hr1 := restrictpathx_ok fewer (fun p hpf => hrel p (hsub p hpf)) hc h1
      exact hp.grows hr hr1 hc hsub q hq
    · intro mk same ns1 hsame h1 q
      have hr1 := restrictpathx_ok same (fun p hps => hrel p ((hsame p).mp hps)) hc h1
      exact hr.order hr1 hsame q

def project : Tree := fun q =>
  if q = [] ∨ q = [lit "n"] ∨ q = [lit "n", lit "a"] then some .dir
  else if q = [lit "n", lit "a", lit "b"] ∨ q = [lit "n", lit "a", lit "c"] then some .file
  else none

theorem project_restricted :
    ∃ ns', restrictpathx (fun _ => none) project [lit "n"] [lit "a", lit "a/b"] = .ok ns' := by
  have hf : firsts [] [lit "a", lit "a/b"] = [lit "a"] := by decide
  have hs : subpaths (lit "a") [] [lit "a", lit "a/b"] = [lit "b"] := by decide
  have hf' : firsts [] [lit "b"] = [lit "b"] := by decide
  have hs' : subpaths (lit "b") [] [lit "b"] = [] := by decide
  obtain ⟨ns1, h1, hd, hb⟩ : ∃ ns1, restrictdirx (fun _ => none) project [lit "n"] [lit "a"] =
    .ok ns1 ∧ ns1 [lit "n", lit "a"] = some .dir ∧ ns1 [lit "n", lit "a", lit "b"] = some .file :=
      ⟨_, rfl, by decide, by decide⟩
  obtain ⟨ns2, h2⟩ : ∃ ns2, restrictdirx (fun _ => none) ns1 [lit "n", lit "a"] [lit "b"] =
    .ok ns2 := by
    simp [restrictdirx, shadowitems, shadowitem, bindrepl, create, emptydir, NameTree.graft,
      NameTree.subtree, hd, hb]
  refine ⟨ns2, ?_⟩
  rw [restrictpathx, hf, h1]
  simp only []
  rw [restrictnames, hs, dif_neg (by simp), List.singleton_append, restrictpathx, hf', h2]
  simp only []
  rw [restrictnames, hs', dif_pos rfl, restrictnames]
  simp only []
  rw [restrictnames]

theorem project_closed : NameTree.Closed .dir (project.subtree [lit "n"]) := by
  intro p a h
  simp only [NameTree.subtree, project] at h
  simp only [NameTree.subtree, project]
  cases p with
  | nil => simp
  | cons b p =>
    cases p with
    | nil =>
      by_cases hb : b = lit "a"
      · simp [hb]
      · simp [hb] at h
    | cons c p => simp at h

theorem project_exactview_iff :
    ∃ ns', restrictpathx (fun _ => none) project [lit "n"] [lit "a", lit "a/b"] = .ok ns' ∧
      (ExactView [lit "n"] [lit "a", lit "a/b"] project ns' ↔
        Plain [lit "n"] [lit "a", lit "a/b"] project) := by
  obtain ⟨ns', h⟩ := project_restricted
  have hrel : ∀ p ∈ [lit "a", lit "a/b"], Relative p := by decide
  exact ⟨ns', h, exactview_iff project_closed hrel h⟩

/-- With `a` and `a/b` both granted, `a/c` is hidden although `a` alone shows it. -/
theorem granted_hidden : ¬∀ (mkshadow : List Str → Option String) (ns ns' : Tree)
    (dir paths : List Str), NameTree.Closed .dir (ns.subtree dir) → (∀ p ∈ paths, Relative p) →
    restrictpathx mkshadow ns dir paths = .ok ns' → ExactView dir paths ns ns' := by
  intro hall
  obtain ⟨ns', h⟩ := project_restricted
  have hrel : ∀ p ∈ [lit "a", lit "a/b"], Relative p := by decide
  have hr := restrictpathx_ok _ hrel project_closed h
  have hnames : names [lit "a", lit "a/b"] = [[lit "a"], [lit "a", lit "b"]] := by decide
  have hv := (hall _ _ _ _ _ project_closed hrel h).visible [lit "a", lit "c"] (by simp)
  rw [hr.visible_iff project_closed, hnames] at hv
  revert hv
  decide

end Infernode.Veltro.Restrict
