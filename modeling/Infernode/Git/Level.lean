import Infernode.Git.Staged

/-!
# The trees of a commit

`buildtree` groups the entries of the index by their first component, builds a tree of each
group, and writes the entries of a level sorted by `sorttreeentries`. `treeindex` reads the
files of a tree back.
-/

namespace Infernode.Git

open Limbo (Str lit string bytes)

def DIRMODE : ℤ := 0o40000

def splitpath (path : Str) : Str × Str := splitfirst '/' path

abbrev Group := Str × List IndexEntry

def addtogroup (name : Str) (e : IndexEntry) (groups : List Group) : List Group :=
  let result := groups.map fun g => if g.1 = name then (g.1, e :: g.2) else g
  if ∃ g ∈ groups, g.1 = name then result else result ++ [(name, [e])]

def addentry (level : List TreeEntry × List Group) (e : IndexEntry) :
    List TreeEntry × List Group :=
  let first := (splitpath e.path).1
  let rest := (splitpath e.path).2
  if rest = [] then (⟨e.mode, first, e.hash⟩ :: level.1, level.2)
  else (level.1, addtogroup first ⟨e.mode, e.hash, rest⟩ level.2)

def levelof (entries : List IndexEntry) : List TreeEntry × List Group :=
  entries.foldl addentry ([], [])

def insertentry (sorted : List TreeEntry) (key : TreeEntry) : List TreeEntry :=
  let greater := sorted.reverse.takeWhile fun e => decide (key.name < e.name)
  let rest := sorted.reverse.dropWhile fun e => decide (key.name < e.name)
  rest.reverse ++ key :: greater.reverse

def sorttreeentries (entries : List TreeEntry) : List TreeEntry :=
  entries.foldl insertentry []

/-- `buildtree` to `n` levels with the order of the entries as a parameter: the hash of the
tree, and the data of all trees in the order in which they are written. -/
def treesby (sort : List TreeEntry → List TreeEntry) (hashobj : ℕ → List UInt8 → Hash) :
    ℕ → List IndexEntry → Hash × List (List UInt8)
  | 0, _ => (nullhash, [])
  | n + 1, entries =>
    let level := levelof entries
    let subtrees := level.2.map fun g => (g.1, treesby sort hashobj n g.2)
    let dirents := (subtrees.map fun t => (⟨DIRMODE, t.1, t.2.1⟩ : TreeEntry)).reverse
    let data := encodetree (sort (level.1 ++ dirents))
    (hashobj OBJ_TREE data, subtrees.flatMap (fun t => t.2.2) ++ [data])

def levels (entries : List IndexEntry) : ℕ :=
  entries.foldr (fun e n => max (e.path.length + 1) n) 1

def buildtree (hashobj : ℕ → List UInt8 → Hash) (entries : List IndexEntry) :
    Hash × List (List UInt8) :=
  treesby sorttreeentries hashobj (levels entries) entries

structure Store where
  loose : Hash → Option (ℕ × List UInt8)
  packed : Hash → Except Str (ℕ × List UInt8)

def Store.readobj (s : Store) (h : Hash) : Except Str (ℕ × List UInt8) :=
  match s.loose h with
  | some o => .ok o
  | none => s.packed h

def writelooseobj (hashobj : ℕ → List UInt8 → Hash) (s : Store) (o : ℕ × List UInt8) : Store :=
  let h := hashobj o.1 o.2
  match s.loose h with
  | some _ => s
  | none => { s with loose := Function.update s.loose h (some o) }

def indexents (sub : Hash → Str → List IndexEntry → Option (Except Str (List IndexEntry)))
    (pre : Str) : List TreeEntry → List IndexEntry → Option (Except Str (List IndexEntry))
  | [], acc => some (.ok acc)
  | te :: ents, acc =>
    let path := pre ++ te.name
    if te.mode = DIRMODE then
      match sub te.hash (path ++ ['/']) acc with
      | none => none
      | some (.error err) => some (.error err)
      | some (.ok acc') => indexents sub pre ents acc'
    else indexents sub pre ents (⟨te.mode, te.hash, path⟩ :: acc)

/-- `treeindex` to a depth; `none` is that it goes deeper. -/
def treeindex (s : Store) : ℕ → Hash → Str → List IndexEntry →
    Option (Except Str (List IndexEntry))
  | 0, _, _, _ => none
  | n + 1, h, pre, acc =>
    match s.readobj h with
    | .error err => some (.error (lit "tree " ++ h.hex ++ lit ": " ++ err))
    | .ok (otype, data) =>
      if otype ≠ OBJ_TREE then some (.error (lit "tree " ++ h.hex ++ lit ": not a tree"))
      else
        match parsetree data with
        | .error perr => some (.error (lit "tree " ++ h.hex ++ lit ": " ++ perr))
        | .ok ents => indexents (treeindex s n) pre ents acc

def headindex (s : Store) (n : ℕ) (head : Hash) : Option (Except Str (List IndexEntry)) :=
  match s.readobj head with
  | .error _ => some (.error (lit "HEAD is not a commit"))
  | .ok (otype, data) =>
    if otype ≠ OBJ_COMMIT then some (.error (lit "HEAD is not a commit"))
    else
      match parsecommit data with
      | .error cerr => some (.error (lit "HEAD: " ++ cerr))
      | .ok c => (treeindex s n c.tree [] []).map (·.map List.reverse)

def committext (tree : Hash) (parent : Option Hash) (timestamp msg : Str) : Str :=
  lit "tree " ++ tree.hex ++ ['\n'] ++
    (match parent with
      | some h => lit "parent " ++ h.hex ++ ['\n']
      | none => []) ++
    lit "author " ++ timestamp ++ ['\n'] ++ lit "committer " ++ timestamp ++ ['\n'] ++ ['\n'] ++
    msg ++ ['\n']

def commit (hashobj : ℕ → List UInt8 → Hash) (s : Store) (entries : List IndexEntry)
    (parent : Option Hash) (timestamp msg : Str) : Hash × Store :=
  let built := buildtree hashobj entries
  let data := bytes (committext built.1 parent timestamp msg)
  (hashobj OBJ_COMMIT data,
    (built.2.map (fun d => (OBJ_TREE, d)) ++ [(OBJ_COMMIT, data)]).foldl (writelooseobj hashobj) s)

/-!
## Levels of a tree

What the groups of a level are: one for each directory, holding the entries below it. An
index whose paths are apart has levels whose names are apart.
-/

variable {l : List IndexEntry} {e f : IndexEntry} {gs : List Group} {d : Str}

def asfile (e : IndexEntry) : Option TreeEntry :=
  if (splitpath e.path).2 = [] then some ⟨e.mode, (splitpath e.path).1, e.hash⟩ else none

def below (d : Str) (e : IndexEntry) : Option IndexEntry :=
  if (splitpath e.path).2 ≠ [] ∧ (splitpath e.path).1 = d then
    some ⟨e.mode, e.hash, (splitpath e.path).2⟩
  else none

theorem levelof_concat (l : List IndexEntry) (e : IndexEntry) :
    levelof (l ++ [e]) = addentry (levelof l) e := by
  rw [levelof, levelof, List.foldl_append]
  rfl

theorem levelof_files (l : List IndexEntry) : (levelof l).1 = (l.filterMap asfile).reverse := by
  induction l using List.reverseRecOn with
  | nil => rfl
  | append_singleton l e ih =>
    rw [levelof_concat, addentry, List.filterMap_append, List.reverse_append]
    by_cases h : (splitpath e.path).2 = []
    · simp [h, asfile, ih]
    · simp [h, asfile, ih]

structure Grouped (l : List IndexEntry) (gs : List Group) : Prop where
  names : (gs.map Prod.fst).Nodup
  perm : ∀ g ∈ gs, g.2.Perm (l.filterMap (below g.1))
  used : ∀ g ∈ gs, g.2 ≠ []
  all : ∀ e ∈ l, (splitpath e.path).2 ≠ [] → (splitpath e.path).1 ∈ gs.map Prod.fst

theorem addtogroup_names (d : Str) (e : IndexEntry) (gs : List Group) :
    (addtogroup d e gs).map Prod.fst =
      if d ∈ gs.map Prod.fst then gs.map Prod.fst else gs.map Prod.fst ++ [d] := by
  have hmap : (gs.map fun g => if g.1 = d then (g.1, e :: g.2) else g).map Prod.fst =
      gs.map Prod.fst := by
    rw [List.map_map]
    refine List.map_congr_left fun g _ => ?_
    simp only [Function.comp]
    split_ifs <;> rfl
  have hiff : (∃ g ∈ gs, g.1 = d) ↔ d ∈ gs.map Prod.fst := by simp
  rw [addtogroup]
  split_ifs with h1 h2 h2
  · exact hmap
  · exact absurd (hiff.mp h1) h2
  · exact absurd (hiff.mpr h2) h1
  · rw [List.map_append, hmap]
    rfl

theorem mem_addtogroup {g : Group} (h : g ∈ addtogroup d e gs) :
    (∃ k ∈ gs, k.1 = d ∧ g = (d, e :: k.2)) ∨ (g ∈ gs ∧ g.1 ≠ d) ∨
      (g = (d, [e]) ∧ d ∉ gs.map Prod.fst) := by
  have hmap : g ∈ (gs.map fun g => if g.1 = d then (g.1, e :: g.2) else g) →
      (∃ k ∈ gs, k.1 = d ∧ g = (d, e :: k.2)) ∨ (g ∈ gs ∧ g.1 ≠ d) := by
    intro h
    obtain ⟨k, hk, hkg⟩ := List.mem_map.mp h
    split_ifs at hkg with hd
    · exact .inl ⟨k, hk, hd, by rw [← hkg, hd]⟩
    · exact .inr ⟨hkg ▸ hk, hkg ▸ hd⟩
  rw [addtogroup] at h
  split_ifs at h with hex
  · exact (hmap h).imp_right .inl
  · rcases List.mem_append.mp h with h | h
    · exact (hmap h).imp_right .inl
    · refine .inr (.inr ⟨by simpa using h, fun hd => hex ?_⟩)
      obtain ⟨k, hk, hkd⟩ := List.mem_map.mp hd
      exact ⟨k, hk, hkd⟩

theorem grouped_levelof (l : List IndexEntry) : Grouped l (levelof l).2 := by
  induction l using List.reverseRecOn with
  | nil => exact ⟨by simp [levelof], by simp [levelof], by simp [levelof], by simp⟩
  | append_singleton l e ih =>
    rw [levelof_concat, addentry]
    by_cases h : (splitpath e.path).2 = []
    · simp only [if_pos h]
      have hnone : ∀ d, below d e = none := fun d => by simp [below, h]
      refine ⟨ih.names, fun g hg => ?_, ih.used, fun f hf hr => ?_⟩
      · rw [List.filterMap_append]
        simpa [hnone] using ih.perm g hg
      · rcases List.mem_append.mp hf with hf | hf
        · exact ih.all f hf hr
        · obtain rfl : f = e := by simpa using hf
          exact absurd h hr
    · simp only [if_neg h]
      have hother : ∀ d, (splitpath e.path).1 ≠ d → below d e = none := fun d hd => by
        simp [below, hd]
      have hsome : below (splitpath e.path).1 e =
          some ⟨e.mode, e.hash, (splitpath e.path).2⟩ := by simp [below, h]
      refine ⟨?_, fun g hg => ?_, fun g hg => ?_, fun f hf hr => ?_⟩
      · rw [addtogroup_names]
        split_ifs with hd
        · exact ih.names
        · refine List.nodup_append.mpr ⟨ih.names, by simp, ?_⟩
          intro a ha b hb hab
          obtain rfl : b = (splitpath e.path).1 := by simpa using hb
          exact hd (hab ▸ ha)
      · rw [List.filterMap_append]
        rcases mem_addtogroup hg with ⟨k, hk, hkd, rfl⟩ | ⟨hmem, hne⟩ | ⟨rfl, hd⟩
        · have hperm := ih.perm k hk
          rw [hkd] at hperm
          simp only [List.filterMap_cons, hsome, List.filterMap_nil]
          exact (hperm.cons _).trans (List.perm_append_singleton _ _).symm
        · simp only [List.filterMap_cons, hother g.1 hne.symm, List.filterMap_nil, List.append_nil]
          exact ih.perm g hmem
        · have hnil : l.filterMap (below (splitpath e.path).1) = [] := by
            refine List.filterMap_eq_nil_iff.mpr fun f hf => ?_
            by_contra hb
            rw [below] at hb
            split_ifs at hb with hfb
            · exact hd (hfb.2 ▸ ih.all f hf hfb.1)
            · exact hb rfl
          simp [hnil, hsome]
      · rcases mem_addtogroup hg with ⟨k, -, -, rfl⟩ | ⟨hmem, -⟩ | ⟨rfl, -⟩
        · simp
        · exact ih.used g hmem
        · simp
      · rw [addtogroup_names]
        rcases List.mem_append.mp hf with hf | hf
        · have := ih.all f hf hr
          split_ifs
          · exact this
          · exact List.mem_append_left _ this
        · obtain rfl : f = e := by simpa using hf
          split_ifs with hd
          · exact hd
          · simp

end Infernode.Git
