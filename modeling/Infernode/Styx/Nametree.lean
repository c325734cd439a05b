import Infernode.Lib.Fifo

/-!
# The tree of names of a file server

`nametree.b` keeps the files of a server. A file's holder is on the chain of a
slot of the hash table and, unless it is a root, on the list of its parent's
children; both lists go through the holders themselves.
-/

namespace Infernode.Styx.Nametree

open Infernode.Lib

abbrev Name := List Char

structure Dir where
  name : Name
  uid : Name
  gid : Name
  muid : Name
  path : Int64
  vers : Int32
  qtype : Int32
  mode : Int32
  atime : Int32
  mtime : Int32
  length : Int64
  dtype : Int32
  dev : Int32
  deriving DecidableEq, Inhabited

/-- The state of `fsproc`: the slots, and the fields of each holder. A holder is
the number of those made before it. -/
structure Tab where
  tab : ℤ → Option ℕ
  parentqid : ℕ → Int64
  d : ℕ → Dir
  child : ℕ → Option ℕ
  sibling : ℕ → Option ℕ
  hash : ℕ → Option ℕ
  made : ℕ

def Tab.empty : Tab :=
  ⟨fun _ => none, fun _ => 0, default, fun _ => none, fun _ => none, fun _ => none, 0⟩

def Tab.path (s : Tab) (a : ℕ) : Int64 := (s.d a).path

inductive Fault
  | notfound
  | exists_
  deriving DecidableEq

def hashfn (q : Int64) (n : ℕ) : ℤ :=
  let h := q.toInt.tmod n
  if h < 0 then h + n else h

def slots : ℕ := 23

/-- The first holder from `h` on that `p` accepts, and the one before it. `none`
where the list is longer than `k`, so that it never ends. -/
def look (next : ℕ → Option ℕ) (p : ℕ → Bool) :
    ℕ → Option ℕ → Option ℕ → Option (Option ℕ × Option ℕ)
  | 0, _, _ => none
  | _ + 1, prev, none => some (prev, none)
  | k + 1, prev, some a =>
    if p a then some (prev, some a) else look next p k (some a) (next a)

def Tab.bound (s : Tab) : ℕ := s.made + 1

def findfile (s : Tab) (q : Int64) : Option (Option ℕ) :=
  (look s.hash (fun a => s.path a == q) s.bound none (s.tab (hashfn q slots))).map Prod.snd

def upwards (s : Tab) : ℕ → ℕ → Name → Option (Option Name)
  | 0, _, _ => none
  | k + 1, fh, path =>
    if s.parentqid fh = s.path fh then some (some path)
    else (findfile s (s.parentqid fh)).bind fun
      | none => some none
      | some fh => upwards s k fh ((s.d fh).name ++ '/' :: path)

def fsgetpath (s : Tab) (q : Int64) : Option (Option Name) :=
  (findfile s q).bind fun
    | none => some none
    | some fh => upwards s s.bound fh (s.d fh).name

/-- `none` where a nil holder is dereferenced. -/
def fswalk (s : Tab) (fh : ℕ) (name : Name) : Option (Option Dir) :=
  if name = ['.', '.'] then
    (findfile s (s.parentqid fh)).bind fun parent => parent.map fun a => some (s.d a)
  else
    (look s.sibling (fun a => (s.d a).name == name) s.bound none (s.child fh)).map
      fun r => r.2.map s.d

section Remove

def unhash (s : Tab) (slot : ℤ) (prev : Option ℕ) (fh : ℕ) : Tab :=
  let s := match prev with
    | none => { s with tab := Function.update s.tab slot (s.hash fh) }
    | some p => { s with hash := Function.update s.hash p (s.hash fh) }
  { s with hash := Function.update s.hash fh none }

/-- The part of `fsremove` that takes `fh` from its parent's children. `none` is a panic. -/
def unchild (s : Tab) (fh : ℕ) : Option ℕ → Option Tab
  | none => some s
  | some parent =>
    (look s.sibling (· == fh) s.bound none (s.child parent)).bind fun
      | (_, none) => none
      | (none, some _) =>
        some { s with child := Function.update s.child parent (s.sibling fh) }
      | (some prev, some _) =>
        some { s with sibling := Function.update s.sibling prev (s.sibling fh) }

def descend (remove : Tab → Int64 → Option (Option Fault × Tab)) :
    ℕ → Tab → Option ℕ → Option Tab
  | 0, _, _ => none
  | _ + 1, s, none => some s
  | k + 1, s, some sfh =>
    let sibling := s.sibling sfh
    (remove { s with parentqid := Function.update s.parentqid sfh (s.path sfh) }
      (s.path sfh)).bind fun r => descend remove k r.2 sibling

def fsremove : ℕ → Tab → Int64 → Option (Option Fault × Tab)
  | 0, _, _ => none
  | k + 1, s, q =>
    let slot := hashfn q slots
    (look s.hash (fun a => s.path a == q) s.bound none (s.tab slot)).bind fun
      | (_, none) => some (some .notfound, s)
      | (prev, some fh) =>
        let s := unhash s slot prev fh
        (findfile s (s.parentqid fh)).bind fun parent =>
          (unchild s fh parent).bind fun s =>
            let s := { s with sibling := Function.update s.sibling fh none }
            (descend (fsremove k) s.bound s (s.child fh)).map fun s => (none, s)

end Remove

section Change

def hold (s : Tab) (parentqid : Int64) (d : Dir) (sibling : Option ℕ) : Tab :=
  let slot := hashfn d.path slots
  { tab := Function.update s.tab slot (some s.made)
    parentqid := Function.update s.parentqid s.made parentqid
    d := Function.update s.d s.made d
    child := Function.update s.child s.made none
    sibling := Function.update s.sibling s.made sibling
    hash := Function.update s.hash s.made (s.tab slot)
    made := s.made + 1 }

def fscreate (s : Tab) (q : Int64) (d : Dir) : Option (Option Fault × Tab) :=
  (findfile s q).bind fun parent =>
    (findfile s d.path).bind fun
      | some _ => some (some .exists_, s)
      | none =>
        match parent with
        | none => if d.path ≠ q then some (some .notfound, s) else some (none, hold s q d none)
        | some parent =>
          (fswalk s parent d.name).bind fun
            | some _ => some (some .exists_, s)
            | none =>
              let fh := s.made
              let t := hold s (s.path parent) d (s.child parent)
              some (none, { t with child := Function.update t.child parent (some fh) })

def applydir (d onto : Dir) : Dir where
  name := if d.name ≠ [] then d.name else onto.name
  uid := if d.uid ≠ [] then d.uid else onto.uid
  gid := if d.gid ≠ [] then d.gid else onto.gid
  muid := if d.muid ≠ [] then d.muid else onto.muid
  path := onto.path
  vers := if d.vers ≠ ~~~0 then d.vers else onto.vers
  qtype := if d.qtype ≠ ~~~0 then d.qtype else onto.qtype
  mode := if d.mode ≠ ~~~0 then d.mode else onto.mode
  atime := if d.atime ≠ ~~~0 then d.atime else onto.atime
  mtime := if d.mtime ≠ ~~~0 then d.mtime else onto.mtime
  length := if d.length ≠ ~~~0 then d.length else onto.length
  dtype := if d.dtype ≠ ~~~0 then d.dtype else onto.dtype
  dev := if d.dev ≠ ~~~0 then d.dev else onto.dev

def clashes (s : Tab) (fh : ℕ) (name : Name) : Option Bool :=
  if name = (s.d fh).name then some false
  else (findfile s (s.parentqid fh)).bind fun
    | none => some false
    | some parent =>
      if parent = fh then some false else (fswalk s parent name).map Option.isSome

def fswstat (s : Tab) (q : Int64) (d : Dir) : Option (Option Fault × Tab) :=
  (findfile s q).bind fun
    | none => some (some .notfound, s)
    | some fh =>
      let d := applydir d (s.d fh)
      (clashes s fh d.name).map fun
        | true => (some .exists_, s)
        | false => (none, { s with d := Function.update s.d fh { d with path := q } })

inductive Treeop
  | create (q : Int64) (d : Dir)
  | remove (q : Int64)
  | wstat (q : Int64) (d : Dir)

/-- What a request is answered with, and the state after it. `none` where `fsproc`
panics or never answers. -/
def step (s : Tab) : Treeop → Option (Option Fault × Tab)
  | .create q d => fscreate s q d
  | .remove q => fsremove s.bound s q
  | .wstat q d => fswstat s q d

def run : List Treeop → Tab → Option Tab
  | [], s => some s
  | op :: ops, s => (step s op).bind fun r => run ops r.2

end Change

section Nav

def walk (s : Tab) (q : Int64) (name : Name) : Option (Option Dir) :=
  (findfile s q).bind fun
    | none => some none
    | some fh => fswalk s fh name

def walks (s : Tab) : Dir → List Name → Option (Option Dir)
  | d, [] => some (some d)
  | d, name :: names => (walk s d.path name).bind fun
    | none => some none
    | some d => walks s d names

def readchildren (s : Tab) (start stop : ℤ) : ℕ → ℤ → Option ℕ → Option (List Dir)
  | 0, _, _ => none
  | _ + 1, _, none => some []
  | k + 1, i, some fh =>
    if i < stop then
      (readchildren s start stop k (i + 1) (s.sibling fh)).map fun ds =>
        if i ≥ start then s.d fh :: ds else ds
    else some []

def readdir (s : Tab) (q : Int64) (offset count : Int32) : Option (Option (List Dir)) :=
  (findfile s q).bind fun
    | none => some none
    | some fh =>
      (readchildren s offset.toInt (offset + count).toInt s.bound 0 (s.child fh)).map some

end Nav

section Lists
variable {next : ℕ → Option ℕ} {p : ℕ → Bool} {h prev : Option ℕ} {a k : ℕ}
  {xs ys : List ℕ}

theorem look_found (hl : Linked next h (xs ++ a :: ys)) (hxs : ∀ x ∈ xs, p x = false)
    (ha : p a = true) (hk : xs.length < k) :
    look next p k prev h = some (xs.getLast?.or prev, some a) := by
  induction xs generalizing h prev k with
  | nil =>
    obtain ⟨rfl, -⟩ := hl
    cases k with
    | zero => exact absurd hk (Nat.not_lt_zero _)
    | succ k => simp [look, ha]
  | cons x xs ih =>
    obtain ⟨rfl, hl⟩ := hl
    cases k with
    | zero => exact absurd hk (Nat.not_lt_zero _)
    | succ k =>
      rw [look, if_neg (by simp [hxs x]),
        ih hl (fun y hy => hxs y (by simp [hy])) (Nat.lt_of_succ_lt_succ hk)]
      cases xs with
      | nil => rfl
      | cons y ys => rw [List.getLast?_cons_cons]; simp [List.getLast?_cons]

theorem look_none (hl : Linked next h xs) (hxs : ∀ x ∈ xs, p x = false) (hk : xs.length < k)
    (prev : Option ℕ) : ∃ last, look next p k prev h = some (last, none) := by
  induction xs generalizing h prev k with
  | nil =>
    obtain rfl : h = none := hl
    cases k with
    | zero => exact absurd hk (Nat.not_lt_zero _)
    | succ k => exact ⟨prev, rfl⟩
  | cons x xs ih =>
    obtain ⟨rfl, hl⟩ := hl
    cases k with
    | zero => exact absurd hk (Nat.not_lt_zero _)
    | succ k =>
      rw [look, if_neg (by simp [hxs x])]
      exact ih hl (fun y hy => hxs y (by simp [hy])) (Nat.lt_of_succ_lt_succ hk) _

theorem look_find (hl : Linked next h xs) (hk : xs.length < k) :
    ∃ last, look next p k none h = some (last, xs.find? p) := by
  cases hfind : xs.find? p with
  | none => exact look_none hl (fun x hx => by simpa using List.find?_eq_none.1 hfind x hx) hk none
  | some a =>
    obtain ⟨ha, ys, zs, rfl, hys⟩ := List.find?_eq_some_iff_append.1 hfind
    refine ⟨_, look_found hl (fun x hx => by simpa using hys x hx) ha ?_⟩
    rw [List.length_append] at hk
    omega

theorem length_le_of_lt {l : List ℕ} {n : ℕ} (hnodup : l.Nodup) (hlt : ∀ x ∈ l, x < n) :
    l.length ≤ n := by
  have hsub := List.subperm_of_subset hnodup fun x hx => List.mem_range.2 (hlt x hx)
  simpa using hsub.length_le

theorem linked_unlink {ι : Type*} [DecidableEq ι] (P : ι → Prop) (head : ι → Option ℕ)
    (as : ι → List ℕ) {i : ι} (hl : ∀ j, P j → Linked next (head j) (as j)) (hi : P i)
    (hapart : ∀ j b, P j → b ∈ as i → b ∈ as j → j = i) (hnodup : (as i).Nodup)
    (hsplit : as i = xs ++ a :: ys) (j : ι) (hj : P j) :
    Linked (Function.update
        (match xs.getLast? with
          | none => next
          | some b => Function.update next b (next a)) a none)
      (match xs.getLast? with
        | none => Function.update head i (next a) j
        | some _ => head j) ((as j).erase a) := by
  have hai : a ∈ as i := by simp [hsplit]
  have haxs : a ∉ xs ∧ a ∉ ys := by
    have hnd := hsplit ▸ hnodup
    have := List.nodup_append.1 hnd
    exact ⟨fun ha => this.2.2 a ha a (by simp) rfl, (List.nodup_cons.1 this.2.1).1⟩
  have hli := hl i hi
  rw [hsplit] at hli
  by_cases hji : j = i
  · subst hji
    have herase : (as j).erase a = xs ++ ys := by
      rw [hsplit, List.erase_append_right _ haxs.1, List.erase_cons_head]
    rw [herase]
    refine Linked.update ?_ (by simp [haxs])
    rcases List.eq_nil_or_concat xs with rfl | ⟨zs, b, rfl⟩
    · simpa using hli.2
    · simp only [List.concat_eq_append, List.getLast?_append, List.getLast?_singleton,
        Option.some_or]
      have hnd := hsplit ▸ hnodup
      rw [List.concat_eq_append, List.append_assoc] at hli hnd
      rw [List.append_assoc]
      exact linked_skip hnd hli
  · have hout : ∀ b ∈ as i, b ∉ as j := fun b hb hbj => hji (hapart j b hj hb hbj)
    rw [List.erase_of_not_mem (hout a hai)]
    refine Linked.update ?_ (hout a hai)
    cases hlast : xs.getLast? with
    | none => simpa [Function.update_of_ne hji] using hl j hj
    | some b =>
      refine Linked.update (hl j hj) (hout b ?_)
      rw [hsplit]
      exact List.mem_append_left _ (List.mem_of_getLast? hlast)

end Lists

section Well

def Live (s : Tab) (chain : ℤ → List ℕ) (a : ℕ) : Prop :=
  a ∈ chain (hashfn (s.path a) slots)

structure Hashed (s : Tab) (chain : ℤ → List ℕ) : Prop where
  hashed : ∀ i, Linked s.hash (s.tab i) (chain i)
  nodup : ∀ i, (chain i).Nodup
  slot : ∀ i, ∀ a ∈ chain i, hashfn (s.path a) slots = i
  made : ∀ a, Live s chain a → a < s.made
  unique : ∀ a b, Live s chain a → Live s chain b → s.path a = s.path b → a = b

/-- The lists of children are those that the holders link. The files in `loose` have a
parent that is no longer live, while it is removed. -/
structure Well (s : Tab) (chain : ℤ → List ℕ) (kids : ℕ → List ℕ) (loose : ℕ → Prop) : Prop
    extends Hashed s chain where
  linked : ∀ a, Live s chain a → Linked s.sibling (s.child a) (kids a)
  once : ∀ a, Live s chain a → (kids a).Nodup
  kid : ∀ a, Live s chain a → ∀ c ∈ kids a, Live s chain c ∧ s.parentqid c = s.path a ∧
    s.parentqid c ≠ s.path c ∧ a < c
  parent : ∀ c, Live s chain c → ¬loose c → s.parentqid c ≠ s.path c →
    ∃ a, Live s chain a ∧ c ∈ kids a
  dangling : ∀ c, loose c → Live s chain c ∧ ∀ a, Live s chain a → s.path a ≠ s.parentqid c
  names : ∀ a, Live s chain a → (kids a).Pairwise fun b c => (s.d b).name ≠ (s.d c).name
  dotdot : ∀ a, Live s chain a → ∀ c ∈ kids a, (s.d c).name ≠ ['.', '.']

variable {s s' : Tab} {chain chain' : ℤ → List ℕ} {kids kids' : ℕ → List ℕ}
  {loose loose' : ℕ → Prop} {a b c k : ℕ} {q : Int64}

theorem Well.congr (h : Well s chain kids loose) (heq : ∀ x, loose x ↔ loose' x) :
    Well s chain kids loose' := by
  rwa [show loose' = loose from funext fun x => propext (heq x).symm]

theorem Hashed.live (h : Hashed s chain) {i : ℤ} (ha : a ∈ chain i) : Live s chain a := by
  rw [Live, h.slot i a ha]
  exact ha

theorem Hashed.chain_lt (h : Hashed s chain) (i : ℤ) : (chain i).length < s.bound :=
  Nat.lt_succ_of_le (length_le_of_lt (h.nodup i) fun a ha => h.made a (h.live ha))

theorem Well.kids_lt (h : Well s chain kids loose) (ha : Live s chain a) :
    (kids a).length < s.bound :=
  Nat.lt_succ_of_le (length_le_of_lt (h.once a ha) fun c hc => h.made c (h.kid a ha c hc).1)

theorem Well.parent_eq (h : Well s chain kids loose) (ha : Live s chain a) (hb : Live s chain b)
    (hca : c ∈ kids a) (hcb : c ∈ kids b) : b = a :=
  h.unique b a hb ha ((h.kid b hb c hcb).2.1.symm.trans (h.kid a ha c hca).2.1)

theorem Well.not_loose (h : Well s chain kids loose) (ha : Live s chain a) (hc : c ∈ kids a) :
    ¬loose c :=
  fun hl => (h.dangling c hl).2 a ha (h.kid a ha c hc).2.1.symm

theorem Hashed.findfile_live (h : Hashed s chain) (ha : Live s chain a) :
    findfile s (s.path a) = some (some a) := by
  obtain ⟨last, hlook⟩ := look_find (p := fun b => s.path b == s.path a)
    (h.hashed (hashfn (s.path a) slots)) (h.chain_lt _)
  rw [findfile, hlook, Option.map_some]
  congr 1
  cases hfind : (chain (hashfn (s.path a) slots)).find? (fun b => s.path b == s.path a) with
  | none => exact absurd (List.find?_eq_none.1 hfind a ha) (by simp)
  | some b =>
    have hpath := List.find?_some hfind
    rw [beq_iff_eq] at hpath
    rw [h.unique b a (h.live (List.mem_of_find?_eq_some hfind)) ha hpath]

theorem Hashed.findfile_eq (h : Hashed s chain) (q : Int64) :
    ∃ r, findfile s q = some r ∧ (∀ a ∈ r, Live s chain a ∧ s.path a = q) ∧
      (r = none → ∀ a, Live s chain a → s.path a ≠ q) := by
  obtain ⟨last, hlook⟩ := look_find (p := fun b => s.path b == q)
    (h.hashed (hashfn q slots)) (h.chain_lt _)
  refine ⟨_, by rw [findfile, hlook, Option.map_some], fun a ha => ?_, fun hnone a ha hq => ?_⟩
  · have hpath := List.find?_some ha
    rw [beq_iff_eq] at hpath
    exact ⟨h.live (List.mem_of_find?_eq_some ha), hpath⟩
  · subst hq
    exact absurd (List.find?_eq_none.1 hnone a ha) (by simp)

theorem unhash_tab (s : Tab) (slot : ℤ) (prev : Option ℕ) (a : ℕ) (i : ℤ) :
    (unhash s slot prev a).tab i = match prev with
      | none => Function.update s.tab slot (s.hash a) i
      | some _ => s.tab i := by
  cases prev <;> rfl

theorem unhash_hash (s : Tab) (slot : ℤ) (prev : Option ℕ) (a : ℕ) :
    (unhash s slot prev a).hash = Function.update
      (match prev with
        | none => s.hash
        | some b => Function.update s.hash b (s.hash a)) a none := by
  cases prev <;> rfl

theorem unhash_eq (s : Tab) (slot : ℤ) (prev : Option ℕ) (a : ℕ) :
    ∃ tab hash, unhash s slot prev a = { s with tab := tab, hash := hash } := by
  cases prev <;> exact ⟨_, _, rfl⟩

theorem Hashed.unhash_live (h : Hashed s chain) (i : ℤ) :
    b ∈ (chain i).erase a ↔ b ∈ chain i ∧ b ≠ a := by
  rw [(h.nodup i).mem_erase_iff, and_comm]

theorem Hashed.look_chain (h : Hashed s chain) (ha : Live s chain a) :
    ∃ xs ys, chain (hashfn (s.path a) slots) = xs ++ a :: ys ∧
      look s.hash (fun b => s.path b == s.path a) s.bound none
        (s.tab (hashfn (s.path a) slots)) = some (xs.getLast?, some a) := by
  obtain ⟨xs, ys, hsplit⟩ := List.append_of_mem ha
  have hnodup := h.nodup (hashfn (s.path a) slots)
  have hlt := h.chain_lt (hashfn (s.path a) slots)
  rw [hsplit] at hnodup hlt
  refine ⟨xs, ys, hsplit, ?_⟩
  have hl := h.hashed (hashfn (s.path a) slots)
  rw [hsplit] at hl
  rw [look_found hl (fun x hx => ?_) (by simp) (by rw [List.length_append] at hlt; omega),
    Option.or_none]
  have hxa : x ≠ a := by
    rintro rfl
    exact (List.nodup_append.1 hnodup).2.2 x hx x (by simp) rfl
  have hx : Live s chain x := h.live (i := hashfn (s.path a) slots) (by simp [hsplit, hx])
  simpa using fun hpath => hxa (h.unique x a hx ha hpath)

theorem Hashed.unhash_linked (h : Hashed s chain) {xs ys : List ℕ}
    (hsplit : chain (hashfn (s.path a) slots) = xs ++ a :: ys) (i : ℤ) :
    Linked (unhash s (hashfn (s.path a) slots) xs.getLast? a).hash
      ((unhash s (hashfn (s.path a) slots) xs.getLast? a).tab i) ((chain i).erase a) := by
  rw [unhash_tab, unhash_hash]
  have := linked_unlink (fun _ => True) s.tab chain (fun j _ => h.hashed j) trivial
    (fun j b _ hb hbj => (h.slot j b hbj).symm.trans (h.slot _ b hb)) (h.nodup _) hsplit i trivial
  cases hlast : xs.getLast? with
  | none | some b => simpa [hlast] using this

theorem Well.unchild_linked (h : Well s chain kids loose) (ha : Live s chain a)
    (hca : c ∈ kids a) {t : Tab} (hchild : t.child = s.child) (hsibling : t.sibling = s.sibling)
    (hmade : t.made = s.made) :
    ∃ child sibling, unchild t c (some a) = some { t with child := child, sibling := sibling } ∧
      (∀ b, b ≠ a → child b = s.child b) ∧ (∀ b, b ∉ kids a → sibling b = s.sibling b) ∧
      ∀ b, Live s chain b →
        Linked (Function.update sibling c none) (child b) ((kids b).erase c) := by
  obtain ⟨xs, ys, hsplit⟩ := List.append_of_mem hca
  have hnodup := h.once a ha
  have hlt := h.kids_lt ha
  have hl := h.linked a ha
  have hunlink := linked_unlink (Live s chain) s.child kids (fun j hj => h.linked j hj) ha
    (fun j b hj hb hbj => h.parent_eq ha hj hb hbj) hnodup hsplit
  rw [hsplit] at hnodup hlt hl
  have hlook : look s.sibling (· == c) s.bound none (s.child a) = some (xs.getLast?, some c) := by
    rw [look_found hl (fun x hx => ?_) (by simp) (by rw [List.length_append] at hlt; omega),
      Option.or_none]
    have hxc : x ≠ c := by
      rintro rfl
      exact (List.nodup_append.1 hnodup).2.2 x hx x (by simp) rfl
    simpa using hxc
  have hbound : t.bound = s.bound := congrArg (· + 1) hmade
  rw [unchild, hchild, hsibling, hbound, hlook]
  cases hlast : xs.getLast? with
  | none =>
    refine ⟨Function.update s.child a (s.sibling c), s.sibling, rfl,
      fun b hb => Function.update_of_ne hb _ _, fun _ _ => rfl, fun b hb => ?_⟩
    simpa [hlast] using hunlink b hb
  | some x =>
    have hx : x ∈ kids a := by
      rw [hsplit]
      exact List.mem_append_left _ (List.mem_of_getLast? hlast)
    refine ⟨s.child, Function.update s.sibling x (s.sibling c), rfl, fun _ _ => rfl,
      fun b hb => ?_, fun b hb => ?_⟩
    · exact Function.update_of_ne (fun heq : b = x => hb (heq ▸ hx)) _ _
    · simpa [hlast] using hunlink b hb

structure Taken (s : Tab) (chain : ℤ → List ℕ) (kids : ℕ → List ℕ) (loose : ℕ → Prop) (a : ℕ)
    (s' : Tab) : Prop where
  d : s'.d = s.d
  parentqid : s'.parentqid = s.parentqid
  made : s'.made = s.made
  child : s'.child a = s.child a
  sibling : ∀ c, loose c ∨ c ∈ kids a → s'.sibling c = s.sibling c
  live : ∀ b, Live s' (fun i => (chain i).erase a) b ↔ Live s chain b ∧ b ≠ a
  well : Well s' (fun i => (chain i).erase a) (fun b => (kids b).erase a)
    fun c => loose c ∨ c ∈ kids a

theorem Hashed.erase (h : Hashed s chain) (s' : Tab) (hd : s'.d = s.d) (hmade : s'.made = s.made)
    (hashed : ∀ i, Linked s'.hash (s'.tab i) ((chain i).erase a)) :
    Hashed s' (fun i => (chain i).erase a) ∧
      ∀ b, Live s' (fun i => (chain i).erase a) b ↔ Live s chain b ∧ b ≠ a := by
  have hpath : s'.path = s.path := by
    funext b
    rw [Tab.path, Tab.path, hd]
  have hlive : ∀ b, Live s' (fun i => (chain i).erase a) b ↔ Live s chain b ∧ b ≠ a := by
    intro b
    rw [Live, hpath]
    exact h.unhash_live _
  refine ⟨⟨hashed, fun i => (h.nodup i).erase a, fun i b hb => ?_, fun b hb => ?_,
    fun b c hb hc => ?_⟩, hlive⟩
  · rw [hpath]
    exact h.slot i b (List.mem_of_mem_erase hb)
  · rw [hmade]
    exact h.made b ((hlive b).1 hb).1
  · rw [hpath]
    exact h.unique b c ((hlive b).1 hb).1 ((hlive c).1 hc).1

theorem Well.taken (h : Well s chain kids loose) (ha : Live s chain a) (hloose : ¬loose a)
    (hd : s'.d = s.d) (hparentqid : s'.parentqid = s.parentqid) (hmade : s'.made = s.made)
    (hashed : ∀ i, Linked s'.hash (s'.tab i) ((chain i).erase a))
    (linked : ∀ b, Live s chain b → b ≠ a → Linked s'.sibling (s'.child b) ((kids b).erase a)) :
    Well s' (fun i => (chain i).erase a) (fun b => (kids b).erase a)
      fun c => loose c ∨ c ∈ kids a := by
  have hpath : s'.path = s.path := by
    funext b
    rw [Tab.path, Tab.path, hd]
  obtain ⟨hhash, hlive⟩ := h.erase s' hd hmade hashed
  have hmem : ∀ b x, x ∈ (kids b).erase a → x ∈ kids b := fun b x hx => List.mem_of_mem_erase hx
  refine ⟨hhash, fun b hb => linked b ((hlive b).1 hb).1 ((hlive b).1 hb).2,
    fun b hb => (h.once b ((hlive b).1 hb).1).erase a, fun b hb c hc => ?_,
    fun c hc hnl hroot => ?_, fun c hc => ?_, fun b hb => ?_, fun b hb c hc => ?_⟩
  · obtain ⟨hbl, -⟩ := (hlive b).1 hb
    rw [(h.once b hbl).mem_erase_iff] at hc
    obtain ⟨hcl, hq, hne, hlt⟩ := h.kid b hbl c hc.2
    rw [hparentqid, hpath]
    exact ⟨(hlive c).2 ⟨hcl, hc.1⟩, hq, hne, hlt⟩
  · rw [hparentqid, hpath] at hroot
    obtain ⟨hcl, hca⟩ := (hlive c).1 hc
    obtain ⟨b, hb, hcb⟩ := h.parent c hcl (fun hl => hnl (.inl hl)) hroot
    have hba : b ≠ a := by
      rintro rfl
      exact hnl (.inr hcb)
    exact ⟨b, (hlive b).2 ⟨hb, hba⟩, (h.once b hb).mem_erase_iff.2 ⟨hca, hcb⟩⟩
  · rw [hparentqid, hpath]
    rcases hc with hc | hc
    · obtain ⟨hcl, hdang⟩ := h.dangling c hc
      have hca : c ≠ a := by
        rintro rfl
        exact hloose hc
      exact ⟨(hlive c).2 ⟨hcl, hca⟩, fun b hb => hdang b ((hlive b).1 hb).1⟩
    · obtain ⟨hcl, hq, -, hlt⟩ := h.kid a ha c hc
      refine ⟨(hlive c).2 ⟨hcl, hlt.ne'⟩, fun b hb heq => ?_⟩
      obtain ⟨hbl, hba⟩ := (hlive b).1 hb
      exact hba (h.unique b a hbl ha (heq.trans hq))
  · rw [hd]
    exact (h.names b ((hlive b).1 hb).1).sublist List.erase_sublist
  · rw [hd]
    exact h.dotdot b ((hlive b).1 hb).1 c (hmem b c hc)

theorem Well.fsremove_eq (h : Well s chain kids loose) (ha : Live s chain a) (hloose : ¬loose a)
    (k : ℕ) :
    ∃ s', Taken s chain kids loose a s' ∧ fsremove (k + 1) s (s.path a) =
      (descend (fsremove k) s'.bound s' (s'.child a)).map fun s => (none, s) := by
  obtain ⟨xs, ys, hsplit, hlook⟩ := h.look_chain ha
  have hlinked := h.unhash_linked hsplit
  simp only [fsremove, hlook, Option.bind_some]
  obtain ⟨tab, hash, hunhash⟩ := unhash_eq s (hashfn (s.path a) slots) xs.getLast? a
  rw [hunhash] at hlinked ⊢
  obtain ⟨hhash, hlive⟩ := h.erase { s with tab := tab, hash := hash } rfl rfl hlinked
  obtain ⟨parent, hfind, hsome, hnone⟩ := hhash.findfile_eq (s.parentqid a)
  rw [hfind, Option.bind_some]
  cases parent with
  | none =>
    have hout : ∀ b, Live s chain b → b ≠ a → a ∉ kids b := fun b hb hba hab =>
      hnone rfl b ((hlive b).2 ⟨hb, hba⟩) (h.kid b hb a hab).2.1.symm
    let taken : Tab :=
      { s with tab := tab, hash := hash, sibling := Function.update s.sibling a none }
    refine ⟨taken, ⟨rfl, rfl, rfl, rfl, fun c hc => ?_, hlive,
      h.taken ha hloose rfl rfl rfl hlinked fun b hb hba => ?_⟩, rfl⟩
    · refine Function.update_of_ne ?_ _ _
      rintro rfl
      exact hc.elim hloose fun hc => absurd (h.kid c ha c hc).2.2.2 (lt_irrefl c)
    · rw [List.erase_of_not_mem (hout b hb hba)]
      exact (h.linked b hb).update (hout b hb hba)
  | some p =>
    obtain ⟨hp, hpath⟩ := hsome p rfl
    obtain ⟨hpl, hpa⟩ := (hlive p).1 hp
    have hap : a ∈ kids p := by
      have hpath : s.path p = s.parentqid a := hpath
      obtain ⟨b, hb, hab⟩ := h.parent a ha hloose fun hroot =>
        hpa (h.unique p a hpl ha (hpath.trans hroot))
      rwa [h.unique p b hpl hb (hpath.trans (h.kid b hb a hab).2.1)]
    obtain ⟨child, sibling, hunchild, hchild, hsibling, hl⟩ := h.unchild_linked hpl hap
      (t := { s with tab := tab, hash := hash }) rfl rfl rfl
    rw [hunchild, Option.bind_some]
    let taken : Tab := { s with
      tab := tab, hash := hash, child := child, sibling := Function.update sibling a none }
    refine ⟨taken, ⟨rfl, rfl, rfl, hchild a hpa.symm, fun c hc => ?_, hlive,
      h.taken ha hloose rfl rfl rfl hlinked fun b hb _ => hl b hb⟩, rfl⟩
    have hca : c ≠ a := by
      rintro rfl
      exact hc.elim hloose fun hc => absurd (h.kid c ha c hc).2.2.2 (lt_irrefl c)
    have hcp : c ∉ kids p := fun hcp => hc.elim (h.not_loose hpl hcp) fun hca =>
      hpa (h.parent_eq ha hpl hca hcp)
    exact (Function.update_of_ne hca _ _).trans (hsibling c hcp)

def Below (kids : ℕ → List ℕ) : ℕ → ℕ → Prop :=
  Relation.ReflTransGen fun a c => c ∈ kids a

theorem Below.mono (h : Below kids' a b) (hsub : ∀ x, kids' x ⊆ kids x) : Below kids a b :=
  Relation.ReflTransGen.mono (fun x _ hy => hsub x hy) _ _ h

/-- Files are gone, each of them below one of `top`. The files in `loose` are as they were. -/
structure Shrunk (s : Tab) (chain : ℤ → List ℕ) (kids : ℕ → List ℕ) (loose top : ℕ → Prop)
    (s' : Tab) (chain' : ℤ → List ℕ) (kids' : ℕ → List ℕ) : Prop where
  d : s'.d = s.d
  made : s'.made = s.made
  live : ∀ b, Live s' chain' b → Live s chain b ∧ s'.parentqid b = s.parentqid b
  gone : ∀ b, Live s chain b → ¬Live s' chain' b → ∃ c, top c ∧ Below kids c b
  all : ∀ c, top c → ¬Live s' chain' c
  kids : ∀ b, kids' b ⊆ kids b
  sibling : ∀ c, loose c → s'.sibling c = s.sibling c

theorem Well.root (h : Well s chain kids loose) (hc : loose c) :
    Well { s with parentqid := Function.update s.parentqid c (s.path c) } chain kids
      fun x => loose x ∧ x ≠ c := by
  have hother : ∀ x, x ≠ c → Function.update s.parentqid c (s.path c) x = s.parentqid x :=
    fun x hx => Function.update_of_ne hx _ _
  refine ⟨⟨h.hashed, h.nodup, h.slot, h.made, h.unique⟩, h.linked, h.once, fun a ha b hb => ?_,
    fun x hx hnl hroot => ?_, fun x hx => ?_, h.names, h.dotdot⟩
  · have hbc : b ≠ c := by
      rintro rfl
      exact h.not_loose ha hb hc
    change _ ∧ Function.update s.parentqid c (s.path c) b = _ ∧
      Function.update s.parentqid c (s.path c) b ≠ _ ∧ _
    rw [hother b hbc]
    exact h.kid a ha b hb
  · by_cases hxc : x = c
    · subst hxc
      exact absurd (Function.update_self _ _ _) hroot
    · change Function.update s.parentqid c (s.path c) x ≠ _ at hroot
      rw [hother x hxc] at hroot
      exact h.parent x hx (fun hl => hnl ⟨hl, hxc⟩) hroot
  · change _ ∧ ∀ a, _ → _ ≠ Function.update s.parentqid c (s.path c) x
    rw [hother x hx.2]
    exact h.dangling x hx.1

def Removes (remove : Tab → Int64 → Option (Option Fault × Tab)) (k : ℕ) : Prop :=
  ∀ s chain kids loose c, Well s chain kids loose → Live s chain c → ¬loose c → s.made - c < k →
    ∃ s' chain' kids', remove s (s.path c) = some (none, s') ∧ Well s' chain' kids' loose ∧
      Shrunk s chain kids loose (· = c) s' chain' kids'

theorem descend_spec {remove : Tab → Int64 → Option (Option Fault × Tab)}
    (hremove : Removes remove k) (cs : List ℕ) {n : ℕ} (head : Option ℕ)
    (h : Well s chain kids loose) (hl : Linked s.sibling head cs) (hnodup : cs.Nodup)
    (hcs : ∀ c ∈ cs, loose c ∧ s.made - c < k) (hn : cs.length < n) :
    ∃ s' chain' kids', descend remove n s head = some s' ∧
      Well s' chain' kids' (fun c => loose c ∧ c ∉ cs) ∧
      Shrunk s chain kids (fun c => loose c ∧ c ∉ cs) (· ∈ cs) s' chain' kids' := by
  induction cs generalizing s chain kids loose n head with
  | nil =>
    obtain rfl : head = none := hl
    cases n with
    | zero => exact absurd hn (Nat.not_lt_zero _)
    | succ n =>
      exact ⟨s, chain, kids, rfl, h.congr (by simp), rfl, rfl, fun b hb => ⟨hb, rfl⟩,
        fun b hb hnb => absurd hb hnb, by simp, fun b => List.Subset.refl _, fun _ _ => rfl⟩
  | cons c cs ih =>
    obtain ⟨rfl, hl⟩ := hl
    obtain ⟨hc, hck⟩ := hcs c List.mem_cons_self
    obtain ⟨hccs, hnodup⟩ := List.nodup_cons.1 hnodup
    cases n with
    | zero => exact absurd hn (Nat.not_lt_zero _)
    | succ n =>
      obtain ⟨s₁, chain₁, kids₁, heq, h₁, hs₁⟩ := hremove _ _ _ _ c (h.root hc)
        (h.dangling c hc).1 (fun hx => hx.2 rfl) hck
      have hrest : ∀ b ∈ cs, loose b ∧ b ≠ c := fun b hb =>
        ⟨(hcs b (List.mem_cons_of_mem c hb)).1, fun heq => hccs (heq ▸ hb)⟩
      obtain ⟨s₂, chain₂, kids₂, heq', h₂, hs₂⟩ := ih (n := n) _ h₁
        (hl.congr fun b hb => (hs₁.sibling b (hrest b hb)).symm) hnodup
        (fun b hb => ⟨hrest b hb, by
          rw [hs₁.made]
          exact (hcs b (List.mem_cons_of_mem c hb)).2⟩) (Nat.lt_of_succ_lt_succ hn)
      have hloose : ∀ x, (loose x ∧ x ≠ c) ∧ x ∉ cs ↔ loose x ∧ x ∉ c :: cs := fun x => by
        rw [List.mem_cons, not_or, and_assoc]
      refine ⟨s₂, chain₂, kids₂, ?_, h₂.congr hloose, hs₂.d.trans hs₁.d,
        hs₂.made.trans hs₁.made, fun b hb => ?_, fun b hb hnb => ?_, fun x hx => ?_,
        fun b => List.Subset.trans (hs₂.kids b) (hs₁.kids b), fun x hx => ?_⟩
      · rw [descend]
        exact (congrArg (Option.bind · _) heq).trans heq'
      · obtain ⟨hb₁, hq₂⟩ := hs₂.live b hb
        obtain ⟨hb₀, hq₁⟩ := hs₁.live b hb₁
        have hbc : b ≠ c := by
          rintro rfl
          exact hs₁.all b rfl hb₁
        exact ⟨hb₀, hq₂.trans (hq₁.trans (Function.update_of_ne hbc _ _))⟩
      · by_cases hb₁ : Live s₁ chain₁ b
        · obtain ⟨x, hx, hbelow⟩ := hs₂.gone b hb₁ hnb
          exact ⟨x, List.mem_cons_of_mem c hx, hbelow.mono hs₁.kids⟩
        · obtain ⟨x, rfl, hbelow⟩ := hs₁.gone b hb hb₁
          exact ⟨x, List.mem_cons_self, hbelow⟩
      · rcases List.mem_cons.1 hx with rfl | hx
        · exact fun hlive => hs₁.all x rfl (hs₂.live x hlive).1
        · exact hs₂.all x hx
      · obtain ⟨hx₁, hx₂⟩ := (hloose x).2 hx
        exact (hs₂.sibling x ⟨hx₁, hx₂⟩).trans (hs₁.sibling x hx₁)

theorem fsremove_removes (k : ℕ) : Removes (fsremove k) k := by
  induction k with
  | zero => exact fun s chain kids loose c _ _ _ hk => absurd hk (Nat.not_lt_zero _)
  | succ k ih =>
    intro s chain kids loose a h ha hloose hk
    obtain ⟨s₁, ht, heq⟩ := h.fsremove_eq ha hloose k
    have hyounger : ∀ c ∈ kids a, (loose c ∨ c ∈ kids a) ∧ s₁.made - c < k := fun c hc => by
      obtain ⟨hcl, -, -, hlt⟩ := h.kid a ha c hc
      have := h.made c hcl
      rw [ht.made]
      exact ⟨.inr hc, by omega⟩
    obtain ⟨s₂, chain₂, kids₂, heq', h₂, hs⟩ := descend_spec ih (kids a) (n := s₁.bound)
      (s₁.child a) ht.well
      (by
        rw [ht.child]
        exact (h.linked a ha).congr fun c hc => (ht.sibling c (.inr hc)).symm)
      (h.once a ha) hyounger
      (by
        rw [show s₁.bound = s.bound from congrArg (· + 1) ht.made]
        exact h.kids_lt ha)
    refine ⟨s₂, chain₂, kids₂, by rw [heq, heq', Option.map_some],
      h₂.congr fun x => ⟨fun hx => hx.1.resolve_right hx.2,
        fun hx => ⟨.inl hx, fun hxa => h.not_loose ha hxa hx⟩⟩,
      hs.d.trans ht.d, hs.made.trans ht.made, fun b hb => ?_, fun b hb hnb => ?_, ?_,
      fun b => List.Subset.trans (hs.kids b) List.erase_subset, fun c hc => ?_⟩
    · obtain ⟨hb₁, hq⟩ := hs.live b hb
      exact ⟨((ht.live b).1 hb₁).1, hq.trans (congrFun ht.parentqid b)⟩
    · by_cases hba : b = a
      · exact ⟨a, rfl, hba ▸ .refl⟩
      · obtain ⟨c, hc, hbelow⟩ := hs.gone b ((ht.live b).2 ⟨hb, hba⟩) hnb
        exact ⟨a, rfl, .head hc (hbelow.mono fun x => List.erase_subset)⟩
    · rintro c rfl hlive
      exact ((ht.live c).1 (hs.live c hlive).1).2 rfl
    · exact (hs.sibling c ⟨.inl hc, fun hca => h.not_loose ha hca hc⟩).trans
        (ht.sibling c (.inl hc))

abbrev Whole (s : Tab) (chain : ℤ → List ℕ) (kids : ℕ → List ℕ) : Prop :=
  Well s chain kids fun _ => False

theorem Whole.parent_live (h : Whole s chain kids) (hc : Live s chain c) :
    ∃ a, Live s chain a ∧ s.path a = s.parentqid c ∧ (s.parentqid c ≠ s.path c → c ∈ kids a) := by
  by_cases hroot : s.parentqid c = s.path c
  · exact ⟨c, hc, hroot.symm, fun hne => absurd hroot hne⟩
  · obtain ⟨a, ha, hca⟩ := h.parent c hc not_false hroot
    exact ⟨a, ha, (h.kid a ha c hca).2.1.symm, fun _ => hca⟩

theorem Whole.fsremove (h : Whole s chain kids) (ha : Live s chain a) :
    ∃ s' chain' kids', fsremove s.bound s (s.path a) = some (none, s') ∧
      Whole s' chain' kids' ∧ s'.d = s.d ∧
      (∀ b, Live s' chain' b → s'.parentqid b = s.parentqid b) ∧
      ∀ b, Live s' chain' b ↔ Live s chain b ∧ ¬Below kids a b := by
  have hmade := h.made a ha
  obtain ⟨s', chain', kids', heq, h', hs⟩ := fsremove_removes s.bound s chain kids _ a h ha
    not_false (by rw [Tab.bound]; omega)
  have hpath : ∀ b, s'.path b = s.path b := fun b => by rw [Tab.path, Tab.path, hs.d]
  have hdead : ∀ b, Below kids a b → Live s chain b ∧ ¬Live s' chain' b := by
    intro b hb
    induction hb with
    | refl => exact ⟨ha, hs.all a rfl⟩
    | @tail p b _ hbp ih =>
      obtain ⟨hp, hpdead⟩ := ih
      obtain ⟨hbl, hq, hne, -⟩ := h.kid p hp b hbp
      refine ⟨hbl, fun hb' => hpdead ?_⟩
      have hq' := (hs.live b hb').2
      obtain ⟨x, hx, hbx⟩ := h'.parent b hb' not_false (by rw [hq', hpath]; exact hne)
      have hxp := (h'.kid x hx b hbx).2.1
      rw [hq', hq, hpath] at hxp
      rwa [h.unique p x hp (hs.live x hx).1 hxp]
  refine ⟨s', chain', kids', heq, h', hs.d, fun b hb => (hs.live b hb).2, fun b =>
    ⟨fun hb => ⟨(hs.live b hb).1, fun hbelow => (hdead b hbelow).2 hb⟩, fun hb => ?_⟩⟩
  by_contra hnb
  obtain ⟨c, rfl, hbelow⟩ := hs.gone b hb.1 hnb
  exact hb.2 hbelow

theorem Hashed.fsremove_none (h : Hashed s chain) (hq : ∀ a, Live s chain a → s.path a ≠ q)
    (k : ℕ) : fsremove (k + 1) s q = some (some .notfound, s) := by
  obtain ⟨last, hlook⟩ := look_none (p := fun b => s.path b == q) (h.hashed (hashfn q slots))
    (fun x hx => by simpa using hq x (h.live hx)) (h.chain_lt _) none
  simp [Nametree.fsremove, hlook]

theorem Whole.fswalk_dotdot (h : Whole s chain kids) (ha : Live s chain a) :
    ∃ b, Live s chain b ∧ s.path b = s.parentqid a ∧
      fswalk s a ['.', '.'] = some (some (s.d b)) := by
  obtain ⟨b, hb, hq, -⟩ := h.parent_live ha
  refine ⟨b, hb, hq, ?_⟩
  rw [fswalk, if_pos rfl, ← hq, h.findfile_live hb]
  rfl

theorem Well.fswalk_name (h : Well s chain kids loose) (ha : Live s chain a) {name : Name}
    (hname : name ≠ ['.', '.']) :
    fswalk s a name = some (((kids a).find? fun c => (s.d c).name == name).map s.d) := by
  obtain ⟨last, hlook⟩ := look_find (p := fun c => (s.d c).name == name)
    (h.linked a ha) (h.kids_lt ha)
  rw [fswalk, if_neg hname, hlook, Option.map_some]

theorem Whole.fswalk_eq (h : Whole s chain kids) (ha : Live s chain a) (name : Name) :
    ∃ r, fswalk s a name = some r ∧
      (r = none → name ≠ ['.', '.'] ∧ ∀ c ∈ kids a, (s.d c).name ≠ name) := by
  by_cases hname : name = ['.', '.']
  · subst hname
    obtain ⟨b, -, -, heq⟩ := h.fswalk_dotdot ha
    exact ⟨_, heq, nofun⟩
  · refine ⟨_, h.fswalk_name ha hname, fun hnone => ⟨hname, fun c hc => ?_⟩⟩
    simpa using List.find?_eq_none.1 (Option.map_eq_none_iff.1 hnone) c hc

theorem Hashed.hold (h : Hashed s chain) {d : Dir} (parentqid : Int64) (sibling : Option ℕ)
    (hfree : ∀ a, Live s chain a → s.path a ≠ d.path) :
    Hashed (hold s parentqid d sibling) (Function.update chain (hashfn d.path slots)
        (s.made :: chain (hashfn d.path slots))) ∧
      (∀ b, Live s chain b → b ≠ s.made) ∧
      ∀ b, Live (hold s parentqid d sibling) (Function.update chain (hashfn d.path slots)
        (s.made :: chain (hashfn d.path slots))) b ↔ Live s chain b ∨ b = s.made := by
  have hnew : ∀ b, Live s chain b → b ≠ s.made := fun b hb => (h.made b hb).ne
  have hout : ∀ i, s.made ∉ chain i := fun i hm => hnew _ (h.live hm) rfl
  have hpath : ∀ b, b ≠ s.made → (Nametree.hold s parentqid d sibling).path b = s.path b :=
    fun b hb => congrArg Dir.path (Function.update_of_ne hb _ _)
  have hmade : (Nametree.hold s parentqid d sibling).path s.made = d.path :=
    congrArg Dir.path (Function.update_self _ _ _)
  have hmem : ∀ i b, b ∈ Function.update chain (hashfn d.path slots)
      (s.made :: chain (hashfn d.path slots)) i ↔
        b ∈ chain i ∨ b = s.made ∧ i = hashfn d.path slots := by
    intro i b
    by_cases hi : i = hashfn d.path slots
    · subst hi
      simp [or_comm]
    · simp [hi]
  have hlive : ∀ b, Live (Nametree.hold s parentqid d sibling) (Function.update chain
      (hashfn d.path slots) (s.made :: chain (hashfn d.path slots))) b ↔
        Live s chain b ∨ b = s.made := by
    intro b
    rw [Live, hmem]
    by_cases hb : b = s.made
    · subst hb
      simp [hmade]
    · rw [hpath b hb]
      simp [hb, Live]
  refine ⟨⟨fun i => ?_, fun i => ?_, fun i b hb => ?_, fun b hb => ?_, fun b c hb hc hbc => ?_⟩,
    hnew, hlive⟩
  · by_cases hi : i = hashfn d.path slots
    · subst hi
      simpa [Nametree.hold] using (h.hashed (hashfn d.path slots)).cons (hout _)
    · simpa [Nametree.hold, hi] using (h.hashed i).update (hout i)
  · by_cases hi : i = hashfn d.path slots
    · subst hi
      simpa using ⟨hout _, h.nodup _⟩
    · simpa [hi] using h.nodup i
  · rcases (hmem i b).1 hb with hb | ⟨rfl, rfl⟩
    · rw [hpath b (hnew b (h.live hb))]
      exact h.slot i b hb
    · rw [hmade]
  · rcases (hlive b).1 hb with hb | rfl
    · exact Nat.lt_succ_of_lt (h.made b hb)
    · exact Nat.lt_succ_self _
  · rcases (hlive b).1 hb with hb | rfl
    · rw [hpath b (hnew b hb)] at hbc
      rcases (hlive c).1 hc with hc | rfl
      · rw [hpath c (hnew c hc)] at hbc
        exact h.unique b c hb hc hbc
      · exact absurd (hbc.trans hmade) (hfree b hb)
    · rcases (hlive c).1 hc with hc | rfl
      · rw [hpath c (hnew c hc)] at hbc
        exact absurd (hbc.symm.trans hmade) (hfree c hc)
      · rfl

theorem Whole.hold (h : Whole s chain kids) {d : Dir} {parentqid : Int64} {sibling : Option ℕ}
    {child : ℕ → Option ℕ} (hfree : ∀ a, Live s chain a → s.path a ≠ d.path)
    (hkids : kids' s.made = []) (hchild : child s.made = none)
    (hlinked : ∀ b, Live s chain b →
      Linked (Function.update s.sibling s.made sibling) (child b) (kids' b))
    (hcons : ∀ b, Live s chain b → kids' b = kids b ∨
      kids' b = s.made :: kids b ∧ parentqid = s.path b ∧ d.name ≠ ['.', '.'] ∧
        ∀ c ∈ kids b, (s.d c).name ≠ d.name)
    (hparent : parentqid = d.path ∨ ∃ b, Live s chain b ∧ s.made ∈ kids' b) :
    Whole { Nametree.hold s parentqid d sibling with child := child }
      (Function.update chain (hashfn d.path slots)
        (s.made :: chain (hashfn d.path slots))) kids' := by
  obtain ⟨hhash, hnew, hlive⟩ := h.toHashed.hold parentqid sibling hfree
  let t : Tab := { Nametree.hold s parentqid d sibling with child := child }
  change Whole t _ _
  have hd : ∀ b, b ≠ s.made → t.d b = s.d b := fun b hb => Function.update_of_ne hb _ _
  have hpath : ∀ b, b ≠ s.made → t.path b = s.path b := fun b hb => congrArg Dir.path (hd b hb)
  have hq : ∀ b, b ≠ s.made → t.parentqid b = s.parentqid b :=
    fun b hb => Function.update_of_ne hb _ _
  have hdmade : t.d s.made = d := Function.update_self _ _ _
  have hpathmade : t.path s.made = d.path := congrArg Dir.path hdmade
  have hqmade : t.parentqid s.made = parentqid := Function.update_self _ _ _
  have hold : ∀ b, Live s chain b → ∀ c ∈ kids b, c ≠ s.made := fun b hb c hc =>
    hnew c (h.kid b hb c hc).1
  refine ⟨⟨hhash.hashed, hhash.nodup, hhash.slot, hhash.made, hhash.unique⟩, fun b hb => ?_,
    fun b hb => ?_, fun b hb c hc => ?_, fun c hc _ hroot => ?_, fun c hc => hc.elim,
    fun b hb => ?_, fun b hb c hc => ?_⟩
  · rcases (hlive b).1 hb with hb | rfl
    · exact hlinked b hb
    · rw [hkids]
      exact hchild
  · rcases (hlive b).1 hb with hb | rfl
    · rcases hcons b hb with heq | ⟨heq, -⟩
      · rw [heq]
        exact h.once b hb
      · rw [heq]
        exact List.nodup_cons.2 ⟨fun hm => hold b hb _ hm rfl, h.once b hb⟩
    · rw [hkids]
      exact List.nodup_nil
  · rcases (hlive b).1 hb with hb | rfl
    · by_cases hcm : c = s.made
      · subst hcm
        obtain ⟨-, hpq, -⟩ := (hcons b hb).resolve_left fun heq => hold b hb _ (heq ▸ hc) rfl
        rw [hqmade, hpathmade, hpath b (hnew b hb), hpq]
        exact ⟨(hlive _).2 (.inr rfl), rfl, hfree b hb, h.made b hb⟩
      · have hc : c ∈ kids b := by
          rcases hcons b hb with heq | ⟨heq, -⟩
          · rwa [heq] at hc
          · rw [heq] at hc
            exact (List.mem_cons.1 hc).resolve_left hcm
        obtain ⟨hcl, hkid⟩ := h.kid b hb c hc
        rw [hq c hcm, hpath b (hnew b hb), hpath c hcm]
        exact ⟨(hlive c).2 (.inl hcl), hkid⟩
    · rw [hkids] at hc
      exact absurd hc List.not_mem_nil
  · rcases (hlive c).1 hc with hc | rfl
    · rw [hq c (hnew c hc), hpath c (hnew c hc)] at hroot
      obtain ⟨b, hb, hcb⟩ := h.parent c hc not_false hroot
      refine ⟨b, (hlive b).2 (.inl hb), ?_⟩
      rcases hcons b hb with heq | ⟨heq, -⟩
      · rwa [heq]
      · rw [heq]
        exact List.mem_cons_of_mem _ hcb
    · rw [hqmade, hpathmade] at hroot
      obtain ⟨b, hb, hcb⟩ := hparent.resolve_left hroot
      exact ⟨b, (hlive b).2 (.inl hb), hcb⟩
  · rcases (hlive b).1 hb with hb | rfl
    · have hkid : (kids b).Pairwise fun x y => (t.d x).name ≠ (t.d y).name :=
        (h.names b hb).imp_of_mem fun hx hy hxy => by
          rwa [hd _ (hold b hb _ hx), hd _ (hold b hb _ hy)]
      rcases hcons b hb with heq | ⟨heq, -, -, hfresh⟩
      · rw [heq]
        exact hkid
      · rw [heq]
        refine List.pairwise_cons.2 ⟨fun c hc => ?_, hkid⟩
        rw [hdmade, hd c (hold b hb c hc)]
        exact (hfresh c hc).symm
    · rw [hkids]
      exact List.Pairwise.nil
  · rcases (hlive b).1 hb with hb | rfl
    · by_cases hcm : c = s.made
      · subst hcm
        obtain ⟨-, -, hdots, -⟩ := (hcons b hb).resolve_left fun heq => hold b hb _ (heq ▸ hc) rfl
        rwa [hdmade]
      · have hc : c ∈ kids b := by
          rcases hcons b hb with heq | ⟨heq, -⟩
          · rwa [heq] at hc
          · rw [heq] at hc
            exact (List.mem_cons.1 hc).resolve_left hcm
        rw [hd c hcm]
        exact h.dotdot b hb c hc
    · rw [hkids] at hc
      exact absurd hc List.not_mem_nil

theorem Whole.fscreate (h : Whole s chain kids) (q : Int64) (d : Dir) :
    ∃ fault s' chain' kids', fscreate s q d = some (fault, s') ∧ Whole s' chain' kids' ∧
      (fault ≠ none → s' = s) := by
  obtain ⟨parent, hparent, hsome, hnone⟩ := h.findfile_eq q
  obtain ⟨file, hfile, -, hfree⟩ := h.findfile_eq d.path
  rw [Nametree.fscreate, hparent, Option.bind_some, hfile, Option.bind_some]
  cases file with
  | some a => exact ⟨_, s, chain, kids, rfl, h, fun _ => rfl⟩
  | none =>
    have hout : ∀ b, Live s chain b → s.made ∉ kids b := fun b hb hm =>
      absurd (h.made _ (h.kid b hb _ hm).1) (lt_irrefl _)
    have hnew : ∀ b, Live s chain b → b ≠ s.made := fun b hb => (h.made b hb).ne
    cases parent with
    | none =>
      by_cases hq : d.path ≠ q
      · exact ⟨_, s, chain, kids, if_pos hq, h, fun _ => rfl⟩
      · refine ⟨_, _, _, Function.update kids s.made [], if_neg hq,
          h.hold (hfree rfl) (Function.update_self _ _ _) (Function.update_self _ _ _)
            (fun b hb => ?_) (fun b hb => .inl (Function.update_of_ne (hnew b hb) _ _))
            (.inl (not_not.1 hq).symm), fun hne => absurd rfl hne⟩
        rw [Function.update_of_ne (hnew b hb), Function.update_of_ne (hnew b hb)]
        exact (h.linked b hb).update (hout b hb)
    | some p =>
      obtain ⟨hp, hpq⟩ := hsome p rfl
      obtain ⟨r, hr, hfresh⟩ := h.fswalk_eq hp d.name
      change ∃ fault s' chain' kids', (fswalk s p d.name).bind _ = some (fault, s') ∧ _
      rw [hr, Option.bind_some]
      cases r with
      | some r => exact ⟨_, s, chain, kids, rfl, h, fun _ => rfl⟩
      | none =>
        obtain ⟨hdots, hnames⟩ := hfresh rfl
        refine ⟨_, _, _, Function.update (Function.update kids s.made []) p (s.made :: kids p),
          rfl, h.hold (hfree rfl) ?_ ?_ (fun b hb => ?_) (fun b hb => ?_)
            (.inr ⟨p, hp, by simp⟩), fun hne => absurd rfl hne⟩
        · rw [Function.update_of_ne (hnew p hp).symm, Function.update_self]
        · change Function.update (Function.update s.child s.made none) p _ s.made = none
          rw [Function.update_of_ne (hnew p hp).symm, Function.update_self]
        · change Linked _ (Function.update (Function.update s.child s.made none) p _ b) _
          by_cases hbp : b = p
          · subst hbp
            rw [Function.update_self, Function.update_self]
            exact (h.linked b hb).cons (hout b hb)
          · rw [Function.update_of_ne hbp, Function.update_of_ne hbp,
              Function.update_of_ne (hnew b hb), Function.update_of_ne (hnew b hb)]
            exact (h.linked b hb).update (hout b hb)
        · by_cases hbp : b = p
          · subst hbp
            rw [Function.update_self]
            exact .inr ⟨rfl, rfl, hdots, hnames⟩
          · rw [Function.update_of_ne hbp, Function.update_of_ne (hnew b hb)]
            exact .inl rfl

theorem Whole.rename (h : Whole s chain kids) {d : Dir} (hd : d.path = s.path a)
    (hname : ∀ p, Live s chain p → a ∈ kids p →
      d.name ≠ ['.', '.'] ∧ ∀ c ∈ kids p, c ≠ a → (s.d c).name ≠ d.name) :
    Whole { s with d := Function.update s.d a d } chain kids := by
  have hpath : (fun b => (Function.update s.d a d b).path) = s.path := by
    funext b
    by_cases hb : b = a
    · subst hb
      rw [Function.update_self, hd]
    · rw [Function.update_of_ne hb, Tab.path]
  have hlive : ∀ b, Live { s with d := Function.update s.d a d } chain b ↔ Live s chain b := by
    intro b
    change b ∈ chain (hashfn ((fun b => (Function.update s.d a d b).path) b) slots) ↔ _
    rw [hpath, Live]
  have hpath' : ∀ b, ({ s with d := Function.update s.d a d } : Tab).path b = s.path b :=
    congrFun hpath
  refine ⟨⟨h.hashed, h.nodup, fun i b hb => ?_, fun b hb => h.made b ((hlive b).1 hb),
      fun b c hb hc => ?_⟩, fun b hb => h.linked b ((hlive b).1 hb),
    fun b hb => h.once b ((hlive b).1 hb), fun b hb c hc => ?_, fun c hc _ hroot => ?_,
    fun c hc => hc.elim, fun b hb => ?_, fun b hb c hc => ?_⟩
  · rw [hpath']
    exact h.slot i b hb
  · rw [hpath', hpath']
    exact h.unique b c ((hlive b).1 hb) ((hlive c).1 hc)
  · rw [hpath', hpath', hlive]
    exact h.kid b ((hlive b).1 hb) c hc
  · rw [hpath'] at hroot
    obtain ⟨b, hb, hcb⟩ := h.parent c ((hlive c).1 hc) not_false hroot
    exact ⟨b, (hlive b).2 hb, hcb⟩
  · rw [hlive] at hb
    refine ((h.names b hb).and (h.once b hb)).imp_of_mem fun {x y} hx hy hxy => ?_
    change (Function.update s.d a d x).name ≠ (Function.update s.d a d y).name
    by_cases hxa : x = a
    · subst hxa
      rw [Function.update_self, Function.update_of_ne hxy.2.symm]
      exact ((hname b hb hx).2 y hy hxy.2.symm).symm
    · rw [Function.update_of_ne hxa]
      by_cases hya : y = a
      · subst hya
        rw [Function.update_self]
        exact (hname b hb hy).2 x hx hxa
      · rw [Function.update_of_ne hya]
        exact hxy.1
  · rw [hlive] at hb
    change (Function.update s.d a d c).name ≠ _
    by_cases hca : c = a
    · subst hca
      rw [Function.update_self]
      exact (hname b hb hc).1
    · rw [Function.update_of_ne hca]
      exact h.dotdot b hb c hc

theorem Whole.clashes_eq (h : Whole s chain kids) (ha : Live s chain a) (name : Name) :
    ∃ r, clashes s a name = some r ∧ (r = false → ∀ p, Live s chain p → a ∈ kids p →
      name ≠ ['.', '.'] ∧ ∀ c ∈ kids p, c ≠ a → (s.d c).name ≠ name) := by
  by_cases hsame : name = (s.d a).name
  · refine ⟨false, if_pos hsame, fun _ p hp hap => ?_⟩
    have : Std.Symm fun b c => (s.d b).name ≠ (s.d c).name := ⟨fun _ _ hne => hne.symm⟩
    rw [hsame]
    exact ⟨h.dotdot p hp a hap, fun c hc hca => (h.names p hp).forall hc hap hca⟩
  · obtain ⟨p, hp, hpq, hkid⟩ := h.parent_live ha
    rw [clashes, if_neg hsame, ← hpq, h.findfile_live hp]
    by_cases hpa : p = a
    · refine ⟨false, if_pos hpa, fun _ b hb hab => ?_⟩
      obtain ⟨-, hab, hne, -⟩ := h.kid b hb a hab
      exact absurd (hpq.symm.trans (congrArg s.path hpa)) hne
    · obtain ⟨r, hr, hfresh⟩ := h.fswalk_eq hp name
      refine ⟨r.isSome, ?_, fun hnone b hb hab => ?_⟩
      · change (if p = a then some false else (fswalk s p name).map Option.isSome) = _
        rw [if_neg hpa, hr, Option.map_some]
      · obtain rfl := h.parent_eq hp hb (hkid fun hroot => hpa (h.unique p a hp ha
          (hpq.trans hroot))) hab
        obtain ⟨hdots, hnames⟩ := hfresh (by simpa using hnone)
        exact ⟨hdots, fun c hc _ => hnames c hc⟩

theorem Whole.fswstat (h : Whole s chain kids) (q : Int64) (d : Dir) :
    ∃ fault s' chain' kids', fswstat s q d = some (fault, s') ∧ Whole s' chain' kids' ∧
      (fault ≠ none → s' = s) := by
  obtain ⟨file, hfile, hsome, -⟩ := h.findfile_eq q
  rw [Nametree.fswstat, hfile, Option.bind_some]
  cases file with
  | none => exact ⟨_, s, chain, kids, rfl, h, fun _ => rfl⟩
  | some a =>
    obtain ⟨ha, hq⟩ := hsome a rfl
    obtain ⟨r, hr, hfresh⟩ := h.clashes_eq ha (applydir d (s.d a)).name
    change ∃ fault s' chain' kids', (clashes s a (applydir d (s.d a)).name).map _ =
      some (fault, s') ∧ _
    rw [hr, Option.map_some]
    cases r with
    | true => exact ⟨_, s, chain, kids, rfl, h, fun _ => rfl⟩
    | false =>
      exact ⟨_, _, chain, kids, rfl,
        h.rename (d := { applydir d (s.d a) with path := q }) hq.symm (hfresh rfl),
        fun hne => absurd rfl hne⟩

theorem Whole.step (h : Whole s chain kids) (op : Treeop) :
    ∃ fault s' chain' kids', step s op = some (fault, s') ∧ Whole s' chain' kids' ∧
      (fault ≠ none → s' = s) := by
  cases op with
  | create q d => exact h.fscreate q d
  | wstat q d => exact h.fswstat q d
  | remove q =>
    by_cases hq : ∃ a, Live s chain a ∧ s.path a = q
    · obtain ⟨a, ha, rfl⟩ := hq
      obtain ⟨s', chain', kids', heq, h', -⟩ := h.fsremove ha
      exact ⟨none, s', chain', kids', heq, h', fun hne => absurd rfl hne⟩
    · refine ⟨some .notfound, s, chain, kids, h.fsremove_none (fun a ha heq => hq ⟨a, ha, heq⟩) _,
        h, fun _ => rfl⟩

theorem whole_empty : Whole Tab.empty (fun _ => []) fun _ => [] := by
  refine ⟨⟨fun _ => rfl, fun _ => List.nodup_nil, ?_, ?_, ?_⟩, ?_, ?_, ?_, ?_, ?_, ?_, ?_⟩ <;>
    simp [Live]

theorem Whole.run (h : Whole s chain kids) (ops : List Treeop) :
    ∃ s' chain' kids', run ops s = some s' ∧ Whole s' chain' kids' := by
  induction ops generalizing s chain kids with
  | nil => exact ⟨s, chain, kids, rfl, h⟩
  | cons op ops ih =>
    obtain ⟨fault, s₁, chain₁, kids₁, heq, h₁, -⟩ := h.step op
    obtain ⟨s₂, chain₂, kids₂, heq', h₂⟩ := ih h₁
    exact ⟨s₂, chain₂, kids₂, by rw [Nametree.run, heq, Option.bind_some, heq'], h₂⟩

theorem Well.below_le (h : Well s chain kids loose) (ha : Live s chain a) (hb : Below kids a b) :
    Live s chain b ∧ a ≤ b := by
  induction hb with
  | refl => exact ⟨ha, le_rfl⟩
  | @tail p c _ hpc ih =>
    obtain ⟨hcl, -, -, hlt⟩ := h.kid p ih.1 c hpc
    exact ⟨hcl, ih.2.trans hlt.le⟩

theorem Well.acyclic (h : Well s chain kids loose) (ha : Live s chain a) (hc : c ∈ kids a) :
    ¬Below kids c a := by
  obtain ⟨hcl, -, -, hlt⟩ := h.kid a ha c hc
  exact fun hb => absurd (h.below_le hcl hb).2 (Nat.not_le.2 hlt)

section Nav
variable {name : Name} {d e : Dir} {names : List Name}

theorem Well.find_name (h : Well s chain kids loose) (ha : Live s chain a) (c : ℕ) :
    ((kids a).find? fun c => (s.d c).name == name) = some c ↔ c ∈ kids a ∧ (s.d c).name = name := by
  have : Std.Symm fun b c => (s.d b).name ≠ (s.d c).name := ⟨fun _ _ hne => hne.symm⟩
  constructor
  · intro hfind
    exact ⟨List.mem_of_find?_eq_some hfind, by simpa using List.find?_some hfind⟩
  · rintro ⟨hc, hname⟩
    cases hfind : (kids a).find? fun c => (s.d c).name == name with
    | none => exact absurd (List.find?_eq_none.1 hfind c hc) (by simp [hname])
    | some b =>
      have hb : (s.d b).name = name := by simpa using List.find?_some hfind
      by_contra hne
      exact (h.names a ha).forall (List.mem_of_find?_eq_some hfind) hc
        (fun heq => hne (congrArg some heq)) (hb.trans hname.symm)

theorem Well.walk_name (h : Well s chain kids loose) (ha : Live s chain a)
    (hname : name ≠ ['.', '.']) :
    ∃ r, walk s (s.path a) name = some r ∧
      ∀ d, r = some d ↔ ∃ c ∈ kids a, (s.d c).name = name ∧ s.d c = d := by
  refine ⟨_, by rw [walk, h.findfile_live ha, Option.bind_some]; exact h.fswalk_name ha hname,
    fun d => ?_⟩
  simp only [Option.map_eq_some_iff, h.find_name ha, and_assoc]

theorem walks_append (hd : walks s d names = some (some e)) (name : Name) :
    walks s d (names ++ [name]) = walk s e.path name := by
  induction names generalizing d with
  | nil =>
    obtain rfl : d = e := by simpa [walks] using hd
    simp only [List.nil_append, walks]
    rcases walk s d.path name with _ | _ | _ <;> rfl
  | cons n names ih =>
    simp only [List.cons_append, walks] at hd ⊢
    rcases hn : walk s d.path n with _ | _ | f
    · simp [hn] at hd
    · simp [hn] at hd
    · rw [hn] at hd
      exact ih hd

def join (names : List Name) : Name := ['/'].intercalate names

theorem join_cons (name next : Name) (names : List Name) :
    join (name :: next :: names) = name ++ '/' :: join (next :: names) := by
  simp [join, List.intercalate]

theorem Whole.upwards_eq (h : Whole s chain kids) (ha : Live s chain a) (hk : a < k) :
    ∃ r names, Live s chain r ∧ s.parentqid r = s.path r ∧ Below kids r a ∧
      walks s (s.d r) names = some (some (s.d a)) ∧
      (∀ n ∈ (s.d r).name :: names, ∃ c, Live s chain c ∧ (s.d c).name = n) ∧
      ∀ rest, upwards s k a (join ((s.d a).name :: rest)) =
        some (some (join ((s.d r).name :: (names ++ rest)))) := by
  induction k generalizing a with
  | zero => exact absurd hk (Nat.not_lt_zero _)
  | succ k ih =>
    by_cases hroot : s.parentqid a = s.path a
    · exact ⟨a, [], ha, hroot, .refl, rfl, fun n hn => ⟨a, ha, (List.mem_singleton.1 hn).symm⟩,
        fun rest => if_pos hroot⟩
    · obtain ⟨p, hp, hap⟩ := h.parent a ha not_false hroot
      obtain ⟨-, hq, -, hlt⟩ := h.kid p hp a hap
      obtain ⟨r, names, hr, hrroot, hbelow, hwalks, hnames, hup⟩ := ih hp (by omega)
      obtain ⟨found, hfound, hiff⟩ := h.walk_name hp (h.dotdot p hp a hap)
      obtain rfl := (hiff (s.d a)).2 ⟨a, hap, rfl, rfl⟩
      refine ⟨r, names ++ [(s.d a).name], hr, hrroot, hbelow.tail hap,
        (walks_append hwalks _).trans hfound, fun n hn => ?_, fun rest => ?_⟩
      · rw [← List.cons_append, List.mem_append] at hn
        exact hn.elim (hnames n) fun hn => ⟨a, ha, (List.mem_singleton.1 hn).symm⟩
      · rw [upwards, if_neg hroot, hq, h.findfile_live hp, Option.bind_some]
        change upwards s k p ((s.d p).name ++ '/' :: join ((s.d a).name :: rest)) = _
        rw [← join_cons, hup, List.append_assoc]
        rfl

theorem Whole.fsgetpath_eq (h : Whole s chain kids) (ha : Live s chain a) :
    ∃ r names, Live s chain r ∧ s.parentqid r = s.path r ∧ Below kids r a ∧
      fsgetpath s (s.path a) = some (some (join ((s.d r).name :: names))) ∧
      walks s (s.d r) names = some (some (s.d a)) ∧
      ((∀ c, Live s chain c → '/' ∉ (s.d c).name) →
        (join ((s.d r).name :: names)).splitOn '/' = (s.d r).name :: names) := by
  obtain ⟨r, names, hr, hroot, hbelow, hwalks, hnames, hup⟩ :=
    h.upwards_eq ha (k := s.bound) (Nat.lt_succ_of_lt (h.made a ha))
  refine ⟨r, names, hr, hroot, hbelow, ?_, hwalks, fun hslash => ?_⟩
  · rw [fsgetpath, h.findfile_live ha, Option.bind_some]
    have hjoin : join [(s.d a).name] = (s.d a).name := by simp [join]
    have hup := hup []
    rw [List.append_nil, hjoin] at hup
    exact hup
  · refine List.splitOn_intercalate '/' (fun n hn => ?_) (List.cons_ne_nil _ _)
    obtain ⟨c, hc, rfl⟩ := hnames n hn
    exact hslash c hc

theorem readchildren_eq {cs : List ℕ} {head : Option ℕ} (hl : Linked s.sibling head cs)
    (hk : cs.length < k) (start stop i : ℤ) :
    readchildren s start stop k i head =
      some (((cs.map s.d).take (stop - i).toNat).drop (start - i).toNat) := by
  induction cs generalizing head k i with
  | nil =>
    obtain rfl : head = none := hl
    cases k with
    | zero => exact absurd hk (Nat.not_lt_zero _)
    | succ k => simp [readchildren]
  | cons c cs ih =>
    obtain ⟨rfl, hl⟩ := hl
    cases k with
    | zero => exact absurd hk (Nat.not_lt_zero _)
    | succ k =>
      rw [readchildren]
      by_cases hi : i < stop
      · rw [if_pos hi, ih hl (Nat.lt_of_succ_lt_succ hk), Option.map_some,
          show (stop - i).toNat = (stop - (i + 1)).toNat + 1 by omega, List.map_cons,
          List.take_succ_cons]
        by_cases hs : i ≥ start
        · rw [if_pos hs, show (start - i).toNat = 0 by omega,
            show (start - (i + 1)).toNat = 0 by omega]
          rfl
        · rw [if_neg hs, show (start - i).toNat = (start - (i + 1)).toNat + 1 by omega]
          rfl
      · rw [if_neg hi, show (stop - i).toNat = 0 by omega, List.take_zero, List.drop_nil]

theorem Well.readdir_eq (h : Well s chain kids loose) (ha : Live s chain a)
    (offset count : Int32) :
    readdir s (s.path a) offset count =
      some (some ((((kids a).map s.d).take (offset + count).toInt.toNat).drop
        offset.toInt.toNat)) := by
  rw [readdir, h.findfile_live ha, Option.bind_some]
  simp only [readchildren_eq (h.linked a ha) (h.kids_lt ha), sub_zero, Option.map_some]

end Nav

end Well

section Exact

/-- After every run of requests the tree is whole: each file is found, a request that is refused
changes nothing, a removal takes a file and those below it, and the tree's views agree. -/
theorem run_whole (ops : List Treeop) :
    ∃ s chain kids, run ops Tab.empty = some s ∧ Whole s chain kids ∧
      (∀ a, Live s chain a → findfile s (s.path a) = some (some a)) ∧
      (∀ a c, Live s chain a → c ∈ kids a → ¬Below kids c a) ∧
      (∀ op, ∃ fault s', step s op = some (fault, s') ∧ (fault ≠ none → s' = s)) ∧
      (∀ a, Live s chain a → ∃ s' chain' kids', step s (.remove (s.path a)) = some (none, s') ∧
        Whole s' chain' kids' ∧ s'.d = s.d ∧
        (∀ b, Live s' chain' b → s'.parentqid b = s.parentqid b) ∧
        ∀ b, Live s' chain' b ↔ Live s chain b ∧ ¬Below kids a b) ∧
      ∀ a, Live s chain a →
        (∀ offset count, readdir s (s.path a) offset count =
          some (some ((((kids a).map s.d).take (offset + count).toInt.toNat).drop
            offset.toInt.toNat))) ∧
        (∀ name ≠ ['.', '.'], ∃ r, walk s (s.path a) name = some r ∧
          ∀ d, r = some d ↔ ∃ c ∈ kids a, (s.d c).name = name ∧ s.d c = d) ∧
        (∃ b, Live s chain b ∧ s.path b = s.parentqid a ∧
          walk s (s.path a) ['.', '.'] = some (some (s.d b))) ∧
        ∃ r names, Live s chain r ∧ s.parentqid r = s.path r ∧ Below kids r a ∧
          fsgetpath s (s.path a) = some (some (join ((s.d r).name :: names))) ∧
          walks s (s.d r) names = some (some (s.d a)) ∧
          ((∀ c, Live s chain c → '/' ∉ (s.d c).name) →
            (join ((s.d r).name :: names)).splitOn '/' = (s.d r).name :: names) := by
  obtain ⟨s, chain, kids, hrun, h⟩ := whole_empty.run ops
  refine ⟨s, chain, kids, hrun, h, fun a ha => h.findfile_live ha, fun a c ha hc =>
    h.acyclic ha hc, fun op => ?_, fun a ha => h.fsremove ha, fun a ha =>
      ⟨fun offset count => h.readdir_eq ha offset count, fun name hname => h.walk_name ha hname,
        ?_, h.fsgetpath_eq ha⟩⟩
  · obtain ⟨fault, s', -, -, heq, -, hrefused⟩ := h.step op
    exact ⟨fault, s', heq, hrefused⟩
  · obtain ⟨b, hb, hq, hwalk⟩ := h.fswalk_dotdot ha
    exact ⟨b, hb, hq, by rw [walk, h.findfile_live ha, Option.bind_some]; exact hwalk⟩

def slashed : List Treeop :=
  [.create 0 { (default : Dir) with name := ['r'], path := 0 },
    .create 0 { (default : Dir) with name := ['a', '/', 'b'], path := 1 }]

/-- The names between the slashes of its path lead to no file, from any root. -/
theorem slashed_lost : ¬∀ ops s, run ops Tab.empty = some s →
    ∀ q path, fsgetpath s q = some (some path) → ∃ r root names,
      findfile s (s.path r) = some (some r) ∧ s.parentqid r = s.path r ∧
      path.splitOn '/' = root :: names ∧
      (walks s (s.d r) names).map (Option.map Dir.path) = some (some q) := by
  intro h
  obtain ⟨r, root, names, hfile, hroot, hsplit, hwalks⟩ :=
    h slashed _ rfl 1 ['r', '/', 'a', '/', 'b'] (by decide)
  obtain ⟨rfl, rfl⟩ := List.cons.inj ((show _ = [['r'], ['a'], ['b']] by
    decide).symm.trans hsplit)
  match r with
  | 0 => exact absurd hwalks (by decide)
  | 1 => exact absurd hroot (by decide)
  | r + 2 =>
    have hfound : (run slashed Tab.empty).bind (findfile · 0) = some (some 0) := by decide
    exact nomatch hfound.symm.trans hfile

end Exact

end Infernode.Styx.Nametree
