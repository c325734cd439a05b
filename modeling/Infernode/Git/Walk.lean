import Infernode.Git.Object
import Infernode.Lib.Worklist

/-!
# Walks over the history

`enumobjects` collects what a push sends: from the wanted objects along parents, trees and
entries, past what the other side is said to have. `isancestor` looks for a commit along
parents. Objects that cannot be read or parsed lead nowhere.
-/

namespace Infernode.Git

open Limbo (Str lit)
open Lib (Work)

structure Repo where
  readobj : Hash → Except Str (ℕ × List UInt8)
  finite : {h | (readobj h).isOk}.Finite

structure ObjRef where
  hash : Hash
  otype : ℕ
  data : List UInt8

section

variable (seen haveset : List Str)

def enqueue (queue : List Hash) (h : Hash) : List Hash :=
  if h.hex ∈ seen ∨ h.hex ∈ haveset then queue else h :: queue

def follow (queue : List Hash) (otype : ℕ) (data : List UInt8) : List Hash :=
  if otype = OBJ_COMMIT then
    match parsecommit data with
    | .error _ => queue
    | .ok commit =>
      enqueue seen haveset (commit.parents.foldl (enqueue seen haveset) queue) commit.tree
  else if otype = OBJ_TREE then
    match parsetree data with
    | .error _ => queue
    | .ok entries => (entries.map TreeEntry.hash).foldl (enqueue seen haveset) queue
  else queue

end

/-- The loop of `enumobjects`; `none` is that it has not ended. -/
def enumloop (repo : Repo) (haveset : List Str) :
    ℕ → List Hash → List Str → List ObjRef → Option (List ObjRef)
  | _, [], _, objects => some objects
  | 0, _ :: _, _, _ => none
  | fuel + 1, hash :: queue, seen, objects =>
    if hash.hex ∈ seen ∨ hash.hex ∈ haveset then enumloop repo haveset fuel queue seen objects
    else
      match repo.readobj hash with
      | .error _ => enumloop repo haveset fuel queue (hash.hex :: seen) objects
      | .ok (otype, data) =>
        enumloop repo haveset fuel (follow (hash.hex :: seen) haveset queue otype data)
          (hash.hex :: seen) (⟨hash, otype, data⟩ :: objects)

def enumobjects (repo : Repo) (fuel : ℕ) (want have' : List Hash) :
    Option (List ObjRef × Option Str) :=
  (enumloop repo (have'.foldl (fun haveset h => h.hex :: haveset) []) fuel want [] []).map
    fun objects => (objects, none)

/-- The parents onto the queue; `none` when one is the ancestor. -/
def scanparents (ancestor : Hash) (queue : List Hash) : List Hash → Option (List Hash)
  | [] => some queue
  | p :: parents => if p = ancestor then none else scanparents ancestor (p :: queue) parents

def commitof (repo : Repo) (hash : Hash) : Option Commit :=
  match repo.readobj hash with
  | .error _ => none
  | .ok (otype, data) =>
    if otype ≠ OBJ_COMMIT then none
    else
      match parsecommit data with
      | .error _ => none
      | .ok commit => some commit

def ancestorloop (repo : Repo) (ancestor : Hash) : ℕ → List Hash → List Str → Option Bool
  | _, [], _ => some false
  | 0, _ :: _, _ => none
  | fuel + 1, hash :: queue, seen =>
    if hash.hex ∈ seen then ancestorloop repo ancestor fuel queue seen
    else
      match commitof repo hash with
      | none => ancestorloop repo ancestor fuel queue (hash.hex :: seen)
      | some commit =>
        match scanparents ancestor queue commit.parents with
        | none => some true
        | some queue => ancestorloop repo ancestor fuel queue (hash.hex :: seen)

def isancestor (repo : Repo) (fuel : ℕ) (ancestor descendant : Hash) : Option Bool :=
  if ancestor = descendant then some true
  else ancestorloop repo ancestor fuel [descendant] []

theorem hex_mem {h : Hash} {l : List Hash} : h.hex ∈ l.map Hash.hex ↔ h ∈ l :=
  List.mem_map_of_injective hex_injective

theorem haveset_eq (have' : List Hash) :
    have'.foldl (fun haveset h => h.hex :: haveset) [] = (have'.map Hash.hex).reverse := by
  rw [← List.foldl_map (f := Hash.hex) (g := fun haveset h => h :: haveset),
    List.foldl_flip_cons_eq_append, List.append_nil, List.map_id']

def leads (repo : Repo) (h : Hash) : List Hash :=
  match repo.readobj h with
  | .error _ => []
  | .ok (otype, data) =>
    if otype = OBJ_COMMIT then
      match parsecommit data with
      | .error _ => []
      | .ok commit => commit.parents ++ [commit.tree]
    else if otype = OBJ_TREE then
      match parsetree data with
      | .error _ => []
      | .ok entries => entries.map TreeEntry.hash
    else []

theorem enqueue_foldl (seen haveset : List Str) (queue l : List Hash) :
    l.foldl (enqueue seen haveset) queue =
      (l.filter fun h => ¬(h.hex ∈ seen ∨ h.hex ∈ haveset)).reverse ++ queue := by
  induction l generalizing queue with
  | nil => rfl
  | cons h l ih =>
    rw [List.foldl_cons, ih, List.filter_cons, enqueue]
    split_ifs with hin hkeep hkeep
    · simp [hin] at hkeep
    · rfl
    · simp
    · simp [hin] at hkeep

theorem follow_eq (repo : Repo) {h : Hash} {otype : ℕ} {data : List UInt8}
    (hread : repo.readobj h = .ok (otype, data)) (seen haveset : List Str) (queue : List Hash) :
    follow seen haveset queue otype data =
      ((leads repo h).filter fun h => ¬(h.hex ∈ seen ∨ h.hex ∈ haveset)).reverse ++ queue := by
  have hlast (q : List Hash) (t : Hash) :
      enqueue seen haveset q t = [t].foldl (enqueue seen haveset) q := rfl
  rw [follow, leads, hread]
  simp only
  split_ifs with hcommit htree
  · cases parsecommit data with
    | error err => rfl
    | ok commit =>
      simp only
      rw [hlast, ← List.foldl_append, enqueue_foldl]
  · cases parsetree data with
    | error err => rfl
    | ok entries => exact enqueue_foldl _ _ _ _
  · rfl

theorem leads_finite (repo : Repo) : {h | leads repo h ≠ []}.Finite := by
  refine repo.finite.subset fun h hne => ?_
  rw [Set.mem_ofPred_eq] at hne ⊢
  cases hread : repo.readobj h with
  | error err => simp [leads, hread] at hne
  | ok o => rfl

theorem leads_error {repo : Repo} {h : Hash} {err : Str} (hread : repo.readobj h = .error err) :
    leads repo h = [] := by
  rw [leads, hread]

theorem scanparents_eq (ancestor : Hash) (queue parents : List Hash) :
    scanparents ancestor queue parents =
      if ancestor ∈ parents then none else some (parents.reverse ++ queue) := by
  induction parents generalizing queue with
  | nil => rfl
  | cons p parents ih =>
    rw [scanparents, ih]
    by_cases hp : p = ancestor
    · simp [hp]
    · have hne : ancestor ≠ p := Ne.symm hp
      simp [hp, hne]

end Infernode.Git
