import Infernode.Cases.Labels
import Infernode.Dis.TextCodes

/-!
# Compiling a case statement

`casecom` gives every label the code of its arm and writes a table of the labels. Labels of
ints that are dense become a table of code alone, one entry for each value from the first
label to the last, behind a check of the range. The code of the arms follows the dispatch,
each with a jump to the end.
-/

namespace Infernode.Cases

open Dis (int IsInt)

variable {α : Type}

def armpc (base : ℕ) (arms : List (Arm α)) (node : ℕ) : ℕ :=
  base + ((arms.take node).map fun arm => arm.size + 1).sum

def wildarm (node : ℕ) (wild : Option ℕ) : List (Arm α) → Option ℕ
  | [] => wild
  | arm :: arms =>
    wildarm (node + 1) (if arm.quals.any fun q => q matches .wild then some node else wild) arms

def wildpc (base : ℕ) (arms : List (Arm α)) : ℕ :=
  armpc base arms ((wildarm 0 none arms).getD arms.length)

def setinst (node i : ℕ) (labs : List (Label α)) : List (Label α) :=
  labs.modify i fun lab => { lab with inst := some node }

/-- What a range does besides: `fillrange` in a table of gotos. `none` is a loop that does
not end or a fatal error. -/
abbrev Fill (α : Type) := ℕ → α → α → List (Label α) → Option (List (Label α))

def nofill : Fill α := fun _ _ _ labs => some labs

def setqual (o : Order α) (fill : Fill α) (node : ℕ) (labs : List (Label α)) :
    Qual α → Option (List (Label α))
  | .const val => (findlab o val labs).map fun i => setinst node i labs
  | .range start stop => do
    let i ← findlab o start labs
    fill node start stop (setinst node i labs)
  | .wild => some labs

def setarms (o : Order α) (fill : Fill α) (node : ℕ) (labs : List (Label α)) :
    List (Arm α) → Option (List (Label α))
  | [] => some labs
  | arm :: arms => do
    let labs ← arm.quals.foldlM (setqual o fill node) labs
    setarms o fill (node + 1) labs arms

def count : ℕ → ℤ → ℤ → Option (List ℤ)
  | 0, _, _ => none
  | fuel + 1, j, q => if q < j then some [] else (count fuel (int (j + 1)) q).map (j :: ·)

def expand (fuel : ℕ) (v : ℤ) : List (Label ℤ) → Option (List (Label ℤ))
  | [] => some []
  | lab :: labs => do
    let js ← count fuel (int (v + 1)) lab.stop
    let rest ← expand fuel lab.stop labs
    some (js.map (fun j => { lab with start := j, stop := j, single := true }) ++ rest)

def extent (labs : List (Label ℤ)) : ℤ :=
  match labs.head?, labs.getLast? with
  | some first, some last => int (last.stop - first.start + 1)
  | _, _ => 0

def dense (labs : List (Label ℤ)) : Bool :=
  3 ≤ extent labs && decide (extent labs ≤ 3 * labs.length)

def dogoto (fuel : ℕ) (labs : List (Label ℤ)) : Option (List (Label ℤ)) := do
  let labs' ←
    if extent labs ≠ labs.length then do
      let labs' ← expand fuel (int ((labs.head?.map Label.start).getD 0 - 1)) labs
      if (labs'.length : ℤ) ≠ extent labs then none else some labs'
    else some labs
  some (labs'.map fun lab => { lab with inst := none })

/-- The loop of `fillrange` from its label on; a label past the last is `none`. -/
def fillfrom (node : ℕ) : ℕ → ℕ → ℤ → ℤ → List (Label ℤ) → Option (List (Label ℤ))
  | 0, _, _, _, _ => none
  | fuel + 1, i, j, q, labs =>
    if q < j then some labs
    else if i < labs.length then fillfrom node fuel (i + 1) (int (j + 1)) q (setinst node i labs)
    else none

def fillrange (fuel : ℕ) : Fill ℤ := fun node p q labs => do
  let i ← labs.findIdx? fun lab => lab.start = p
  fillfrom node fuel i p q labs

inductive IntCode
  | table (words : List ℤ)
  | goto (first last wild : ℤ) (words : List ℤ)
  deriving DecidableEq

/-- A row of a table; `cut` is how a word of the labels is stored, `pad` what is not. A
label without code is `none`, a nil that is read. -/
def row (base : ℕ) (arms : List (Arm ℤ)) (cut : ℤ → ℤ) (pad : List ℤ) (lab : Label ℤ) :
    Option (List ℤ) :=
  lab.inst.map fun node => [cut lab.start, cut (lab.stop + 1), int (armpc base arms node)] ++ pad

def table (base : ℕ) (arms : List (Arm ℤ)) (cut : ℤ → ℤ) (pad : List ℤ)
    (labs : List (Label ℤ)) : Option (List ℤ) := do
  let rows ← labs.mapM (row base arms cut pad)
  some (int labs.length :: pad ++ rows.flatten ++ [int (wildpc base arms)])

def intcmp (a b : ℤ) : ℤ := if a < b then -1 else if b < a then 1 else 0

def intorder : Order ℤ := ⟨intcmp, fun p start => start == p + 1⟩

def bigorder : Order ℤ := ⟨intcmp, fun _ _ => false⟩

def casecomint (fuel base : ℕ) (arms : List (Arm ℤ)) : Option IntCode := do
  let labs ← checklabels intorder arms
  if dense labs then do
    let labs ← dogoto fuel labs
    let labs ← setarms intorder (fillrange fuel) 0 labs arms
    let first := (labs.head?.map Label.start).getD 0
    let last := (labs.getLast?.map Label.start).getD 0
    some (.goto first (last - first) (wildpc base arms)
      (int (labs.length + 1) :: labs.map (fun lab =>
        int ((lab.inst.map (armpc base arms)).getD (wildpc base arms))) ++
        [int (wildpc base arms)]))
  else do
    let labs ← setarms intorder nofill 0 labs arms
    (table base arms int [] labs).map .table

def big (n : ℤ) : ℤ := n.bmod (2 ^ 64)

def IsBig (n : ℤ) : Prop := -2 ^ 63 ≤ n ∧ n < 2 ^ 63

def casecombig (base : ℕ) (arms : List (Arm ℤ)) : Option (List ℤ) := do
  let labs ← checklabels bigorder arms
  let labs ← setarms bigorder nofill 0 labs arms
  table base arms big [0] labs

/-!
## The code of each label

Every qualifier gives the code of its arm to the labels it touches. No label is touched by
two arms, so in the end each has the code of its own arm, whatever the order.
-/

variable {α : Type} {labs labs' labs0 : List (Label α)} {arms : List (Arm α)}

def Label.shape (lab : Label α) : Label α := { lab with inst := none }

def Like (labs0 labs : List (Label α)) : Prop := labs.map Label.shape = labs0.map Label.shape

/-- The labels of which `P` holds have the code of `node`, the others what they had. -/
def Marked (node : ℕ) (P : ℕ → Prop) (labs labs' : List (Label α)) : Prop :=
  labs'.length = labs.length ∧ ∀ i lab, labs[i]? = some lab →
    ∃ inst, labs'[i]? = some { lab with inst := inst } ∧
      (P i → inst = some node) ∧ (¬P i → inst = lab.inst)

theorem Marked.like {node : ℕ} {P : ℕ → Prop} (h : Marked node P labs labs') :
    Like labs labs' := by
  refine List.ext_getElem (by simp [h.1]) fun i h1 h2 => ?_
  rw [List.length_map] at h1 h2
  obtain ⟨inst, hget, -⟩ := h.2 i labs[i] (List.getElem?_eq_getElem h2)
  rw [List.getElem?_eq_getElem h1, Option.some.injEq] at hget
  simp [hget, Label.shape]

theorem Like.refl (labs : List (Label α)) : Like labs labs := rfl

theorem Like.trans {a b c : List (Label α)} (h : Like a b) (h' : Like b c) : Like a c :=
  Eq.trans h' h

theorem Like.length (h : Like labs labs') : labs'.length = labs.length := by
  have hlen := congrArg List.length h
  simpa using hlen

theorem Like.get (h : Like labs labs') {i : ℕ} {lab : Label α} (hi : labs[i]? = some lab) :
    ∃ inst, labs'[i]? = some { lab with inst := inst } := by
  have hget := congrArg (fun l => l[i]?) h
  simp only [List.getElem?_map, hi, Option.map_some] at hget
  obtain ⟨lab', hi', hshape⟩ := Option.map_eq_some_iff.mp hget
  refine ⟨lab'.inst, hi'.trans (congrArg some ?_)⟩
  obtain ⟨start, stop, single, node, inst⟩ := lab
  obtain ⟨start', stop', single', node', inst'⟩ := lab'
  simp_all [Label.shape]

theorem Like.symm (h : Like labs labs') : Like labs' labs := Eq.symm h

theorem sorted_shape [LinearOrder α] (labs : List (Label α)) :
    Sorted (labs.map Label.shape) ↔ Sorted labs := by
  constructor
  · rintro ⟨hapart, hproper⟩
    rw [List.pairwise_map] at hapart
    exact ⟨hapart, fun lab hlab => hproper lab.shape (List.mem_map_of_mem hlab)⟩
  · rintro ⟨hapart, hproper⟩
    refine ⟨List.pairwise_map.mpr hapart, fun lab hlab => ?_⟩
    obtain ⟨lab', hlab', rfl⟩ := List.mem_map.mp hlab
    exact hproper lab' hlab'

theorem Like.sorted [LinearOrder α] (h : Like labs labs') (hs : Sorted labs) : Sorted labs' := by
  rw [← sorted_shape, h, sorted_shape]
  exact hs

theorem setinst_marked (node i : ℕ) (labs : List (Label α)) :
    Marked node (fun j => j = i) labs (setinst node i labs) := by
  refine ⟨List.length_modify _ _ _, fun j lab hj => ?_⟩
  by_cases hji : j = i
  · subst hji
    refine ⟨some node, ?_, fun _ => rfl, fun h => absurd rfl h⟩
    rw [setinst, List.getElem?_modify, hj]
    simp
  · refine ⟨lab.inst, ?_, fun h => absurd h hji, fun _ => rfl⟩
    rw [setinst, List.getElem?_modify, hj]
    simp [Ne.symm hji]

theorem Marked.trans {node : ℕ} {P Q : ℕ → Prop} {a b c : List (Label α)}
    (h : Marked node P a b) (h' : Marked node Q b c) : Marked node (fun i => P i ∨ Q i) a c := by
  refine ⟨h'.1.trans h.1, fun i lab hi => ?_⟩
  obtain ⟨inst, hb, hP, hnP⟩ := h.2 i lab hi
  obtain ⟨inst', hc, hQ, hnQ⟩ := h'.2 i _ hb
  refine ⟨inst', hc, ?_, ?_⟩
  · rintro (hp | hq)
    · by_cases hq : Q i
      · exact hQ hq
      · exact (hnQ hq).trans (hP hp)
    · exact hQ hq
  · intro hn
    rw [not_or] at hn
    exact (hnQ hn.2).trans (hnP hn.1)

theorem Marked.congr {node : ℕ} {P Q : ℕ → Prop} (h : Marked node P labs labs')
    (hPQ : ∀ i, i < labs.length → (P i ↔ Q i)) : Marked node Q labs labs' := by
  refine ⟨h.1, fun i lab hi => ?_⟩
  have hlt := (List.getElem?_eq_some_iff.mp hi).1
  obtain ⟨inst, hget, hP, hnP⟩ := h.2 i lab hi
  exact ⟨inst, hget, fun hq => hP ((hPQ i hlt).mpr hq), fun hq => hnP (mt (hPQ i hlt).mp hq)⟩

theorem setquals_marked {o : Order α} {fill : Fill α} {touch : Qual α → ℕ → Prop} {node : ℕ}
    {quals : List (Qual α)}
    (hset : ∀ q ∈ quals, ∀ labs, Like labs0 labs →
      ∃ labs', setqual o fill node labs q = some labs' ∧ Marked node (touch q) labs labs')
    (hlike : Like labs0 labs) :
    ∃ labs', quals.foldlM (setqual o fill node) labs = some labs' ∧
      Marked node (fun i => ∃ q ∈ quals, touch q i) labs labs' := by
  induction quals generalizing labs with
  | nil =>
    refine ⟨labs, rfl, rfl, fun i lab hi => ⟨lab.inst, hi, ?_, fun _ => rfl⟩⟩
    rintro ⟨q, hq, -⟩
    simp at hq
  | cons q quals ih =>
    obtain ⟨labs1, hone, hmark⟩ := hset q (by simp) labs hlike
    obtain ⟨labs2, hrest, hmark'⟩ :=
      ih (fun q' hq' => hset q' (by simp [hq'])) (hlike.trans hmark.like)
    refine ⟨labs2, ?_, (hmark.trans hmark').congr fun i _ => by simp⟩
    rw [List.foldlM_cons, hone]
    exact hrest

theorem setarms_like {o : Order α} {fill : Fill α} {touch : Qual α → ℕ → Prop} {node : ℕ}
    (hset : ∀ k arm, arms[k]? = some arm → ∀ q ∈ arm.quals, ∀ labs, Like labs0 labs →
      ∃ labs', setqual o fill (node + k) labs q = some labs' ∧
        Marked (node + k) (touch q) labs labs')
    (hlike : Like labs0 labs) :
    ∃ labs', setarms o fill node labs arms = some labs' ∧ Like labs0 labs' ∧
      ∀ i lab, labs[i]? = some lab → ∃ inst, labs'[i]? = some { lab with inst := inst } ∧
        (inst = lab.inst ∧ (∀ arm ∈ arms, ∀ q ∈ arm.quals, ¬touch q i) ∨
          ∃ k arm, arms[k]? = some arm ∧ (∃ q ∈ arm.quals, touch q i) ∧
            inst = some (node + k)) := by
  induction arms generalizing node labs with
  | nil => exact ⟨labs, rfl, hlike, fun i lab hi => ⟨lab.inst, hi, .inl ⟨rfl, by simp⟩⟩⟩
  | cons arm arms ih =>
    obtain ⟨labs1, hone, hmark⟩ := setquals_marked (hset 0 arm rfl) hlike
    have hset' : ∀ k arm, arms[k]? = some arm → ∀ q ∈ arm.quals, ∀ labs, Like labs0 labs →
        ∃ labs', setqual o fill (node + 1 + k) labs q = some labs' ∧
          Marked (node + 1 + k) (touch q) labs labs' := by
      intro k arm' hk q hq labs hl
      have hnext := hset (k + 1) arm' (by simpa using hk) q hq labs hl
      rwa [show node + (k + 1) = node + 1 + k by omega] at hnext
    obtain ⟨labs2, hrest, hlike2, hinst⟩ := ih hset' (hlike.trans hmark.like)
    refine ⟨labs2, ?_, hlike2, fun i lab hi => ?_⟩
    · rw [Nat.add_zero] at hone
      rw [setarms, hone]
      exact hrest
    obtain ⟨inst1, hi1, hP, hnP⟩ := hmark.2 i lab hi
    obtain ⟨inst2, hi2, hcases⟩ := hinst i _ hi1
    refine ⟨inst2, hi2, ?_⟩
    rcases hcases with ⟨hsame, hnone⟩ | ⟨k, arm', hk, htouch, hsome⟩
    · by_cases htouch : ∃ q ∈ arm.quals, touch q i
      · exact .inr ⟨0, arm, rfl, htouch, hsame.trans (hP htouch)⟩
      · refine .inl ⟨hsame.trans (hnP htouch), ?_⟩
        push Not at htouch
        exact List.forall_mem_cons.mpr ⟨htouch, hnone⟩
    · exact .inr ⟨k + 1, arm', by simpa using hk, htouch, by rw [hsome]; congr 1; omega⟩

end Infernode.Cases
