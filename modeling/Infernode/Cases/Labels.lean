import Mathlib

/-!
# The labels of a case statement

`checklabels` collects the labels of the arms, sorts them, refuses labels that overlap and
joins labels of one arm that follow each other. `findlab` finds the label that a value is in.
The values are of any type with a comparison; only ints are joined.
-/

namespace Infernode.Cases

inductive Qual (α : Type)
  | const (val : α)
  | range (start stop : α)
  | wild
  deriving DecidableEq

structure Arm (α : Type) where
  quals : List (Qual α)
  size : ℕ
  deriving DecidableEq

/-- `single` says that `stop` is the very node `start`; `inst` is the arm whose code the
label leads to. -/
structure Label (α : Type) where
  start : α
  stop : α
  single : Bool
  node : ℕ
  inst : Option ℕ
  deriving DecidableEq

variable {α : Type}

def Qual.label (node : ℕ) : Qual α → Option (Label α)
  | .const val => some ⟨val, val, true, node, none⟩
  | .range start stop => some ⟨start, stop, false, node, none⟩
  | .wild => none

def labels : ℕ → List (Arm α) → List (Label α)
  | _, [] => []
  | node, arm :: arms => arm.quals.filterMap (Qual.label node) ++ labels (node + 1) arms

structure Order (α : Type) where
  cmp : α → α → ℤ
  joins : α → α → Bool

variable (o : Order α)

def Order.before (a b : Label α) : Bool := o.cmp a.start b.start ≤ 0

def casesort (labs : List (Label α)) : List (Label α) :=
  if labs.length ≤ 1 then labs
  else
    List.merge (casesort (labs.take (labs.length / 2))) (casesort (labs.drop (labs.length / 2)))
      o.before
termination_by labs.length
decreasing_by
  · simp only [List.length_take]
    omega
  · simp only [List.length_drop]
    omega

/-- The inner loop of `checklabels`: the label with those joined to it, and the others.
`none` is the error of an overlap. -/
def absorb (lab : Label α) : List (Label α) → Option (Label α × List (Label α))
  | [] => some (lab, [])
  | e :: labs =>
    if o.cmp e.start lab.stop ≤ 0 then none
    else if o.joins lab.stop e.start && e.node == lab.node then
      absorb { lab with stop := e.stop, single := false } labs
    else some (lab, e :: labs)

theorem absorb_length {lab lab' : Label α} {labs rest : List (Label α)}
    (h : absorb o lab labs = some (lab', rest)) : rest.length ≤ labs.length := by
  induction labs generalizing lab with
  | nil =>
    rw [absorb, Option.some.injEq, Prod.mk.injEq] at h
    rw [← h.2]
  | cons e labs ih =>
    rw [absorb] at h
    split_ifs at h
    · exact (ih h).trans (by simp)
    · rw [Option.some.injEq, Prod.mk.injEq] at h
      rw [← h.2]

/-- The outer loop; `none` also where a label has nothing in it. -/
def checkloop : List (Label α) → Option (List (Label α))
  | [] => some []
  | lab :: labs =>
    if 0 < o.cmp lab.start lab.stop then none
    else
      match _h : absorb o lab labs with
      | none => none
      | some (lab, rest) => (checkloop rest).map (lab :: ·)
termination_by labs => labs.length
decreasing_by
  have hlen := absorb_length o _h
  simp only [List.length_cons]
  omega

def checklabels (arms : List (Arm α)) : Option (List (Label α)) :=
  checkloop o (casesort o (labels 0 arms))

theorem casesort_perm (labs : List (Label α)) :
    (casesort o labs).Perm labs := by
  induction hn : labs.length using Nat.strong_induction_on generalizing labs with
  | h n ih =>
    rw [casesort]
    split_ifs with hlen
    · exact .rfl
    have htake := ih (labs.take (labs.length / 2)).length
      (by simp only [List.length_take]; omega) _ rfl
    have hdrop := ih (labs.drop (labs.length / 2)).length
      (by simp only [List.length_drop]; omega) _ rfl
    have hboth := htake.append hdrop
    rw [List.take_append_drop] at hboth
    exact (List.merge_perm_append o.before).trans hboth

theorem checkloop_length {labs labs' : List (Label α)} (h : checkloop o labs = some labs') :
    labs'.length ≤ labs.length := by
  induction hn : labs.length using Nat.strong_induction_on generalizing labs labs' with
  | h n ih =>
    cases labs with
    | nil =>
      rw [checkloop, Option.some.injEq] at h
      simp [← h]
    | cons lab labs =>
      rw [checkloop] at h
      split_ifs at h
      split at h
      · cases h
      · rename_i lab1 rest habs
        obtain ⟨labs1, hloop, rfl⟩ := Option.map_eq_some_iff.mp h
        have hlen := absorb_length o habs
        have hrest := ih rest.length (by rw [← hn, List.length_cons]; omega) hloop rfl
        simp only [List.length_cons] at hn ⊢
        omega

theorem checklabels_length {arms : List (Arm α)} {labs : List (Label α)}
    (h : checklabels o arms = some labs) :
    labs.length ≤ (labels 0 arms).length :=
  (checkloop_length o h).trans (casesort_perm o _).length_eq.le

/-- The loop of the binary search; a read outside the labels is `none`. -/
def findloop (v : α) (labs : List (Label α)) (l r : ℕ) : Option ℕ :=
  if l ≤ r then
    match labs[(r + l) / 2]? with
    | none => none
    | some lab =>
      if o.cmp lab.start v ≤ 0 then findloop v labs ((r + l) / 2 + 1) r
      else if (r + l) / 2 = 0 then none
      else findloop v labs l ((r + l) / 2 - 1)
  else some l
termination_by r + 1 - l

/-- `none` is the fatal error of a value in no label. -/
def findlab (v : α) (labs : List (Label α)) : Option ℕ :=
  if labs.length ≤ 1 then some 0
  else do
    let l ← findloop o v labs 1 (labs.length - 1)
    let lab ← labs[l - 1]?
    if 0 < o.cmp lab.start v ∨ o.cmp lab.stop v < 0 then none else some (l - 1)

theorem pairwise_get {R : α → α → Prop} {l : List α} (h : l.Pairwise R) {i j : ℕ}
    {a b : α} (hij : i < j) (ha : l[i]? = some a) (hb : l[j]? = some b) : R a b := by
  obtain ⟨hi, rfl⟩ := List.getElem?_eq_some_iff.mp ha
  obtain ⟨hj, rfl⟩ := List.getElem?_eq_some_iff.mp hb
  exact List.pairwise_iff_getElem.mp h i j hi hj hij

section Compares

structure Order.Lawful [LinearOrder α] (o : Order α) : Prop where
  lt : ∀ a b, o.cmp a b < 0 ↔ a < b
  gt : ∀ a b, 0 < o.cmp a b ↔ b < a
  -- labels are joined only where nothing lies between them
  joins : ∀ a b, o.joins a b = true → a < b ∧ ∀ v, a < v → b ≤ v

variable [LinearOrder α] {o : Order α} (ho : o.Lawful)
include ho

theorem Order.Lawful.le (a b : α) : o.cmp a b ≤ 0 ↔ a ≤ b := by
  rw [← not_lt, ho.gt, not_lt]

theorem Order.Lawful.before_iff (a b : Label α) : o.before a b = true ↔ a.start ≤ b.start := by
  rw [Order.before, decide_eq_true_iff, ho.le]

theorem casesort_sorted (labs : List (Label α)) :
    (casesort o labs).Pairwise fun a b => a.start ≤ b.start := by
  induction hn : labs.length using Nat.strong_induction_on generalizing labs with
  | h n ih =>
    rw [casesort]
    split_ifs with hlen
    · cases labs with
      | nil => exact List.Pairwise.nil
      | cons a labs =>
        have hnil : labs = [] := List.length_eq_zero_iff.mp (by simpa using hlen)
        rw [hnil]
        exact List.pairwise_singleton _ _
    have htake := ih (labs.take (labs.length / 2)).length
      (by simp only [List.length_take]; omega) _ rfl
    have hdrop := ih (labs.drop (labs.length / 2)).length
      (by simp only [List.length_drop]; omega) _ rfl
    simp only [← ho.before_iff] at htake hdrop ⊢
    refine List.pairwise_merge ?_ ?_ _ _ htake hdrop
    · intro a b c hab hbc
      rw [ho.before_iff] at *
      exact hab.trans hbc
    · intro a b
      rw [Bool.or_eq_true, ho.before_iff, ho.before_iff]
      exact le_total _ _

def Label.Holds (lab : Label α) (node : ℕ) (v : α) : Prop :=
  lab.node = node ∧ lab.start ≤ v ∧ v ≤ lab.stop

structure Apart (labs : List (Label α)) : Prop where
  apart : labs.Pairwise fun a b => a.stop < b.start ∨ b.stop < a.start
  proper : ∀ lab ∈ labs, lab.start ≤ lab.stop

structure Sorted (labs : List (Label α)) : Prop where
  apart : labs.Pairwise fun a b => a.stop < b.start
  proper : ∀ lab ∈ labs, lab.start ≤ lab.stop

/-- Both hold the same values for each arm, and a label of the second is in one of the
first. -/
structure Covers (labs' labs : List (Label α)) : Prop where
  within : ∀ lab ∈ labs, ∃ lab' ∈ labs', lab'.node = lab.node ∧ lab'.start ≤ lab.start ∧
    lab.stop ≤ lab'.stop
  holds : ∀ lab' ∈ labs', ∀ v, lab'.start ≤ v → v ≤ lab'.stop →
    ∃ lab ∈ labs, lab.Holds lab'.node v

omit ho in
theorem Apart.perm {labs labs' : List (Label α)} (h : Apart labs) (hp : labs'.Perm labs) :
    Apart labs' where
  apart := (hp.pairwise_iff fun h => h.symm).mpr h.apart
  proper := fun lab hlab => h.proper lab (hp.subset hlab)

theorem casesort_apart {labs : List (Label α)} (h : Apart labs) :
    Sorted (casesort o labs) := by
  have hperm := h.perm (casesort_perm o labs)
  refine ⟨?_, hperm.proper⟩
  have hboth := (casesort_sorted ho labs).and hperm.apart
  refine hboth.imp_of_mem fun {a b} ha hb hab => ?_
  rcases hab.2 with hlt | hlt
  · exact hlt
  · exact absurd (hab.1.trans (hperm.proper b hb)) (not_le.mpr hlt)

omit ho in
theorem Covers.refl (labs : List (Label α)) : Covers labs labs where
  within := fun lab h => ⟨lab, h, rfl, le_rfl, le_rfl⟩
  holds := fun lab h _ hv hv' => ⟨lab, h, rfl, hv, hv'⟩

omit ho in
theorem Covers.trans {a b c : List (Label α)} (h : Covers a b) (h' : Covers b c) :
    Covers a c where
  within := by
    intro lab hlab
    obtain ⟨l, hl, hnode, hstart, hstop⟩ := h'.within lab hlab
    obtain ⟨m, hm, hnode', hstart', hstop'⟩ := h.within l hl
    exact ⟨m, hm, hnode'.trans hnode, hstart'.trans hstart, hstop.trans hstop'⟩
  holds := by
    intro m hm v hv hv'
    obtain ⟨l, hl, hnode, hstart, hstop⟩ := h.holds m hm v hv hv'
    obtain ⟨lab, hlab, hnode', hs, hs'⟩ := h'.holds l hl v hstart hstop
    exact ⟨lab, hlab, hnode'.trans hnode, hs, hs'⟩

omit ho in
theorem Covers.cons {a b : List (Label α)} (h : Covers a b) (lab : Label α) :
    Covers (lab :: a) (lab :: b) where
  within := by
    intro l hl
    rcases List.mem_cons.mp hl with rfl | hl
    · exact ⟨l, by simp, rfl, le_rfl, le_rfl⟩
    · obtain ⟨m, hm, hin⟩ := h.within l hl
      exact ⟨m, by simp [hm], hin⟩
  holds := by
    intro l hl v hv hv'
    rcases List.mem_cons.mp hl with rfl | hl
    · exact ⟨l, by simp, rfl, hv, hv'⟩
    · obtain ⟨m, hm, hin⟩ := h.holds l hl v hv hv'
      exact ⟨m, by simp [hm], hin⟩

omit ho in
theorem sorted_cons {lab : Label α} {labs : List (Label α)} : Sorted (lab :: labs) ↔
    (∀ l ∈ labs, lab.stop < l.start) ∧ lab.start ≤ lab.stop ∧ Sorted labs := by
  constructor
  · intro h
    obtain ⟨hlab, hlabs⟩ := List.pairwise_cons.mp h.apart
    exact ⟨hlab, h.proper lab (by simp), hlabs, fun l hl => h.proper l (by simp [hl])⟩
  · rintro ⟨hlab, hproper, h⟩
    exact ⟨List.pairwise_cons.mpr ⟨hlab, h.apart⟩, List.forall_mem_cons.mpr ⟨hproper, h.proper⟩⟩

theorem absorb_sorted {lab : Label α} {labs : List (Label α)} (h : Sorted (lab :: labs)) :
    ∃ lab' rest, absorb o lab labs = some (lab', rest) ∧ Sorted (lab' :: rest) ∧
      Covers (lab' :: rest) (lab :: labs) := by
  induction labs generalizing lab with
  | nil => exact ⟨lab, [], rfl, h, .refl _⟩
  | cons e labs ih =>
    obtain ⟨hlab, hproper, hrest⟩ := sorted_cons.mp h
    obtain ⟨he, heproper, hlabs⟩ := sorted_cons.mp hrest
    have hafter : ¬o.cmp e.start lab.stop ≤ 0 := by
      rw [ho.le, not_le]
      exact hlab e (by simp)
    rw [absorb, if_neg hafter]
    split_ifs with hjoin
    · rw [Bool.and_eq_true, beq_iff_eq] at hjoin
      obtain ⟨hadj, hnode⟩ := hjoin
      obtain ⟨hlt, hgap⟩ := ho.joins _ _ hadj
      have hlong : lab.stop < e.stop := hlt.trans_le heproper
      have hjoined : Sorted ({ lab with stop := e.stop, single := false } :: labs) :=
        sorted_cons.mpr ⟨he, hproper.trans hlong.le, hlabs⟩
      obtain ⟨lab', rest, habs, hsorted, hcovers⟩ := ih hjoined
      refine ⟨lab', rest, habs, hsorted, hcovers.trans ⟨?_, ?_⟩⟩
      · intro l hl
        rcases List.mem_cons.mp hl with rfl | hl
        · exact ⟨_, List.mem_cons_self, rfl, le_rfl, hlong.le⟩
        rcases List.mem_cons.mp hl with rfl | hl
        · exact ⟨_, List.mem_cons_self, hnode.symm, hproper.trans hlt.le, le_rfl⟩
        · exact ⟨l, by simp [hl], rfl, le_rfl, le_rfl⟩
      · intro l hl v hv hv'
        rcases List.mem_cons.mp hl with rfl | hl
        · by_cases hin : v ≤ lab.stop
          · exact ⟨lab, by simp, rfl, hv, hin⟩
          · exact ⟨e, by simp, hnode, hgap v (not_le.mp hin), hv'⟩
        · exact ⟨l, by simp [hl], rfl, hv, hv'⟩
    · exact ⟨lab, e :: labs, rfl, h, .refl _⟩

theorem checkloop_sorted {labs : List (Label α)} (h : Sorted labs) :
    ∃ labs', checkloop o labs = some labs' ∧ Sorted labs' ∧ Covers labs' labs := by
  induction hn : labs.length using Nat.strong_induction_on generalizing labs with
  | h n ih =>
    cases labs with
    | nil => exact ⟨[], by rw [checkloop], h, .refl _⟩
    | cons lab labs =>
      obtain ⟨-, hproper, -⟩ := sorted_cons.mp h
      obtain ⟨lab', rest, habs, hsorted, hcovers⟩ := absorb_sorted ho h
      obtain ⟨hlab', hproper', hrest⟩ := sorted_cons.mp hsorted
      have hlen := absorb_length o habs
      obtain ⟨labs', hloop, hsorted', hcovers'⟩ :=
        ih rest.length (by rw [← hn, List.length_cons]; omega) hrest rfl
      refine ⟨lab' :: labs', ?_, ?_, (hcovers'.cons lab').trans hcovers⟩
      · rw [checkloop, if_neg (by rw [ho.gt, not_lt]; exact hproper)]
        split
        · rename_i hnone
          rw [habs] at hnone
          cases hnone
        · rename_i lab1 rest1 hsome
          rw [habs, Option.some.injEq, Prod.mk.injEq] at hsome
          rw [← hsome.1, ← hsome.2, hloop, Option.map_some]
      · refine sorted_cons.mpr ⟨fun m hm => ?_, hproper', hsorted'⟩
        obtain ⟨l, hl, -, hstart, -⟩ := hcovers'.holds m hm m.start le_rfl (hsorted'.proper m hm)
        exact (hlab' l hl).trans_le hstart

theorem checklabels_sorted {arms : List (Arm α)} (h : Apart (labels 0 arms)) :
    ∃ labs, checklabels o arms = some labs ∧ Sorted labs ∧ Covers labs (labels 0 arms) := by
  obtain ⟨labs, hloop, hsorted, hcovers⟩ := checkloop_sorted ho (casesort_apart ho h)
  have hperm := casesort_perm o (labels 0 arms)
  refine ⟨labs, hloop, hsorted, hcovers.trans ⟨?_, ?_⟩⟩
  · exact fun lab hlab => ⟨lab, hperm.symm.subset hlab, rfl, le_rfl, le_rfl⟩
  · exact fun lab hlab _ hv hv' => ⟨lab, hperm.subset hlab, rfl, hv, hv'⟩

omit ho in
theorem Sorted.lt {labs : List (Label α)} (h : Sorted labs) {i j : ℕ} {a b : Label α}
    (hij : i < j) (ha : labs[i]? = some a) (hb : labs[j]? = some b) : a.stop < b.start :=
  pairwise_get h.apart hij ha hb

omit ho in
theorem Sorted.start_le_iff {labs : List (Label α)} (h : Sorted labs) {i j : ℕ}
    {lab b : Label α} {v : α} (hi : labs[i]? = some lab) (hv : lab.start ≤ v)
    (hv' : v ≤ lab.stop) (hb : labs[j]? = some b) : b.start ≤ v ↔ j ≤ i := by
  rcases lt_trichotomy j i with hlt | rfl | hgt
  · have hbefore := h.lt hlt hb hi
    have hproper := h.proper b (List.mem_of_getElem? hb)
    exact iff_of_true ((hproper.trans hbefore.le).trans hv) hlt.le
  · rw [hi, Option.some.injEq] at hb
    exact iff_of_true (hb ▸ hv) le_rfl
  · exact iff_of_false (not_le.mpr (hv'.trans_lt (h.lt hgt hi hb))) (not_le.mpr hgt)

theorem findloop_eq {labs : List (Label α)} {v : α} {i l r : ℕ}
    (hbefore : ∀ j b, labs[j]? = some b → (b.start ≤ v ↔ j ≤ i))
    (hl : 1 ≤ l) (hli : l ≤ i + 1) (hir : i ≤ r) (hr : r < labs.length) :
    findloop o v labs l r = some (i + 1) := by
  induction hn : r + 1 - l using Nat.strong_induction_on generalizing l r with
  | h n ih =>
    rw [findloop]
    by_cases hlr : l ≤ r
    · have hm : (r + l) / 2 < labs.length := by omega
      have hget := List.getElem?_eq_getElem hm
      have hiff := hbefore _ _ hget
      rw [← ho.le] at hiff
      rw [if_pos hlr, hget]
      by_cases hcmp : o.cmp labs[(r + l) / 2].start v ≤ 0
      · have hmi := hiff.mp hcmp
        simp only [if_pos hcmp]
        exact ih _ (by omega) (by omega) (by omega) hir hr rfl
      · have hmi := mt hiff.mpr hcmp
        simp only [if_neg hcmp]
        rw [if_neg (by omega)]
        exact ih _ (by omega) hl (by omega) (by omega) (by omega) rfl
    · rw [if_neg hlr, Option.some.injEq]
      omega

theorem findlab_eq {labs : List (Label α)} (h : Sorted labs) {i : ℕ} {lab : Label α} {v : α}
    (hi : labs[i]? = some lab) (hv : lab.start ≤ v) (hv' : v ≤ lab.stop) :
    findlab o v labs = some i := by
  have hlt : i < labs.length := (List.getElem?_eq_some_iff.mp hi).1
  rw [findlab]
  split_ifs with hlen
  · rw [Option.some.injEq]
    omega
  have hloop : findloop o v labs 1 (labs.length - 1) = some (i + 1) :=
    findloop_eq ho (fun j b hb => h.start_le_iff hi hv hv' hb) le_rfl (by omega) (by omega)
      (by omega)
  have hin : ¬(0 < o.cmp lab.start v ∨ o.cmp lab.stop v < 0) := by
    rw [ho.gt, ho.lt, not_or, not_lt, not_lt]
    exact ⟨hv, hv'⟩
  simp only [hloop, Option.bind_eq_bind, Option.bind_some, Nat.add_sub_cancel, hi, if_neg hin]

end Compares

end Infernode.Cases
