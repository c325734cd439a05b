import Infernode.Cases.Compile

/-!
# Dispatch

What `icase`, `casel` and `igoto` do with the words of a table. A read outside the words is
`none`. The search halves the rows between the rows below the value and those above it.
-/

namespace Infernode.Cases

open Dis (int IsInt)

def caseloop (stride : ℕ) (words : List ℤ) (v d : ℤ) (t n : ℕ) : Option ℤ :=
  if n = 0 then some d
  else
    match words[t + n / 2 * stride]?, words[t + n / 2 * stride + 1]? with
    | some lo, some hi =>
      if v < lo then caseloop stride words v d t (n / 2)
      else if hi ≤ v then
        caseloop stride words v d (t + n / 2 * stride + stride) (n - (n / 2 + 1))
      else words[t + n / 2 * stride + 2]?
    | _, _ => none
termination_by n

def casecount (n : ℤ) : ℕ := if n < 0 then (-n - 1).toNat else n.toNat

def search (head stride : ℕ) (words : List ℤ) (v : ℤ) : Option ℤ :=
  match words[0]? with
  | none => none
  | some n =>
    match words[head + casecount n * stride]? with
    | none => none
    | some d => caseloop stride words v d head (casecount n)

theorem search_reads {head stride : ℕ} {words : List ℤ} {v n d : ℤ} (hn : words[0]? = some n)
    (hd : words[head + casecount n * stride]? = some d) :
    search head stride words v = caseloop stride words v d head (casecount n) := by
  simp only [search, hn, hd]

def icase (words : List ℤ) (v : ℤ) : Option ℤ := search 1 3 words v

def casel (words : List ℤ) (v : ℤ) : Option ℤ := search 2 4 words v

def igoto (words : List ℤ) (v : ℤ) : Option ℤ :=
  if v < 0 then none else words[1 + v.toNat]?

def IntCode.run (v : ℤ) : IntCode → Option ℤ
  | .table words => icase words v
  | .goto first last wild words =>
    let v := if first ≠ 0 then int (v - first) else v
    if v < 0 then some wild
    else if last < v then some wild
    else igoto words v

structure Row where
  lo : ℤ
  hi : ℤ
  pc : ℤ

def Row.words (pad : List ℤ) (r : Row) : List ℤ := [r.lo, r.hi, r.pc] ++ pad

def Ordered (rows : List Row) : Prop := rows.Pairwise fun a b => a.lo < b.lo ∧ a.hi ≤ b.lo

def Row.Has (r : Row) (v : ℤ) : Prop := r.lo ≤ v ∧ v < r.hi

def RowsAt (stride : ℕ) (words : List ℤ) (t : ℕ) (rows : List Row) : Prop :=
  ∀ i r, rows[i]? = some r → words[t + i * stride]? = some r.lo ∧
    words[t + i * stride + 1]? = some r.hi ∧ words[t + i * stride + 2]? = some r.pc

theorem Ordered.lt {rows : List Row} (h : Ordered rows) {i j : ℕ} {a b : Row} (hij : i < j)
    (ha : rows[i]? = some a) (hb : rows[j]? = some b) : a.lo < b.lo ∧ a.hi ≤ b.lo :=
  pairwise_get h hij ha hb

variable {stride t n : ℕ} {words : List ℤ} {rows : List Row} {v d : ℤ}

theorem forall_of_take {α : Type} {P : α → Prop} {l : List α} {m : ℕ} (h : ∀ a ∈ l.take m, P a)
    (hrest : ∀ i a, m ≤ i → l[i]? = some a → P a) : ∀ a ∈ l, P a := by
  intro a ha
  obtain ⟨i, hi⟩ := List.mem_iff_getElem?.mp ha
  by_cases hlt : i < m
  · refine h a (List.mem_iff_getElem?.mpr ⟨i, ?_⟩)
    rw [List.getElem?_take, if_pos hlt, hi]
  · exact hrest i a (not_lt.mp hlt) hi

theorem forall_of_drop {α : Type} {P : α → Prop} {l : List α} {m : ℕ}
    (h : ∀ a ∈ l.drop (m + 1), P a) (hfirst : ∀ i a, i ≤ m → l[i]? = some a → P a) :
    ∀ a ∈ l, P a := by
  intro a ha
  obtain ⟨i, hi⟩ := List.mem_iff_getElem?.mp ha
  by_cases hgt : m < i
  · refine h a (List.mem_iff_getElem?.mpr ⟨i - (m + 1), ?_⟩)
    rw [List.getElem?_drop, ← hi]
    congr 1
    omega
  · exact hfirst i a (not_lt.mp hgt) hi

theorem caseloop_eq (hrows : Ordered rows) (hat : RowsAt stride words t rows)
    (hn : n = rows.length) :
    (∃ r ∈ rows, r.Has v ∧ caseloop stride words v d t n = some r.pc) ∨
      ((∀ r ∈ rows, ¬r.Has v) ∧ caseloop stride words v d t n = some d) := by
  induction n using Nat.strong_induction_on generalizing t rows with
  | h n ih =>
    by_cases hzero : n = 0
    · have hnil : rows = [] := List.length_eq_zero_iff.mp (hn ▸ hzero)
      refine .inr ⟨by simp [hnil], ?_⟩
      rw [caseloop, if_pos hzero]
    have hm : n / 2 < rows.length := by omega
    have hget := List.getElem?_eq_getElem hm
    obtain ⟨hlo, hhi, hpc⟩ := hat (n / 2) _ hget
    generalize hr : rows[n / 2] = r at hget hlo hhi hpc
    rw [caseloop, if_neg hzero, hlo, hhi]
    simp only
    split_ifs with hbelow habove
    · -- nothing from the middle on has the value
      have hleft : RowsAt stride words t (rows.take (n / 2)) := by
        intro i a hi
        rw [List.getElem?_take] at hi
        split_ifs at hi
        exact hat i a hi
      have hord : Ordered (rows.take (n / 2)) := List.Pairwise.sublist (List.take_sublist _ _) hrows
      rcases ih (n / 2) (by omega) hord hleft (by simp; omega) with ⟨a, ha, hin⟩ | ⟨hnone, hrun⟩
      · exact .inl ⟨a, List.mem_of_mem_take ha, hin⟩
      · refine .inr ⟨forall_of_take hnone fun i a hle hi hin => ?_, hrun⟩
        rcases Nat.lt_or_eq_of_le hle with hgt | heq
        · exact absurd (hin.1.trans_lt hbelow) (not_lt.mpr (hrows.lt hgt hget hi).1.le)
        · rw [← heq, hget, Option.some.injEq] at hi
          exact absurd (hi ▸ hin.1) (not_le.mpr hbelow)
    · -- nothing up to the middle has it
      have hright : RowsAt stride words (t + n / 2 * stride + stride) (rows.drop (n / 2 + 1)) := by
        intro i a hi
        rw [List.getElem?_drop] at hi
        have hplace := hat (n / 2 + 1 + i) a hi
        rwa [show t + (n / 2 + 1 + i) * stride = t + n / 2 * stride + stride + i * stride by ring]
          at hplace
      have hord : Ordered (rows.drop (n / 2 + 1)) :=
        List.Pairwise.sublist (List.drop_sublist _ _) hrows
      rcases ih (n - (n / 2 + 1)) (by omega) hord hright (by simp; omega) with
        ⟨a, ha, hin⟩ | ⟨hnone, hrun⟩
      · exact .inl ⟨a, List.mem_of_mem_drop ha, hin⟩
      · refine .inr ⟨forall_of_drop hnone fun i a hle hi hin => ?_, hrun⟩
        rcases Nat.lt_or_eq_of_le hle with hlt | heq
        · have hbefore := (hrows.lt hlt hi hget).2
          exact absurd (hbefore.trans (not_lt.mp hbelow)) (not_le.mpr hin.2)
        · rw [heq, hget, Option.some.injEq] at hi
          exact absurd (hi ▸ hin.2) (not_lt.mpr habove)
    · refine .inl ⟨r, List.mem_of_getElem? hget, ⟨not_lt.mp hbelow, not_le.mp habove⟩, hpc⟩

/-!
## Case statements

A statement is its arms and where their code begins. Its labels do not overlap, its values
are those of its type, and the compiler counts labels and instructions in ints. A value goes
to the arm that has it, or to the wild arm, or past the statement. In a table every label
leads to the code of its own arm.
-/

open Dis (int IsInt int_eq)

section

variable {α : Type} [LinearOrder α]

def Qual.has (v : α) : Qual α → Bool
  | .const val => v == val
  | .range start stop => decide (start ≤ v) && decide (v ≤ stop)
  | .wild => false

structure Stmt (α : Type) [LinearOrder α] (ok : α → Prop) where
  arms : List (Arm α)
  base : ℕ
  apart : Apart (labels 0 arms)
  values : ∀ lab ∈ labels 0 arms, ok lab.start ∧ ok lab.stop
  few : (labels 0 arms).length < 2 ^ 31 - 1
  small : armpc base arms arms.length < 2 ^ 31

def dest (base : ℕ) (arms : List (Arm α)) (v : α) : ℕ :=
  match arms.findIdx? fun arm => arm.quals.any (Qual.has v) with
  | some node => armpc base arms node
  | none => wildpc base arms

variable {arms : List (Arm α)} {v : α} {lab l l' : Label α} {labs : List (Label α)} {base k : ℕ}

theorem has_label {q : Qual α} : q.has v = true ↔ ∃ l, q.label k = some l ∧ l.Holds k v := by
  cases q with
  | const val =>
    simp only [Qual.has, Qual.label, Option.some.injEq, exists_eq_left', Label.Holds, true_and,
      beq_iff_eq]
    exact ⟨fun h => ⟨h.ge, h.le⟩, fun h => le_antisymm h.2 h.1⟩
  | range start stop => simp [Qual.has, Qual.label, Label.Holds]
  | wild => simp [Qual.has, Qual.label]

omit [LinearOrder α] in
theorem mem_labels {node : ℕ} : lab ∈ labels node arms ↔
    ∃ (k : ℕ) (arm : Arm α), arms[k]? = some arm ∧
      ∃ q ∈ arm.quals, q.label (node + k) = some lab := by
  induction arms generalizing node with
  | nil => simp [labels]
  | cons arm arms ih =>
    rw [labels, List.mem_append, List.mem_filterMap, ih]
    constructor
    · rintro (h | ⟨k, arm', hk, hq⟩)
      · exact ⟨0, arm, rfl, h⟩
      · refine ⟨k + 1, arm', by simpa using hk, ?_⟩
        rwa [show node + (k + 1) = node + 1 + k by omega]
    · rintro ⟨k, arm', hk, hq⟩
      cases k with
      | zero =>
        rw [List.getElem?_cons_zero, Option.some.injEq] at hk
        exact .inl (hk ▸ hq)
      | succ k =>
        refine .inr ⟨k, arm', by simpa using hk, ?_⟩
        rwa [show node + 1 + k = node + (k + 1) by omega]

theorem holds_iff : (∃ l ∈ labels 0 arms, l.Holds k v) ↔
    ∃ arm : Arm α, arms[k]? = some arm ∧ ∃ q ∈ arm.quals, q.has v = true := by
  constructor
  · rintro ⟨l, hl, hholds⟩
    obtain ⟨k', arm, hk, q, hq, hlabel⟩ := mem_labels.mp hl
    rw [Nat.zero_add] at hlabel
    have hnode : l.node = k' := by
      cases q with
      | const val | range start stop =>
        simp only [Qual.label, Option.some.injEq] at hlabel; rw [← hlabel]
      | wild => simp [Qual.label] at hlabel
    obtain rfl : k' = k := hnode.symm.trans hholds.1
    exact ⟨arm, hk, q, hq, has_label.mpr ⟨l, hlabel, hholds⟩⟩
  · rintro ⟨arm, hk, q, hq, hhas⟩
    obtain ⟨l, hlabel, hholds⟩ := has_label.mp hhas
    exact ⟨l, mem_labels.mpr ⟨k, arm, hk, q, hq, by simpa using hlabel⟩, hholds⟩

theorem Apart.eq (h : Apart labs) (hl : l ∈ labs) (hl' : l' ∈ labs) (hv : l.start ≤ v)
    (hv' : v ≤ l.stop) (hw : l'.start ≤ v) (hw' : v ≤ l'.stop) : l = l' := by
  by_contra hne
  have hsymm : Std.Symm fun a b : Label α => a.stop < b.start ∨ b.stop < a.start :=
    ⟨fun _ _ h => h.symm⟩
  rcases h.apart.forall hl hl' hne with hlt | hlt
  · exact absurd (hw.trans hv') (not_le.mpr hlt)
  · exact absurd (hv.trans hw') (not_le.mpr hlt)

theorem dest_arm (h : Apart (labels 0 arms)) (hl : l ∈ labels 0 arms) (hholds : l.Holds k v) :
    dest base arms v = armpc base arms k := by
  obtain ⟨arm, hk, q, hq, hhas⟩ := holds_iff.mp ⟨l, hl, hholds⟩
  have hany : arm.quals.any (Qual.has v) = true := List.any_eq_true.mpr ⟨q, hq, hhas⟩
  rw [dest]
  cases hfind : arms.findIdx? fun arm => arm.quals.any (Qual.has v) with
  | none =>
    rw [List.findIdx?_eq_none_iff] at hfind
    rw [hfind arm (List.mem_of_getElem? hk)] at hany
    cases hany
  | some k' =>
    obtain ⟨hlt, hhas', -⟩ := List.findIdx?_eq_some_iff_getElem.mp hfind
    obtain ⟨q', hq', hqv⟩ := List.any_eq_true.mp hhas'
    obtain ⟨l', hl', hholds'⟩ :=
      holds_iff.mpr ⟨arms[k'], List.getElem?_eq_getElem hlt, q', hq', hqv⟩
    have heq := h.eq hl hl' hholds.2.1 hholds.2.2 hholds'.2.1 hholds'.2.2
    rw [← hholds.1, ← hholds'.1, heq]

theorem dest_wild (hnone : ∀ l ∈ labels 0 arms, ¬l.Holds l.node v) :
    dest base arms v = wildpc base arms := by
  rw [dest]
  cases hfind : arms.findIdx? fun arm => arm.quals.any (Qual.has v) with
  | none => rfl
  | some k =>
    obtain ⟨hlt, hhas, -⟩ := List.findIdx?_eq_some_iff_getElem.mp hfind
    obtain ⟨q, hq, hqv⟩ := List.any_eq_true.mp hhas
    obtain ⟨l, hl, hholds⟩ := holds_iff.mpr ⟨arms[k], List.getElem?_eq_getElem hlt, q, hq, hqv⟩
    exact absurd ⟨rfl, hholds.2⟩ (hnone l hl)

omit [LinearOrder α] in
theorem armpc_mono {j : ℕ} (hkj : k ≤ j) : armpc base arms k ≤ armpc base arms j := by
  rw [armpc, armpc]
  have hsplit : arms.take j = arms.take k ++ (arms.drop k).take (j - k) := by
    rw [← List.take_add, Nat.add_sub_cancel' hkj]
  rw [hsplit, List.map_append, List.sum_append]
  omega

omit [LinearOrder α] in
theorem armpc_lt {j : ℕ} (hk : k < arms.length) (hkj : k < j) :
    armpc base arms k < armpc base arms j := by
  have hone : armpc base arms k < armpc base arms (k + 1) := by
    rw [armpc, armpc, List.take_add_one, List.getElem?_eq_getElem hk, List.map_append,
      List.sum_append]
    simp
  exact hone.trans_le (armpc_mono hkj)

omit [LinearOrder α] in
theorem armpc_inj {j : ℕ} (hk : k < arms.length)
    (h : armpc base arms k = armpc base arms j) : k = j := by
  rcases lt_trichotomy k j with hlt | heq | hgt
  · exact absurd h (armpc_lt hk hlt).ne
  · exact heq
  · exact absurd h (armpc_lt (hgt.trans hk) hgt).ne'

omit [LinearOrder α] in
theorem wildarm_lt {node : ℕ} {wild : Option ℕ} (hwild : ∀ w ∈ wild, w < node) :
    ∀ w ∈ wildarm node wild arms, w < node + arms.length := by
  induction arms generalizing node wild with
  | nil => simpa [wildarm] using hwild
  | cons arm arms ih =>
    rw [wildarm]
    intro w hw
    have hnext : w < node + 1 + arms.length := by
      refine ih (fun w hw => ?_) w hw
      split_ifs at hw
      · rw [Option.mem_some_iff] at hw
        omega
      · exact (hwild w hw).trans (Nat.lt_succ_self _)
    simp only [List.length_cons]
    omega

omit [LinearOrder α] in
theorem wildarm_mem {w : ℕ} (h : wildarm 0 none arms = some w) : w < arms.length := by
  have hlt := wildarm_lt (fun w (hw : w ∈ (none : Option ℕ)) => absurd hw (by simp)) w
    (show w ∈ wildarm 0 none arms from h)
  rwa [Nat.zero_add] at hlt

omit [LinearOrder α] in
theorem wildpc_le (base : ℕ) (arms : List (Arm α)) :
    wildpc base arms ≤ armpc base arms arms.length := by
  refine armpc_mono ?_
  cases h : wildarm 0 none arms with
  | none => exact le_rfl
  | some w =>
    have hlt := wildarm_mem h
    rw [Option.getD_some]
    omega

omit [LinearOrder α] in
theorem armpc_eq_wildpc (hk : k < arms.length) :
    armpc base arms k = wildpc base arms ↔ wildarm 0 none arms = some k := by
  rw [wildpc]
  cases h : wildarm 0 none arms with
  | none =>
    rw [Option.getD_none]
    exact iff_of_false (armpc_lt hk hk).ne (by simp)
  | some w =>
    have hlt := wildarm_mem h
    rw [Option.getD_some, Option.some.injEq]
    exact ⟨fun heq => (armpc_inj hk heq).symm, fun heq => by rw [heq]⟩

omit [LinearOrder α] in
theorem node_lt (hl : l ∈ labels 0 arms) : l.node < arms.length := by
  obtain ⟨k, arm, hk, q, hq, hlabel⟩ := mem_labels.mp hl
  have hlt := (List.getElem?_eq_some_iff.mp hk).1
  cases q with
  | const val => simp only [Qual.label, Option.some.injEq] at hlabel; simpa [← hlabel] using hlt
  | range start stop =>
    simp only [Qual.label, Option.some.injEq] at hlabel; simpa [← hlabel] using hlt
  | wild => simp [Qual.label] at hlabel

end

end Infernode.Cases
