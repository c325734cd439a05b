import Infernode.Cases.Strings
import Infernode.Cases.Table

/-!
# The search for a string

Both loops of `casec` end in the row that has the string, or past the rows. A row has the
strings from its label to the upper bound, or just its label where there is no bound.
-/

namespace Infernode.Cases

open Dis (int int_eq)
open Limbo (Str bytes)

structure StrRow where
  lo : List ℤ
  hi : Option (List ℤ)
  pc : ℤ

namespace StrRow

def upper (r : StrRow) : List ℤ := r.hi.getD r.lo

def Has (r : StrRow) (v : List ℤ) : Prop := r.lo ≤ v ∧ v ≤ r.upper

def cells (r : StrRow) : List Cell :=
  [.str r.lo, match r.hi with | none => .nil | some s => .str s, .num r.pc]

/-- The rows are in order and none is empty. -/
structure Ordered (rows : List StrRow) : Prop where
  apart : rows.Pairwise fun a b => a.upper < b.lo
  proper : ∀ r ∈ rows, r.lo ≤ r.upper

def At (words : List Cell) (t : ℕ) (rows : List StrRow) : Prop :=
  ∀ i r, rows[i]? = some r → strAt words (t + i * 3) = some (some r.lo) ∧
    strAt words (t + i * 3 + 1) = some r.hi ∧ numAt words (t + i * 3 + 2) = some r.pc

theorem Ordered.lt {rows : List StrRow} (h : Ordered rows) {i j : ℕ} {a b : StrRow} (hij : i < j)
    (ha : rows[i]? = some a) (hb : rows[j]? = some b) : a.upper < b.lo :=
  pairwise_get h.apart hij ha hb

theorem Ordered.sublist {rows rows' : List StrRow} (h : Ordered rows) (hs : rows'.Sublist rows) :
    Ordered rows' :=
  ⟨h.apart.sublist hs, fun r hr => h.proper r (hs.subset hr)⟩

variable {words : List Cell} {v : List ℤ} {e t n : ℕ} {rows : List StrRow}

theorem Ordered.below (h : Ordered rows) {i j : ℕ} {a b : StrRow} (ha : rows[i]? = some a)
    (hb : rows[j]? = some b) (hij : i ≤ j) (hv : v < a.lo) : ¬b.Has v := by
  intro hin
  rcases hij.lt_or_eq with hlt | rfl
  · have hproper := h.proper a (List.mem_of_getElem? ha)
    exact absurd ((hv.trans_le hproper).trans (h.lt hlt ha hb)) (not_lt.mpr hin.1)
  · rw [ha, Option.some.injEq] at hb
    exact absurd hv (not_lt.mpr (hb ▸ hin.1))

theorem Ordered.above (h : Ordered rows) {i j : ℕ} {a b : StrRow} (ha : rows[i]? = some a)
    (hb : rows[j]? = some b) (hji : j ≤ i) (hv : a.upper < v) : ¬b.Has v := by
  intro hin
  rcases hji.lt_or_eq with hlt | rfl
  · have hproper := h.proper a (List.mem_of_getElem? ha)
    exact absurd ((h.lt hlt hb ha).trans_le (hproper.trans hv.le)) (not_lt.mpr hin.2)
  · rw [ha, Option.some.injEq] at hb
    exact absurd hv (not_lt.mpr (hb ▸ hin.2))

theorem casecloop_eq (hrows : Ordered rows) (hat : At words t rows) (hn : n = rows.length) :
    (∃ r ∈ rows, r.Has v ∧ ∃ l, casecloop words v e t n = some l ∧ numAt words l = some r.pc) ∨
      ((∀ r ∈ rows, ¬r.Has v) ∧ casecloop words v e t n = some e) := by
  induction n using Nat.strong_induction_on generalizing t rows with
  | h n ih =>
    by_cases hzero : n = 0
    · have hnil : rows = [] := List.length_eq_zero_iff.mp (hn ▸ hzero)
      refine .inr ⟨by simp [hnil], ?_⟩
      rw [casecloop, if_pos hzero]
    have hm : n / 2 < rows.length := by omega
    have hget := List.getElem?_eq_getElem hm
    obtain ⟨hlo, hhi, hpc⟩ := hat (n / 2) _ hget
    generalize hr : rows[n / 2] = r at hget hlo hhi hpc
    have hmem := List.mem_of_getElem? hget
    have hproper := hrows.proper r hmem
    -- the rows past the middle, when the string is above the middle one
    have hright (habove : r.upper < v) :
        (∃ r ∈ rows, r.Has v ∧ ∃ l, casecloop words v e (t + n / 2 * 3 + 3) (n - (n / 2 + 1)) =
          some l ∧ numAt words l = some r.pc) ∨
        ((∀ r ∈ rows, ¬r.Has v) ∧
          casecloop words v e (t + n / 2 * 3 + 3) (n - (n / 2 + 1)) = some e) := by
      have hplace : At words (t + n / 2 * 3 + 3) (rows.drop (n / 2 + 1)) := by
        intro i a hi
        rw [List.getElem?_drop] at hi
        have hplace := hat (n / 2 + 1 + i) a hi
        rwa [show t + (n / 2 + 1 + i) * 3 = t + n / 2 * 3 + 3 + i * 3 by ring] at hplace
      rcases ih (n - (n / 2 + 1)) (by omega) (hrows.sublist (List.drop_sublist _ _)) hplace
        (by simp; omega) with ⟨a, ha, hin⟩ | ⟨hnone, hrun⟩
      · exact .inl ⟨a, List.mem_of_mem_drop ha, hin⟩
      · refine .inr ⟨forall_of_drop hnone fun i a hle hi hin => ?_, hrun⟩
        exact hrows.above hget hi hle habove hin
    rw [casecloop, if_neg hzero, hlo, hhi]
    simp only [Option.getD_some, stringcmp_eq, stringcmp_lt, stringcmp_gt]
    split_ifs with heq hbelow
    · exact .inl ⟨r, hmem, ⟨heq.ge, heq ▸ hproper⟩, _, rfl, hpc⟩
    · have hplace : At words t (rows.take (n / 2)) := by
        intro i a hi
        rw [List.getElem?_take] at hi
        split_ifs at hi
        exact hat i a hi
      rcases ih (n / 2) (by omega) (hrows.sublist (List.take_sublist _ _)) hplace
        (by simp; omega) with ⟨a, ha, hin⟩ | ⟨hnone, hrun⟩
      · exact .inl ⟨a, List.mem_of_mem_take ha, hin⟩
      · refine .inr ⟨forall_of_take hnone fun i a hle hi hin => ?_, hrun⟩
        exact hrows.below hget hi hle hbelow hin
    · have hgt : r.lo < v := lt_of_le_of_ne (not_lt.mp hbelow) (Ne.symm heq)
      cases hsh : r.hi with
      | none => exact hright (by rw [upper, hsh]; exact hgt)
      | some sh =>
        have hupper : r.upper = sh := by rw [upper, hsh, Option.getD_some]
        simp only
        split_ifs with habove
        · exact hright (hupper ▸ habove)
        · exact .inl ⟨r, hmem, ⟨hgt.le, hupper ▸ not_lt.mp habove⟩, _, rfl, hpc⟩

theorem casecscan_eq (hat : At words t rows) :
    (∃ r ∈ rows, r.Has v ∧ ∃ l, casecscan words v t rows.length = some l ∧
      numAt words l = some r.pc) ∨
      ((∀ r ∈ rows, ¬r.Has v) ∧ casecscan words v t rows.length = some (t + rows.length * 3)) := by
  induction rows generalizing t with
  | nil => exact .inr ⟨by simp, by simp [casecscan]⟩
  | cons r rows ih =>
    obtain ⟨hlo, hhi, hpc⟩ := hat 0 r rfl
    rw [Nat.zero_mul, Nat.add_zero] at hlo hhi hpc
    have hrest : At words (t + 3) rows := by
      intro i a hi
      have hplace := hat (i + 1) a (by simpa using hi)
      rwa [show t + (i + 1) * 3 = t + 3 + i * 3 by ring] at hplace
    have hnext (hnot : ¬r.Has v) :
        (∃ a ∈ r :: rows, a.Has v ∧ ∃ l, casecscan words v (t + 3) rows.length = some l ∧
          numAt words l = some a.pc) ∨
        ((∀ a ∈ r :: rows, ¬a.Has v) ∧ casecscan words v (t + 3) rows.length =
          some (t + (r :: rows).length * 3)) := by
      rcases ih hrest with ⟨a, ha, hin⟩ | ⟨hnone, hrun⟩
      · exact .inl ⟨a, by simp [ha], hin⟩
      · refine .inr ⟨List.forall_mem_cons.mpr ⟨hnot, hnone⟩, ?_⟩
        rw [hrun, List.length_cons]
        congr 1
        omega
    rw [List.length_cons, casecscan, hlo, hhi]
    cases hsh : r.hi with
    | none =>
      have hupper : r.upper = r.lo := by rw [upper, hsh, Option.getD_none]
      simp only [Option.getD_some, stringcmp_eq]
      split_ifs with heq
      · exact .inl ⟨r, by simp, ⟨heq.le, hupper ▸ heq.ge⟩, _, rfl, hpc⟩
      · exact hnext fun hin => heq (le_antisymm hin.1 (hupper ▸ hin.2))
    | some sh =>
      have hupper : r.upper = sh := by rw [upper, hsh, Option.getD_some]
      have hlow : stringcmp r.lo v ≤ 0 ↔ r.lo ≤ v := by
        rw [← not_lt, stringcmp_gt, not_lt]
      have hhigh : 0 ≤ stringcmp sh v ↔ v ≤ sh := by
        rw [← not_lt, stringcmp_lt, not_lt]
      simp only [Option.getD_some, hlow, hhigh]
      split_ifs with hin
      · exact .inl ⟨r, by simp, ⟨hin.1, hupper ▸ hin.2⟩, _, rfl, hpc⟩
      · exact hnext fun h => hin ⟨h.1, hupper ▸ h.2⟩

def strwords (rows : List StrRow) (d : ℤ) : List Cell :=
  .num (int rows.length) :: (rows.map cells).flatten ++ [.num d]

theorem cells_length (rows : List StrRow) : (rows.map cells).flatten.length = rows.length * 3 := by
  induction rows with
  | nil => simp
  | cons r rows ih =>
    rw [List.map_cons, List.flatten_cons, List.length_append, ih, List.length_cons]
    simp only [cells, List.length_cons, List.length_nil]
    ring

theorem at_flatten (pre post : List Cell) (rows : List StrRow) :
    At (pre ++ (rows.map cells).flatten ++ post) pre.length rows := by
  induction rows generalizing pre with
  | nil => intro i r hi; simp at hi
  | cons a rows ih =>
    intro i r hi
    cases i with
    | zero =>
      rw [List.getElem?_cons_zero, Option.some.injEq] at hi
      subst hi
      cases hhi : a.hi <;> simp [strAt, numAt, cells, hhi]
    | succ i =>
      have hnext := ih (pre ++ a.cells) i r (by simpa using hi)
      have hlen : (pre ++ a.cells).length = pre.length + 3 := by simp [cells]
      rw [hlen] at hnext
      rw [show pre.length + (i + 1) * 3 = pre.length + 3 + i * 3 by ring]
      simpa using hnext

theorem casec_eq (hrows : Ordered rows) (hlen : rows.length < 2 ^ 31) (v : List ℤ) (d : ℤ) :
    (∃ r ∈ rows, r.Has v ∧ casec (strwords rows d) v = some r.pc) ∨
      ((∀ r ∈ rows, ¬r.Has v) ∧ casec (strwords rows d) v = some d) := by
  have hat : At (strwords rows d) 1 rows := at_flatten [.num (int rows.length)] [.num d] rows
  have hcount := casecount_rows hlen
  have hfirst : numAt (strwords rows d) 0 = some (int rows.length) := by
    simp [numAt, strwords]
  have hdefault : numAt (strwords rows d) (1 + rows.length * 3) = some d := by
    rw [numAt, strwords, List.getElem?_append_right
      (by simp only [List.length_cons, cells_length]; omega)]
    simp only [List.length_cons, cells_length]
    rw [show 1 + rows.length * 3 - (rows.length * 3 + 1) = 0 by omega]
    rfl
  simp only [casec, hfirst, hcount]
  split_ifs with hmany
  · rcases casecloop_eq (e := 1 + rows.length * 3) hrows hat rfl with
      ⟨r, hr, hin, l, hrun, hpc⟩ | ⟨hnone, hrun⟩
    · exact .inl ⟨r, hr, hin, by rw [hrun, Option.bind_some, hpc]⟩
    · exact .inr ⟨hnone, by rw [hrun, Option.bind_some, hdefault]⟩
  · rcases casecscan_eq hat with ⟨r, hr, hin, l, hrun, hpc⟩ | ⟨hnone, hrun⟩
    · exact .inl ⟨r, hr, hin, by rw [hrun, Option.bind_some, hpc]⟩
    · exact .inr ⟨hnone, by rw [hrun, Option.bind_some, hdefault]⟩

end StrRow

section

def Qual.runes : Qual Str → Qual (List ℤ)
  | .const val => .const (Cases.runes val)
  | .range start stop => .range (Cases.runes start) (Cases.runes stop)
  | .wild => .wild

def Arm.runes (arm : Arm Str) : Arm (List ℤ) := ⟨arm.quals.map Qual.runes, arm.size⟩

def Label.runes (lab : Label Str) : Label (List ℤ) :=
  ⟨Cases.runes lab.start, Cases.runes lab.stop, lab.single, lab.node, lab.inst⟩

variable {arms : List (Arm Str)} {labs : List (Label Str)} {base : ℕ}

theorem labels_runes (node : ℕ) :
    labels node (arms.map Arm.runes) = (labels node arms).map Label.runes := by
  induction arms generalizing node with
  | nil => rfl
  | cons arm arms ih =>
    have hqual : (fun q : Qual Str => (q.runes).label node) =
        fun q => (q.label node).map Label.runes := by
      funext q
      cases q <;> rfl
    rw [List.map_cons, labels, labels, ih, List.map_append]
    congr 1
    simp only [Arm.runes, List.filterMap_map, List.map_filterMap, Function.comp_def, hqual]

theorem armpc_runes (node : ℕ) : armpc base (arms.map Arm.runes) node = armpc base arms node := by
  simp only [armpc, ← List.map_take, List.map_map]
  rfl

theorem wildarm_runes (node : ℕ) (wild : Option ℕ) :
    wildarm node wild (arms.map Arm.runes) = wildarm node wild arms := by
  induction arms generalizing node wild with
  | nil => rfl
  | cons arm arms ih =>
    have hany (f : Qual (List ℤ) → Bool) (g : Qual Str → Bool) (h : ∀ q, f q.runes = g q) :
        arm.runes.quals.any f = arm.quals.any g := by
      simp only [Arm.runes, List.any_map, Function.comp_def, h]
    rw [List.map_cons, wildarm, wildarm, ih]
    refine congrArg (fun wild => wildarm (node + 1) wild arms) (if_congr ?_ rfl rfl)
    exact Bool.coe_iff_coe.mpr (hany _ _ fun q => by cases q <;> rfl)

theorem wildpc_runes : wildpc base (arms.map Arm.runes) = wildpc base arms := by
  simp only [wildpc, wildarm_runes, armpc_runes, List.length_map]

theorem Apart.runes (h : Apart labs) : Apart (labs.map Label.runes) where
  apart := by
    rw [List.pairwise_map]
    exact h.apart.imp fun hab => hab.imp (fun h => runes_strictMono h) fun h => runes_strictMono h
  proper := by
    intro lab hlab
    obtain ⟨l, hl, rfl⟩ := List.mem_map.mp hlab
    exact runes_strictMono.monotone (h.proper l hl)

theorem checkloop_same {α : Type} {o : Order α} (h : ∀ a b, o.joins a b = false)
    {labs labs' : List (Label α)} (hrun : checkloop o labs = some labs') : labs' = labs := by
  induction labs generalizing labs' with
  | nil =>
    rw [checkloop, Option.some.injEq] at hrun
    exact hrun.symm
  | cons lab labs ih =>
    have habsorb {lab' : Label α} {rest : List (Label α)}
        (habs : absorb o lab labs = some (lab', rest)) : lab' = lab ∧ rest = labs := by
      cases labs with
      | nil =>
        rw [absorb, Option.some.injEq, Prod.mk.injEq] at habs
        exact ⟨habs.1.symm, habs.2.symm⟩
      | cons e labs =>
        rw [absorb, h, Bool.false_and, if_neg Bool.false_ne_true] at habs
        split_ifs at habs
        rw [Option.some.injEq, Prod.mk.injEq] at habs
        exact ⟨habs.1.symm, habs.2.symm⟩
    rw [checkloop] at hrun
    split_ifs at hrun
    split at hrun
    · cases hrun
    · rename_i lab' rest habs
      obtain ⟨rfl, rfl⟩ := habsorb habs
      obtain ⟨labs1, hloop, rfl⟩ := Option.map_eq_some_iff.mp hrun
      rw [ih hloop]

theorem label_single {α : Type} {arms : List (Arm α)} {lab : Label α} (h : lab ∈ labels 0 arms)
    (hsingle : lab.single = true) : lab.stop = lab.start := by
  obtain ⟨k, arm, hk, q, hq, hlabel⟩ := mem_labels.mp h
  cases q with
  | const val =>
    obtain rfl := Option.some.inj hlabel
    rfl
  | range start stop =>
    obtain rfl := Option.some.inj hlabel
    cases hsingle
  | wild => cases hlabel

end

end Infernode.Cases
