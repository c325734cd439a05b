import Infernode.Cases.Exact
import Infernode.Cases.Strsearch

/-!
# Case dispatch

A statement on ints or bigs is exact but for a label that ends at the largest value; a
statement on strings always is.
-/

namespace Infernode.Cases

open Dis (int IsInt int_eq int_isInt)
open Limbo (Str bytes)

def StrStmt := Stmt Str fun _ => True

namespace StrStmt

def Exact (s : StrStmt) : Prop :=
  ∃ words, casecomstr s.base s.arms = some words ∧
    ∀ v, casec words v = some (dest s.base (s.arms.map Arm.runes) v : ℤ)

def rowof (s : StrStmt) (lab : Label Str) : StrRow :=
  ⟨runes lab.start, if lab.single then none else some (runes lab.stop),
    int (armpc s.base s.arms lab.node)⟩

variable (s : StrStmt) {labs : List (Label Str)}

theorem rowof_upper {lab : Label Str} (hlab : lab ∈ labels 0 s.arms) :
    (s.rowof lab).upper = runes lab.stop := by
  rw [StrRow.upper, rowof]
  cases hsingle : lab.single with
  | false => rfl
  | true =>
    rw [label_single hlab hsingle]
    rfl

theorem rowof_has {lab : Label Str} (hlab : lab ∈ labels 0 s.arms) (v : List ℤ) :
    (s.rowof lab).Has v ↔ lab.runes.Holds lab.node v := by
  rw [StrRow.Has, s.rowof_upper hlab, Label.Holds]
  exact ⟨fun h => ⟨rfl, h⟩, fun h => h.2⟩

theorem rows_ordered (hs : Sorted labs) (hmem : ∀ lab ∈ labs, lab ∈ labels 0 s.arms) :
    StrRow.Ordered (labs.map s.rowof) where
  apart := by
    rw [List.pairwise_map]
    refine hs.apart.imp_of_mem fun {a b} ha _ hab => ?_
    rw [s.rowof_upper (hmem a ha)]
    exact runes_strictMono hab
  proper := by
    intro r hr
    obtain ⟨lab, hlab, rfl⟩ := List.mem_map.mp hr
    rw [s.rowof_upper (hmem lab hlab)]
    exact runes_strictMono.monotone (hs.proper lab hlab)

theorem code (hs : Sorted labs) (hcheck : checklabels strorder s.arms = some labs)
    (hc : Covers labs (labels 0 s.arms)) : casecomstr s.base s.arms =
      some (StrRow.strwords (labs.map s.rowof) (int (wildpc s.base s.arms))) := by
  have harms := setarms_table strorder_lawful hs hc s.apart
  have hrows := mapM_some (f := strrow s.base s.arms)
    (g := fun lab => (s.rowof lab).cells)
    (l := labs.map fun lab => { lab with inst := some lab.node })
    (by
      intro lab hlab
      obtain ⟨lab, -, rfl⟩ := List.mem_map.mp hlab
      cases hsingle : lab.single <;> simp [strrow, rowof, StrRow.cells, c2string_bytes])
  simp [casecomstr, hcheck, harms, hrows, StrRow.strwords, Function.comp_def, rowof]

theorem exact : s.Exact := by
  obtain ⟨labs, hcheck, hs, hc⟩ := checklabels_sorted strorder_lawful s.apart
  have hlen := (checklabels_length strorder hcheck).trans_lt s.few
  have hsame := checkloop_same (fun _ _ => rfl) hcheck
  have hperm : labs.Perm (labels 0 s.arms) := hsame ▸ casesort_perm strorder _
  have hapart : Apart (labels 0 (s.arms.map Arm.runes)) := by
    rw [labels_runes]
    exact s.apart.runes
  have hordered := s.rows_ordered hs fun lab hlab => hperm.subset hlab
  refine ⟨_, s.code hs hcheck hc, fun v => ?_⟩
  rcases StrRow.casec_eq hordered (by rw [List.length_map]; omega) v
    (int (wildpc s.base s.arms)) with ⟨r, hr, hin, hrun⟩ | ⟨hnone, hrun⟩
  · obtain ⟨lab, hlab, rfl⟩ := List.mem_map.mp hr
    have hmem := hperm.subset hlab
    have hlt := node_lt hmem
    have hle : armpc s.base s.arms lab.node ≤ armpc s.base s.arms s.arms.length :=
      armpc_mono hlt.le
    have hsmall := s.small
    have hdest : dest s.base (s.arms.map Arm.runes) v =
        armpc s.base (s.arms.map Arm.runes) lab.node := dest_arm hapart
      (by rw [labels_runes]; exact List.mem_map_of_mem hmem) ((s.rowof_has hmem v).mp hin)
    rw [hrun, hdest, armpc_runes, rowof, int_eq ⟨by omega, by omega⟩]
  · have hwild : dest s.base (s.arms.map Arm.runes) v = wildpc s.base s.arms := by
      rw [← wildpc_runes]
      refine dest_wild fun l hl hholds => ?_
      rw [labels_runes] at hl
      obtain ⟨lab, hlab, rfl⟩ := List.mem_map.mp hl
      exact hnone _ (List.mem_map_of_mem (hperm.symm.subset hlab))
        ((s.rowof_has hlab v).mpr hholds)
    have hle := wildpc_le s.base s.arms
    have hsmall := s.small
    rw [hrun, hwild, int_eq ⟨by omega, by omega⟩]

end StrStmt

/-- Exact are the statements without a label that ends at the largest value, those whose
label there leads to the wild arm of a table, and those where it is a constant of a table of
gotos with as many labels as values. -/
theorem exact_except_largest (ints : IntStmt) (bigs : BigStmt) (strs : StrStmt) :
    (ints.Exact ↔ ints.Keeps) ∧ (bigs.Exact ↔ bigs.Keeps) ∧ strs.Exact :=
  ⟨ints.exact_iff, bigs.exact_iff, strs.exact⟩

theorem checklabels_one {α : Type} [LinearOrder α] {o : Order α} (ho : o.Lawful) {l : Label α}
    {arms : List (Arm α)} (hl : labels 0 arms = [l]) (hproper : l.start ≤ l.stop) :
    checklabels o arms = some [l] := by
  have hnot : ¬0 < o.cmp l.start l.stop := by
    rw [ho.gt, not_lt]
    exact hproper
  rw [checklabels, hl, casesort, if_pos (by simp), checkloop, if_neg hnot]
  simp [absorb, checkloop]

def lastint : IntStmt where
  arms := [⟨[.const maxint], 1⟩]
  base := 2
  apart := ⟨by simp [labels, Qual.label], by simp [labels, Qual.label]⟩
  values := by
    simp [labels, Qual.label, IsInt, maxint]
  few := by simp [labels, Qual.label]
  small := by decide

def lastrange : IntStmt where
  arms := [⟨[.range (maxint - 2) maxint], 1⟩]
  base := 2
  apart := ⟨by simp [labels, Qual.label], by simp [labels, Qual.label]⟩
  values := by
    simp [labels, Qual.label, IsInt, maxint]
  few := by simp [labels, Qual.label]
  small := by decide

/-- The code of the constant leads its value past the statement; the compiler does not end
on the range. -/
theorem largest_lost :
    (casecomint 0 2 lastint.arms = some (.table [1, 2147483647, -2147483648, 2, 4]) ∧
      icase [1, 2147483647, -2147483648, 2, 4] 2147483647 = some 4 ∧
      dest 2 lastint.arms 2147483647 = 2 ∧ ¬lastint.Exact) ∧
    (∀ fuel, casecomint fuel 2 lastrange.arms = none) ∧ ¬lastrange.Exact := by
  have hcheck : checklabels intorder lastint.arms = some [⟨maxint, maxint, true, 0, none⟩] :=
    checklabels_one intorder_lawful rfl le_rfl
  have hrange : checklabels intorder lastrange.arms =
      some [⟨maxint - 2, maxint, false, 0, none⟩] :=
    checklabels_one intorder_lawful rfl (by norm_num)
  have hdiverges (fuel : ℕ) : casecomint fuel 2 lastrange.arms = none :=
    lastrange.goto_diverges hrange rfl (List.mem_singleton.mpr rfl) rfl (.inr rfl) fuel
  have hcode : casecomint 0 2 lastint.arms =
      some (.table [1, 2147483647, -2147483648, 2, 4]) := by
    refine (lastint.table_code hcheck (by decide) 0).trans ?_
    simp [tablewords, Cases.rowof, Row.words, lastint, maxint, armpc, wildpc, wildarm, int,
      Int.bmod_def]
  refine ⟨⟨hcode, ?_, rfl, ?_⟩, hdiverges, ?_⟩
  · simp [icase, search, casecount, caseloop]
  · rw [lastint.exact_table hcheck rfl]
    intro h
    have hwild := h ⟨maxint, maxint, true, 0, none⟩ (List.mem_singleton.mpr rfl) rfl
    cases hwild
  · rintro ⟨fuel, code, hcode, -⟩
    rw [show lastrange.base = 2 from rfl, hdiverges] at hcode
    cases hcode

end Infernode.Cases
