import Infernode.Cases.Goto

/-!
# Case dispatch on ints and bigs

A statement on ints is exact unless a label ends at the largest int. In a table such a label
is never found; in a table of gotos the compiler does not end, but where the labels are as
many as the values and the label is a constant. A statement on bigs always has a table.
-/

namespace Infernode.Cases

open Dis (int IsInt int_eq int_isInt)

section

variable {first last : ℤ} {fuel base : ℕ} {labs : List (Label ℤ)} {arms : List (Arm ℤ)}

theorem Spans.values (h : Spans labs first last) (hc : Covers labs (labels 0 arms)) {l : Label ℤ}
    (hl : l ∈ labels 0 arms) : first ≤ l.start ∧ l.stop ≤ last := by
  obtain ⟨lab, hlab, -, hstart, hstop⟩ := hc.within l hl
  have hb := h.bounds hlab
  omega

variable (base) in
theorem setarms_goto (hapart : Apart (labels 0 arms)) (hsteps : Steps first labs)
    (hlen : (labs.length : ℤ) = last - first + 1) (hnone : ∀ lab ∈ labs, lab.inst = none)
    (hfirst : IsInt first) (hlast : IsInt last) (hfuel : last - first + 1 < fuel)
    (hbounds : ∀ l ∈ labels 0 arms, first ≤ l.start ∧ l.stop ≤ last)
    (hmax : ∀ l ∈ labels 0 arms, l.single = false → l.stop < maxint) :
    ∃ labs', setarms intorder (fillrange fuel) 0 labs arms = some labs' ∧ Like labs labs' ∧
      ∀ i : ℕ, i < labs.length → ∃ lab, labs'[i]? = some lab ∧
        (lab.inst.map (armpc base arms)).getD (wildpc base arms) =
          dest base arms (first + i) := by
  have hset : ∀ k arm, arms[k]? = some arm → ∀ q ∈ arm.quals, ∀ labs1, Like labs labs1 →
      ∃ labs', setqual intorder (fillrange fuel) (0 + k) labs1 q = some labs' ∧
        Marked (0 + k) (fun i => q.has (first + i) = true) labs1 labs' := by
    intro k arm hk q hq labs1 hlike
    cases hlabel : q.label (0 + k) with
    | none =>
      have hwild : q = .wild := by
        cases q with
        | const val | range start stop => cases hlabel
        | wild => rfl
      subst hwild
      exact ⟨labs1, rfl, rfl, fun i lab hi => ⟨lab.inst, hi, by simp [Qual.has], fun _ => rfl⟩⟩
    | some l =>
      have hl : l ∈ labels 0 arms := mem_labels.mpr ⟨k, arm, hk, q, hq, hlabel⟩
      exact setqual_goto hsteps hlen hlike hfirst hlast hfuel hlabel (hbounds l hl)
        (hapart.proper l hl) (hmax l hl)
  obtain ⟨labs', hrun, hlike, hinst⟩ := setarms_like hset (Like.refl labs)
  refine ⟨labs', hrun, hlike, fun i hi => ?_⟩
  obtain ⟨inst, hget, hcases⟩ := hinst i _ (List.getElem?_eq_getElem hi)
  refine ⟨_, hget, ?_⟩
  rcases hcases with ⟨hsame, huntouched⟩ | ⟨k, arm, hk, ⟨q, hq, hhas⟩, hsome⟩
  · have hwild : dest base arms (first + i) = wildpc base arms := by
      refine dest_wild fun l hl hholds => ?_
      obtain ⟨arm, hk, q, hq, hhas⟩ := holds_iff.mp ⟨l, hl, hholds⟩
      exact huntouched arm (List.mem_of_getElem? hk) q hq hhas
    rw [hwild, hsame, hnone _ (List.getElem_mem hi)]
    rfl
  · obtain ⟨l, hl, hholds⟩ := holds_iff.mpr ⟨arm, hk, q, hq, hhas⟩
    rw [dest_arm hapart hl hholds, hsome, Nat.zero_add]
    rfl

theorem dest_le (hapart : Apart (labels 0 arms)) (base : ℕ) (v : ℤ) :
    dest base arms v ≤ armpc base arms arms.length := by
  by_cases hin : ∃ l ∈ labels 0 arms, l.Holds l.node v
  · obtain ⟨l, hl, hholds⟩ := hin
    rw [dest_arm hapart hl hholds]
    exact armpc_mono (node_lt hl).le
  · push Not at hin
    rw [dest_wild hin]
    exact wildpc_le base arms

theorem goto_run (hapart : Apart (labels 0 arms))
    (hlen : (labs.length : ℤ) = last - first + 1) (hfirst : IsInt first) (hlast : IsInt last)
    (hextent : last - first + 1 < 2 ^ 31) (hsmall : armpc base arms arms.length < 2 ^ 31)
    (hbounds : ∀ l ∈ labels 0 arms, first ≤ l.start ∧ l.stop ≤ last)
    (hinst : ∀ i : ℕ, i < labs.length → ∃ lab, labs[i]? = some lab ∧
      (lab.inst.map (armpc base arms)).getD (wildpc base arms) = dest base arms (first + i))
    (n : ℤ) (tail : List ℤ) {v : ℤ} (hv : IsInt v) :
    (IntCode.goto first (last - first) (wildpc base arms)
      (n :: labs.map (fun lab =>
        int ((lab.inst.map (armpc base arms)).getD (wildpc base arms))) ++ tail)).run v =
      some (dest base arms v : ℤ) := by
  have hsub : (if first ≠ 0 then int (v - first) else v) = int (v - first) := by
    split_ifs with hzero
    · rfl
    · rw [not_not.mp hzero, sub_zero, int_eq hv]
  have hshift : ∃ k : ℤ, int (v - first) = v - first + k * 2 ^ 32 := by
    refine ⟨-Int.bdiv (v - first) (2 ^ 32), ?_⟩
    have hdiv := Int.bmod_add_bdiv (v - first) (2 ^ 32)
    norm_num at hdiv
    rw [int]
    norm_num
    linarith
  obtain ⟨k, hk⟩ := hshift
  obtain ⟨hv1, hv2⟩ := hv
  obtain ⟨hf1, hf2⟩ := hfirst
  obtain ⟨hl1, hl2⟩ := hlast
  have hin : 0 ≤ int (v - first) → int (v - first) ≤ last - first → k = 0 := by
    intro h1 h2
    omega
  have hout : first ≤ v → v ≤ last → int (v - first) = v - first := by
    intro h1 h2
    have := int_isInt (v - first)
    obtain ⟨hi1, hi2⟩ := this
    omega
  have hwild (h : v < first ∨ last < v) : dest base arms v = wildpc base arms := by
    refine dest_wild fun l hl hholds => ?_
    have hb := hbounds l hl
    have hh := hholds.2
    omega
  simp only [IntCode.run, hsub]
  split_ifs with hneg hbig
  · rw [hwild]
    by_contra hbetween
    rw [not_or, not_lt, not_lt] at hbetween
    have := hout hbetween.1 hbetween.2
    omega
  · rw [hwild]
    by_contra hbetween
    rw [not_or, not_lt, not_lt] at hbetween
    have := hout hbetween.1 hbetween.2
    omega
  · have hk0 := hin (not_lt.mp hneg) (not_lt.mp hbig)
    rw [hk0, zero_mul, add_zero] at hk
    rw [hk] at hneg hbig ⊢
    have hcast : ((v - first).toNat : ℤ) = v - first := Int.toNat_of_nonneg (by omega)
    have hlt : (v - first).toNat < labs.length := by omega
    obtain ⟨lab, hget, hdest⟩ := hinst _ hlt
    rw [hcast, add_sub_cancel] at hdest
    have hle := dest_le hapart base v
    rw [igoto, if_neg hneg, Nat.add_comm 1, List.cons_append, List.getElem?_cons_succ,
      List.getElem?_append_left (by rw [List.length_map]; exact hlt), List.getElem?_map, hget,
      Option.map_some, hdest, int_eq ⟨by omega, by omega⟩]

end

def IntStmt := Stmt ℤ IsInt

/-- The compiler ends, and the code leads every value where it should without a read outside
the table. -/
def IntStmt.Exact (s : IntStmt) : Prop :=
  ∃ fuel code, casecomint fuel s.base s.arms = some code ∧
    ∀ v, IsInt v → code.run v = some (dest s.base s.arms v : ℤ)

def IntStmt.Keeps (s : IntStmt) : Prop :=
  ∀ labs, checklabels intorder s.arms = some labs →
    ∀ lab ∈ labels 0 s.arms, lab.stop = maxint →
      if dense labs then extent labs = labs.length ∧ lab.single = true
      else wildarm 0 none s.arms = some lab.node

theorem Covers.ints {labs : List (Label ℤ)} {arms : List (Arm ℤ)} {ok : ℤ → Prop}
    (hc : Covers labs (labels 0 arms)) (hs : Sorted labs)
    (hok : ∀ a b c, ok a → ok b → a ≤ c → c ≤ b → ok c)
    (hvalues : ∀ lab ∈ labels 0 arms, ok lab.start ∧ ok lab.stop) :
    ∀ lab ∈ labs, ok lab.start ∧ ok lab.stop := by
  intro lab hlab
  have hproper := hs.proper lab hlab
  obtain ⟨l, hl, hholds⟩ := hc.holds lab hlab lab.start le_rfl hproper
  obtain ⟨l', hl', hholds'⟩ := hc.holds lab hlab lab.stop hproper le_rfl
  exact ⟨hok _ _ _ (hvalues l hl).1 (hvalues l hl).2 hholds.2.1 hholds.2.2,
    hok _ _ _ (hvalues l' hl').1 (hvalues l' hl').2 hholds'.2.1 hholds'.2.2⟩

theorem isInt_between (a b c : ℤ) (ha : IsInt a) (hb : IsInt b) (hac : a ≤ c) (hcb : c ≤ b) :
    IsInt c := ⟨ha.1.trans hac, hcb.trans_lt hb.2⟩


theorem le_maxint {v : ℤ} (h : IsInt v) : v ≤ maxint := by
  have := h.2
  rw [maxint]
  omega

theorem isInt_iff {v : ℤ} : IsInt v ↔ -2 ^ 31 ≤ v ∧ v ≤ maxint := by
  rw [IsInt, maxint]
  omega

namespace IntStmt

variable (s : IntStmt) {labs : List (Label ℤ)}
  (hcheck : checklabels intorder s.arms = some labs)
include hcheck

theorem checked : Sorted labs ∧ Covers labs (labels 0 s.arms) ∧ labs.length < 2 ^ 31 - 1 ∧
    ∀ lab ∈ labs, IsInt lab.start ∧ IsInt lab.stop := by
  obtain ⟨labs', hcheck', hs, hc⟩ := checklabels_sorted intorder_lawful s.apart
  obtain rfl : labs' = labs := Option.some.inj (hcheck'.symm.trans hcheck)
  exact ⟨hs, hc, (checklabels_length intorder hcheck).trans_lt s.few,
    hc.ints hs isInt_between s.values⟩

theorem table_code (hdense : dense labs = false) (fuel : ℕ) :
    casecomint fuel s.base s.arms = some (.table (tablewords []
      (labs.map (rowof s.base s.arms int)) (int (wildpc s.base s.arms)))) := by
  obtain ⟨hs, hc, -, -⟩ := s.checked hcheck
  have harms := setarms_table intorder_lawful hs hc s.apart
  simp only [casecomint, hcheck, Option.bind_eq_bind, Option.bind_some, hdense, harms,
    Bool.false_eq_true, if_false, table_eq, Option.map_some]

theorem exact_table (hdense : dense labs = false) : s.Exact ↔
    ∀ lab ∈ labels 0 s.arms, lab.stop = maxint → wildarm 0 none s.arms = some lab.node := by
  obtain ⟨hs, hc, hlen, -⟩ := s.checked hcheck
  have hcut : ∀ n : ℤ, -2 ^ 31 ≤ n → n ≤ maxint → int n = n :=
    fun n h1 h2 => int_eq (isInt_iff.mpr ⟨h1, h2⟩)
  have hend : int (maxint + 1) = -2 ^ 31 := by decide
  have hvalues : ∀ lab ∈ labels 0 s.arms, -2 ^ 31 ≤ lab.start ∧ lab.stop ≤ maxint :=
    fun lab hlab => ⟨(s.values lab hlab).1.1, le_maxint (s.values lab hlab).2⟩
  have hexact := table_exact s.base [] hcut hend s.apart hvalues
    (by omega) s.small hs hc
  refine Iff.trans ?_ hexact
  constructor
  · rintro ⟨fuel, code, hcode, hrun⟩ v hv hv'
    rw [s.table_code hcheck hdense, Option.some.injEq] at hcode
    subst hcode
    exact hrun v (isInt_iff.mpr ⟨hv, hv'⟩)
  · intro hrun
    refine ⟨0, _, s.table_code hcheck hdense 0, fun v hv => ?_⟩
    exact hrun v hv.1 (le_maxint hv)

theorem ends_max {lab : Label ℤ} (hlab : lab ∈ labels 0 s.arms) (hmax : lab.stop = maxint) :
    ∃ l ∈ labs, l.stop = maxint := by
  obtain ⟨-, hc, -, hints⟩ := s.checked hcheck
  obtain ⟨l, hl, -, -, hstop⟩ := hc.within lab hlab
  exact ⟨l, hl, le_antisymm (le_maxint (hints l hl).2) (hmax ▸ hstop)⟩

theorem goto_diverges (hdense : dense labs = true) {lab : Label ℤ} (hlab : lab ∈ labels 0 s.arms)
    (hmax : lab.stop = maxint) (h : extent labs ≠ labs.length ∨ lab.single = false) (fuel : ℕ) :
    casecomint fuel s.base s.arms = none := by
  simp only [casecomint, hcheck, Option.bind_eq_bind, Option.bind_some, hdense, if_true]
  rcases h with hextent | hsingle
  · have hdogoto : dogoto fuel labs = none := by
      rw [dogoto, if_pos hextent, expand_maxint fuel _ (s.ends_max hcheck hlab hmax)]
      rfl
    rw [hdogoto]
    rfl
  · obtain ⟨k, arm, hk, q, hq, hlabel⟩ := mem_labels.mp hlab
    have hrange : q = .range lab.start maxint := by
      cases q with
      | const val =>
        obtain rfl := Option.some.inj hlabel
        cases hsingle
      | range start stop =>
        obtain rfl := Option.some.inj hlabel
        rw [← hmax]
      | wild => cases hlabel
    have hnone (labs1 : List (Label ℤ)) :
        setarms intorder (fillrange fuel) 0 labs1 s.arms = none := by
      refine setarms_none ⟨k, arm, hk, q, hq, fun labs1 => ?_⟩
      rw [hrange, setqual]
      cases findlab intorder lab.start labs1 with
      | none => rfl
      | some i =>
        simp only [Option.bind_eq_bind, Option.bind_some, fillrange]
        cases List.findIdx? _ _ with
        | none => rfl
        | some i' => exact fillfrom_maxint _ fuel i' (s.values lab hlab).1 _
    cases dogoto fuel labs with
    | none => rfl
    | some labs1 =>
      rw [Option.bind_some, hnone]
      rfl

omit hcheck in
theorem extent_lt (labs : List (Label ℤ)) : extent labs < 2 ^ 31 := by
  rw [extent]
  split
  · exact (int_isInt _).2
  · norm_num

theorem goto_exact (hdense : dense labs = true)
    (h : ∀ lab ∈ labels 0 s.arms, lab.stop = maxint →
      extent labs = labs.length ∧ lab.single = true) : s.Exact := by
  obtain ⟨hs, hc, -, hints⟩ := s.checked hcheck
  have hne : labs ≠ [] := by
    rintro rfl
    cases hdense
  obtain ⟨first, last, hspans⟩ := spans_of_ne_nil hs hints hne
  obtain ⟨hfirst, hlast⟩ := hspans.isInt
  have hle := hspans.le
  have hok : extent labs = labs.length ∨ last < maxint := by
    rcases (le_maxint hlast).lt_or_eq with hlt | hmax
    · exact .inr hlt
    · obtain ⟨l, hl, hstop⟩ := hspans.tail
      have hlmem := List.mem_of_getLast? hl
      obtain ⟨lab, hlab, -, -, hend⟩ :=
        hc.holds l hlmem l.stop (hs.proper l hlmem) le_rfl
      have hlabmax : lab.stop = maxint :=
        le_antisymm (le_maxint (s.values lab hlab).2) (by omega)
      exact .inl (h lab hlab hlabmax).1
  let fuel := (last - first + 1).toNat + 1
  have hfuel : last - first + 1 < fuel := by
    simp only [fuel]
    omega
  obtain ⟨labs1, hdogoto, hsteps, hlen, hnone⟩ := hspans.dogoto_steps hdense hfuel hok
  have hbounds : ∀ l ∈ labels 0 s.arms, first ≤ l.start ∧ l.stop ≤ last :=
    fun l hl => hspans.values hc hl
  have hmax : ∀ l ∈ labels 0 s.arms, l.single = false → l.stop < maxint := by
    intro l hl hsingle
    refine (le_maxint (s.values l hl).2).lt_of_ne fun hstop => ?_
    rw [(h l hl hstop).2] at hsingle
    cases hsingle
  obtain ⟨labs2, harms, hlike, hinst⟩ := setarms_goto s.base s.apart hsteps hlen hnone
    hfirst hlast hfuel hbounds hmax
  have hlen2 : (labs2.length : ℤ) = last - first + 1 := by rw [hlike.length]; exact hlen
  have hhead : (labs2.head?.map Label.start).getD 0 = first := by
    obtain ⟨inst, hget⟩ := hlike.get (List.getElem?_eq_getElem (show 0 < labs1.length by omega))
    rw [List.head?_eq_getElem?, hget]
    simpa using (hsteps 0 _ (List.getElem?_eq_getElem (show 0 < labs1.length by omega))).1
  have htail : (labs2.getLast?.map Label.start).getD 0 = last := by
    have hlt : labs2.length - 1 < labs1.length := by omega
    have hplace := List.getElem?_eq_getElem hlt
    obtain ⟨inst, hget⟩ := hlike.get hplace
    rw [List.getLast?_eq_getElem?, hget]
    simp only [Option.map_some, Option.getD_some]
    rw [(hsteps _ _ hplace).1]
    omega
  have hcode : casecomint fuel s.base s.arms =
      some (.goto first (last - first) (wildpc s.base s.arms)
        (int (labs2.length + 1) :: labs2.map (fun lab =>
          int ((lab.inst.map (armpc s.base s.arms)).getD (wildpc s.base s.arms))) ++
          [int (wildpc s.base s.arms)])) := by
    simp only [casecomint, hcheck, Option.bind_eq_bind, Option.bind_some, hdense, if_true,
      hdogoto, harms, hhead, htail]
  refine ⟨fuel, _, hcode, fun v hv => ?_⟩
  have hextent := extent_lt labs
  rw [hspans.extent_eq hdense] at hextent
  refine goto_run s.apart hlen2 hfirst hlast hextent s.small hbounds (fun i hi => ?_) _ _ hv
  exact hinst i (by rw [← hlike.length]; exact hi)

theorem exact_goto (hdense : dense labs = true) : s.Exact ↔
    ∀ lab ∈ labels 0 s.arms, lab.stop = maxint →
      extent labs = labs.length ∧ lab.single = true := by
  refine ⟨?_, s.goto_exact hcheck hdense⟩
  rintro ⟨fuel, code, hcode, -⟩ lab hlab hmax
  by_contra hnot
  have hbad : extent labs ≠ labs.length ∨ lab.single = false := by
    by_contra hneither
    push Not at hneither
    exact hnot ⟨hneither.1, by simpa using hneither.2⟩
  rw [s.goto_diverges hcheck hdense hlab hmax hbad fuel] at hcode
  cases hcode

omit hcheck in
theorem exact_iff : s.Exact ↔ s.Keeps := by
  obtain ⟨labs, hcheck, -, -⟩ := checklabels_sorted intorder_lawful s.apart
  have hkeeps : s.Keeps ↔ ∀ lab ∈ labels 0 s.arms, lab.stop = maxint →
      if dense labs then extent labs = labs.length ∧ lab.single = true
      else wildarm 0 none s.arms = some lab.node := by
    simp only [Keeps, hcheck, Option.some.injEq, forall_eq']
  rw [hkeeps]
  cases hdense : dense labs with
  | false => simpa [hdense] using s.exact_table hcheck hdense
  | true => simpa [hdense] using s.exact_goto hcheck hdense

end IntStmt

def BigStmt := Stmt ℤ IsBig

def maxbig : ℤ := 2 ^ 63 - 1

namespace BigStmt

def Exact (s : BigStmt) : Prop :=
  ∃ words, casecombig s.base s.arms = some words ∧
    ∀ v, IsBig v → casel words v = some (dest s.base s.arms v : ℤ)

def Keeps (s : BigStmt) : Prop :=
  ∀ lab ∈ labels 0 s.arms, lab.stop = maxbig → wildarm 0 none s.arms = some lab.node

theorem isBig_iff {v : ℤ} : IsBig v ↔ -2 ^ 63 ≤ v ∧ v ≤ maxbig := by
  rw [IsBig, maxbig]
  omega

theorem big_eq {n : ℤ} (h : IsBig n) : big n = n :=
  Int.bmod_eq_of_le_mul_two (by have := h.1; norm_num; omega) (by have := h.2; norm_num; omega)

theorem exact_iff (s : BigStmt) : s.Exact ↔ s.Keeps := by
  obtain ⟨labs, hcheck, hs, hc⟩ := checklabels_sorted bigorder_lawful s.apart
  have hlen := (checklabels_length bigorder hcheck).trans_lt s.few
  have harms := setarms_table bigorder_lawful hs hc s.apart
  have hcode : casecombig s.base s.arms = some (tablewords [0]
      (labs.map (rowof s.base s.arms big)) (int (wildpc s.base s.arms))) := by
    simp only [casecombig, hcheck, Option.bind_eq_bind, Option.bind_some, harms, table_eq]
  have hcut : ∀ n : ℤ, -2 ^ 63 ≤ n → n ≤ maxbig → big n = n :=
    fun n h1 h2 => big_eq (isBig_iff.mpr ⟨h1, h2⟩)
  have hend : big (maxbig + 1) = -2 ^ 63 := by decide
  have hvalues : ∀ lab ∈ labels 0 s.arms, -2 ^ 63 ≤ lab.start ∧ lab.stop ≤ maxbig :=
    fun lab hlab => ⟨(s.values lab hlab).1.1, (isBig_iff.mp (s.values lab hlab).2).2⟩
  have hexact := table_exact s.base [0] hcut hend s.apart hvalues
    (by omega) s.small hs hc
  refine Iff.trans ?_ hexact
  constructor
  · rintro ⟨words, hwords, hrun⟩ v hv hv'
    rw [hcode, Option.some.injEq] at hwords
    subst hwords
    exact hrun v (isBig_iff.mpr ⟨hv, hv'⟩)
  · intro hrun
    refine ⟨_, hcode, fun v hv => ?_⟩
    exact hrun v hv.1 (isBig_iff.mp hv).2

end BigStmt

end Infernode.Cases
