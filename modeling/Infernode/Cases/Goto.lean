import Infernode.Cases.Table

/-!
# Tables of gotos

The labels of a table of gotos are taken apart to one for each value from the first to the
last. The loops that do this, and those that give a range its code, count an int up to the
end of the label: at the largest int they do not end.
-/

namespace Infernode.Cases

open Dis (int IsInt int_eq int_isInt)

def maxint : ℤ := 2 ^ 31 - 1

variable {labs : List (Label ℤ)} {arms : List (Arm ℤ)}

theorem int_succ {j : ℤ} (h : IsInt j) (hj : j < maxint) : int (j + 1) = j + 1 := by
  rw [maxint] at hj
  exact int_eq ⟨by have := h.1; omega, by omega⟩

theorem count_eq (fuel : ℕ) {j q : ℤ} (hj : IsInt j) (hq : q < maxint) (hjq : j ≤ q + 1)
    (hfuel : q + 1 - j < fuel) :
    ∃ js, count fuel j q = some js ∧ (js.length : ℤ) = q + 1 - j ∧
      ∀ (i : ℕ) (x : ℤ), js[i]? = some x → x = j + i := by
  induction fuel generalizing j with
  | zero =>
    push_cast at hfuel
    omega
  | succ fuel ih =>
    rw [count]
    split_ifs with hend
    · exact ⟨[], rfl, by simp; omega, by simp⟩
    · have hnext := int_succ hj (by omega)
      obtain ⟨js, hrun, hlen, hget⟩ := ih (hnext ▸ int_isInt (j + 1)) (by omega)
        (by push_cast at hfuel; omega)
      refine ⟨j :: js, by rw [hnext, hrun]; rfl, by rw [List.length_cons]; push_cast; omega, ?_⟩
      intro i x hi
      cases i with
      | zero =>
        rw [List.getElem?_cons_zero, Option.some.injEq] at hi
        simp [← hi]
      | succ i =>
        rw [hget i x (by simpa using hi)]
        push_cast
        ring

theorem count_maxint (fuel : ℕ) {j : ℤ} (hj : IsInt j) : count fuel j maxint = none := by
  induction fuel generalizing j with
  | zero => rfl
  | succ fuel ih =>
    have hle : ¬maxint < j := by
      have := hj.2
      rw [maxint]
      omega
    rw [count, if_neg hle, ih (int_isInt _)]
    rfl

theorem expand_maxint (fuel : ℕ) (v : ℤ) (h : ∃ lab ∈ labs, lab.stop = maxint) :
    expand fuel v labs = none := by
  induction labs generalizing v with
  | nil =>
    obtain ⟨lab, hlab, -⟩ := h
    simp at hlab
  | cons lab labs ih =>
    rw [expand]
    by_cases hstop : lab.stop = maxint
    · rw [hstop, count_maxint fuel (int_isInt _)]
      rfl
    · have hrest : expand fuel lab.stop labs = none := by
        refine ih _ ?_
        obtain ⟨l, hl, hmax⟩ := h
        rcases List.mem_cons.mp hl with rfl | hl
        · exact absurd hmax hstop
        · exact ⟨l, hl, hmax⟩
      rw [hrest]
      cases count fuel (int (v + 1)) lab.stop with
      | none => rfl
      | some js => rfl

def Steps (first : ℤ) (labs : List (Label ℤ)) : Prop :=
  ∀ (i : ℕ) (lab : Label ℤ), labs[i]? = some lab → lab.start = first + i ∧ lab.stop = first + i

def lastof (w : ℤ) (labs : List (Label ℤ)) : ℤ := (labs.getLast?.map Label.stop).getD (w - 1)

theorem lastof_cons (w : ℤ) (lab : Label ℤ) (labs : List (Label ℤ)) :
    lastof w (lab :: labs) = lastof (lab.stop + 1) labs := by
  cases labs with
  | nil => simp [lastof]
  | cons l labs =>
    rw [lastof, lastof, List.getLast?_cons_cons, List.getLast?_eq_some_getLast (by simp)]
    rfl

theorem expand_steps (fuel : ℕ) {v w : ℤ} (hs : Sorted labs)
    (hints : ∀ lab ∈ labs, IsInt lab.start ∧ IsInt lab.stop ∧ lab.stop < maxint)
    (hw : int (v + 1) = w) (hwfirst : ∀ lab ∈ labs, w ≤ lab.start)
    (hfuel : lastof w labs + 1 - w < fuel) (hlast : w ≤ lastof w labs + 1) :
    ∃ labs', expand fuel v labs = some labs' ∧
      (labs'.length : ℤ) = lastof w labs + 1 - w ∧ Steps w labs' := by
  induction labs generalizing v w with
  | nil => exact ⟨[], rfl, by simp [lastof], by intro i lab hi; simp at hi⟩
  | cons lab labs ih =>
    obtain ⟨hafter, hproper, hrest⟩ := sorted_cons.mp hs
    obtain ⟨-, hstopint, hstop⟩ := hints lab (by simp)
    have hfirst := hwfirst lab (by simp)
    have hwint : IsInt w := hw ▸ int_isInt _
    rw [lastof_cons] at hfuel hlast ⊢
    have hnext := int_succ hstopint hstop
    have hlast' : lab.stop + 1 ≤ lastof (lab.stop + 1) labs + 1 := by
      cases hlabs : labs.getLast? with
      | none => simp [lastof, hlabs]
      | some l =>
        have hl := List.mem_of_getLast? hlabs
        have hlt := hafter l hl
        have hp := hrest.proper l hl
        simp only [lastof, hlabs, Option.map_some, Option.getD_some]
        omega
    obtain ⟨js, hcount, hlen, hget⟩ := count_eq fuel hwint hstop (by omega) (by omega)
    obtain ⟨labs', hexpand, hlen', hsteps⟩ := ih hrest (fun l hl => hints l (by simp [hl])) hnext
      (fun l hl => hafter l hl) (by omega) hlast'
    refine ⟨_, by rw [expand, hw, hcount, Option.bind_eq_bind, Option.bind_some, hexpand]; rfl,
      ?_, ?_⟩
    · simp only [List.length_append, List.length_map]
      push_cast
      omega
    · intro i l hi
      rw [List.getElem?_append, List.length_map] at hi
      split_ifs at hi with hin
      · rw [List.getElem?_map] at hi
        obtain ⟨x, hx, rfl⟩ := Option.map_eq_some_iff.mp hi
        rw [hget i x hx]
        exact ⟨rfl, rfl⟩
      · obtain ⟨hstart, hstop'⟩ := hsteps _ l hi
        have hcast : ((i - js.length : ℕ) : ℤ) = i - js.length := by omega
        rw [hstart, hstop', hcast]
        omega

theorem Sorted.spread (h : Sorted labs) {i d : ℕ} {a b : Label ℤ} (ha : labs[i]? = some a)
    (hb : labs[i + d]? = some b) : a.start + d ≤ b.start ∧ a.stop + d ≤ b.stop := by
  induction d generalizing b with
  | zero =>
    rw [Nat.add_zero, ha, Option.some.injEq] at hb
    subst hb
    simp
  | succ d ih =>
    have hlt : i + d < labs.length := by
      have := (List.getElem?_eq_some_iff.mp hb).1
      omega
    have hget := List.getElem?_eq_getElem hlt
    have hbefore := ih hget
    have hafter := h.lt (Nat.lt_succ_self (i + d)) hget hb
    have hpb := h.proper b (List.mem_of_getElem? hb)
    have hpc := h.proper _ (List.mem_of_getElem? hget)
    push_cast
    omega

theorem int_extent {n : ℤ} (hn : 1 ≤ n) (hn' : n ≤ 2 ^ 32) (h : 3 ≤ int n) : int n = n := by
  rw [int, Int.bmod_def] at h ⊢
  split_ifs at h ⊢ with hhalf
  · omega
  · omega

structure Spans (labs : List (Label ℤ)) (first last : ℤ) : Prop where
  sorted : Sorted labs
  ints : ∀ lab ∈ labs, IsInt lab.start ∧ IsInt lab.stop
  head : ∃ lab, labs.head? = some lab ∧ lab.start = first
  tail : ∃ lab, labs.getLast? = some lab ∧ lab.stop = last

theorem spans_of_ne_nil (hs : Sorted labs) (hints : ∀ lab ∈ labs, IsInt lab.start ∧ IsInt lab.stop)
    (hne : labs ≠ []) : ∃ first last, Spans labs first last :=
  ⟨_, _, hs, hints, ⟨_, List.head?_eq_some_head hne, rfl⟩,
    ⟨_, List.getLast?_eq_some_getLast hne, rfl⟩⟩

namespace Spans

variable {first last : ℤ} (h : Spans labs first last)
include h

theorem get_zero : ∃ lab, labs[0]? = some lab ∧ lab.start = first := by
  obtain ⟨lab, hlab, hstart⟩ := h.head
  exact ⟨lab, by rw [← List.head?_eq_getElem?, hlab], hstart⟩

theorem get_last : ∃ lab, labs[labs.length - 1]? = some lab ∧ lab.stop = last := by
  obtain ⟨lab, hlab, hstop⟩ := h.tail
  exact ⟨lab, by rw [← List.getLast?_eq_getElem?, hlab], hstop⟩

theorem bounds {lab : Label ℤ} (hlab : lab ∈ labs) : first ≤ lab.start ∧ lab.stop ≤ last := by
  obtain ⟨i, hi⟩ := List.mem_iff_getElem?.mp hlab
  have hlt := (List.getElem?_eq_some_iff.mp hi).1
  obtain ⟨a, ha, rfl⟩ := h.get_zero
  obtain ⟨b, hb, rfl⟩ := h.get_last
  have hstart := (h.sorted.spread ha (show labs[0 + i]? = some lab by rwa [Nat.zero_add])).1
  have hstop := (h.sorted.spread hi (show labs[i + (labs.length - 1 - i)]? = some b by
    rwa [show i + (labs.length - 1 - i) = labs.length - 1 by omega])).2
  omega

theorem isInt : IsInt first ∧ IsInt last := by
  obtain ⟨a, ha, rfl⟩ := h.get_zero
  obtain ⟨b, hb, rfl⟩ := h.get_last
  exact ⟨(h.ints a (List.mem_of_getElem? ha)).1, (h.ints b (List.mem_of_getElem? hb)).2⟩

theorem le : first ≤ last := by
  obtain ⟨a, ha, rfl⟩ := h.get_zero
  have hmem := List.mem_of_getElem? ha
  exact (h.sorted.proper a hmem).trans (h.bounds hmem).2

theorem extent_eq (hdense : dense labs = true) : extent labs = last - first + 1 := by
  obtain ⟨a, ha, rfl⟩ := h.head
  obtain ⟨b, hb, rfl⟩ := h.tail
  have hle := h.le
  obtain ⟨hfirst, hlast⟩ := h.isInt
  have hthree : 3 ≤ extent labs := by
    rw [dense, Bool.and_eq_true] at hdense
    exact of_decide_eq_true hdense.1
  rw [extent, ha, hb] at hthree ⊢
  exact int_extent (by omega) (by have := hfirst.1; have := hlast.2; omega) hthree

theorem steps (hlen : last - first + 1 = labs.length) : Steps first labs := by
  intro i lab hi
  have hlt := (List.getElem?_eq_some_iff.mp hi).1
  obtain ⟨a, ha, rfl⟩ := h.get_zero
  obtain ⟨b, hb, rfl⟩ := h.get_last
  have hstart := (h.sorted.spread ha (show labs[0 + i]? = some lab by rwa [Nat.zero_add])).1
  have hstop := (h.sorted.spread hi (show labs[i + (labs.length - 1 - i)]? = some b by
    rwa [show i + (labs.length - 1 - i) = labs.length - 1 by omega])).2
  have hproper := h.sorted.proper lab (List.mem_of_getElem? hi)
  omega

theorem dogoto_steps (hdense : dense labs = true) {fuel : ℕ} (hfuel : last - first + 1 < fuel)
    (hok : extent labs = labs.length ∨ last < maxint) :
    ∃ labs', dogoto fuel labs = some labs' ∧ Steps first labs' ∧
      (labs'.length : ℤ) = last - first + 1 ∧ ∀ lab ∈ labs', lab.inst = none := by
  have hextent := h.extent_eq hdense
  have hreset {labs' : List (Label ℤ)} (hsteps : Steps first labs') :
      Steps first (labs'.map fun lab => { lab with inst := none }) := by
    intro i lab hi
    rw [List.getElem?_map] at hi
    obtain ⟨lab', hi', rfl⟩ := Option.map_eq_some_iff.mp hi
    exact hsteps i lab' hi'
  rw [dogoto]
  by_cases hsame : extent labs = labs.length
  · refine ⟨labs.map fun lab => { lab with inst := none }, ?_, hreset (h.steps (by omega)),
      by rw [List.length_map]; omega, by simp⟩
    rw [if_neg (not_not.mpr hsame)]
    rfl
  · have hmax := hok.resolve_left hsame
    obtain ⟨a, ha, hstart⟩ := h.head
    obtain ⟨b, hb, hstop⟩ := h.tail
    have hw : int (int (first - 1) + 1) = first := by
      have hint := h.isInt.1
      rw [int, int, Int.bmod_add_bmod, sub_add_cancel]
      exact int_eq hint
    have hlast : lastof first labs = last := by simp [lastof, hb, hstop]
    have hle := h.le
    obtain ⟨labs', hexpand, hlen, hsteps⟩ := expand_steps fuel h.sorted
      (fun lab hlab => ⟨(h.ints lab hlab).1, (h.ints lab hlab).2,
        (h.bounds hlab).2.trans_lt hmax⟩) hw (fun lab hlab => (h.bounds hlab).1)
      (by omega) (by omega)
    refine ⟨labs'.map fun lab => { lab with inst := none }, ?_, hreset hsteps,
      by rw [List.length_map]; omega, by simp⟩
    have hlen' : ¬((labs'.length : ℤ) ≠ extent labs) := by
      rw [not_not]
      omega
    rw [if_pos hsame, ha, Option.map_some, Option.getD_some, hstart]
    simp only [hexpand, Option.bind_eq_bind, Option.bind_some, if_neg hlen']

end Spans

section

variable {first last : ℤ} {node fuel : ℕ} {labs1 : List (Label ℤ)}

theorem intorder_lawful : intorder.Lawful where
  lt := fun a b => by simp only [intorder, intcmp]; split_ifs <;> omega
  gt := fun a b => by simp only [intorder, intcmp]; split_ifs <;> omega
  joins := fun a b h => by
    have hb : b = a + 1 := by simpa [intorder] using h
    exact ⟨by omega, fun v hv => by omega⟩

theorem bigorder_lawful : bigorder.Lawful where
  lt := fun a b => by simp only [bigorder, intcmp]; split_ifs <;> omega
  gt := fun a b => by simp only [bigorder, intcmp]; split_ifs <;> omega
  joins := fun a b h => by simp [bigorder] at h

theorem Steps.sorted (h : Steps first labs) : Sorted labs := by
  refine ⟨List.pairwise_iff_getElem.mpr fun i j hi hj hij => ?_, fun lab hlab => ?_⟩
  · rw [(h i _ (List.getElem?_eq_getElem hi)).2, (h j _ (List.getElem?_eq_getElem hj)).1]
    omega
  · obtain ⟨i, hi⟩ := List.mem_iff_getElem?.mp hlab
    rw [(h i lab hi).1, (h i lab hi).2]

theorem Steps.get (h : Steps first labs) (hlen : (labs.length : ℤ) = last - first + 1) {v : ℤ}
    (hv : first ≤ v) (hv' : v ≤ last) :
    ∃ lab, labs[(v - first).toNat]? = some lab ∧ lab.start = v ∧ lab.stop = v := by
  have hlt : (v - first).toNat < labs.length := by omega
  have hget := List.getElem?_eq_getElem hlt
  refine ⟨_, hget, ?_⟩
  have hcast : ((v - first).toNat : ℤ) = v - first := Int.toNat_of_nonneg (by omega)
  rw [(h _ _ hget).1, (h _ _ hget).2, hcast]
  omega

theorem fillfrom_marked (hlen : (labs1.length : ℤ) = last - first + 1) {i : ℕ} {q : ℤ}
    (hint : IsInt (first + i)) (hq : q < maxint) (hql : q ≤ last) (hiq : first + i ≤ q + 1)
    (hfuel : q + 1 - (first + i) < fuel) :
    ∃ labs', fillfrom node fuel i (first + i) q labs1 = some labs' ∧
      Marked node (fun x => i ≤ x ∧ first + x ≤ q) labs1 labs' := by
  induction fuel generalizing i labs1 with
  | zero =>
    push_cast at hfuel
    omega
  | succ fuel ih =>
    rw [fillfrom]
    split_ifs with hend hin
    · refine ⟨labs1, rfl, rfl, fun x lab hx => ⟨lab.inst, hx, ?_, fun _ => rfl⟩⟩
      rintro ⟨hix, hxq⟩
      omega
    · have hnext : int (first + i + 1) = first + (i + 1 : ℕ) := by
        rw [int_succ hint (by omega)]
        push_cast
        ring
      have hlen' : ((setinst node i labs1).length : ℤ) = last - first + 1 := by
        rw [setinst, List.length_modify]
        exact hlen
      obtain ⟨labs', hrun, hmark⟩ := ih (i := i + 1) hlen' (hnext ▸ int_isInt _)
        (by push_cast; omega) (by push_cast at hfuel ⊢; omega)
      refine ⟨labs', by rw [hnext]; exact hrun,
        ((setinst_marked node i labs1).trans hmark).congr fun x _ => ?_⟩
      omega
    · omega

theorem fillfrom_maxint (node fuel i : ℕ) {j : ℤ} (hj : IsInt j) (labs1 : List (Label ℤ)) :
    fillfrom node fuel i j maxint labs1 = none := by
  induction fuel generalizing i j labs1 with
  | zero => rfl
  | succ fuel ih =>
    have hle : ¬maxint < j := by
      have := hj.2
      rw [maxint]
      omega
    rw [fillfrom, if_neg hle]
    split_ifs
    · exact ih _ (int_isInt _) _
    · rfl

theorem setqual_goto (hsteps : Steps first labs) (hlen : (labs.length : ℤ) = last - first + 1)
    (hlike : Like labs labs1) (hfirst : IsInt first) (hlast : IsInt last)
    (hfuel : last - first + 1 < fuel) {q : Qual ℤ} {l : Label ℤ}
    (hq : q.label node = some l) (hbounds : first ≤ l.start ∧ l.stop ≤ last)
    (hproper : l.start ≤ l.stop) (hmax : l.single = false → l.stop < maxint) :
    ∃ labs', setqual intorder (fillrange fuel) node labs1 q = some labs' ∧
      Marked node (fun i => q.has (first + i) = true) labs1 labs' := by
  have hlen1 : (labs1.length : ℤ) = last - first + 1 := by rw [hlike.length]; exact hlen
  obtain ⟨lab, hlab, hstart, hstop⟩ :=
    hsteps.get hlen hbounds.1 (hproper.trans hbounds.2)
  obtain ⟨inst, hlab1⟩ := hlike.get hlab
  have hfind : findlab intorder l.start labs1 = some (l.start - first).toNat :=
    findlab_eq intorder_lawful (hlike.sorted hsteps.sorted) hlab1 hstart.le hstop.ge
  have hcast : ((l.start - first).toNat : ℤ) = l.start - first :=
    Int.toNat_of_nonneg (by omega)
  cases q with
  | const val =>
    obtain rfl := Option.some.inj hq
    simp only at hbounds hproper hfind hcast
    refine ⟨_, by rw [setqual, hfind]; rfl, (setinst_marked node _ labs1).congr fun i _ => ?_⟩
    simp only [Qual.has, beq_iff_eq]
    omega
  | range start stop =>
    obtain rfl := Option.some.inj hq
    simp only at hbounds hproper hmax hfind hcast hlab
    have hlike2 := hlike.trans (setinst_marked node (start - first).toNat labs1).like
    have hindex : (setinst node (start - first).toNat labs1).findIdx?
        (fun lab => lab.start = start) = some (start - first).toNat := by
      rw [List.findIdx?_eq_some_iff_getElem]
      have hlt : (start - first).toNat < (setinst node (start - first).toNat labs1).length := by
        rw [hlike2.length]
        omega
      have hval {j : ℕ} (hj : j < (setinst node (start - first).toNat labs1).length) :
          (setinst node (start - first).toNat labs1)[j].start = first + j := by
        obtain ⟨inst', hj'⟩ := hlike2.symm.get (List.getElem?_eq_getElem hj)
        exact (hsteps j _ hj').1
      refine ⟨hlt, by rw [hval hlt]; simp; omega, fun j hj => ?_⟩
      rw [hval (hj.trans hlt)]
      simp
      omega
    have hlen2 : ((setinst node (start - first).toNat labs1).length : ℤ) = last - first + 1 := by
      rw [hlike2.length]
      exact hlen
    have hfill : ∃ labs', fillfrom node fuel (start - first).toNat
        (first + ((start - first).toNat : ℤ)) stop
        (setinst node (start - first).toNat labs1) = some labs' ∧
        Marked node (fun x => (start - first).toNat ≤ x ∧ first + x ≤ stop)
          (setinst node (start - first).toNat labs1) labs' := fillfrom_marked hlen2
      (by rw [hcast]; exact ⟨by have := hfirst.1; omega, by have := hlast.2; omega⟩)
      (hmax trivial) hbounds.2 (by omega) (by omega)
    obtain ⟨labs', hrun, hmark⟩ := hfill
    refine ⟨labs', ?_, ((setinst_marked node _ labs1).trans hmark).congr fun i _ => ?_⟩
    · rw [hcast, add_sub_cancel] at hrun
      simp only [setqual, hfind, Option.bind_eq_bind, Option.bind_some, fillrange, hindex, hrun]
    · simp only [Qual.has, Bool.and_eq_true, decide_eq_true_eq]
      omega
  | wild => cases hq

theorem setarms_none {o : Order ℤ} {fill : Fill ℤ} {node : ℕ} {labs : List (Label ℤ)}
    (h : ∃ k arm, arms[k]? = some arm ∧ ∃ q ∈ arm.quals,
      ∀ labs, setqual o fill (node + k) labs q = none) :
    setarms o fill node labs arms = none := by
  have hquals {node : ℕ} {quals : List (Qual ℤ)} {q : Qual ℤ} (hq : q ∈ quals)
      (hnone : ∀ labs, setqual o fill node labs q = none) (labs : List (Label ℤ)) :
      quals.foldlM (setqual o fill node) labs = none := by
    induction quals generalizing labs with
    | nil => simp at hq
    | cons q' quals ih =>
      rw [List.foldlM_cons]
      rcases List.mem_cons.mp hq with rfl | hq
      · rw [hnone]
        rfl
      · cases setqual o fill node labs q' with
        | none => rfl
        | some labs' => exact ih hq labs'
  induction arms generalizing node labs with
  | nil =>
    obtain ⟨k, arm, hk, -⟩ := h
    simp at hk
  | cons arm arms ih =>
    obtain ⟨k, arm', hk, q, hq, hnone⟩ := h
    rw [setarms]
    cases k with
    | zero =>
      obtain rfl : arm = arm' := by simpa using hk
      rw [Nat.add_zero] at hnone
      rw [hquals hq hnone]
      rfl
    | succ k =>
      cases arm.quals.foldlM (setqual o fill node) labs with
      | none => rfl
      | some labs' =>
        refine ih ⟨k, arm', by simpa using hk, q, hq, fun labs => ?_⟩
        rw [show node + 1 + k = node + (k + 1) by omega]
        exact hnone labs

end

end Infernode.Cases
