import Infernode.Isched.Ready

/-!
# The Progs that procs carry

`release` takes the current Prog off the run queue and leaves it to the proc; `acquire` puts it
back at the head.
-/

namespace Infernode.Isched

variable {s : State} {l : List Who} {v : Vm} {i : ℕ} {w : Place}

theorem Vm.release_place (v : Vm) (i : ℕ) :
    ∃ pl : Place, (v.release i).place = Function.update v.place i pl ∧ pl.away = true := by
  rw [Vm.release]
  cases v.vmq with
  | some p => exact ⟨_, rfl, rfl⟩
  | none =>
    cases v.idlevmq with
    | some p => exact ⟨_, rfl, rfl⟩
    | none =>
      refine ⟨_, rfl, ?_⟩
      cases v.creating <;> rfl

theorem State.Ready.carried_pid (h : s.Ready l) {p : Who} (hc : s.Carried p) :
    ∃ n, p = .pid n := by
  obtain ⟨j, hj⟩ := hc
  rw [State.carry] at hj
  split_ifs at hj with haway
  obtain ⟨n, hn⟩ := h.away j haway.1 haway.2
  exact ⟨n, Option.some.inj (hj.symm.trans hn)⟩

theorem State.Ready.carried_not_mem (h : s.Ready l) {p : Who} (hc : s.Carried p) : p ∉ l := by
  obtain ⟨n, rfl⟩ := h.carried_pid hc
  exact ((h.good n).carried hc).1

theorem State.Ready.moved (h : s.Ready l) (hplace : v.place = Function.update s.vm.place i w)
    (hcarry : s.type i = .interp → w.away = (s.vm.place i).away)
    (hhas : s.type i ≠ .interp → w ≠ .has ∧ s.vm.place i ≠ .has)
    (hinterp : (w = .idling ∨ ∃ p, w = .readying p true) → s.type i = .interp)
    (hfresh : (w = .absent ∨ w = .coming) → s.type i ≠ .interp) :
    ({ s with vm := v } : State).Ready l := by
  have hcarried : ({ s with vm := v } : State).carry = s.carry := by
    funext j
    simp only [State.carry, hplace, Function.update_apply]
    grind
  have hCarried : ({ s with vm := v } : State).Carried = s.Carried := by
    funext p
    rw [State.Carried, State.Carried, hcarried]
  have hplaced (j : ℕ) : v.place j = if j = i then w else s.vm.place j := by
    rw [hplace, Function.update_apply]
  have hown := h.own
  have hhead := h.head
  have haway := h.away
  have hinterp' := h.interp
  have hfresh' := h.fresh
  refine ⟨h.is, fun n => ?_, fun j => ?_, h.ownready, fun j => ?_, ?_, fun j => ?_, fun j => ?_,
    fun j => ?_, h.dead⟩
  · have hgood := h.good n
    refine ⟨hgood.queued, hgood.ready, ?_, ?_, ?_⟩ <;> rw [hCarried]
    exacts [hgood.carried, hgood.dying, hgood.hook]
  · rw [hown j]
    simp only [hplaced]
    grind
  · simp only [hplaced]
    grind
  · rw [hcarried]
    exact h.once
  · simp only [hplaced]
    grind
  · simp only [hplaced]
    grind
  · simp only [hplaced]
    grind

theorem State.release_eq {r : Who} (hr : s.runq.runhd = some r) :
    (s.release i).vm = s.vm.release i ∧ (s.release i).type = s.type ∧
      (s.release i).iprog =
        (if s.type i = .interp then Function.update s.iprog i (some r) else s.iprog) ∧
      (s.release i).runq = s.runq.delrun ∧
      (s.release i).prog = Function.update s.prog r { s.prog r with state := .release } ∧
      (s.release i).pidnum = s.pidnum ∧ (s.release i).dying = s.dying := by
  rw [State.release, hr]
  exact ⟨rfl, rfl, rfl, rfl, rfl, rfl, rfl⟩

theorem State.Ready.release (h : s.Ready l) (hone : s.vm.One) (hi : s.vm.place i = .has) :
    ∃ l', (s.release i).Ready l' := by
  cases hr : s.runq.runhd with
  | none => exact ⟨l, by simpa only [State.release, hr] using h⟩
  | some r =>
    obtain ⟨l, rfl⟩ : ∃ l', l = r :: l' := List.head?_eq_some_iff.mp (h.is.runhd_eq ▸ hr)
    have hnodup := List.nodup_cons.mp h.is.nodup
    obtain ⟨pl, hplace, hpl⟩ := Vm.release_place s.vm i
    obtain ⟨hvm, htype, hiprog, hrunq, hprog, hpidnum, hdying⟩ := State.release_eq (i := i) hr
    generalize s.release i = s' at *
    have hplaced (j : ℕ) : s'.vm.place j = if j = i then pl else s.vm.place j := by
      rw [hvm, hplace, Function.update_apply]
    have hhas : pl ≠ .has := by rintro rfl; cases hpl
    have hfree (j : ℕ) : s'.vm.place j ≠ .has := by
      rw [hplaced]
      split_ifs with hj
      · exact hhas
      · exact fun hjhas => hj (hone j i hjhas hi)
    have hnown (j : ℕ) : Who.own j ∉ l := fun hj => by
      obtain ⟨hjhas, htype⟩ := (h.own j).mp (List.mem_cons_of_mem _ hj)
      obtain rfl := hone j i hjhas hi
      obtain rfl := Option.some.inj (h.head j hjhas htype)
      exact hnodup.1 hj
    have hnot : s.carry i = none := by simp [State.carry, hi, Place.away]
    have hcarry (j : ℕ) : s'.carry j = if j = i ∧ s.type i = .interp then some r
        else s.carry j := by
      simp only [State.carry, hplaced, htype, hiprog] at hnot ⊢
      grind
    have hcarried (p : Who) : s'.Carried p ↔ (p = r ∧ s.type i = .interp) ∨ s.Carried p := by
      simp only [State.Carried, hcarry]
      grind
    have hrcarried : ¬ s.Carried r := fun hc => h.carried_not_mem hc List.mem_cons_self
    have hinterp (n : ℕ) (hn : .pid n = r) : s.type i = .interp := by
      by_contra htype
      cases hn.trans (Option.some.inj (h.head i hi htype))
    have hpid (htype : s.type i = .interp) : ∃ n, r = .pid n :=
      h.pids hone ⟨hi, htype⟩ List.mem_cons_self
    refine ⟨l, ?_, fun n => ?_, fun j => ?_, fun j hj => absurd hj (hnown j),
      fun j hj => absurd hj (hfree j), ?_, fun j => ?_, fun j => ?_, fun j => ?_, fun n hn => ?_⟩
    · rw [hrunq]
      exact h.is.delrun
    · have hgood := h.good n
      have hmem : .pid n ∈ r :: l ↔ .pid n = r ∨ .pid n ∈ l := List.mem_cons
      have hprogn : s'.prog (.pid n) = if .pid n = r then { s.prog r with state := .release }
          else s.prog (.pid n) := by
        rw [hprog, Function.update_apply]
      refine ⟨?_, ?_, ?_, ?_, ?_⟩ <;> simp only [hprogn, hcarried, hdying]
      all_goals grind
    · exact iff_of_false (hnown j) fun hj => hfree j hj.1
    · simp only [hcarry]
      have honce := h.once
      grind [State.Carried]
    · have haway := h.away j
      rw [hplaced, htype, hiprog]
      grind
    · have hidle := h.interp j
      rw [hplaced, htype]
      grind [Place.away]
    · have hfresh := h.fresh j
      rw [hplaced, htype]
      grind [Place.away]
    · have hdead := h.dead n (hpidnum ▸ hn)
      have hgood := h.good n
      rw [hprog, Function.update_apply]
      grind

theorem State.takerun_eq {r : Who}
    (hr : if s.type i = .interp then s.iprog i = some r else r = .own i) :
    (s.takerun i).vm = s.vm ∧ (s.takerun i).type = s.type ∧
      (s.takerun i).iprog =
        (if s.type i = .interp then Function.update s.iprog i none else s.iprog) ∧
      (s.takerun i).runq = s.runq.push r ∧
      (s.takerun i).prog = Function.update s.prog r { s.prog r with
        state := .ready
        hook := if (s.prog r).hook = some .cwakeme then none else (s.prog r).hook } ∧
      (s.takerun i).pidnum = s.pidnum ∧ (s.takerun i).dying = s.dying := by
  rw [State.takerun]
  by_cases htype : s.type i = .interp
  · rw [if_pos htype] at hr
    simp [htype, hr, State.set]
  · rw [if_neg htype] at hr
    subst hr
    simp [htype, State.set]

theorem State.Ready.takerun (h : s.Ready l) (hfree : ∀ j, s.vm.place j ≠ .has)
    (hi : (s.vm.place i).away = true) (hplace : v.place = Function.update s.vm.place i .has) :
    ∃ l', (({ s with vm := v } : State).takerun i).Ready l' := by
  obtain ⟨r, hr⟩ : ∃ r, if s.type i = .interp then s.iprog i = some r else r = .own i := by
    split_ifs with htype
    · obtain ⟨n, hn⟩ := h.away i hi htype
      exact ⟨.pid n, hn⟩
    · exact ⟨_, rfl⟩
  obtain ⟨hvm, htype, hiprog, hrunq, hprog, hpidnum, hdying⟩ :=
    State.takerun_eq (s := { s with vm := v }) hr
  generalize ({ s with vm := v } : State).takerun i = s' at *
  have hplaced (j : ℕ) : s'.vm.place j = if j = i then .has else s.vm.place j := by
    rw [hvm, hplace, Function.update_apply]
  have hcarryi : s.carry i = if s.type i = .interp then some r else none := by
    rw [State.carry, hi]
    grind
  have hcarry (j : ℕ) : s'.carry j = if j = i then none else s.carry j := by
    simp only [State.carry, hplaced, htype, hiprog]
    grind [Place.away]
  have honce := h.once
  have hcarried (p : Who) : s'.Carried p ↔ s.Carried p ∧ p ≠ r := by
    have hown : s.type i ≠ .interp → ¬ s.Carried r := fun htype hc => by
      obtain ⟨n, rfl⟩ := h.carried_pid hc
      rw [if_neg htype] at hr
      cases hr
    simp only [State.Carried, hcarry] at hown ⊢
    grind
  have hrl : r ∉ l := by
    by_cases htype : s.type i = .interp
    · rw [if_pos htype] at hcarryi
      exact h.carried_not_mem ⟨i, hcarryi⟩
    · rw [if_neg htype] at hr
      rw [hr]
      exact fun hm => hfree i ((h.own i).mp hm).1
  have hpid : s.type i = .interp → ∃ n, r = .pid n ∧ s.Carried r := fun htype => by
    rw [if_pos htype] at hcarryi
    obtain ⟨n, hn⟩ := h.carried_pid ⟨i, hcarryi⟩
    exact ⟨n, hn, i, hcarryi⟩
  have hmem (p : Who) : p ∈ r :: l ↔ p = r ∨ p ∈ l := List.mem_cons
  refine ⟨r :: l, ?_, fun n => ?_, fun j => ?_, fun j hj => ?_, fun j hj hjtype => ?_, ?_,
    fun j => ?_, fun j => ?_, fun j => ?_, fun n hn => ?_⟩
  · rw [hrunq]
    exact h.is.push hrl
  · have hgood := h.good n
    have hprogn : s'.prog (.pid n) = if .pid n = r then { s.prog r with
        state := .ready
        hook := if (s.prog r).hook = some .cwakeme then none else (s.prog r).hook }
        else s.prog (.pid n) := by
      rw [hprog, Function.update_apply]
    refine ⟨?_, ?_, ?_, ?_, ?_⟩ <;> simp only [hprogn, hcarried, hdying]
    all_goals grind
  · have hown := h.own j
    rw [hmem, hplaced, htype]
    grind
  · have hownready := h.ownready j
    rw [hprog, Function.update_apply]
    grind
  · rw [hplaced, htype] at *
    grind
  · simp only [hcarry]
    grind
  · have haway := h.away j
    rw [hplaced, htype, hiprog]
    grind [Place.away]
  · have hidle := h.interp j
    rw [hplaced, htype]
    grind
  · have hfresh := h.fresh j
    rw [hplaced, htype]
    grind
  · have hdead := h.dead n (hpidnum ▸ hn)
    have hgood := h.good n
    rw [hprog, Function.update_apply]
    grind

theorem Vm.startup_place (v : Vm) (i : ℕ) : ∃ pl, (pl = .has ∨ pl = .idling) ∧
    (v.startup i).place = Function.update v.place i pl := by
  rw [Vm.startup]
  split_ifs
  · exact ⟨.has, .inl rfl, rfl⟩
  · exact ⟨.idling, .inr rfl, rfl⟩

theorem State.Ready.startup (h : s.Ready l) (hi : s.vm.place i = .coming) :
    (s.startup i).Ready l := by
  obtain ⟨pl, hpl, hplace⟩ := Vm.startup_place s.vm i
  have hplaced (j : ℕ) : (s.startup i).vm.place j = if j = i then pl else s.vm.place j := by
    rw [← Function.update_apply, ← hplace]
    rfl
  have htype (j : ℕ) : (s.startup i).type j = if j = i then .interp else s.type j := by
    rw [← Function.update_apply]
    rfl
  have hiprog (j : ℕ) : (s.startup i).iprog j = if j = i then none else s.iprog j := by
    rw [← Function.update_apply]
    rfl
  have hfresh := h.fresh i (.inr hi)
  have hcarry : (s.startup i).carry = s.carry := by
    funext j
    simp only [State.carry, hplaced, htype, hiprog]
    grind [Place.away]
  have hcarried : (s.startup i).Carried = s.Carried := by
    funext p
    rw [State.Carried, State.Carried, hcarry]
  refine ⟨h.is, fun n => ?_, fun j => ?_, h.ownready, fun j => ?_, ?_, fun j => ?_, fun j => ?_,
    fun j => ?_, h.dead⟩
  · have hgood := h.good n
    refine ⟨hgood.queued, hgood.ready, ?_, ?_, ?_⟩ <;> rw [hcarried]
    exacts [hgood.carried, hgood.dying, hgood.hook]
  · rw [h.own j, hplaced, htype]
    grind
  · have hhead := h.head j
    rw [hplaced, htype]
    grind
  · rw [hcarry]
    exact h.once
  · have haway := h.away j
    rw [hplaced, htype, hiprog]
    grind [Place.away]
  · have hidle := h.interp j
    rw [hplaced, htype]
    grind
  · have hfresh := h.fresh j
    rw [hplaced, htype]
    grind

theorem State.Ready.retype {s' : State} {l' : List Who} {t : PType} (h : s.Ready l)
    (hi : s.vm.place i = .has) (hvm : s'.vm = s.vm)
    (htype : s'.type = Function.update s.type i t) (hiprog : s'.iprog = s.iprog)
    (hprog : ∀ n, s'.prog (.pid n) = s.prog (.pid n)) (hpidnum : s'.pidnum = s.pidnum)
    (hdying : s'.dying = s.dying) (his : s'.runq.Is l') (hl : ∀ n, .pid n ∈ l' ↔ .pid n ∈ l)
    (hown : ∀ j, .own j ∈ l' ↔ j = i ∧ t ≠ .interp)
    (hready : t ≠ .interp → (s'.prog (.own i)).state = .ready ∧ l'.head? = some (.own i))
    (hone : s.vm.One) : s'.Ready l' := by
  have htyped (j : ℕ) : s'.type j = if j = i then t else s.type j := by
    rw [htype, Function.update_apply]
  have hcarry : s'.carry = s.carry := by
    funext j
    simp only [State.carry, hvm, htyped, hiprog]
    grind [Place.away]
  have hcarried : s'.Carried = s.Carried := by
    funext p
    rw [State.Carried, State.Carried, hcarry]
  have hhas (j : ℕ) (hj : s.vm.place j = .has) : j = i := hone j i hj hi
  refine ⟨his, fun n => ?_, fun j => ?_, fun j hj => ?_, fun j => ?_, ?_, fun j => ?_,
    fun j => ?_, fun j => ?_, fun n => ?_⟩
  · have hgood := h.good n
    refine ⟨?_, ?_, ?_, ?_, ?_⟩ <;> simp only [hl, hprog, hcarried, hdying]
    exacts [hgood.queued, hgood.ready, hgood.carried, hgood.dying, hgood.hook]
  · rw [hown, hvm, htyped]
    grind
  · obtain ⟨rfl, hne⟩ := (hown j).mp hj
    exact (hready hne).1
  · rw [hvm, htyped]
    grind
  · rw [hcarry]
    exact h.once
  · have haway := h.away j
    rw [hvm, htyped, hiprog]
    grind [Place.away]
  · have hidle := h.interp j
    rw [hvm, htyped]
    grind
  · have hfresh := h.fresh j
    rw [hvm, htyped]
    grind
  · rw [hprog, hpidnum]
    exact h.dead n

theorem State.Ready.gc (h : s.Ready l) (hone : s.vm.One) (hi : s.interp i) :
    (s.gc i).Ready (.own i :: l) := by
  have hpids (p : Who) (hp : p ∈ l) : ∃ n, p = .pid n := h.pids hone hi hp
  have hnown (j : ℕ) : Who.own j ∉ l := fun hj => nomatch hpids _ hj
  have his : (s.gc i).runq.Is (.own i :: l) := by
    cases hr : s.runq.runhd with
    | none =>
      obtain rfl : l = [] := List.head?_eq_none_iff.mp (h.is.runhd_eq.symm.trans hr)
      have hadd := h.is.addrun (hnown i)
      simpa [State.gc, hr] using hadd
    | some r =>
      have hpush := h.is.push (hnown i)
      simpa [State.gc, hr] using hpush
  have hprog (p : Who) : (s.gc i).prog p =
      if p = .own i then ⟨.ready, none, false⟩ else s.prog p := by
    rw [← Function.update_apply]
    rfl
  refine h.retype (t := .gc) hi.1 rfl rfl rfl (fun n => ?_) rfl rfl his (fun n => by simp)
    (fun j => by simp [hnown j]) (fun _ => ⟨?_, rfl⟩) hone
  · rw [hprog, if_neg nofun]
  · rw [hprog, if_pos rfl]

theorem State.Ready.gcend (h : s.Ready l) (hone : s.vm.One) (hi : s.vm.place i = .has) :
    (s.gcend i).Ready (l.erase (.own i)) := by
  refine h.retype (t := .interp) hi rfl rfl rfl (fun _ => rfl) rfl rfl (h.delrunq hone)
    (fun n => List.mem_erase_of_ne nofun) (fun j => ?_) (fun hne => absurd rfl hne) hone
  refine iff_of_false (fun hj => ?_) (fun hj => hj.2 rfl)
  obtain rfl := hone j i ((h.own j).mp (List.mem_of_mem_erase hj)).1 hi
  exact h.is.nodup.not_mem_erase hj

end Infernode.Isched
