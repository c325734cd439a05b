import Infernode.Isched.Step

/-!
# The Progs on the run queue

Those that are ready, and the one killed while it was the current one; the ones that procs carry
are off it.
-/

namespace Infernode.Isched

def Place.away : Place → Bool
  | .out | .acquiring | .readying _ false | .making => true
  | _ => false

def State.carry (s : State) (i : ℕ) : Option Who :=
  if (s.vm.place i).away ∧ s.type i = .interp then s.iprog i else none

def State.Carried (s : State) (p : Who) : Prop := ∃ i, s.carry i = some p

@[grind cases]
structure State.Good (s : State) (l : List Who) (n : ℕ) : Prop where
  queued : .pid n ∈ l → (s.prog (.pid n)).state = .ready ∨
    (s.prog (.pid n)).state = .exiting ∧ (s.prog (.pid n)).killed = true
  ready : (s.prog (.pid n)).state = .ready → .pid n ∈ l
  carried : s.Carried (.pid n) → .pid n ∉ l ∧ ((s.prog (.pid n)).state = .release ∨
    (s.prog (.pid n)).state = .exiting ∨ (s.prog (.pid n)).state = .debug)
  dying : s.dying n = true →
    (s.prog (.pid n)).state = .exiting ∧ .pid n ∉ l ∧ ¬ s.Carried (.pid n)
  hook : (s.prog (.pid n)).hook = some .cwakeme → s.Carried (.pid n)

/-- The run queue is through `l`. A kproc's own Prog is on it while that has the VM and is no
interpreter. -/
structure State.Ready (s : State) (l : List Who) : Prop where
  is : s.runq.Is l
  good : ∀ n, s.Good l n
  own : ∀ i, .own i ∈ l ↔ s.vm.place i = .has ∧ s.type i ≠ .interp
  ownready : ∀ i, .own i ∈ l → (s.prog (.own i)).state = .ready
  head : ∀ i, s.vm.place i = .has → s.type i ≠ .interp → l.head? = some (.own i)
  once : ∀ i j p, s.carry i = some p → s.carry j = some p → i = j
  away : ∀ i, (s.vm.place i).away → s.type i = .interp → ∃ n, s.iprog i = some (.pid n)
  interp : ∀ i, (s.vm.place i = .idling ∨ ∃ p, s.vm.place i = .readying p true) →
    s.type i = .interp
  fresh : ∀ i, (s.vm.place i = .absent ∨ s.vm.place i = .coming) → s.type i ≠ .interp
  dead : ∀ n, s.pidnum < n → (s.prog (.pid n)).state = .dead

variable {s s' : State} {l l' : List Who} {i n : ℕ} {p : Who}

@[simp]
theorem State.set_carried (P : Prog) {q : Who} : (s.set p P).Carried q ↔ s.Carried q := Iff.rfl

@[simp]
theorem State.set_state (P : Prog) : (s.set p P).prog p = P := Function.update_self _ _ _

@[simp]
theorem State.set_dying (P : Prog) : (s.set p P).dying = s.dying := rfl

theorem State.Ready.stepped (h : s.Ready l) (stepped : ℕ → Bool) :
    ({ s with stepped := stepped } : State).Ready l :=
  ⟨h.is, fun n => ⟨(h.good n).queued, (h.good n).ready, (h.good n).carried, (h.good n).dying,
    (h.good n).hook⟩, h.own, h.ownready, h.head, h.once, h.away, h.interp, h.fresh, h.dead⟩

theorem State.Ready.le_pidnum (h : s.Ready l) (hn : (s.prog (.pid n)).state ≠ .dead) :
    n ≤ s.pidnum :=
  not_lt.mp fun hlt => hn (h.dead n hlt)

theorem State.Ready.change (h : s.Ready l) (hvm : s'.vm = s.vm) (htype : s'.type = s.type)
    (hiprog : s'.iprog = s.iprog) (hprog : ∀ q ≠ .pid n, s'.prog q = s.prog q)
    (hdying : ∀ m ≠ n, s'.dying m = s.dying m) (hpidnum : s.pidnum ≤ s'.pidnum)
    (hn : n ≤ s'.pidnum) (his : s'.runq.Is l') (hl : ∀ q ≠ .pid n, q ∈ l' ↔ q ∈ l)
    (hhead : ∀ i, l.head? = some (.own i) → l'.head? = some (.own i)) (hgood : s'.Good l' n) :
    s'.Ready l' := by
  have hcarry : s'.carry = s.carry := by
    funext i
    rw [State.carry, State.carry, hvm, htype, hiprog]
  have hcarried : s'.Carried = s.Carried := by
    funext p
    rw [State.Carried, State.Carried, hcarry]
  have hown (i : ℕ) : Who.own i ≠ .pid n := nofun
  refine ⟨his, fun m => ?_, ?_, ?_, ?_, ?_, ?_, ?_, ?_, ?_⟩
  · by_cases hm : m = n
    · subst hm
      exact hgood
    · have hpid : Who.pid m ≠ .pid n := fun heq => hm (Who.pid.inj heq)
      have hgoodm := h.good m
      refine ⟨?_, ?_, ?_, ?_, ?_⟩
      · rw [hl _ hpid, hprog _ hpid]
        exact hgoodm.queued
      · rw [hl _ hpid, hprog _ hpid]
        exact hgoodm.ready
      · rw [hl _ hpid, hprog _ hpid, hcarried]
        exact hgoodm.carried
      · rw [hl _ hpid, hprog _ hpid, hcarried, hdying m hm]
        exact hgoodm.dying
      · rw [hprog _ hpid, hcarried]
        exact hgoodm.hook
  · intro i
    rw [hl _ (hown i), hvm, htype]
    exact h.own i
  · intro i
    rw [hl _ (hown i), hprog _ (hown i)]
    exact h.ownready i
  · intro i
    rw [hvm, htype]
    exact fun hplace hinterp => hhead i (h.head i hplace hinterp)
  · rw [hcarry]
    exact h.once
  · rw [hvm, htype, hiprog]
    exact h.away
  · rw [hvm, htype]
    exact h.interp
  · rw [hvm, htype]
    exact h.fresh
  · intro m hm
    have hne : Who.pid m ≠ .pid n := by
      rintro ⟨⟩
      exact absurd hn (not_le.mpr hm)
    rw [hprog _ hne]
    exact h.dead m (lt_of_le_of_lt hpidnum hm)

theorem head_append (h : l.head? = some p) (p' : Who) : (l ++ [p']).head? = some p := by
  cases l with
  | nil => exact nomatch h
  | cons a as => exact h

theorem head_erase (h : l.head? = some p) {p' : Who} (hne : p ≠ p') :
    (l.erase p').head? = some p := by
  cases l with
  | nil => exact nomatch h
  | cons a as =>
    obtain rfl := Option.some.inj h
    rw [List.erase_cons_tail (by simpa using hne)]
    rfl

theorem State.Ready.length_le (h : s.Ready l) (hone : s.vm.One) : l.length ≤ s.pidnum + 2 := by
  obtain ⟨i, hi⟩ : ∃ i, ∀ j, .own j ∈ l → j = i := by
    by_cases hex : ∃ i, .own i ∈ l
    · obtain ⟨i, hi⟩ := hex
      exact ⟨i, fun j hj => hone j i ((h.own j).mp hj).1 ((h.own i).mp hi).1⟩
    · exact ⟨0, fun j hj => absurd ⟨j, hj⟩ hex⟩
  have hsub : l ⊆ .own i :: (List.range (s.pidnum + 1)).map Who.pid := by
    intro p hp
    cases p with
    | own j =>
      rw [hi j hp]
      exact List.mem_cons_self
    | pid n =>
      refine List.mem_cons_of_mem _ (List.mem_map_of_mem (List.mem_range.mpr ?_))
      refine Nat.lt_succ_of_le (h.le_pidnum ?_)
      rcases (h.good n).queued hp with hready | ⟨hexiting, -⟩
      · rw [hready]
        exact nofun
      · rw [hexiting]
        exact nofun
  have hle := (h.is.nodup.subperm hsub).length_le
  rw [List.length_cons, List.length_map, List.length_range] at hle
  exact hle

theorem State.Ready.delrunq (h : s.Ready l) (hone : s.vm.One) : (s.delrunq p).Is (l.erase p) :=
  h.is.delrunq (h.length_le hone)

theorem State.Ready.addrun (h : s.Ready l) (hn : n ≤ s.pidnum)
    (hoff : (s.prog (.pid n)).hook ≠ some .cwakeme → .pid n ∉ l ∧ s.dying n = false)
    (hcarried : (s.prog (.pid n)).hook = none → ¬ s.Carried (.pid n)) :
    ∃ l', (s.addrun (.pid n)).Ready l' := by
  have hgood := h.good n
  rw [State.addrun]
  cases hhook : (s.prog (.pid n)).hook with
  | none =>
    obtain ⟨hl, hdying⟩ := hoff (by rw [hhook]; exact nofun)
    have hnot := hcarried hhook
    refine ⟨l ++ [.pid n], h.change rfl rfl rfl (fun q hq => Function.update_of_ne hq _ _)
      (fun _ _ => rfl) le_rfl hn (h.is.addrun hl) (fun q hq => by simp [hq])
      (fun i hi => head_append hi _) ?_⟩
    refine ⟨fun _ => .inl ?_, fun _ => by simp, fun hc => absurd hc hnot,
      fun hd => absurd (hdying.symm.trans hd) nofun, fun hk => ?_⟩
    · simp [State.setstate, State.set]
    · simp [State.setstate, State.set, hhook] at hk
  | some k =>
    cases k with
    | cwakeme =>
      refine ⟨l, h.change rfl rfl rfl (fun q hq => Function.update_of_ne hq _ _)
        (fun _ _ => rfl) le_rfl hn h.is (fun q _ => Iff.rfl) (fun i hi => hi) ?_⟩
      refine ⟨?_, ?_, ?_, ?_, ?_⟩ <;> simp only [State.set, Function.update_self]
      · exact hgood.queued
      · exact hgood.ready
      · exact hgood.carried
      · exact hgood.dying
      · exact nofun
    | dbgaddrun =>
      obtain ⟨hl, hdying⟩ := hoff (by rw [hhook]; exact nofun)
      refine ⟨l, h.change rfl rfl rfl (fun q hq => Function.update_of_ne hq _ _)
        (fun _ _ => rfl) le_rfl hn h.is (fun q _ => Iff.rfl) (fun i hi => hi) ?_⟩
      refine ⟨fun hm => absurd hm hl, ?_, ?_, fun hd => absurd (hdying.symm.trans hd) nofun,
        ?_⟩ <;> simp only [State.set, Function.update_self]
      · exact nofun
      · exact fun _ => ⟨hl, .inr (.inr trivial)⟩
      · exact nofun

theorem State.Ready.off (h : s.Ready l) (hn : n ≤ s.pidnum) (hcarried : ¬ s.Carried (.pid n))
    {P : Prog} {q : Runq Who} {d : ℕ → Bool} (hq : q.Is (l.erase (.pid n)))
    (hP : P.state ≠ .ready) (hhook : P.hook ≠ some .cwakeme)
    (hdying : ∀ m ≠ n, d m = s.dying m) (hdyingn : d n = true → P.state = .exiting) :
    ({ s.set (.pid n) P with runq := q, dying := d } : State).Ready (l.erase (.pid n)) := by
  have hout : .pid n ∉ l.erase (.pid n) := h.is.nodup.not_mem_erase
  refine h.change rfl rfl rfl (fun _ hp => Function.update_of_ne hp _ _) hdying le_rfl hn hq
    (fun _ hp => List.mem_erase_of_ne hp) (fun _ hi => head_erase hi nofun) ?_
  refine ⟨fun hm => absurd hm hout, ?_, fun hc => absurd hc hcarried, ?_, ?_⟩ <;>
    simp only [State.set, Function.update_self]
  · exact fun hready => absurd hready hP
  · exact fun hd => ⟨hdyingn hd, hout, hcarried⟩
  · exact fun hk => absurd hk hhook

theorem State.Ready.stay (h : s.Ready l) (hn : n ≤ s.pidnum) {P : Prog}
    (hgood : (s.set (.pid n) P).Good l n) : (s.set (.pid n) P).Ready l :=
  h.change rfl rfl rfl (fun _ hp => Function.update_of_ne hp _ _) (fun _ _ => rfl) le_rfl hn h.is
    (fun _ _ => Iff.rfl) (fun _ hi => hi) hgood

theorem State.Ready.killoff (h : s.Ready l) (hn : n ≤ s.pidnum) (hcarried : ¬ s.Carried (.pid n))
    {q : Runq Who} (hq : q.Is (l.erase (.pid n))) (hdying : s.dying n = false) (debugged : Bool) :
    (({ s with runq := q } : State).killoff n debugged).Ready (l.erase (.pid n)) := by
  have hnot : s.dying n ≠ true := by rw [hdying]; exact nofun
  rw [State.killoff]
  cases hhook : (s.prog (.pid n)).hook with
  | some k =>
    cases k with
    | cwakeme => exact absurd ((h.good n).hook hhook) hcarried
    | dbgaddrun =>
      exact h.off hn hcarried hq nofun nofun (fun _ _ => rfl) (fun hd => absurd hd hnot)
  | none =>
    have hne : (s.prog (.pid n)).hook ≠ some .cwakeme := by rw [hhook]; exact nofun
    cases debugged with
    | true => exact h.off hn hcarried hq nofun hne (fun _ _ => rfl) (fun hd => absurd hd hnot)
    | false =>
      exact h.off hn hcarried hq nofun hne (fun _ hm => Function.update_of_ne hm _ _)
        (fun _ => rfl)

theorem State.Ready.killprog (h : s.Ready l) (hone : s.vm.One) {debugged : Bool}
    (hok : (s.prog (.pid n)).state = .debug → ¬ s.Carried (.pid n)) :
    ∃ l', (s.killprog n debugged).Ready l' := by
  have hgood := h.good n
  rw [State.killprog]
  by_cases hcur : s.runq.runhd = some (.pid n)
  · have hmem : .pid n ∈ l := List.mem_of_mem_head? (h.is.runhd_eq.symm.trans hcur)
    have hn : n ≤ s.pidnum := h.le_pidnum (by grind)
    simp only [if_pos hcur]
    refine ⟨l, h.stay hn ⟨fun _ => .inr ?_, fun _ => hmem,
      fun hc => absurd hmem (hgood.carried hc).1, fun hd => absurd hmem (hgood.dying hd).2.1,
      fun hk => hgood.hook ?_⟩⟩
    · simp [State.set]
    · simpa [State.set] using hk
  simp only [if_neg hcur]
  -- not on the queue, or taken off it
  have hoff (hmem : .pid n ∉ l) (hn : n ≤ s.pidnum) (hcarried : ¬ s.Carried (.pid n))
      (hdying : s.dying n = false) : ∃ l', (s.killoff n debugged).Ready l' := by
    refine ⟨l.erase (.pid n), h.killoff hn hcarried ?_ hdying debugged⟩
    rw [List.erase_of_not_mem hmem]
    exact h.is
  have hn (hne : (s.prog (.pid n)).state ≠ .dead) : n ≤ s.pidnum := h.le_pidnum hne
  cases hst : (s.prog (.pid n)).state with
  | release =>
    refine ⟨l, h.stay (hn (by rw [hst]; exact nofun)) ?_⟩
    refine ⟨?_, ?_, ?_, ?_, ?_⟩ <;>
      simp only [State.set_state, State.set_carried, State.set_dying]
    all_goals grind
  | exiting | dead => exact ⟨l, h⟩
  | ready =>
    have hmem := hgood.ready hst
    exact ⟨_, h.killoff (hn (by rw [hst]; exact nofun)) (by grind) (h.delrunq hone) (by grind) _⟩
  | alt | send | recv | broken | debug =>
    exact hoff (by grind) (hn (by rw [hst]; exact nofun)) (by grind) (by grind)

theorem State.Ready.pids (h : s.Ready l) (hone : s.vm.One) (hi : s.interp i) (hp : p ∈ l) :
    ∃ n, p = .pid n := by
  cases p with
  | own j =>
    obtain ⟨hj, htype⟩ := (h.own j).mp hp
    rw [← hone i j hi.1 hj] at htype
    exact absurd hi.2 htype
  | pid n => exact ⟨n, rfl⟩

theorem State.Ready.delrun (h : s.Ready l) (hone : s.vm.One) (hi : s.interp i)
    (hp : s.runq.runhd = some p) {st : PState} (hst : st.blocked ∨ st = .debug ∨ st = .broken) :
    ∃ l', ({ s.setstate p st with runq := s.runq.delrun } : State).Ready l' := by
  have hmem : p ∈ l := List.mem_of_mem_head? (h.is.runhd_eq.symm.trans hp)
  obtain ⟨n, rfl⟩ := h.pids hone hi hmem
  have hgood := h.good n
  have hq : s.runq.delrun.Is (l.erase (.pid n)) := by
    obtain ⟨l', rfl⟩ : ∃ l', l = .pid n :: l' := List.head?_eq_some_iff.mp (h.is.runhd_eq ▸ hp)
    rw [List.erase_cons_head]
    exact h.is.delrun
  have hready : st ≠ .ready := by rintro rfl; simp [PState.blocked] at hst
  exact ⟨_, h.off (h.le_pidnum (by grind)) (by grind) hq hready (by grind) (fun _ _ => rfl)
    (fun hd => absurd hmem (hgood.dying hd).2.1)⟩

theorem State.Ready.delruntail (h : s.Ready l) (hone : s.vm.One) (hi : s.interp i)
    (hp : s.runq.runtl = some p) (again : Bool) : ∃ l', (s.delruntail p again).Ready l' := by
  have hmem : p ∈ l := List.mem_of_getLast? (h.is.tail_eq.symm.trans hp)
  obtain ⟨n, rfl⟩ := h.pids hone hi hmem
  have hgood := h.good n
  have hn : n ≤ s.pidnum := h.le_pidnum (by grind)
  have htaken := h.off (P := { s.prog (.pid n) with state := .debug }) hn (by grind)
    (h.delrunq hone) nofun (by grind) (d := s.dying) (fun _ _ => rfl) (by grind)
  rw [State.delruntail]
  cases again with
  | false => exact ⟨_, htaken⟩
  | true =>
    refine htaken.addrun hn (fun _ => ⟨h.is.nodup.not_mem_erase, ?_⟩) (fun _ => ?_)
    · change s.dying n = false
      grind
    · change ¬ s.Carried (.pid n)
      grind

theorem State.Ready.newprog (h : s.Ready l) : ∃ l', s.newprog.Ready l' := by
  have hgood := h.good (s.pidnum + 1)
  have hdead := h.dead (s.pidnum + 1) (Nat.lt_succ_self _)
  have hmem : .pid (s.pidnum + 1) ∉ l := by grind
  refine ⟨l ++ [.pid (s.pidnum + 1)], h.change (n := s.pidnum + 1) rfl rfl rfl ?_
    (fun _ _ => rfl) (Nat.le_succ _) le_rfl ?_ (fun _ hp => by simp [hp])
    (fun _ hi => head_append hi _) ?_⟩
  · exact fun _ hp => Function.update_of_ne hp _ _
  · exact h.is.addrun hmem
  have hcarried : ¬ s.Carried (.pid (s.pidnum + 1)) := by grind
  refine ⟨fun _ => .inl ?_, fun _ => by simp, fun hc => absurd hc hcarried, ?_, ?_⟩ <;>
    simp only [State.newprog, State.set_state]
  · exact fun hd => absurd (hgood.dying hd).1 (by rw [hdead]; exact nofun)
  · exact nofun

theorem State.Ready.delprog (h : s.Ready l) (hn : n ≤ s.pidnum)
    (hcarried : ¬ s.Carried (.pid n)) (hl : .pid n ∈ l → s.runq.runhd = some (.pid n))
    (hhook : (s.prog (.pid n)).hook ≠ some .cwakeme) : ∃ l', (s.delprog n).Ready l' := by
  refine ⟨l.erase (.pid n), h.off hn hcarried ?_ nofun hhook
    (fun _ hm => Function.update_of_ne hm _ _) (fun hd => ?_)⟩
  · by_cases hcur : s.runq.runhd = some (.pid n)
    · obtain ⟨l', rfl⟩ : ∃ l', l = .pid n :: l' :=
        List.head?_eq_some_iff.mp (h.is.runhd_eq ▸ hcur)
      rw [if_pos hcur, List.erase_cons_head]
      exact h.is.delrun
    · rw [if_neg hcur, List.erase_of_not_mem fun hm => hcur (hl hm)]
      exact h.is
  · simp at hd

theorem State.Ready.pushrun (h : s.Ready l) (hone : s.vm.One) (hi : s.interp i)
    (hst : (s.prog (.pid n)).state.blocked = true) :
    ({ s.set (.pid n) { s.prog (.pid n) with state := .ready, hook := some .dbgaddrun } with
      runq := s.runq.push (.pid n) } : State).Ready (.pid n :: l) := by
  have hgood := h.good n
  have hmem : .pid n ∉ l := by grind [PState.blocked]
  have hcarried : ¬ s.Carried (.pid n) := by grind [PState.blocked]
  have hdying : ¬ s.dying n = true := by grind [PState.blocked]
  refine h.change rfl rfl rfl (fun _ hp => Function.update_of_ne hp _ _) (fun _ _ => rfl) le_rfl
    (h.le_pidnum (by grind [PState.blocked])) (h.is.push hmem)
    (fun _ hp => by simp [hp]) (fun j hj => ?_) ?_
  · obtain ⟨m, hm⟩ := h.pids hone hi (List.mem_of_mem_head? hj)
    exact nomatch hm
  · refine ⟨fun _ => .inl ?_, fun _ => by simp, fun hc => absurd hc hcarried,
      fun hd => absurd hd hdying, ?_⟩ <;> simp only [State.set_state]
    exact nofun

theorem State.Ready.rotate (h : s.Ready l) (hone : s.vm.One) (hi : s.interp i) :
    ∃ l', ({ s with runq := s.runq.rotate } : State).Ready l' := by
  cases l with
  | nil =>
    refine ⟨[], ?_⟩
    have hrunq : s.runq.rotate = s.runq := by
      rw [Runq.rotate, if_pos (h.is.runhd_eq.trans h.is.tail_eq.symm)]
    rw [hrunq]
    exact h
  | cons r l =>
    obtain ⟨n, rfl⟩ := h.pids hone hi List.mem_cons_self
    have hmem (p : Who) : p ∈ l ++ [.pid n] ↔ p ∈ Who.pid n :: l := by simp [or_comm]
    refine ⟨l ++ [.pid n], h.is.rotate, fun m => ?_, ?_, ?_, fun j hj htype => ?_, h.once, h.away,
      h.interp, h.fresh, h.dead⟩
    · have hgood := h.good m
      exact ⟨fun hm => hgood.queued ((hmem _).mp hm), fun hr => (hmem _).mpr (hgood.ready hr),
        fun hc => ⟨fun hm => (hgood.carried hc).1 ((hmem _).mp hm), (hgood.carried hc).2⟩,
        fun hd => ⟨(hgood.dying hd).1, fun hm => (hgood.dying hd).2.1 ((hmem _).mp hm),
          (hgood.dying hd).2.2⟩, hgood.hook⟩
    · exact fun j => (hmem _).trans (h.own j)
    · exact fun j hj => h.ownready j ((hmem _).mp hj)
    · cases h.head j hj htype

end Infernode.Isched
