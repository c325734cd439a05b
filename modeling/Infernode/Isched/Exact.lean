import Infernode.Isched.Carry
import Infernode.Lib.Runs

/-!
# The token and the run queue in any run

Each section keeps the token with one proc or on its way to one, and each splice keeps the run
queue to the Progs that are ready. A debugger's commands do where no proc carries the Prog.
-/

namespace Infernode.Isched

open Lib (Fifo Linked)

variable {s : State} {l : List Who} {i n : ℕ} {p : Who}

@[simp]
theorem State.set_vm (P : Prog) : (s.set p P).vm = s.vm := rfl

@[simp]
theorem State.setstate_vm (st : PState) : (s.setstate p st).vm = s.vm := rfl

@[simp]
theorem State.addrun_vm : (s.addrun p).vm = s.vm := by
  rw [State.addrun]
  split <;> rfl

@[simp]
theorem State.takerun_vm : (s.takerun i).vm = s.vm := by
  rw [State.takerun]
  split_ifs
  · cases s.iprog i <;> rfl
  · rfl

@[simp]
theorem State.killoff_vm (debugged : Bool) : (s.killoff n debugged).vm = s.vm := by
  rw [State.killoff]
  cases debugged <;> split <;> rfl

@[simp]
theorem State.killprog_vm (debugged : Bool) : (s.killprog n debugged).vm = s.vm := by
  simp only [State.killprog]
  split_ifs
  · rfl
  · split <;> simp

@[simp]
theorem State.delruntail_vm (again : Bool) : (s.delruntail p again).vm = s.vm := by
  cases again <;> simp [State.delruntail]

@[simp]
theorem State.acquire_vm : (s.acquire i).vm = s.vm.acquire i := by
  rw [State.acquire]
  split_ifs <;> simp

theorem State.release_vm : (s.release i).vm = s.vm ∨ (s.release i).vm = s.vm.release i := by
  rw [State.release]
  cases s.runq.runhd with
  | none => exact .inl rfl
  | some r => exact .inr rfl

/-- The token is with one proc, or with none, or on its way to one. -/
def Vm.Kept (v : Vm) : Prop := ∃ t vs ids, v.Token t vs ids

theorem Vm.Kept.one {v : Vm} (h : v.Kept) : v.One := by
  obtain ⟨t, vs, ids, htoken⟩ := h
  exact htoken.one

theorem State.release_kept (h : s.vm.Kept) (hi : s.vm.place i = .has) :
    (s.release i).vm.Kept := by
  obtain ⟨t, vs, ids, htoken⟩ := h
  rcases State.release_vm (s := s) (i := i) with hvm | hvm
  · rw [hvm]
    exact ⟨t, vs, ids, htoken⟩
  · rw [hvm]
    exact htoken.release hi

theorem step_kept (h : s.vm.Kept) (e : Event) : (step s e).vm.Kept := by
  have hkeep : s.vm.Kept := h
  obtain ⟨t, vs, ids, htoken⟩ := h
  cases e with
  | appear i =>
    simp only [step]
    split_ifs with hi
    exacts [⟨t, vs, ids, htoken.appear hi⟩, hkeep]
  | acquire i =>
    simp only [step]
    split_ifs with hi
    · rw [State.acquire_vm]
      cases hidle : s.vm.idle with
      | true => exact ⟨_, _, _, htoken.acquire_idle hidle⟩
      | false => exact ⟨_, _, _, htoken.acquire hi hidle⟩
    · exact hkeep
  | wake i =>
    simp only [step]
    split_ifs with hi
    · rw [State.wake]
      split
      · rw [State.takerun_vm]
        exact ⟨_, _, _, htoken.wake hi⟩
      · exact ⟨_, _, _, htoken.wake hi⟩
      · exact hkeep
    · exact hkeep
  | release i =>
    simp only [step]
    split_ifs with hi
    exacts [State.release_kept hkeep hi, hkeep]
  | osready i =>
    simp only [step]
    split
    · next p yields hi => exact ⟨_, _, _, htoken.osready hi⟩
    · exact hkeep
  | kproc i k =>
    simp only [step]
    split_ifs with hi
    exacts [⟨_, _, _, htoken.kproc hi.1 hi.2⟩, hkeep]
  | nokproc i =>
    simp only [step]
    split_ifs with hi
    exacts [⟨_, _, _, htoken.nokproc hi⟩, hkeep]
  | iyield i =>
    simp only [step]
    split_ifs with hi
    exacts [htoken.iyield hi.1, hkeep]
  | startup i =>
    simp only [step]
    split_ifs with hi
    · obtain ⟨t', ids', htoken'⟩ := htoken.startup hi
      exact ⟨t', vs, ids', htoken'⟩
    · exact hkeep
  | dbgblock i n =>
    simp only [step]
    split_ifs with hi
    · exact State.release_kept (s := { s.set (.pid n) _ with runq := _ }) hkeep hi.1.1
    · exact hkeep
  | cblock i =>
    simp only [step]
    split
    · split_ifs with hi
      · exact State.release_kept (s := s.set _ _) hkeep hi.1
      · exact hkeep
    · exact hkeep
  | delrun i st =>
    simp only [step]
    split
    · split_ifs <;> exact hkeep
    · exact hkeep
  | delruntail i again =>
    simp only [step]
    split
    · split_ifs <;> simpa using hkeep
    · exact hkeep
  | newprog i | addrun i n | exprog i n | dbgstart i n | dbgend i n | gc i | gcend i
  | killprog i n debugged | delprog i n | rotate i =>
    simp only [step]
    split_ifs <;> simpa [State.newprog, State.gc, State.gcend, State.delprog] using hkeep
  | dbgstep i n =>
    simp only [step]
    split_ifs <;> simpa using hkeep

/-- No debugger starts, and nobody kills, a Prog in `Pdebug` that a proc still carries; and none
that is queued, dying or dead is woken with a debugger's hook left on it. -/
def State.Settled (s : State) : Event → Prop
  | .addrun _ n => (s.prog (.pid n)).hook = some .dbgaddrun →
    (s.prog (.pid n)).state ≠ .ready ∧ (s.prog (.pid n)).state ≠ .dead ∧
      ((s.prog (.pid n)).state = .exiting → s.Carried (.pid n))
  | .dbgstart _ n | .dbgstep _ n | .killprog _ n _ =>
    (s.prog (.pid n)).state = .debug → ¬ s.Carried (.pid n)
  | _ => True

theorem State.Ready.blocked (h : s.Ready l) (hst : (s.prog (.pid n)).state.blocked = true) :
    n ≤ s.pidnum ∧ .pid n ∉ l ∧ s.dying n = false ∧ ¬ s.Carried (.pid n) := by
  have hgood := h.good n
  have hn : n ≤ s.pidnum := h.le_pidnum (by grind [PState.blocked])
  refine ⟨hn, ?_, ?_, ?_⟩ <;> grind [PState.blocked]

theorem State.Ready.addrun_debug (h : s.Ready l) (hst : (s.prog (.pid n)).state = .debug)
    (hcarried : ¬ s.Carried (.pid n)) : ∃ l', (s.addrun (.pid n)).Ready l' := by
  have hgood := h.good n
  exact h.addrun (h.le_pidnum (by rw [hst]; exact nofun)) (fun _ => by grind) (fun _ => hcarried)

theorem State.Ready.addrun_hook (h : s.Ready l)
    (hst : (s.prog (.pid n)).state.blocked = true ∨ (s.prog (.pid n)).hook.isSome = true)
    (hok : s.Settled (.addrun i n)) : ∃ l', (s.addrun (.pid n)).Ready l' := by
  have hgood := h.good n
  rcases hst with hst | hst
  · obtain ⟨hn, hl, hdying, hcarried⟩ := h.blocked hst
    exact h.addrun hn (fun _ => ⟨hl, hdying⟩) (fun _ => hcarried)
  · obtain ⟨k, hk⟩ := Option.isSome_iff_exists.mp hst
    have hnone : (s.prog (.pid n)).hook ≠ none := by rw [hk]; exact nofun
    cases k with
    | cwakeme =>
      exact h.addrun (h.le_pidnum (by grind)) (fun hne => absurd hk hne)
        (fun heq => absurd heq hnone)
    | dbgaddrun =>
      obtain ⟨hready, hdead, hexiting⟩ := hok hk
      exact h.addrun (h.le_pidnum hdead) (fun _ => by grind) (fun heq => absurd heq hnone)

theorem State.Ready.cblock (h : s.Ready l) (hone : s.vm.One) (hi : s.interp i)
    (hp : s.runq.runhd = some p) :
    ∃ l', ((s.set p { s.prog p with hook := some .cwakeme }).release i).Ready l' := by
  have hmem : p ∈ l := List.mem_of_mem_head? (h.is.runhd_eq.symm.trans hp)
  obtain ⟨n, rfl⟩ := h.pids hone hi hmem
  have heq : (s.set (.pid n) { s.prog (.pid n) with hook := some .cwakeme }).release i =
      (s.release i).set (.pid n) { (s.release i).prog (.pid n) with hook := some .cwakeme } := by
    simp only [State.release, State.set, State.setstate, hp, Function.update_self,
      Function.update_idem]
    rfl
  obtain ⟨l', hl'⟩ := h.release hone hi.1
  have hgood := hl'.good n
  have hcarried : (s.release i).Carried (.pid n) := by
    obtain ⟨pl, hplace, hpl⟩ := Vm.release_place s.vm i
    obtain ⟨hvm, htype, hiprog, -⟩ := State.release_eq (i := i) hp
    refine ⟨i, ?_⟩
    rw [State.carry, hvm, hplace, htype, hiprog, if_pos hi.2, Function.update_self,
      Function.update_self, if_pos ⟨hpl, hi.2⟩]
  rw [heq]
  refine ⟨l', hl'.stay (hl'.le_pidnum (by grind)) ?_⟩
  refine ⟨?_, ?_, ?_, ?_, ?_⟩ <;> simp only [State.set_state, State.set_carried, State.set_dying]
  all_goals grind

theorem step_ready (hkept : s.vm.Kept) (h : ∃ l, s.Ready l) {e : Event} (hok : s.Settled e) :
    ∃ l, (step s e).Ready l := by
  have hready := h
  have hone := hkept.one
  obtain ⟨t, vs, ids, htoken⟩ := hkept
  obtain ⟨l, h⟩ := h
  cases e with
  | appear i =>
    simp only [step]
    split_ifs with hi
    · exact ⟨l, h.moved rfl (fun htype => absurd htype (h.fresh i (.inl hi))) (by grind) (by simp)
        (by simp)⟩
    · exact hready
  | acquire i =>
    simp only [step]
    split_ifs with hi
    · rw [State.acquire]
      split_ifs with hidle
      · have hfree (j : ℕ) (hj : s.vm.place j = .has) : False := by
          have htidle := htoken.idle.mp hidle
          rw [(htoken.has j).mp hj] at htidle
          cases htidle
        exact h.takerun hfree (by rw [hi]; rfl) (by rw [Vm.acquire, if_pos hidle]; rfl)
      · refine ⟨l, h.moved (i := i) (w := .acquiring) ?_ (fun _ => by rw [hi]; rfl)
          (fun _ => ⟨(by simp), by rw [hi]; simp⟩) (by simp) (by simp)⟩
        rw [Vm.acquire, if_neg hidle]
        rfl
    · exact hready
  | wake i =>
    simp only [step]
    split_ifs with hi
    · have hfree (j : ℕ) (hj : s.vm.place j = .has) : False := by
        have hturn := (htoken.woken i).mp hi
        rw [(htoken.has j).mp hj] at hturn
        cases hturn
      rw [State.wake]
      split
      · next hplace => exact h.takerun hfree (by rw [hplace]; rfl) rfl
      · next hplace =>
        have htype := h.interp i (.inl hplace)
        exact ⟨l, h.moved rfl (fun _ => by rw [hplace]; rfl) (fun hne => absurd htype hne)
          (fun _ => htype) (by simp)⟩
      · exact hready
    · exact hready
  | release i =>
    simp only [step]
    split_ifs with hi
    exacts [h.release hone hi, hready]
  | osready i =>
    simp only [step]
    split
    · next p yields hi =>
      refine ⟨l, h.moved (i := i) (w := if yields then .idling else .out) rfl
        (fun _ => ?_) (fun _ => ⟨?_, ?_⟩) (fun hpl => ?_) ?_⟩
      · rw [hi]
        cases yields <;> rfl
      · cases yields <;> simp
      · rw [hi]
        simp
      · cases yields with
        | true => exact h.interp i (.inr ⟨p, hi⟩)
        | false => simp at hpl
      · cases yields <;> simp
    · exact hready
  | kproc i k =>
    simp only [step]
    split_ifs with hi
    · have hik : i ≠ k := by
        rintro rfl
        cases hi.1.symm.trans hi.2
      have htype := h.fresh k (.inl hi.2)
      have hk := h.moved (v := s.vm.at k .coming) rfl (fun heq => absurd heq htype)
        (fun _ => ⟨(by simp), by rw [hi.2]; simp⟩) (by simp) (fun _ => htype)
      have hplace : (s.vm.at k .coming).place i = .making :=
        (Function.update_of_ne hik _ _).trans hi.1
      refine ⟨l, hk.moved (v := s.vm.kproc i k) rfl (fun _ => ?_) (fun _ => ⟨(by simp), ?_⟩) (by simp)
        (by simp)⟩ <;> rw [hplace]
      · rfl
      · simp
    · exact hready
  | nokproc i =>
    simp only [step]
    split_ifs with hi
    · exact ⟨l, h.moved rfl (fun _ => by rw [hi]; rfl) (fun _ => ⟨(by simp), by rw [hi]; simp⟩)
        (by simp) (by simp)⟩
    · exact hready
  | iyield i =>
    simp only [step]
    split_ifs with hi
    · cases hvmq : s.vm.vmq with
      | none =>
        rw [Vm.iyield, hvmq]
        exact hready
      | some p =>
        refine ⟨l, h.moved (i := i) (w := .readying p true) ?_ (fun _ => by rw [hi.1]; rfl)
          (fun hne => absurd hi.2 hne) (fun _ => hi.2) (by simp)⟩
        rw [Vm.iyield, hvmq]
        rfl
    · exact hready
  | startup i =>
    simp only [step]
    split_ifs with hi
    exacts [⟨l, h.startup hi⟩, hready]
  | delrun i st =>
    simp only [step]
    split
    · next p hp =>
      split_ifs with hi
      exacts [h.delrun hone hi.1 hp hi.2, hready]
    · exact hready
  | delruntail i again =>
    simp only [step]
    split
    · next p hp =>
      split_ifs with hi
      exacts [h.delruntail hone hi hp again, hready]
    · exact hready
  | newprog i =>
    simp only [step]
    split_ifs
    exacts [h.newprog, hready]
  | addrun i n =>
    simp only [step]
    split_ifs with hi
    exacts [h.addrun_hook hi.2 hok, hready]
  | exprog i n =>
    simp only [step]
    split_ifs with hi
    · obtain ⟨hn, hl, hdying, hcarried⟩ := h.blocked hi.2
      exact h.addrun hn (fun _ => ⟨hl, hdying⟩) (fun _ => hcarried)
    · exact hready
  | dbgstart i n =>
    simp only [step]
    split_ifs with hi
    exacts [h.addrun_debug hi.2.2 (hok hi.2.2), hready]
  | dbgstep i n =>
    simp only [step]
    split_ifs with hi hst
    · obtain ⟨l', hl'⟩ := h.addrun_debug hst (hok hst)
      exact ⟨l', hl'.stepped _⟩
    · exact ⟨l, h.stepped _⟩
    · exact hready
  | dbgend i n =>
    simp only [step]
    split_ifs
    exacts [⟨l, h.stepped _⟩, hready]
  | dbgblock i n =>
    simp only [step]
    split_ifs with hi
    · exact (h.pushrun hone hi.1 hi.2.1).release hone hi.1.1
    · exact hready
  | cblock i =>
    simp only [step]
    split
    · next p hp =>
      split_ifs with hi
      exacts [h.cblock hone hi hp, hready]
    · exact hready
  | gc i =>
    simp only [step]
    split_ifs with hi
    exacts [⟨_, h.gc hone hi⟩, hready]
  | gcend i =>
    simp only [step]
    split_ifs with hi
    exacts [⟨_, h.gcend hone hi.1⟩, hready]
  | killprog i n debugged =>
    simp only [step]
    split_ifs
    exacts [h.killprog hone hok, hready]
  | delprog i n =>
    simp only [step]
    split_ifs with hi
    · have hgood := h.good n
      rcases hi.2 with hdying | ⟨htype, hhd⟩
      · exact h.delprog (h.le_pidnum (by grind)) (by grind) (by grind) (by grind)
      · have hmem : .pid n ∈ l := List.mem_of_mem_head? (h.is.runhd_eq.symm.trans hhd)
        exact h.delprog (h.le_pidnum (by grind)) (by grind) (fun _ => hhd) (by grind)
    · exact hready
  | rotate i =>
    simp only [step]
    split_ifs with hi
    exacts [h.rotate hone hi, hready]

def Vm.Handed (v : Vm) (p : ℕ) : Prop :=
  v.woken p = true ∨ ∃ i yields, v.place i = .readying p yields

/-- What the scheduler promises: at most one proc has the VM; if none has, the scheduler is idle
with nobody in `vmq`, or one is handed it; those in `vmq` came last, in that order; who waits is
there or is handed the VM; nobody is on two queues; at most one kproc is being made; and the run
queue has the Progs that are ready, each once, with a kproc's own while that collects, and no
other but one killed while it was the current Prog. -/
structure State.Exact (s : State) : Prop where
  one : s.vm.One
  handed : (∀ i, s.vm.place i ≠ .has) →
    s.vm.idle = true ∧ s.vm.vmq = none ∧ (∀ p, ¬ s.vm.Handed p) ∨
      s.vm.idle = false ∧ ∃! p, s.vm.Handed p
  queues : ∃ vs ids, Linked s.vm.qnext s.vm.vmq vs ∧ Linked s.vm.qnext s.vm.idlevmq ids ∧
    (vs ++ ids).Nodup ∧ s.vm.arrived = s.vm.granted ++ vs ∧
    (∀ i, s.vm.place i = .acquiring → i ∈ vs ∨ s.vm.Handed i) ∧
    ∀ i, s.vm.place i = .idling → i ∈ ids ∨ s.vm.Handed i
  making : ∀ i j, (s.vm.place i = .making ∨ s.vm.place i = .coming) →
    (s.vm.place j = .making ∨ s.vm.place j = .coming) → i = j
  runq : ∃ l, s.runq.Is l ∧
    (∀ p ∈ l, (s.prog p).state = .ready ∨
      (s.prog p).state = .exiting ∧ (s.prog p).killed = true) ∧
    (∀ n, (s.prog (.pid n)).state = .ready → .pid n ∈ l) ∧
    ∀ i, .own i ∈ l ↔ s.vm.place i = .has ∧ s.type i ≠ .interp

theorem Vm.Token.handed {v : Vm} {t : Turn} {vs ids : List ℕ} (h : v.Token t vs ids) (p : ℕ) :
    v.Handed p ↔ p ∈ t.next := by
  constructor
  · rintro (hwoken | ⟨i, yields, hplace⟩)
    · rw [(h.woken p).mp hwoken]
      rfl
    · rw [h.readying i p yields hplace]
      rfl
  · intro hp
    cases t with
    | idle | held i => exact nomatch hp
    | passed i q =>
      obtain rfl := Option.some.inj hp
      obtain ⟨yields, hplace⟩ := h.passed i q rfl
      exact .inr ⟨i, yields, hplace⟩
    | readied q =>
      obtain rfl := Option.some.inj hp
      exact .inl ((h.woken q).mpr rfl)

theorem State.exact (hkept : s.vm.Kept) (h : s.Ready l) : s.Exact := by
  obtain ⟨t, vs, ids, htoken⟩ := hkept
  refine ⟨htoken.one, fun hfree => ?_, ⟨vs, ids, htoken.vmq.linked, htoken.idlevmq, ?_,
    htoken.arrived, fun i hi => ?_, fun i hi => ?_⟩, htoken.making,
    ⟨l, h.is, fun p hp => ?_, fun n => (h.good n).ready, h.own⟩⟩
  · have hidle : s.vm.idle = true ↔ t = .idle := htoken.idle
    simp only [htoken.handed]
    cases t with
    | idle =>
      have hlinked := htoken.vmq.linked
      rw [(htoken.empty rfl).1] at hlinked
      exact .inl ⟨hidle.mpr rfl, hlinked, nofun⟩
    | held i => exact absurd ((htoken.has i).mpr rfl) (hfree i)
    | passed i p | readied p =>
      have hnot : s.vm.idle = false := Bool.eq_false_iff.mpr fun heq => nomatch hidle.mp heq
      refine .inr ⟨hnot, p, rfl, fun q hq => ?_⟩
      exact (Option.some.inj hq).symm
  · refine List.nodup_append.mpr ⟨htoken.vmq.nodup, htoken.nodup, ?_⟩
    rintro a ha b hb rfl
    exact htoken.disjoint ha hb
  · rw [htoken.handed]
    exact htoken.waits i hi
  · rw [htoken.handed]
    exact (htoken.sleeps i).1 hi
  · cases p with
    | own i => exact .inl (h.ownready i hp)
    | pid n => exact (h.good n).queued hp

theorem boot_kept : boot.vm.Kept := by
  have hplace (i : ℕ) : boot.vm.place i = if i = 0 then .has else .absent := rfl
  refine ⟨.held 0, [], [], Fifo.empty _, rfl, List.nodup_nil, ?_, nofun, fun i => ?_,
    fun i p yields hi => ?_, nofun, fun p => ?_, nofun, nofun, nofun, fun i hi => ?_,
    fun i => ⟨fun hi => ?_, fun p hi => ?_⟩, fun i j hi hj => ?_, fun i hi => ?_, rfl⟩
  · simp [boot]
  · rw [hplace]
    grind
  · rw [hplace] at hi
    grind
  · simp [boot]
  all_goals
    rw [hplace] at hi
    grind

theorem boot_ready : boot.Ready [.pid 1] := by
  have hplace (i : ℕ) : boot.vm.place i = if i = 0 then .has else .absent := rfl
  have htype (i : ℕ) : boot.type i = if i = 0 then .interp else .other := rfl
  have hprog (p : Who) : boot.prog p = ⟨if p = .pid 1 then .ready else .dead, none, false⟩ := rfl
  have hcarry (i : ℕ) : boot.carry i = none := by
    rw [State.carry, hplace]
    grind [Place.away]
  have hcarried (p : Who) : ¬ boot.Carried p := by simp [State.Carried, hcarry]
  refine ⟨⟨⟨rfl, rfl⟩, rfl, List.nodup_singleton _⟩, fun n => ?_, fun i => ?_, fun i hi => ?_,
    fun i hi htype' => ?_, ?_, fun i hi => ?_, fun i hi => ?_, fun i hi => ?_, fun n hn => ?_⟩
  · refine ⟨?_, ?_, ?_, ?_, ?_⟩ <;> simp only [hprog, hcarried]
    all_goals grind [boot]
  · rw [hplace, htype]
    grind
  · simp at hi
  · rw [hplace] at hi
    rw [htype] at htype'
    grind
  · simp [hcarry]
  · rw [hplace] at hi
    grind [Place.away]
  · rw [hplace] at hi
    grind
  · rw [hplace] at hi
    rw [htype]
    grind
  · have hne : n ≠ 1 := fun heq => absurd hn (by rw [heq]; exact lt_irrefl 1)
    rw [hprog, if_neg fun heq => hne (Who.pid.inj heq)]

/-- While no command of a debugger and no kill takes the Prog of a proc, the token is with one
proc or on its way to one, and the run queue is that of the Progs that are ready. -/
theorem sched_exact (es : List Event) (hes : Lib.Always step State.Settled boot es) :
    (es.foldl step boot).Exact := by
  have hinv := Lib.Always.invariant (fun s : State => s.vm.Kept ∧ ∃ l, s.Ready l)
    (fun s e hs he => ⟨step_kept hs.1 e, step_ready hs.1 hs.2 he⟩)
    ⟨boot_kept, [.pid 1], boot_ready⟩ hes
  obtain ⟨hkept, l, hready⟩ := hinv
  exact State.exact hkept hready

/-- The first interpreter spawns a Prog, waits for the VM, and comes to it again. -/
theorem sched_exact_handoff : (([.newprog 0, .delrun 0 .recv, .addrun 0 1, .release 0, .kproc 0 1,
    .startup 1, .acquire 0, .iyield 1, .osready 1, .wake 0] : List Event).foldl step boot).Exact :=
  sched_exact _ ⟨trivial, trivial, nofun, trivial, trivial, trivial, trivial, trivial, trivial,
    trivial, trivial⟩

/-- A debugger that was interrupted starts Prog 2, whose proc is to acquire the VM: the Prog is
linked to itself through Prog 3. -/
def restarted : List Event :=
  [.newprog 0, .newprog 0, .dbgstep 0 2, .release 0, .kproc 0 1, .startup 1, .delrun 1 .recv,
    .dbgblock 1 2, .kproc 1 2, .startup 2, .acquire 0, .iyield 2, .osready 2, .wake 0,
    .dbgend 0 2, .release 0, .osready 0, .wake 2, .acquire 0, .addrun 2 2, .acquire 1, .iyield 2,
    .osready 2, .wake 0, .dbgstart 0 2, .release 0, .osready 0, .wake 1]

theorem sched_twice : ¬ ∀ es : List Event, (es.foldl step boot).Exact := by
  intro h
  obtain ⟨l, hl, -⟩ := (h restarted).runq
  have hhd : ((restarted.foldl step boot).runq).runhd = some (.pid 2) := by decide
  have h2 : ((restarted.foldl step boot).runq).link (.pid 2) = some (.pid 3) := by decide
  have h3 : ((restarted.foldl step boot).runq).link (.pid 3) = some (.pid 2) := by decide
  have hlinked := hl.linked
  have hnodup := hl.nodup
  rw [hhd] at hlinked
  -- from Prog 2 the links come to Prog 2 again
  obtain ⟨as, rfl, has⟩ := hlinked.exists_cons
  rw [h2] at has
  obtain ⟨bs, rfl, hbs⟩ := has.exists_cons
  rw [h3] at hbs
  obtain ⟨cs, rfl, -⟩ := hbs.exists_cons
  exact (List.nodup_cons.mp hnodup).1 (List.mem_cons_of_mem _ List.mem_cons_self)

end Infernode.Isched
