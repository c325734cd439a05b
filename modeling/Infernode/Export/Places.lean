import Infernode.Export.Proto

/-!
# Where each request is

`Step` lists what a step can do. A request is in one place at a time: with the
reader, in `exq`, with a slave, in the queue of flushes of another, in the hands of
that one's slave, or freed. `Core` says that the lists agree on this, and in which
order they stand.
-/

namespace Infernode.Export

inductive Step (s : State) : State → Prop
  | receive (t : Fcall) (hr : s.reader = .reading) : Step s (s.receive t)
  | hangup (hr : s.reader = .reading) :
      Step s { s with next := s.next + 1, log := s.log ++ [.free s.next], reader := .shutexq }
  | queue (q : ℕ) (hr : s.reader = .queueing q) :
      Step s { s with exq := s.exq ++ [q], reader := .reading }
  | found (fq q : ℕ) (hr : s.reader = .searching fq) (hf : s.exq.find? (s.names fq) = some q) :
      Step s { s with exq := s.exq.erase q, reader := .discarding q fq }
  | unfound (fq : ℕ) (hr : s.reader = .searching fq) (hf : s.exq.find? (s.names fq) = none) :
      Step s { s with reader := .searchwork fq }
  | discard (q fq : ℕ) (hr : s.reader = .discarding q fq) :
      Step s { s.exfreeq q with reader := .replying fq }
  | finished (fq q : ℕ) (hr : s.reader = .searchwork fq)
      (hf : s.work.find? (s.names fq) = some q) (hq : (s.exqs q).finished = true) :
      Step s { s with reader := .replying fq }
  | append (fq q : ℕ) (hr : s.reader = .searchwork fq)
      (hf : s.work.find? (s.names fq) = some q) (hq : (s.exqs q).finished = false) :
      Step s { s.setq q { s.exqs q with flush := (s.exqs q).flush ++ [fq] } with
        reader := .reading }
  | missed (fq : ℕ) (hr : s.reader = .searchwork fq) (hf : s.work.find? (s.names fq) = none) :
      Step s { s with reader := .replying fq }
  | answer (q : ℕ) (hr : s.reader = .replying q) :
      Step s { s.exreply q with reader := .freeing q }
  | free (q : ℕ) (hr : s.reader = .freeing q) : Step s { s.exfreeq q with reader := .reading }
  | shutexq (hr : s.reader = .shutexq) :
      Step s { s.exq.foldl State.exfreeq s with exq := [], reader := .shutwork }
  | shutwork (hr : s.reader = .shutwork) : Step s { s with reader := .shutting }
  | shut (q : ℕ) (work : List ℕ) (hr : s.reader = .shutting) (hw : s.work = q :: work) :
      Step s { s.setq q { s.exqs q with shut := true } with work }
  | ended (hr : s.reader = .shutting) (hw : s.work = []) : Step s { s with reader := .ended }
  | take (q : ℕ) (exq : List ℕ) (hq : s.exq = q :: exq) (hr : s.reader ≠ .shutting) :
      Step s (({ s with exq, work := q :: s.work }.setq q { s.exqs q with busy := true }).goto q
        (some .running))
  | fcall (q : ℕ) (err : Bool) (hs : s.slave q = some .running) :
      Step s (s.goto q (some (.returned err)))
  | decide (q : ℕ) (err : Bool) (hs : s.slave q = some (.returned err))
      (hq : (s.exqs q).shut = false) :
      Step s ((s.setq q { s.exqs q with busy := false }).goto q (some .replying))
  | pop (q fq : ℕ) (flush : List ℕ) (busy : Bool) (p : Slave) (hs : s.slave q = some p)
      (hp : p = .draining ∨ ∃ err, p = .returned err) (hf : (s.exqs q).flush = fq :: flush)
      (hq : (s.exqs q).shut = false) :
      Step s ((s.setq q { s.exqs q with busy, flush }).goto q (some (.answering fq)))
  | finish (q : ℕ) (busy : Bool) (p : Slave) (hs : s.slave q = some p)
      (hp : p = .draining ∨ ∃ err, p = .returned err)
      (hq : (s.exqs q).shut = true ∨ (s.exqs q).flush = []) :
      Step s ((s.setq q { s.exqs q with busy, finished := true }).goto q (some .unlinking))
  | reply (q : ℕ) (hs : s.slave q = some .replying) :
      Step s ((s.exreply q).goto q (some .draining))
  | answering (q fq : ℕ) (hs : s.slave q = some (.answering fq)) :
      Step s ((s.exreply fq).goto q (some (.freeingflush fq)))
  | freeflush (q fq : ℕ) (hs : s.slave q = some (.freeingflush fq)) :
      Step s ((s.exfreeq fq).goto q (some .draining))
  | unlink (q : ℕ) (hs : s.slave q = some .unlinking) (hr : s.reader ≠ .shutting) :
      Step s ({ s with work := s.work.erase q }.goto q (some .freeing))
  | freeq (q : ℕ) (hs : s.slave q = some .freeing) : Step s ((s.exfreeq q).goto q none)

variable {s s' : State} 

theorem drain_step {q : ℕ} {p : Slave} (busy : Bool) (hs : s.slave q = some p)
    (hp : p = .draining ∨ ∃ err, p = .returned err) :
    Step s ((s.setq q { s.exqs q with busy }).drain q) := by
  rw [State.drain]
  split
  · rename_i fq flush hf hq
    simp only [State.setq, Function.update_self] at hf hq
    have hstep := Step.pop q fq flush busy p hs hp hf hq
    simpa [State.setq, State.goto] using hstep
  · rename_i hnone
    have hq : (s.exqs q).shut = true ∨ (s.exqs q).flush = [] := by
      cases hf : (s.exqs q).flush with
      | nil => exact .inr rfl
      | cons fq flush =>
        refine .inl ?_
        by_contra hq
        exact hnone fq flush (by simpa [State.setq] using hf)
          (by simpa [State.setq] using hq)
    have hstep := Step.finish q busy p hs hp hq
    simpa [State.setq, State.goto] using hstep

theorem readstep_step (hs : s.readstep = some s') : Step s s' := by
  rw [State.readstep] at hs
  split at hs
  · obtain rfl := Option.some.inj hs
    exact .queue _ ‹_›
  · split at hs
    · obtain rfl := Option.some.inj hs
      exact .found _ _ ‹_› ‹_›
    · obtain rfl := Option.some.inj hs
      exact .unfound _ ‹_› ‹_›
  · obtain rfl := Option.some.inj hs
    exact .discard _ _ ‹_›
  · split at hs
    · obtain rfl := Option.some.inj hs
      rw [State.flushwork]
      split_ifs with hq
      · exact .finished _ _ ‹_› ‹_› hq
      · exact .append _ _ ‹_› ‹_› (Bool.eq_false_iff.mpr hq)
    · obtain rfl := Option.some.inj hs
      exact .missed _ ‹_› ‹_›
  · obtain rfl := Option.some.inj hs
    exact .answer _ ‹_›
  · obtain rfl := Option.some.inj hs
    exact .free _ ‹_›
  · obtain rfl := Option.some.inj hs
    exact .shutexq ‹_›
  · obtain rfl := Option.some.inj hs
    exact .shutwork ‹_›
  · split at hs
    · obtain rfl := Option.some.inj hs
      exact .shut _ _ ‹_› ‹_›
    · obtain rfl := Option.some.inj hs
      exact .ended ‹_› ‹_›
  · simp at hs

theorem slavestep_step {q : ℕ} (hs : s.slavestep q = some s') : Step s s' := by
  rw [State.slavestep] at hs
  split at hs
  · obtain rfl := Option.some.inj hs
    rename_i err hq
    simp only [State.returned]
    split_ifs with hc
    · exact .decide q err hq (by simpa [State.setq] using hc.1)
    · exact drain_step false hq (.inr ⟨err, rfl⟩)
  · obtain rfl := Option.some.inj hs
    exact .reply _ ‹_›
  · obtain rfl := Option.some.inj hs
    rename_i hq
    have hstep := drain_step (s.exqs q).busy hq (.inl rfl)
    simpa [State.setq] using hstep
  · obtain rfl := Option.some.inj hs
    exact .answering _ _ ‹_›
  · obtain rfl := Option.some.inj hs
    exact .freeflush _ _ ‹_›
  · split_ifs at hs with hr
    obtain rfl := Option.some.inj hs
    exact .unlink _ ‹_› hr
  · obtain rfl := Option.some.inj hs
    exact .freeq _ ‹_›
  · simp at hs

theorem step_step {a : Act} (hs : step s a = some s') : Step s s' := by
  cases a with
  | recv t =>
    simp only [step] at hs
    split_ifs at hs with hr
    obtain rfl := Option.some.inj hs
    exact .receive t hr
  | hangup =>
    simp only [step] at hs
    split_ifs at hs with hr
    obtain rfl := Option.some.inj hs
    exact .hangup hr
  | reader => exact readstep_step hs
  | take =>
    simp only [step] at hs
    split at hs
    · split_ifs at hs with hr
      obtain rfl := Option.some.inj hs
      exact .take _ _ ‹_› hr
    · simp at hs
  | fcall q err =>
    simp only [step] at hs
    split_ifs at hs with hq
    obtain rfl := Option.some.inj hs
    exact .fcall q err hq
  | slave q => exact slavestep_step hs

inductive Place
  | absent
  | reader
  | queue
  | served
  | flushof (q : ℕ)
  | hand (q : ℕ)
  | gone
  deriving DecidableEq

def Reader.holds : Reader → List ℕ
  | .queueing q => [q]
  | .searching fq => [fq]
  | .discarding q fq => [q, fq]
  | .searchwork fq => [fq]
  | .replying q => [q]
  | .freeing q => [q]
  | _ => []

def Reader.own : Reader → Option ℕ
  | .queueing q => some q
  | .searching fq => some fq
  | .discarding _ fq => some fq
  | .searchwork fq => some fq
  | .replying q => some q
  | .freeing q => some q
  | _ => none

def Slave.hand : Slave → Option ℕ
  | .answering fq => some fq
  | .freeingflush fq => some fq
  | _ => none

def Event.freed : Event → Option ℕ
  | .free q => some q
  | _ => none

def frees (log : List Event) : List ℕ :=
  log.filterMap Event.freed

@[simp, grind =] theorem frees_append (l m : List Event) : frees (l ++ m) = frees l ++ frees m := by
  simp [frees]

@[simp, grind =] theorem frees_nil : frees [] = [] := rfl

@[simp, grind =] theorem frees_recv (q : ℕ) : frees [.recv q] = [] := rfl

@[simp, grind =] theorem frees_reply (q : ℕ) : frees [.reply q] = [] := rfl

@[simp, grind =] theorem frees_free (q : ℕ) : frees [.free q] = [q] := rfl

@[simp, grind =] theorem frees_map (l : List ℕ) : frees (l.map .free) = l := by
  induction l with
  | nil => rfl
  | cons q l ih => simpa [frees, Event.freed] using ih

structure Core (s : State) (place : ℕ → Place) : Prop where
  absent : ∀ n, s.next ≤ n ↔ place n = .absent
  reader : ∀ n, n ∈ s.reader.holds ↔ place n = .reader
  queue : ∀ n, n ∈ s.exq ↔ place n = .queue
  served : ∀ n, s.slave n ≠ none ↔ place n = .served
  flush : ∀ q n, n ∈ (s.exqs q).flush ↔ place n = .flushof q
  hand : ∀ q n, (s.slave q).bind Slave.hand = some n ↔ place n = .hand q
  gone : ∀ n, n ∈ frees s.log ↔ place n = .gone
  owner : ∀ q n, place n = .flushof q → place q = .served
  freed : (frees s.log).Nodup
  exq_sorted : s.exq.Pairwise (· < ·)
  work_sorted : s.work.Pairwise (· > ·)
  work_exq : ∀ a ∈ s.work, ∀ b ∈ s.exq, a < b
  flush_sorted : ∀ q, (s.exqs q).flush.Pairwise (· < ·)
  hand_flush : ∀ q n, place n = .hand q → ∀ m ∈ (s.exqs q).flush, n < m
  latest : ∀ q, s.reader.own = some q → q + 1 = s.next
  apart : ∀ q fq, s.reader = .discarding q fq → q < fq
  work_served : ∀ n ∈ s.work, place n = .served ∧ s.slave n ≠ some .freeing

variable {place : ℕ → Place}

theorem Core.noflush (h : Core s place) {q : ℕ} (hq : place q ≠ .served) :
    (s.exqs q).flush = [] := by
  rw [List.eq_nil_iff_forall_not_mem]
  intro n hn
  exact hq (h.owner q n ((h.flush q n).mp hn))

theorem exfreeq_eq {q : ℕ} (h : (s.exqs q).flush = []) :
    s.exfreeq q = { s with log := s.log ++ [.free q] } := by
  have hx : { s.exqs q with flush := [] } = s.exqs q := by
    rw [← h]
  simp [State.exfreeq, State.setq, h, hx]

theorem foldl_exfreeq {l : List ℕ} (h : ∀ q ∈ l, (s.exqs q).flush = []) :
    l.foldl State.exfreeq s = { s with log := s.log ++ l.map .free } := by
  induction l generalizing s with
  | nil => simp
  | cons q l ih =>
    rw [List.foldl_cons, exfreeq_eq (h q (by simp)), ih]
    · simp
    · exact fun r hr => h r (by simp [hr])

theorem core_init (readonly : Bool) : Core (init readonly) (fun _ => .absent) := by
  constructor <;> simp [init, noexq, Reader.holds, Reader.own]

theorem Core.same (h : Core s place) (hnext : s'.next = s.next) (hexq : s'.exq = s.exq)
    (hholds : s'.reader.holds = s.reader.holds) (hown : s'.reader.own = s.reader.own)
    (hapart : ∀ q fq, s'.reader = .discarding q fq → s.reader = .discarding q fq)
    (hslave : ∀ q, (s'.slave q = none ↔ s.slave q = none) ∧
      (s'.slave q).bind Slave.hand = (s.slave q).bind Slave.hand)
    (hflush : ∀ q, (s'.exqs q).flush = (s.exqs q).flush) (hfreed : frees s'.log = frees s.log)
    (hwork : s'.work.Sublist s.work)
    (hws : ∀ n ∈ s'.work, s.slave n ≠ some .freeing → s'.slave n ≠ some .freeing) :
    Core s' place where
  absent := by rw [hnext]; exact h.absent
  reader := by rw [hholds]; exact h.reader
  queue := by rw [hexq]; exact h.queue
  served n := by rw [Ne, (hslave n).1]; exact h.served n
  flush q n := by rw [hflush]; exact h.flush q n
  hand q n := by rw [(hslave q).2]; exact h.hand q n
  gone := by rw [hfreed]; exact h.gone
  owner := h.owner
  freed := by rw [hfreed]; exact h.freed
  exq_sorted := by rw [hexq]; exact h.exq_sorted
  work_sorted := h.work_sorted.sublist hwork
  work_exq := by rw [hexq]; exact fun a ha => h.work_exq a (hwork.subset ha)
  flush_sorted q := by rw [hflush]; exact h.flush_sorted q
  hand_flush q := by rw [hflush]; exact h.hand_flush q
  latest := by rw [hown, hnext]; exact h.latest
  apart q fq hr := h.apart q fq (hapart q fq hr)
  work_served n hn :=
    have hold := h.work_served n (hwork.subset hn)
    ⟨hold.1, hws n hn hold.2⟩

theorem Core.goes (h : Core s place) {q : ℕ} {p : Slave} (p' : Slave) (hs : s.slave q = some p)
    (hhand : p'.hand = p.hand) (hp : p' ≠ .freeing) (hnext : s'.next = s.next)
    (hexq : s'.exq = s.exq) (hreader : s'.reader = s.reader)
    (hslave : s'.slave = Function.update s.slave q (some p'))
    (hflush : ∀ q, (s'.exqs q).flush = (s.exqs q).flush) (hfreed : frees s'.log = frees s.log)
    (hwork : s'.work = s.work) : Core s' place := by
  refine h.same hnext hexq (by rw [hreader]) (by rw [hreader]) (fun q fq hr => hreader ▸ hr) ?_
    hflush hfreed (by rw [hwork]) ?_
  · intro n
    rw [hslave, Function.update_apply]
    split_ifs with hn
    · simp [hn, hs, hhand]
    · simp
  · intro n _ hn
    rw [hslave, Function.update_apply]
    split_ifs with hnq
    · simpa using hp
    · exact hn

theorem arrive_core {r : Reader} (h : Core s place) (t : Fcall) (hr : s.reader = .reading)
    (hholds : r.holds = [s.next]) (hown : ∀ q, r.own = some q → q = s.next)
    (hdiscard : ∀ q fq, r ≠ .discarding q fq) :
    Core { s.setq s.next { noexq with inp := t } with
      next := s.next + 1, log := s.log ++ [.recv s.next], reader := r }
      (Function.update place s.next .reader) := by
  have hnext : place s.next = .absent := (h.absent s.next).mp le_rfl
  have hnone : ∀ n, place n ≠ .reader := fun n => by
    rw [Ne, ← h.reader n, hr]
    simp [Reader.holds]
  have hnoflush := h.noflush (q := s.next) (by simp [hnext])
  cases h
  constructor
  all_goals simp only [State.setq, Function.update_apply]
  · grind
  · grind
  · grind
  · grind
  · grind [noexq]
  · grind
  · grind
  · grind
  · grind
  · grind
  · grind
  · grind
  · grind [noexq]
  · grind [noexq]
  · grind
  · grind
  · grind

theorem receive_core (h : Core s place) (t : Fcall) (hr : s.reader = .reading) :
    Core (s.receive t) (Function.update place s.next .reader) := by
  rw [State.receive]
  refine arrive_core h t hr ?_ ?_ ?_
  · split <;> [rfl; split_ifs <;> rfl]
  · split <;> [skip; split_ifs] <;> simp [Reader.own]
  · split <;> [skip; split_ifs] <;> simp

theorem hangup_core (h : Core s place) (hr : s.reader = .reading) :
    Core { s with next := s.next + 1, log := s.log ++ [.free s.next], reader := .shutexq }
      (Function.update place s.next .gone) := by
  have hnext : place s.next = .absent := (h.absent s.next).mp le_rfl
  have hholds : ∀ n, place n ≠ .reader := fun n => by
    rw [Ne, ← h.reader n, hr]
    simp [Reader.holds]
  cases h
  constructor
  all_goals simp only [Function.update_apply]
  all_goals grind [Reader.holds, Reader.own]

theorem queue_core {q : ℕ} (h : Core s place) (hr : s.reader = .queueing q) :
    Core { s with exq := s.exq ++ [q], reader := .reading } (Function.update place q .queue) := by
  have hholds : ∀ n, place n = .reader ↔ n = q := fun n => by
    rw [← h.reader n, hr]
    simp [Reader.holds]
  have hnext := h.latest q (by simp [hr, Reader.own])
  cases h
  constructor
  all_goals simp only [Function.update_apply]
  all_goals grind [Reader.holds, Reader.own]

theorem found_core {q fq : ℕ} (h : Core s place) (hr : s.reader = .searching fq)
    (hq : q ∈ s.exq) :
    Core { s with exq := s.exq.erase q, reader := .discarding q fq }
      (Function.update place q .reader) := by
  have hholds : ∀ n, place n = .reader ↔ n = fq := fun n => by
    rw [← h.reader n, hr]
    simp [Reader.holds]
  have hnext := h.latest fq (by simp [hr, Reader.own])
  have hnodup : s.exq.Nodup := h.exq_sorted.imp (fun hab => ne_of_lt hab)
  have herase : ∀ n, n ∈ s.exq.erase q ↔ n ≠ q ∧ n ∈ s.exq := fun n => hnodup.mem_erase_iff
  have hsub := List.erase_sublist (l := s.exq) (a := q)
  have hsort := h.exq_sorted.sublist hsub
  cases h
  constructor
  all_goals simp only [Function.update_apply]
  all_goals grind [Reader.holds, Reader.own]

theorem readerfree_core {q : ℕ} {r : Reader} (h : Core s place) (hq : place q = .reader)
    (hholds : ∀ n, n ∈ r.holds ↔ n ∈ s.reader.holds ∧ n ≠ q)
    (hown : ∀ n, r.own = some n → n + 1 = s.next) (hr : ∀ q fq, r ≠ .discarding q fq) :
    Core { s.exfreeq q with reader := r } (Function.update place q .gone) := by
  rw [exfreeq_eq (h.noflush (by simp [hq]))]
  cases h
  constructor
  all_goals simp only [Function.update_apply]
  all_goals grind

theorem append_core {q fq : ℕ} (h : Core s place) (hr : s.reader = .searchwork fq)
    (hq : q ∈ s.work) :
    Core { s.setq q { s.exqs q with flush := (s.exqs q).flush ++ [fq] } with reader := .reading }
      (Function.update place fq (.flushof q)) := by
  have hholds : ∀ n, place n = .reader ↔ n = fq := fun n => by
    rw [← h.reader n, hr]
    simp [Reader.holds]
  have hnext := h.latest fq (by simp [hr, Reader.own])
  have hsort : ((s.exqs q).flush ++ [fq]).Pairwise (· < ·) := by
    rw [List.pairwise_append]
    refine ⟨h.flush_sorted q, List.pairwise_singleton _ _, ?_⟩
    intro n hn m hm
    obtain rfl := List.mem_singleton.mp hm
    have hplace := (h.flush q n).mp hn
    have hm' := (hholds m).mpr rfl
    have habsent := h.absent n
    have hne : n ≠ m := by
      rintro rfl
      simp [hplace] at hm'
    grind
  cases h
  constructor
  all_goals simp only [State.setq, Function.update_apply]
  all_goals grind [Reader.holds, Reader.own]

theorem shutexq_core (h : Core s place) (hr : s.reader = .shutexq) :
    Core { s.exq.foldl State.exfreeq s with exq := [], reader := .shutwork }
      (fun n => if n ∈ s.exq then .gone else place n) := by
  have hnone : ∀ q ∈ s.exq, (s.exqs q).flush = [] :=
    fun q hq => h.noflush (by simp [(h.queue q).mp hq])
  have hnodup : s.exq.Nodup := h.exq_sorted.imp (fun hab => ne_of_lt hab)
  have hholds : ∀ n, place n ≠ .reader := fun n => by
    rw [Ne, ← h.reader n, hr]
    simp [Reader.holds]
  have hfrees : (frees s.log ++ s.exq).Nodup := by
    refine h.freed.append hnodup ?_
    intro n hn hq
    have hgone := (h.gone n).mp hn
    have hqueue := (h.queue n).mp hq
    simp [hgone] at hqueue
  rw [foldl_exfreeq hnone]
  cases h
  constructor
  all_goals grind [Reader.holds, Reader.own]

theorem take_core {q : ℕ} {exq : List ℕ} (h : Core s place) (hq : s.exq = q :: exq) :
    Core (({ s with exq, work := q :: s.work }.setq q { s.exqs q with busy := true }).goto q
      (some .running)) (Function.update place q .served) := by
  have hplace : place q = .queue := (h.queue q).mp (by simp [hq])
  have hnone := h.noflush (q := q) (by simp [hplace])
  obtain ⟨habsent, hreader, hqueue, hserved, hflush, hhand, hgone, howner, hfreed, hexq, hwork,
    hwe, hsorted, hhf, hlatest, hapart, hws⟩ := h
  rw [hq] at hexq hqueue hwe
  obtain ⟨hfirst, hexq⟩ := List.pairwise_cons.mp hexq
  have hlast : (q :: s.work).Pairwise (· > ·) :=
    List.pairwise_cons.mpr ⟨fun a ha => hwe a ha q (by simp), hwork⟩
  constructor
  all_goals simp only [State.setq, State.goto, Function.update_apply]
  all_goals grind [Slave.hand]

theorem pop_core {q fq : ℕ} {flush : List ℕ} {busy : Bool} {p : Slave} (h : Core s place)
    (hs : s.slave q = some p) (hp : p.hand = none) (hf : (s.exqs q).flush = fq :: flush) :
    Core ((s.setq q { s.exqs q with busy, flush }).goto q (some (.answering fq)))
      (Function.update place fq (.hand q)) := by
  have hplace : place fq = .flushof q := (h.flush q fq).mp (by simp [hf])
  have hsort := h.flush_sorted q
  rw [hf] at hsort
  obtain ⟨hfirst, hrest⟩ := List.pairwise_cons.mp hsort
  have hmem : ∀ n, n ∈ (s.exqs q).flush ↔ n = fq ∨ n ∈ flush := fun n => by simp [hf]
  cases h
  constructor
  all_goals simp only [State.setq, State.goto, Function.update_apply]
  all_goals grind [Slave.hand]

theorem freeflush_core {q fq : ℕ} (h : Core s place) (hs : s.slave q = some (.freeingflush fq)) :
    Core ((s.exfreeq fq).goto q (some .draining)) (Function.update place fq .gone) := by
  have hplace : place fq = .hand q := (h.hand q fq).mp (by simp [hs, Slave.hand])
  rw [exfreeq_eq (h.noflush (by simp [hplace]))]
  cases h
  constructor
  all_goals simp only [State.goto, Function.update_apply]
  all_goals grind [Slave.hand]

theorem freeq_core {q : ℕ} (h : Core s place) (hs : s.slave q = some .freeing) :
    Core ((s.exfreeq q).goto q none)
      (fun n => if n = q ∨ n ∈ (s.exqs q).flush then .gone else place n) := by
  have hplace : place q = .served := (h.served q).mp (by simp [hs])
  have hflushes : ∀ n ∈ (s.exqs q).flush, place n = .flushof q := fun n => (h.flush q n).mp
  have hnodup : (s.exqs q).flush.Nodup := (h.flush_sorted q).imp (fun hab => ne_of_lt hab)
  have hfrees : (frees s.log ++ ((s.exqs q).flush ++ [q])).Nodup := by
    refine h.freed.append (hnodup.append (List.nodup_singleton q) ?_) ?_
    · intro n hn hnq
      rw [List.mem_singleton.mp hnq] at hn
      have hown := hflushes q hn
      simp [hplace] at hown
    · intro n hn hnq
      have hgone := (h.gone n).mp hn
      rcases List.mem_append.mp hnq with hnq | hnq
      · simp [hflushes n hnq] at hgone
      · obtain rfl := List.mem_singleton.mp hnq
        simp [hplace] at hgone
  cases h
  have hfree : ∀ n, n ∈ frees (s.log ++ ((s.exqs q).flush.map .free ++ [.free q])) ↔
      n ∈ frees s.log ∨ n ∈ (s.exqs q).flush ∨ n = q := fun n => by simp
  rw [State.exfreeq, State.setq, State.goto]
  constructor
  all_goals grind [Slave.hand]

theorem flush_setq (s : State) (q : ℕ) {x : Exq} (hx : x.flush = (s.exqs q).flush) (n : ℕ) :
    ((s.setq q x).exqs n).flush = (s.exqs n).flush := by
  simp only [State.setq, Function.update_apply]
  split_ifs with hn
  · rw [hn, hx]
  · rfl

theorem unlink_core {q : ℕ} (h : Core s place) (hs : s.slave q = some .unlinking) :
    Core ({ s with work := s.work.erase q }.goto q (some .freeing)) place := by
  have hnodup : s.work.Nodup := h.work_sorted.imp (fun hab => ne_of_gt hab)
  have herase : ∀ n, n ∈ s.work.erase q ↔ n ≠ q ∧ n ∈ s.work := fun n => hnodup.mem_erase_iff
  refine h.same rfl rfl rfl rfl (fun q fq hr => hr) ?_ (fun q => rfl) rfl List.erase_sublist ?_
  · intro n
    simp only [State.goto, Function.update_apply]
    split_ifs with hn
    · simp [hn, hs, Slave.hand]
    · simp
  · intro n hn hfree
    simp only [State.goto, Function.update_apply]
    rw [if_neg ((herase n).mp hn).1]
    exact hfree

theorem core_step (h : Core s place) (hs : Step s s') : ∃ place', Core s' place' := by
  cases hs with
  | receive t hr => exact ⟨_, receive_core h t hr⟩
  | hangup hr => exact ⟨_, hangup_core h hr⟩
  | queue q hr => exact ⟨_, queue_core h hr⟩
  | found fq q hr hf => exact ⟨_, found_core h hr (List.mem_of_find?_eq_some hf)⟩
  | unfound fq hr hf | finished fq q hr hf hq | missed fq hr hf | shutwork hr | ended hr hw =>
    exact ⟨place, h.same rfl rfl (by simp [hr, Reader.holds]) (by simp [hr, Reader.own])
      (by simp) (fun q => ⟨Iff.rfl, rfl⟩) (fun q => rfl) rfl (List.Sublist.refl _)
      (fun n _ hn => hn)⟩
  | discard q fq hr =>
    have hlt := h.apart q fq hr
    have hplace : place q = .reader := (h.reader q).mp (by simp [hr, Reader.holds])
    refine ⟨_, readerfree_core h hplace ?_ ?_ (by simp)⟩
    · intro n
      simp only [hr, Reader.holds, List.mem_cons, List.not_mem_nil, or_false]
      omega
    · exact fun n hn => h.latest n (by simpa [hr, Reader.own] using hn)
  | append fq q hr hf hq => exact ⟨_, append_core h hr (List.mem_of_find?_eq_some hf)⟩
  | answer q hr =>
    exact ⟨place, h.same rfl rfl (by simp [hr, Reader.holds]) (by simp [hr, Reader.own])
      (by simp) (fun q => ⟨Iff.rfl, rfl⟩) (fun q => rfl) (by simp [State.exreply])
      (List.Sublist.refl _) (fun n _ hn => hn)⟩
  | free q hr =>
    have hplace : place q = .reader := (h.reader q).mp (by simp [hr, Reader.holds])
    refine ⟨_, readerfree_core h hplace ?_ (by simp [Reader.own]) (by simp)⟩
    intro n
    simp [hr, Reader.holds]
  | shutexq hr => exact ⟨_, shutexq_core h hr⟩
  | shut q work hr hw =>
    refine ⟨place, h.same rfl rfl rfl rfl (fun q fq hq => hq) (fun q => ⟨Iff.rfl, rfl⟩) ?_ rfl
      ?_ (fun n _ hn => hn)⟩
    · intro n
      simp only [State.setq, Function.update_apply]
      split_ifs with hn
      · rw [hn]
      · rfl
    · rw [hw]
      exact List.sublist_cons_self q work
  | take q exq hq hr => exact ⟨_, take_core h hq⟩
  | fcall q err hs =>
    exact ⟨place, h.goes (.returned err) hs rfl (by simp) rfl rfl rfl rfl (fun q => rfl) rfl rfl⟩
  | decide q err hs hq =>
    refine ⟨place, h.goes .replying hs rfl (by simp) rfl rfl rfl rfl ?_ rfl rfl⟩
    exact flush_setq s q rfl
  | pop q fq flush busy p hs hp hf hq =>
    refine ⟨_, pop_core h hs ?_ hf⟩
    rcases hp with rfl | ⟨err, rfl⟩ <;> rfl
  | finish q busy p hs hp hq =>
    refine ⟨place, h.goes .unlinking hs ?_ (by simp) rfl rfl rfl rfl ?_ rfl rfl⟩
    · rcases hp with rfl | ⟨err, rfl⟩ <;> rfl
    · exact flush_setq s q rfl
  | reply q hs =>
    exact ⟨place, h.goes .draining hs rfl (by simp) rfl rfl rfl rfl (fun q => rfl)
      (by simp [State.exreply, State.goto]) rfl⟩
  | answering q fq hs =>
    exact ⟨place, h.goes (.freeingflush fq) hs rfl (by simp) rfl rfl rfl rfl (fun q => rfl)
      (by simp [State.exreply, State.goto]) rfl⟩
  | freeflush q fq hs => exact ⟨_, freeflush_core h hs⟩
  | unlink q hs hr => exact ⟨place, unlink_core h hs⟩
  | freeq q hs => exact ⟨_, freeq_core h hs⟩

end Infernode.Export
