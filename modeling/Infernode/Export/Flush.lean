import Infernode.Export.Places

/-!
# Replies and flushes

A message may still be answered until its R-message is sent or it is given up, and
never again after that: `before` only shrinks along a run. From this follow one
R-message at most for each message, and one Rflush for each Tflush while the export
is not shut down. What a Tflush finds is the request that it names, unless nothing
can answer that any more.
-/

namespace Infernode.Export

variable {s s' : State} {place : ℕ → Place} {n q : ℕ}

def Event.replied : Event → Option ℕ
  | .reply q => some q
  | _ => none

def replies (log : List Event) : List ℕ :=
  log.filterMap Event.replied

@[simp, grind =] theorem replies_append (l m : List Event) :
    replies (l ++ m) = replies l ++ replies m := by
  simp [replies]

@[simp, grind =] theorem replies_nil : replies [] = [] := rfl

@[simp, grind =] theorem replies_recv (q : ℕ) : replies [.recv q] = [] := rfl

@[simp, grind =] theorem replies_reply (q : ℕ) : replies [.reply q] = [q] := rfl

@[simp, grind =] theorem replies_free (q : ℕ) : replies [.free q] = [] := rfl

@[simp, grind =] theorem replies_map (l : List ℕ) : replies (l.map .free) = [] := by
  induction l with
  | nil => rfl
  | cons q l ih => simp [replies, Event.replied] at ih ⊢

def Body.isflush : Body → Bool
  | .flush _ => true
  | .request _ => false

def State.isflush (s : State) (n : ℕ) : Bool :=
  (s.exqs n).inp.body.isflush

def Slave.before : Slave → Bool
  | .running => true
  | .returned _ => true
  | .replying => true
  | _ => false

def State.before (s : State) (n : ℕ) : Prop :=
  s.next ≤ n ∨ n ∈ s.exq ∨ (n ∈ s.reader.holds ∧ s.reader ≠ .freeing n) ∨
    (∃ q, n ∈ (s.exqs q).flush) ∨ (∃ p, s.slave n = some p ∧ p.before = true) ∨
    ∃ q, s.slave q = some (.answering n)

def State.down (s : State) : Prop :=
  s.reader = .shutexq ∨ s.reader = .shutwork ∨ s.reader = .shutting ∨ s.reader = .ended

structure Flags (s : State) : Prop where
  queued : ∀ n ∈ s.exq, s.isflush n = false ∧ (s.exqs n).finished = false
  served : ∀ n, s.slave n ≠ none → s.isflush n = false
  queueing : ∀ q, s.reader = .queueing q → s.isflush q = false ∧ (s.exqs q).finished = false
  searching : ∀ fq, s.reader = .searching fq → s.isflush fq = true
  discarding : ∀ q fq, s.reader = .discarding q fq → s.isflush q = false ∧ s.isflush fq = true
  searchwork : ∀ fq, s.reader = .searchwork fq → s.isflush fq = true
  flush : ∀ q, ∀ n ∈ (s.exqs q).flush, s.isflush n = true
  hand : ∀ q n, (s.slave q).bind Slave.hand = some n → s.isflush n = true
  shut : ∀ n, (s.exqs n).shut = true → s.reader = .shutting ∨ s.reader = .ended
  noexq : s.reader = .shutwork ∨ s.reader = .shutting ∨ s.reader = .ended → s.exq = []
  work : ∀ n p, s.slave n = some p → p ≠ .freeing → (s.exqs n).shut = false → n ∈ s.work
  finished : ∀ n p, s.slave n = some p →
    ((s.exqs n).finished = true ↔ p = .unlinking ∨ p = .freeing)
  empty : ∀ n p, s.slave n = some p → (s.exqs n).finished = true → (s.exqs n).shut = false →
    (s.exqs n).flush = []

theorem flags_init (readonly : Bool) : Flags (init readonly) := by
  constructor <;> simp [init, noexq]

theorem Core.discard_eq {fq : ℕ} (h : Core s place) (hr : s.reader = .discarding q fq) :
    s.exfreeq q = { s with log := s.log ++ [.free q] } :=
  exfreeq_eq (h.noflush (by rw [(h.reader q).mp (by simp [hr, Reader.holds])]; simp))

theorem Core.free_eq (h : Core s place) (hr : s.reader = .freeing q) :
    s.exfreeq q = { s with log := s.log ++ [.free q] } :=
  exfreeq_eq (h.noflush (by rw [(h.reader q).mp (by simp [hr, Reader.holds])]; simp))

theorem Core.freeflush_eq {fq : ℕ} (h : Core s place) (hs : s.slave q = some (.freeingflush fq)) :
    s.exfreeq fq = { s with log := s.log ++ [.free fq] } :=
  exfreeq_eq (h.noflush (by rw [(h.hand q fq).mp (by simp [hs, Slave.hand])]; simp))

theorem Core.shutexq_eq (h : Core s place) :
    s.exq.foldl State.exfreeq s = { s with log := s.log ++ s.exq.map .free } :=
  foldl_exfreeq (fun q hq => h.noflush (by rw [(h.queue q).mp hq]; simp))

theorem inp_step (h : Core s place) (hs : Step s s') (hn : n ≠ s.next ∨ s'.next = s.next ∨ s'.down) :
    (s'.exqs n).inp = (s.exqs n).inp := by
  cases hs with
  | receive t hr =>
    have hnot : ¬ ((s.receive t).next = s.next ∨ (s.receive t).down) := by
      simp only [State.down, State.receive, State.setq]
      grind
    simp [State.receive, State.setq, hn.resolve_right hnot]
  | discard q fq hr => rw [h.discard_eq hr]
  | free q hr => rw [h.free_eq hr]
  | freeflush q fq hs => rw [h.freeflush_eq hs]; rfl
  | shutexq hr => rw [h.shutexq_eq]
  | _ =>
    simp only [State.exfreeq, State.setq, State.goto, State.exreply, Function.update_apply]
    try split_ifs with hq
    all_goals simp [*]

theorem Flags.reads (h : Flags s) (e : List ℕ) (l : List Event) (r : Reader)
    (hq : ∀ n ∈ e, s.isflush n = false ∧ (s.exqs n).finished = false)
    (hdiscard : ∀ q fq, r = .discarding q fq → s.isflush q = false ∧ s.isflush fq = true)
    (hqueue : ∀ q, r ≠ .queueing q) (hsearch : ∀ q, r ≠ .searching q)
    (hwork : ∀ fq, r = .searchwork fq → s.isflush fq = true)
    (hshut : ∀ n, (s.exqs n).shut = true → r = .shutting ∨ r = .ended)
    (hnoexq : r = .shutwork ∨ r = .shutting ∨ r = .ended → e = []) :
    Flags { s with exq := e, log := l, reader := r } := by
  obtain ⟨hqueued, hserved, -, -, -, -, hflush, hhand, -, -, hw, hfin, hempty⟩ := h
  exact ⟨hq, hserved, fun q hr => absurd hr (hqueue q), fun q hr => absurd hr (hsearch q),
    hdiscard, hwork, hflush, hhand, hshut, hnoexq, hw, hfin, hempty⟩

theorem Flags.serves (h : Flags s) (x : Exq) (p : Slave) (e w : List ℕ) (l : List Event)
    (hq : s.isflush q = false) (hx : x.inp = (s.exqs q).inp) (hshut : x.shut = (s.exqs q).shut)
    (hflush : ∀ n ∈ x.flush, n ∈ (s.exqs q).flush) (he : ∀ n ∈ e, n ∈ s.exq ∧ n ≠ q)
    (hw : ∀ n ∈ s.work, n ≠ q → n ∈ w) (hp : p ≠ .freeing → x.shut = false → q ∈ w)
    (hfin : x.finished = true ↔ p = .unlinking ∨ p = .freeing)
    (hempty : x.finished = true → x.shut = false → x.flush = [])
    (hhand : ∀ n, p.hand = some n → s.isflush n = true) (hreader : s.reader ≠ .queueing q) :
    Flags { s with exqs := Function.update s.exqs q x, slave := Function.update s.slave q (some p),
                   exq := e, work := w, log := l } := by
  have hnil : s.exq = [] → e = [] := fun hs =>
    List.eq_nil_iff_forall_not_mem.mpr (fun n hn => by simpa [hs] using (he n hn).1)
  obtain ⟨f1, f2, f3, f4, f5, f6, f7, f8, f9, f10, f11, f12, f13⟩ := h
  constructor
  all_goals simp only [State.isflush, Function.update_apply] at *
  all_goals grind

theorem receive_flags (h : Core s place) (hf : Flags s) (t : Fcall) (hr : s.reader = .reading) :
    Flags (s.receive t) := by
  have hnext : place s.next = .absent := (h.absent s.next).mp le_rfl
  have hexq : s.next ∉ s.exq := by simp [h.queue, hnext]
  have hserved : s.slave s.next = none := by
    by_contra hne
    simp [(h.served _).mp hne] at hnext
  have hflush : ∀ q, s.next ∉ (s.exqs q).flush := fun q => by simp [h.flush, hnext]
  have hhand : ∀ q, (s.slave q).bind Slave.hand ≠ some s.next := fun q => by
    simp [h.hand, hnext]
  obtain ⟨f1, f2, f3, f4, f5, f6, f7, f8, f9, f10, f11, f12, f13⟩ := hf
  rw [State.receive]
  constructor
  all_goals simp only [State.isflush, State.setq, Function.update_apply] at *
  all_goals grind [noexq, Body.isflush]

theorem freeq_flags (hf : Flags s) (hs : s.slave q = some .freeing) :
    Flags ((s.exfreeq q).goto q none) := by
  obtain ⟨f1, f2, f3, f4, f5, f6, f7, f8, f9, f10, f11, f12, f13⟩ := hf
  rw [State.exfreeq]
  constructor
  all_goals simp only [State.isflush, State.setq, State.goto, Function.update_apply] at *
  all_goals grind

theorem append_flags {fq : ℕ} (hf : Flags s) (hr : s.reader = .searchwork fq)
    (hq : (s.exqs q).finished = false) :
    Flags { s.setq q { s.exqs q with flush := (s.exqs q).flush ++ [fq] } with
      reader := .reading } := by
  obtain ⟨f1, f2, f3, f4, f5, f6, f7, f8, f9, f10, f11, f12, f13⟩ := hf
  constructor
  all_goals simp only [State.isflush, State.setq, Function.update_apply] at *
  all_goals grind

theorem shut_flags {work : List ℕ} (hf : Flags s) (hr : s.reader = .shutting)
    (hw : s.work = q :: work) :
    Flags { s.setq q { s.exqs q with shut := true } with work } := by
  obtain ⟨f1, f2, f3, f4, f5, f6, f7, f8, f9, f10, f11, f12, f13⟩ := hf
  constructor
  all_goals simp only [State.isflush, State.setq, Function.update_apply] at *
  all_goals grind

theorem Core.served_reader (h : Core s place) (hs : s.slave q ≠ none) : q ∉ s.reader.holds := by
  rw [h.reader, (h.served q).mp hs]
  simp

theorem Core.served_exq (h : Core s place) (hs : s.slave q ≠ none) : q ∉ s.exq := by
  rw [h.queue, (h.served q).mp hs]
  simp

theorem Core.served_queueing (h : Core s place) (hs : s.slave q ≠ none) :
    s.reader ≠ .queueing q := fun hr =>
  h.served_reader hs (by simp [hr, Reader.holds])

theorem slave_flags {p : Slave} (h : Core s place) (hf : Flags s) (x : Exq) (p' : Slave)
    (l : List Event) (hs : s.slave q = some p) (hp : p ≠ .freeing) (hp' : p' ≠ .freeing)
    (hx : x.inp = (s.exqs q).inp) (hshut : x.shut = (s.exqs q).shut)
    (hflush : ∀ n ∈ x.flush, n ∈ (s.exqs q).flush) (hfin : x.finished = true ↔ p' = .unlinking)
    (hempty : x.finished = true → x.shut = false → x.flush = [])
    (hhand : ∀ n, p'.hand = some n → s.isflush n = true) :
    Flags { s with exqs := Function.update s.exqs q x,
                   slave := Function.update s.slave q (some p'), log := l } := by
  have hserved : s.slave q ≠ none := by simp [hs]
  refine hf.serves x p' s.exq s.work l (hf.served q hserved) hx hshut hflush ?_ (fun n hn _ => hn) ?_ ?_ hempty hhand
    (h.served_queueing hserved)
  · exact fun n hn => ⟨hn, fun hq => h.served_exq hserved (hq ▸ hn)⟩
  · exact fun _ hsh => hf.work q p hs hp (hshut ▸ hsh)
  · simp [hfin, hp']

theorem take_flags {exq : List ℕ} (h : Core s place) (hf : Flags s) (hq : s.exq = q :: exq) :
    Flags (({ s with exq, work := q :: s.work }.setq q { s.exqs q with busy := true }).goto q
      (some .running)) := by
  have hmem : q ∈ s.exq := by simp [hq]
  have hnodup : s.exq.Nodup := h.exq_sorted.imp (fun hab => ne_of_lt hab)
  refine hf.serves _ _ exq (q :: s.work) s.log (hf.queued q hmem).1 rfl rfl (fun n hn => hn) ?_
    (fun n hn _ => by simp [hn]) (by simp) ?_ ?_ (by simp [Slave.hand]) ?_
  · intro n hn
    refine ⟨by simp [hq, hn], ?_⟩
    rintro rfl
    exact (List.nodup_cons.mp (hq ▸ hnodup)).1 hn
  · simp [(hf.queued q hmem).2]
  · simp [(hf.queued q hmem).2]
  · intro hr
    have hplace := (h.reader q).mp (by simp [hr, Reader.holds])
    simp [(h.queue q).mp hmem] at hplace

theorem unlink_flags (h : Core s place) (hf : Flags s) (hs : s.slave q = some .unlinking) :
    Flags ({ s with work := s.work.erase q }.goto q (some .freeing)) := by
  have hserved : s.slave q ≠ none := by simp [hs]
  have hfin := (hf.finished q _ hs).mpr (.inl rfl)
  have hflags := hf.serves (s.exqs q) .freeing s.exq (s.work.erase q) s.log
    (hf.served q hserved) rfl rfl (fun n hn => hn)
    (fun n hn => ⟨hn, fun hq => h.served_exq hserved (hq ▸ hn)⟩)
    (fun n hn hne => (List.mem_erase_of_ne hne).mpr hn) (by simp) (by simp [hfin])
    (hf.empty q _ hs) (by simp [Slave.hand]) (h.served_queueing hserved)
  simpa [State.goto] using hflags

theorem flags_step (h : Core s place) (hf : Flags s) (hs : Step s s') : Flags s' := by
  cases hs with
  | receive t hr => exact receive_flags h hf t hr
  | hangup hr =>
    obtain ⟨f1, f2, f3, f4, f5, f6, f7, f8, f9, f10, f11, f12, f13⟩ := hf
    constructor <;> simp only [State.isflush] at * <;> grind
  | queue q hr =>
    refine hf.reads _ _ _ ?_ (by simp) (by simp) (by simp) (by simp) ?_ (by simp)
    · intro n hn
      rcases List.mem_append.mp hn with hn | hn
      · exact hf.queued n hn
      · obtain rfl := List.mem_singleton.mp hn
        exact hf.queueing _ hr
    · intro n hn
      simpa [hr] using hf.shut n hn
  | found fq q hr hf' =>
    refine hf.reads _ _ _ ?_ ?_ (by simp) (by simp) (by simp) ?_ (by simp)
    · exact fun n hn => hf.queued n (List.mem_of_mem_erase hn)
    · rintro _ _ ⟨⟩
      exact ⟨(hf.queued q (List.mem_of_find?_eq_some hf')).1, hf.searching fq hr⟩
    · intro n hn
      simpa [hr] using hf.shut n hn
  | unfound fq hr hf' =>
    refine hf.reads _ _ _ hf.queued (by simp) (by simp) (by simp) ?_ ?_ (by simp)
    · rintro _ ⟨⟩
      exact hf.searching fq hr
    · intro n hn
      simpa [hr] using hf.shut n hn
  | discard q fq hr =>
    rw [h.discard_eq hr]
    refine hf.reads _ _ _ hf.queued (by simp) (by simp) (by simp) (by simp) ?_ (by simp)
    intro n hn
    simpa [hr] using hf.shut n hn
  | finished fq q hr hf' hq | missed fq hr hf' | answer q hr =>
    refine hf.reads _ _ _ hf.queued (by simp) (by simp) (by simp) (by simp) ?_ (by simp)
    intro n hn
    simpa [hr] using hf.shut n hn
  | append fq q hr hf' hq => exact append_flags hf hr hq
  | free q hr =>
    rw [h.free_eq hr]
    refine hf.reads _ _ _ hf.queued (by simp) (by simp) (by simp) (by simp) ?_ (by simp)
    intro n hn
    simpa [hr] using hf.shut n hn
  | shutexq hr =>
    rw [h.shutexq_eq]
    refine hf.reads _ _ _ (by simp) (by simp) (by simp) (by simp) (by simp) ?_ (by simp)
    intro n hn
    simpa [hr] using hf.shut n hn
  | shutwork hr =>
    refine hf.reads _ _ _ hf.queued (by simp) (by simp) (by simp) (by simp) (by simp) ?_
    exact fun _ => hf.noexq (.inl hr)
  | shut q work hr hw => exact shut_flags hf hr hw
  | ended hr hw =>
    refine hf.reads _ _ _ hf.queued (by simp) (by simp) (by simp) (by simp) (by simp) ?_
    exact fun _ => hf.noexq (.inr (.inl hr))
  | take q exq hq hr => exact take_flags h hf hq
  | fcall q err hs =>
    have hflags := slave_flags h hf (s.exqs q) (.returned err) s.log hs
      (by simp) (by simp) rfl rfl (fun n hn => hn) ?_ (hf.empty q _ hs) (by simp [Slave.hand])
    · simpa [State.goto, State.exreply] using hflags
    · simpa using hf.finished q _ hs
  | decide q err hs hq =>
    refine slave_flags h hf _ _ _ hs (by simp) (by simp) rfl rfl (fun n hn => hn) ?_ (hf.empty q _ hs)
      (by simp [Slave.hand])
    simpa using hf.finished q _ hs
  | pop q fq flush busy p hs hp hf' hq =>
    have hp : p ≠ .unlinking ∧ p ≠ .freeing := by
      rcases hp with rfl | ⟨err, rfl⟩ <;> simp
    have hfin : (s.exqs q).finished = false := by
      simpa [hp] using hf.finished q p hs
    refine slave_flags h hf _ _ _ hs hp.2 (by simp) rfl rfl ?_ (by simp [hfin]) (by simp [hfin]) ?_
    · intro n hn
      rw [hf']
      exact List.mem_cons_of_mem fq hn
    · rintro n ⟨⟩
      exact hf.flush q fq (by simp [hf'])
  | finish q busy p hs hp hq =>
    have hp : p ≠ .freeing := by
      rcases hp with rfl | ⟨err, rfl⟩ <;> simp
    refine slave_flags h hf _ _ _ hs hp (by simp) rfl rfl (fun n hn => hn) (by simp) ?_
      (by simp [Slave.hand])
    intro _ hsh
    exact hq.resolve_left (by simpa using hsh)
  | reply q hs =>
    have hflags := slave_flags h hf (s.exqs q) .draining (s.log ++ [.reply q]) hs
      (by simp) (by simp) rfl rfl (fun n hn => hn) ?_ (hf.empty q _ hs) (by simp [Slave.hand])
    · simpa [State.goto, State.exreply] using hflags
    · simpa using hf.finished q _ hs
  | answering q fq hs =>
    have hflags := slave_flags h hf (s.exqs q) (.freeingflush fq) (s.log ++ [.reply fq]) hs
      (by simp) (by simp) rfl rfl (fun n hn => hn) ?_
      (hf.empty q _ hs) (fun n hn => hf.hand q n (by simpa [hs, Slave.hand] using hn))
    · simpa [State.goto, State.exreply] using hflags
    · simpa using hf.finished q _ hs
  | freeflush q fq hs =>
    rw [h.freeflush_eq hs]
    have hflags := slave_flags h hf (s.exqs q) .draining (s.log ++ [.free fq]) hs
      (by simp) (by simp) rfl rfl (fun n hn => hn) ?_ (hf.empty q _ hs) (by simp [Slave.hand])
    · simpa [State.goto, State.exreply] using hflags
    · simpa using hf.finished q _ hs
  | unlink q hs hr => exact unlink_flags h hf hs
  | freeq q hs => exact freeq_flags hf hs

theorem Core.before_iff (h : Core s place) : s.before n ↔
    match place n with
    | .reader => s.reader ≠ .freeing n
    | .served => ∃ p, s.slave n = some p ∧ p.before = true
    | .hand q => s.slave q = some (.answering n)
    | .gone => False
    | _ => True := by
  rw [State.before, h.absent, h.reader, h.queue]
  simp only [h.flush]
  have hserved := h.served n
  have hhand : ∀ q, s.slave q = some (.answering n) → place n = .hand q := fun q hq =>
    (h.hand q n).mp (by simp [hq, Slave.hand])
  cases hplace : place n <;> grind

theorem before_step (h : Core s place) (hs : Step s s') (hb : s'.before n) : s.before n := by
  cases hs with
  | discard q fq hr => 
    rw [h.discard_eq hr] at hb
    simp only [State.before] at *
    grind [Reader.holds]
  | free q hr => 
    rw [h.free_eq hr] at hb
    simp only [State.before] at *
    grind [Reader.holds]
  | freeflush q fq hs =>
    rw [h.freeflush_eq hs] at hb
    simp only [State.before, State.goto, Function.update_apply] at *
    grind [Slave.before]
  | shutexq hr =>
    rw [h.shutexq_eq] at hb
    simp only [State.before] at *
    grind [Reader.holds]
  | receive t hr =>
    simp only [State.receive, State.before, State.setq, Function.update_apply] at *
    grind [Reader.holds, noexq]
  | _ =>
    simp only [State.exfreeq, State.before, State.setq, State.goto, State.exreply, Function.update_apply] at *
    grind [Reader.holds, Slave.before]

theorem replies_step (h : Core s place) (hs : Step s s') :
    replies s'.log = replies s.log ∨
      ∃ q, replies s'.log = replies s.log ++ [q] ∧ s.before q ∧
        (s.reader = .replying q ∨ s.slave q = some .replying ∨
          ∃ r, s.slave r = some (.answering q)) := by
  cases hs with
  | receive t hr => simp [State.receive, State.setq]
  | hangup hr => simp
  | discard q fq hr => simp [h.discard_eq hr]
  | free q hr => simp [h.free_eq hr]
  | shutexq hr => simp [h.shutexq_eq]
  | freeflush q fq hs => simp [h.freeflush_eq hs, State.goto]
  | freeq q hs => simp [State.exfreeq, State.goto, State.setq]
  | answer q hr =>
    refine .inr ⟨q, by simp [State.exreply], ?_, .inl hr⟩
    exact .inr (.inr (.inl ⟨by simp [hr, Reader.holds], by simp [hr]⟩))
  | reply q hs =>
    refine .inr ⟨q, by simp [State.exreply, State.goto], ?_, .inr (.inl hs)⟩
    exact .inr (.inr (.inr (.inr (.inl ⟨_, hs, rfl⟩))))
  | answering q fq hs =>
    refine .inr ⟨fq, by simp [State.exreply, State.goto], ?_, .inr (.inr ⟨q, hs⟩)⟩
    exact .inr (.inr (.inr (.inr (.inr ⟨q, hs⟩))))
  | _ => simp [State.setq, State.goto]

theorem answered_step {place' : ℕ → Place} (h : Core s place) (h' : Core s' place')
    (hs : Step s s') (hr : replies s'.log = replies s.log ++ [n]) : ¬ s'.before n := by
  rw [h'.before_iff]
  cases hs with
  | answer q hr' =>
    obtain rfl : q = n := by simpa [State.exreply] using hr
    rw [(h'.reader q).mp (by simp [Reader.holds])]
    simp
  | reply q hs =>
    obtain rfl : q = n := by simpa [State.exreply, State.goto] using hr
    rw [(h'.served q).mp (by simp [State.goto])]
    simp [State.goto, Slave.before]
  | answering q fq hs =>
    obtain rfl : fq = n := by simpa [State.exreply, State.goto] using hr
    rw [(h'.hand q fq).mp (by simp [State.goto, Slave.hand])]
    simp [State.goto]
  | receive t hr' => simp [State.receive, State.setq] at hr
  | hangup hr' => simp at hr
  | discard q fq hr' => simp [h.discard_eq hr'] at hr
  | free q hr' => simp [h.free_eq hr'] at hr
  | shutexq hr' => simp [h.shutexq_eq] at hr
  | freeflush q fq hs => simp [h.freeflush_eq hs, State.goto] at hr
  | freeq q hs => simp [State.exfreeq, State.goto, State.setq] at hr
  | _ => simp [State.setq, State.goto] at hr

theorem down_step (hs : Step s s') (hd : s.down) : s'.down := by
  cases hs with
  | shutexq hr => simp [State.down]
  | _ => simp_all [State.down, State.setq, State.goto, State.exreply, State.exfreeq]

theorem leave_step (h : Core s place) (hf : Flags s) (hs : Step s s') (hb : s.before n)
    (hn : ¬ s'.before n) :
    replies s'.log = replies s.log ++ [n] ∨ s.isflush n = false ∨ s'.down := by
  have hserved := hf.served
  cases hs with
  | receive t hr =>
    have hnext := h.noflush (q := s.next) (by simp [(h.absent s.next).mp le_rfl])
    simp only [State.receive, State.before, State.setq, Function.update_apply] at *
    grind [Reader.holds, noexq]
  | hangup hr | shutexq hr => simp [State.down]
  | discard q fq hr =>
    rw [h.discard_eq hr] at hn
    simp only [State.before] at *
    grind [Reader.holds, hf.discarding q fq hr]
  | free q hr =>
    rw [h.free_eq hr] at hn
    simp only [State.before] at *
    grind [Reader.holds]
  | take q exq hq hr =>
    have hidle : s.slave q = none := by
      by_contra hne
      exact h.served_exq hne (by simp [hq])
    simp only [State.before, State.setq, State.goto, Function.update_apply] at *
    grind [Slave.before]
  | answering q fq hs =>
    by_cases hq : n = fq
    · simp [State.exreply, State.goto, hq]
    · simp only [State.before, State.goto, State.exreply, Function.update_apply] at *
      grind
  | freeflush q fq hs =>
    rw [h.freeflush_eq hs] at hn
    simp only [State.before, State.goto, Function.update_apply] at *
    grind [Slave.before]
  | freeq q hs =>
    have hfin := (hf.finished q _ hs).mpr (.inr rfl)
    have hempty := hf.empty q _ hs hfin
    have hshut := hf.shut q
    simp only [State.before, State.exfreeq, State.goto, State.setq, State.down,
      Function.update_apply] at *
    grind [Slave.before]
  | _ =>
    simp only [State.before, State.setq, State.goto, State.exreply, Function.update_apply] at *
    grind [Reader.holds, Slave.before]

theorem new_step (hs : Step s s') (hn : s.next ≤ n) (hb : ¬ s'.before n) : s'.down := by
  cases hs with
  | receive t hr =>
    refine absurd ?_ hb
    by_cases heq : n = s.next
    · simp only [State.before, State.receive, State.setq]
      refine .inr (.inr (.inl ?_))
      grind [Reader.holds]
    · exact .inl (Nat.lt_of_le_of_ne hn (Ne.symm heq))
  | hangup hr | shutexq hr => simp [State.down]
  | _ => exact absurd (.inl hn) hb

/-- One R-message at most, and none for a message that can still be answered. -/
structure Once (s : State) : Prop where
  nodup : (replies s.log).Nodup
  sent : ∀ n ∈ replies s.log, ¬ s.before n
  due : ∀ n, s.isflush n = true → ¬ s.before n → n ∈ replies s.log ∨ s.down

theorem once_init (readonly : Bool) : Once (init readonly) := by
  constructor <;> simp [init, State.isflush, noexq, Body.isflush]

theorem once_step {place' : ℕ → Place} (h : Core s place) (h' : Core s' place') (hf : Flags s)
    (ho : Once s) (hs : Step s s') : Once s' := by
  have hkeep : ∀ n, ¬ s.before n → ¬ s'.before n := fun n hn hb => hn (before_step h hs hb)
  refine ⟨?_, ?_, ?_⟩
  · rcases replies_step h hs with hr | ⟨q, hr, hq, -⟩
    · exact hr ▸ ho.nodup
    · rw [hr]
      refine ho.nodup.append (List.nodup_singleton q) ?_
      intro n hn hnq
      obtain rfl := List.mem_singleton.mp hnq
      exact ho.sent n hn hq
  · intro n hn
    rcases replies_step h hs with hr | ⟨q, hr, -, -⟩
    · exact hkeep n (ho.sent n (hr ▸ hn))
    · rw [hr, List.mem_append, List.mem_singleton] at hn
      rcases hn with hn | rfl
      · exact hkeep n (ho.sent n hn)
      · exact answered_step h h' hs hr
  · intro n hn hb
    have hmono : n ∈ replies s.log ∨ s.down → n ∈ replies s'.log ∨ s'.down := by
      rintro (hr | hd)
      · rcases replies_step h hs with hr' | ⟨q, hr', -, -⟩ <;> simp [hr', hr]
      · exact .inr (down_step hs hd)
    by_cases hlt : n < s.next
    · have hflush : s.isflush n = true := by
        rwa [State.isflush, inp_step h hs (.inl hlt.ne)] at hn
      by_cases hbefore : s.before n
      · rcases leave_step h hf hs hbefore hb with hr | hr | hd
        · simp [hr]
        · simp [hr] at hflush
        · exact .inr hd
      · exact hmono (ho.due n hflush hbefore)
    · exact .inr (new_step hs (not_lt.mp hlt) hb)

end Infernode.Export
