import Infernode.Export.Order

/-!
# An export settles

Between two messages only so many steps can be taken, and while one can be taken
something is left to do. When nothing is left each message has been freed once, and
each flush is answered, or the export is shut down.
-/

namespace Infernode.Export

variable {s s' : State} {place : ℕ → Place} {n q fq : ℕ}

def Reader.rank : Reader → ℕ
  | .reading => 0
  | .queueing _ => 11
  | .searching _ => 5
  | .discarding _ _ => 3
  | .searchwork _ => 4
  | .replying _ => 2
  | .freeing _ => 1
  | .shutexq => 3
  | .shutwork => 2
  | .shutting => 1
  | .ended => 0

def Slave.rank : Slave → ℕ
  | .running => 8
  | .returned _ => 7
  | .replying => 6
  | .draining => 5
  | .answering _ => 7
  | .freeingflush _ => 6
  | .unlinking => 3
  | .freeing => 2

def State.load (s : State) (n : ℕ) : ℕ :=
  (s.slave n).elim 0 Slave.rank + 3 * (s.exqs n).flush.length

def State.rank (s : State) : ℕ :=
  s.reader.rank + 10 * s.exq.length + s.work.length + ∑ n ∈ Finset.range s.next, s.load n

theorem sum_change {f g : ℕ → ℕ} (hq : q < n) (hfg : ∀ m, m ≠ q → g m = f m) :
    ∑ m ∈ Finset.range n, g m + f q = ∑ m ∈ Finset.range n, f m + g q := by
  have hmem := Finset.mem_range.mpr hq
  have hsum : ∑ m ∈ (Finset.range n).erase q, g m = ∑ m ∈ (Finset.range n).erase q, f m :=
    Finset.sum_congr rfl (fun m hm => hfg m (Finset.ne_of_mem_erase hm))
  have hf := Finset.add_sum_erase _ f hmem
  have hg := Finset.add_sum_erase _ g hmem
  omega

theorem serve_rank (h : Core s place) (hs : s.slave q ≠ none) (hnext : s'.next = s.next)
    (hreader : s'.reader = s.reader) (hexq : s'.exq = s.exq)
    (hwork : s'.work.length ≤ s.work.length) (hload : ∀ n, n ≠ q → s'.load n = s.load n)
    (hlt : s'.load q < s.load q) : s'.rank < s.rank := by
  have hread : q < s.next := h.read_lt (by simp [(h.served q).mp hs])
  have hsum := sum_change (f := s.load) (g := s'.load) hread hload
  simp only [State.rank, hreader, hexq, hnext]
  omega

theorem goes_rank {p : Slave} (p' : Slave) (x : Exq) (l : List Event) (h : Core s place)
    (hs : s.slave q = some p)
    (hlt : p'.rank + 3 * x.flush.length < p.rank + 3 * (s.exqs q).flush.length) :
    { s with exqs := Function.update s.exqs q x,
             slave := Function.update s.slave q (some p'), log := l }.rank < s.rank := by
  refine serve_rank (q := q) h (by simp [hs]) rfl rfl rfl le_rfl ?_ ?_
  · intro n hn
    simp [State.load, hn]
  · simpa [State.load, hs] using hlt

theorem append_rank {fq : ℕ} (h : Core s place) (hr : s.reader = .searchwork fq)
    (hq : q ∈ s.work) :
    { s.setq q { s.exqs q with flush := (s.exqs q).flush ++ [fq] } with
      reader := .reading }.rank < s.rank := by
  have hread : q < s.next := h.read_lt (by simp [(h.work_served q hq).1])
  simp only [State.rank, hr, Reader.rank, State.setq]
  have hsum := sum_change (f := s.load) (g := State.load { s with
    exqs := Function.update s.exqs q { s.exqs q with flush := (s.exqs q).flush ++ [fq] } }) hread
    (fun m hm => by simp [State.load, hm])
  simp only [State.load, Function.update_self, List.length_append, List.length_singleton]
    at hsum ⊢
  omega

theorem shut_rank {work : List ℕ} (hw : s.work = q :: work) :
    { s.setq q { s.exqs q with shut := true } with work }.rank < s.rank := by
  have hload : ∀ n, State.load { s.setq q { s.exqs q with shut := true } with work } n =
      s.load n := fun n => by
    by_cases hn : n = q <;> simp [State.load, State.setq, hn]
  simp only [State.rank, hload, hw]
  simp [State.setq]

theorem take_rank {exq : List ℕ} (h : Core s place) (hq : s.exq = q :: exq) :
    (({ s with exq, work := q :: s.work }.setq q { s.exqs q with busy := true }).goto q
      (some .running)).rank < s.rank := by
  have hplace : place q = .queue := (h.queue q).mp (by simp [hq])
  have hread : q < s.next := h.read_lt (by simp [hplace])
  have hidle : s.slave q = none := by
    by_contra hne
    simp [(h.served q).mp hne] at hplace
  have hsum := sum_change (f := s.load) (g := State.load (({ s with
    exq, work := q :: s.work }.setq q { s.exqs q with busy := true }).goto q (some .running)))
    hread (fun m hm => by simp [State.load, State.setq, State.goto, hm])
  simp only [State.rank, hq]
  simp only [State.load, State.setq, State.goto, Function.update_self, hidle, Option.elim,
    Slave.rank, List.length_cons] at hsum ⊢
  omega

theorem rank_step (h : Core s place) (hs : Step s s') (hnext : s'.next = s.next) :
    s'.rank < s.rank := by
  cases hs with
  | receive t hr => simp [State.receive, State.setq] at hnext
  | hangup hr => simp at hnext
  | queue q hr => simp [State.rank, State.load, hr, Reader.rank]; omega
  | found fq q hr hf =>
    have hmem := List.mem_of_find?_eq_some hf
    have hlen := List.length_erase_of_mem hmem
    have hpos := List.length_pos_of_mem hmem
    simp only [State.rank, State.load, hr, Reader.rank]
    omega
  | unfound fq hr hf | finished fq q hr hf hq | missed fq hr hf | shutwork hr | ended hr hw =>
    simp [State.rank, State.load, hr, Reader.rank]
  | discard q fq hr => simp [h.discard_eq hr, State.rank, State.load, hr, Reader.rank]
  | append fq q hr hf hq => exact append_rank h hr (List.mem_of_find?_eq_some hf)
  | answer q hr => simp [State.rank, State.load, State.exreply, hr, Reader.rank]
  | free q hr => simp [h.free_eq hr, State.rank, State.load, hr, Reader.rank]
  | shutexq hr => simp [h.shutexq_eq, State.rank, State.load, hr, Reader.rank]; omega
  | shut q work hr hw => exact shut_rank hw
  | take q exq hq hr => exact take_rank h hq
  | fcall q err hs =>
    have hlt := goes_rank (.returned err) (s.exqs q) s.log h hs
      (by simp [Slave.rank])
    simpa [State.goto] using hlt
  | decide q err hs hq => 
    simp only [State.setq, State.goto]
    exact goes_rank .replying { s.exqs q with busy := false } s.log h hs (by simp [Slave.rank])
  | pop q fq flush busy p hs hp hf hq =>
    simp only [State.setq, State.goto]
    refine goes_rank (.answering fq) { s.exqs q with busy, flush } s.log h hs ?_
    rcases hp with rfl | ⟨err, rfl⟩
    · simp [Slave.rank, hf]
      omega
    · simp [Slave.rank, hf]
  | finish q busy p hs hp hq =>
    simp only [State.setq, State.goto]
    refine goes_rank .unlinking { s.exqs q with busy, finished := true } s.log h hs ?_
    rcases hp with rfl | ⟨err, rfl⟩ <;> simp [Slave.rank]
  | reply q hs =>
    have hlt := goes_rank .draining (s.exqs q) (s.log ++ [.reply q]) h hs
      (by simp [Slave.rank])
    simpa [State.goto, State.exreply] using hlt
  | answering q fq hs =>
    have hlt := goes_rank (.freeingflush fq) (s.exqs q) (s.log ++ [.reply fq]) h hs
      (by simp [Slave.rank])
    simpa [State.goto, State.exreply] using hlt
  | freeflush q fq hs =>
    rw [h.freeflush_eq hs]
    have hlt := goes_rank .draining (s.exqs q) (s.log ++ [.free fq]) h hs
      (by simp [Slave.rank])
    simpa [State.goto] using hlt
  | unlink q hs hr =>
    refine serve_rank (q := q) h (by simp [hs]) rfl rfl rfl (List.length_erase_le) ?_ ?_
    · intro n hn
      simp [State.load, State.goto, hn]
    · simp [State.load, State.goto, hs, Slave.rank]
  | freeq q hs =>
    refine serve_rank (q := q) h (by simp [hs]) rfl rfl rfl le_rfl ?_ ?_
    · intro n hn
      simp [State.load, State.exfreeq, State.setq, State.goto, hn]
    · simp [State.load, State.exfreeq, State.setq, State.goto, hs, Slave.rank]

def State.idle (s : State) : Prop :=
  ∀ a, (step s a).isSome → (∃ t, a = .recv t) ∨ a = .hangup

theorem idle_reader (hi : s.idle) : s.reader = .reading ∨ s.reader = .ended := by
  have hnone : s.readstep = none := by
    by_contra hne
    have hsome := hi .reader (Option.isSome_iff_ne_none.mpr hne)
    simp at hsome
  cases hr : s.reader with
  | reading => exact .inl rfl
  | ended => exact .inr rfl
  | searching fq | searchwork fq | shutting =>
    simp only [State.readstep, hr] at hnone
    split at hnone <;> simp at hnone
  | _ => simp [State.readstep, hr] at hnone

theorem idle_exq (hi : s.idle) : s.exq = [] := by
  have hr := idle_reader hi
  cases hq : s.exq with
  | nil => rfl
  | cons q exq =>
    have hsome := hi .take (by rcases hr with hr | hr <;> simp [step, hq, hr])
    simp at hsome

theorem idle_slave (hi : s.idle) (q : ℕ) : s.slave q = none := by
  have hr := idle_reader hi
  by_contra hne
  obtain ⟨p, hp⟩ := Option.ne_none_iff_exists'.mp hne
  have hsome : (∃ t, Act.slave q = .recv t) ∨ Act.slave q = .hangup ∨ p = .running := by
    cases hstage : p with
    | running => simp
    | unlinking =>
      have := hi (.slave q) (by rcases hr with hr | hr <;> simp [step, State.slavestep, hp, hstage, hr])
      simp at this
    | _ =>
      have := hi (.slave q) (by simp [step, State.slavestep, hp, hstage])
      simp at this
  have hrun : p = .running := by simpa using hsome
  have hcall := hi (.fcall q false) (by simp [step, hp, hrun])
  simp at hcall

theorem idle_freed (h : Core s place) (hi : s.idle) (hn : n < s.next) : n ∈ frees s.log := by
  rw [h.gone]
  cases hplace : place n with
  | gone => rfl
  | absent => exact absurd ((h.absent n).mpr hplace) (not_le.mpr hn)
  | reader =>
    have hmem := (h.reader n).mpr hplace
    rcases idle_reader hi with hr | hr <;> simp [hr, Reader.holds] at hmem
  | queue => simpa [idle_exq hi] using (h.queue n).mpr hplace
  | served => exact absurd (idle_slave hi n) ((h.served n).mpr hplace)
  | flushof q => exact absurd (idle_slave hi q) ((h.served q).mpr (h.owner q n hplace))
  | hand q => simpa [idle_slave hi q] using (h.hand q n).mpr hplace

end Infernode.Export
