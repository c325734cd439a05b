import Infernode.Export.Settle

/-!
# What an export answers

The runs of an export from the start: each message is answered at most once and freed
once, each flush is answered unless the export is shut down, and when the client
keeps the rule for tags a request is silent after the Rflush that names it, and
Rflushes come in the order of their Tflushes.
-/

namespace Infernode.Export

variable {s s' : State} {place : ℕ → Place} {n q fq fq' : ℕ}

def Silent (s : State) : Prop :=
  ∀ fq q l l', s.Flushes fq q → replies s.log = l ++ fq :: l' → q ∉ l'

/-- The flushes of a request are answered in the order in which they were read. -/
def Arrival (s : State) : Prop :=
  ∀ fq fq' q l l', fq < fq' → s.Flushes fq q → s.Flushes fq' q →
    replies s.log = l ++ fq' :: l' → fq ∈ l

theorem replied_read (h : Core s place) (ho : Once s) (hs : Step s s') (hn : n ∈ replies s'.log) :
    n < s.next := by
  by_contra hnot
  have hbefore : s.before n := .inl (not_lt.mp hnot)
  rcases replies_step h hs with hlog | ⟨q, hlog, -, hq⟩
  · exact ho.sent n (hlog ▸ hn) hbefore
  · rw [hlog, List.mem_append, List.mem_singleton] at hn
    rcases hn with hn | rfl
    · exact ho.sent n hn hbefore
    · refine hnot (h.read_lt ?_)
      rcases hq with hq | hq | ⟨r, hq⟩
      · simp [(h.reader n).mp (by simp [hq, Reader.holds])]
      · simp [(h.served n).mp (by simp [hq])]
      · simp [(h.hand r n).mp (by simp [hq, Slave.hand])]

theorem silent_step (h : Core s place) (ho : Once s) (ht : Tags s) (hsilent : Silent s)
    (hs : Step s s') : Silent s' := by
  intro fq q l l' hfq hlog'
  have hread := replied_read h ho hs (n := fq) (by simp [hlog'])
  have hold := (flushes_step h hs hread).mp hfq
  rcases replies_step h hs with hlog | ⟨n, hlog, hn, -⟩
  · exact hsilent fq q l l' hold (hlog ▸ hlog')
  · rcases List.eq_nil_or_concat l' with rfl | ⟨l'', m, rfl⟩
    · simp
    · rw [hlog, List.concat_eq_append, ← List.cons_append, ← List.append_assoc] at hlog'
      obtain ⟨hinit, hlast⟩ := List.append_inj' hlog' rfl
      obtain rfl : n = m := by simpa using hlast
      have hsent : fq ∈ replies s.log := by simp [hinit]
      simp only [List.concat_eq_append, List.mem_append, List.mem_singleton, not_or]
      refine ⟨hsilent fq q l l'' hold hinit, ?_⟩
      rintro rfl
      exact (ht.answered fq q hold hn).2.2 hsent

theorem arrival_step (h : Core s place) (hf : Flags s) (ho : Once s) (hi : InOrder s)
    (ha : Arrival s) (hs : Step s s') : Arrival s' := by
  intro fq fq' q l l' hlt hfq hfq' hlog'
  have hread := replied_read h ho hs (n := fq') (by simp [hlog'])
  have hold' := (flushes_step h hs hread).mp hfq'
  have hold := (flushes_step h hs (hlt.trans hread)).mp hfq
  rcases replies_step h hs with hlog | ⟨n, hlog, -, hn⟩
  · exact ha fq fq' q l l' hlt hold hold' (hlog ▸ hlog')
  · rcases List.eq_nil_or_concat l' with rfl | ⟨l'', m, rfl⟩
    · rw [hlog] at hlog'
      obtain ⟨hinit, hlast⟩ := List.append_inj' hlog' rfl
      obtain rfl : n = fq' := by simpa using hlast
      rw [← hinit]
      by_contra hnone
      obtain ⟨-, hreplying, -, hanswering, -⟩ := hi fq n q hlt hold hold' hnone
      rcases hn with hn | hn | ⟨r, hn⟩
      · exact hreplying hn
      · have hreq := hf.served n (by simp [hn])
        simp [names_isflush hold'.names] at hreq
      · exact hanswering r hn
    · rw [hlog, List.concat_eq_append, ← List.cons_append, ← List.append_assoc] at hlog'
      exact ha fq fq' q l l'' hlt hold hold' (List.append_inj' hlog' rfl).1

structure Sound (s : State) (place : ℕ → Place) : Prop where
  core : Core s place
  flags : Flags s
  once : Once s

structure Ordered (s : State) : Prop where
  tags : Tags s
  newest : Newest s
  inorder : InOrder s
  silent : Silent s
  arrival : Arrival s

theorem sound_init (readonly : Bool) : Sound (init readonly) (fun _ => .absent) :=
  ⟨core_init readonly, flags_init readonly, once_init readonly⟩

theorem sound_step (h : Sound s place) (hs : Step s s') : ∃ place', Sound s' place' := by
  obtain ⟨place', hcore⟩ := core_step h.core hs
  exact ⟨place', hcore, flags_step h.core h.flags hs, once_step h.core hcore h.flags h.once hs⟩

theorem ordered_init (readonly : Bool) : Ordered (init readonly) := by
  refine ⟨tags_init readonly, newest_init readonly, inorder_init readonly, ?_, ?_⟩
  · exact fun fq _ _ _ hf => absurd hf.read (Nat.not_lt_zero fq)
  · exact fun fq _ _ _ _ _ hf => absurd hf.read (Nat.not_lt_zero fq)

theorem ordered_step {a : Act} {place' : ℕ → Place} (h : Sound s place) (h' : Sound s' place')
    (ho : Ordered s) (ha : step s a = some s') (hobey : s.obeys a) : Ordered s' := by
  have hs := step_step ha
  obtain ⟨hcore, hflags, honce⟩ := h
  exact ⟨tags_step hcore h'.core hflags honce h'.once ho.tags ha hobey,
    newest_step hcore hflags ho.tags ho.newest hs,
    inorder_step hcore h'.core hflags honce h'.once ho.tags ho.newest ho.inorder hs,
    silent_step hcore honce ho.tags ho.silent hs,
    arrival_step hcore hflags honce ho.inorder ho.arrival hs⟩

theorem run_cons {a : Act} {acts : List Act} (hrun : run s (a :: acts) = some s') :
    ∃ t, step s a = some t ∧ run t acts = some s' := by
  simpa [run, List.foldlM_cons, Option.bind_eq_some_iff] using hrun

theorem run_sound {acts : List Act} (h : Sound s place) (hrun : run s acts = some s') :
    ∃ place', Sound s' place' := by
  induction acts generalizing s place with
  | nil =>
    obtain rfl : s = s' := by simpa [run] using hrun
    exact ⟨place, h⟩
  | cons a acts ih =>
    obtain ⟨t, ha, hrun⟩ := run_cons hrun
    obtain ⟨place', ht⟩ := sound_step h (step_step ha)
    exact ih ht hrun

theorem run_ordered {acts : List Act} (h : Sound s place) (ho : Ordered s)
    (hobey : Obeyed s acts) (hrun : run s acts = some s') : Ordered s' := by
  induction acts generalizing s place with
  | nil =>
    obtain rfl : s = s' := by simpa [run] using hrun
    exact ho
  | cons a acts ih =>
    obtain ⟨t, ha, hrun⟩ := run_cons hrun
    obtain ⟨place', ht⟩ := sound_step h (step_step ha)
    exact ih ht (ordered_step h ht ho ha hobey.1) (hobey.2 t ha) hrun

theorem freed_replied (h : Sound s place) (hf : s.isflush fq = true) (hfree : fq ∈ frees s.log) :
    fq ∈ replies s.log ∨ s.down := by
  refine h.once.due fq hf ?_
  rw [h.core.before_iff, (h.core.gone fq).mp hfree]
  exact id

theorem obeyed_of_flushes {acts : List Act}
    (hacts : ∀ t mutates, Act.recv ⟨t, .request mutates⟩ ∉ acts) : Obeyed s acts := by
  induction acts generalizing s with
  | nil => trivial
  | cons a acts ih =>
    refine ⟨?_, fun t _ => ih (fun t m hm => hacts t m (List.mem_cons_of_mem a hm))⟩
    match a with
    | .recv ⟨t, .request m⟩ => exact absurd List.mem_cons_self (hacts t m)
    | .recv ⟨_, .flush _⟩ => trivial
    | .hangup => trivial
    | .reader => trivial
    | .take => trivial
    | .fcall _ _ => trivial
    | .slave _ => trivial

def flushedTwice : List Act :=
  [.recv ⟨1, .request false⟩, .reader, .take, .recv ⟨2, .flush 1⟩, .reader, .reader,
    .recv ⟨3, .flush 1⟩, .reader, .reader, .fcall 0 true, .slave 0, .slave 0, .slave 0, .slave 0,
    .slave 0, .slave 0, .slave 0, .slave 0, .slave 0]

theorem flushedTwice_obeyed : Obeyed (init false) flushedTwice :=
  ⟨fun q hq => absurd hq (Nat.not_lt_zero q), fun _ _ => obeyed_of_flushes (by simp)⟩

end Infernode.Export
