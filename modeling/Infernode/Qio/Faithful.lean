import Infernode.Qio.Steps

/-!
# What writers are told, and the whole queue

`Told` is what every step keeps about the writes: a write that returned queued the
bytes it returned for, unless a block of it was freed or passed round the queue.
With the stream it holds of every state that a run reaches.
-/

namespace Infernode.Qio
open Infernode.Lib

variable {α : Type*} {s : State α} {q q' : Queue α} {b : Block α} {bs : List (Block α)}
  {w : ℕ} {c : Call α}

def queuedby (es : List (Entry α)) (w : ℕ) : List α :=
  inbytes (es.filter fun e => e.call = w)

structure Book (α : Type*) where
  msg : Bool
  writers : ℕ → Option (Call α)
  calls : ℕ
  entered : List (Entry α)
  unqueued : List ℕ
  returned : List (Report α)

def State.book (s : State α) : Book α :=
  ⟨s.q.msg, s.writers, s.calls, s.log.entered, s.log.unqueued, s.log.returned⟩

def Call.passed (c : Call α) : ℕ :=
  c.sofar + if c.waiting then c.chunk.length else 0

structure Told (k : Book α) : Prop where
  entered_below : ∀ e ∈ k.entered, e.call < k.calls
  unqueued_below : ∀ w ∈ k.unqueued, w < k.calls
  returned_below : ∀ r ∈ k.returned, r.call < k.calls
  writers_below : ∀ w c, k.writers w = some c → w < k.calls
  done : ∀ r ∈ k.returned, k.writers r.call = none
  progress : ∀ w c, k.writers w = some c →
    w ∈ k.unqueued ∨ queuedby k.entered w = c.data.take c.passed
  first : k.msg = true → ∀ w c, k.writers w = some c → c.sofar = 0
  honest : ∀ r ∈ k.returned, r.call ∉ k.unqueued →
    (k.msg = true → r.kind = some .qwrite → r.data.length ≤ Maxatomic) →
    queuedby k.entered r.call = r.data.take r.n

@[simp] theorem queuedby_append (es fs : List (Entry α)) (w : ℕ) :
    queuedby (es ++ fs) w = queuedby es w ++ queuedby fs w := by
  simp [queuedby]

theorem queuedby_map (w v : ℕ) (bs : List (Block α)) :
    queuedby (bs.map fun b => ⟨w, b.id, b.data⟩) v = if w = v then bytes bs else [] := by
  split_ifs with hwv
  · subst hwv
    have hall : (bs.map fun b => (⟨w, b.id, b.data⟩ : Entry α)).filter (fun e => e.call = w) =
        bs.map fun b => ⟨w, b.id, b.data⟩ := by
      rw [List.filter_eq_self]
      intro e he
      obtain ⟨b, -, rfl⟩ := List.mem_map.mp he
      simp
    rw [queuedby, hall, inbytes_map]
  · have hnone : (bs.map fun b => (⟨w, b.id, b.data⟩ : Entry α)).filter (fun e => e.call = v) =
        [] := by
      rw [List.filter_eq_nil_iff]
      intro e he
      obtain ⟨b, -, rfl⟩ := List.mem_map.mp he
      simpa using hwv
    rw [queuedby, hnone]
    rfl

theorem queuedby_fresh {es : List (Entry α)} (h : ∀ e ∈ es, e.call < w) : queuedby es w = [] := by
  have hnone : es.filter (fun e => e.call = w) = [] := by
    rw [List.filter_eq_nil_iff]
    intro e he
    have hlt := h e he
    simp only [decide_eq_true_eq]
    omega
  rw [queuedby, hnone]
  rfl

theorem chunk_take (c : Call α) :
    c.data.take c.sofar ++ c.chunk = c.data.take (c.sofar + c.chunk.length) := by
  rw [List.take_add, Call.chunk, List.length_take]
  congr 1
  rw [List.take_eq_take_iff]
  simp

theorem start_told {kind : Kind} {data : List α} (h : Told s.book) :
    Told (s.start kind data).book := by
  constructor
  · exact fun e he => (h.entered_below e he).trans (Nat.lt_succ_self _)
  · exact fun v hv => (h.unqueued_below v hv).trans (Nat.lt_succ_self _)
  · exact fun r hr => (h.returned_below r hr).trans (Nat.lt_succ_self _)
  · intro v c hv
    simp only [State.book, State.start, Function.update_apply] at hv ⊢
    split_ifs at hv with heq
    · omega
    · exact (h.writers_below v c hv).trans (Nat.lt_succ_self _)
  · intro r hr
    have hlt := h.returned_below r hr
    simp only [State.book, State.start] at hlt ⊢
    rw [Function.update_of_ne (by omega)]
    exact h.done r hr
  · intro v c hv
    simp only [State.book, State.start, Function.update_apply] at hv ⊢
    split_ifs at hv with heq
    · obtain rfl := Option.some.inj hv
      refine .inr ?_
      rw [queuedby_fresh (by rw [heq]; exact h.entered_below)]
      simp [Call.passed]
    · exact h.progress v c hv
  · intro hm v c hv
    simp only [State.book, State.start, Function.update_apply] at hv
    split_ifs at hv
    · obtain rfl := Option.some.inj hv
      rfl
    · exact h.first hm v c hv
  · exact h.honest

theorem leave_told (h : Told s.book) (w : ℕ) : Told (s.setcall w none).book := by
  have hsome : ∀ v c, (s.setcall w none).writers v = some c → s.writers v = some c := by
    intro v c hv
    simp only [State.setcall, Function.update_apply] at hv
    split_ifs at hv
    exact hv
  constructor
  · exact h.entered_below
  · exact h.unqueued_below
  · exact h.returned_below
  · exact fun v c hv => h.writers_below v c (hsome v c hv)
  · intro r hr
    simp only [State.book, State.setcall, Function.update_apply]
    split_ifs
    · rfl
    · exact h.done r hr
  · exact fun v c hv => h.progress v c (hsome v c hv)
  · exact fun hm v c hv => h.first hm v c (hsome v c hv)
  · exact h.honest

theorem report_told {r : Report α} (h : Told s.book) (hr : r.call < s.calls)
    (hdone : s.writers r.call = none)
    (hhonest : r.call ∉ s.log.unqueued →
      (s.q.msg = true → r.kind = some .qwrite → r.data.length ≤ Maxatomic) →
      queuedby s.log.entered r.call = r.data.take r.n) : Told (s.report r).book := by
  refine ⟨h.entered_below, h.unqueued_below, ?_, h.writers_below, ?_, h.progress, h.first, ?_⟩
  · intro r' hr'
    rcases List.mem_append.mp hr' with hr' | hr'
    · exact h.returned_below r' hr'
    · obtain rfl := List.mem_singleton.mp hr'
      exact hr
  · intro r' hr'
    rcases List.mem_append.mp hr' with hr' | hr'
    · exact h.done r' hr'
    · obtain rfl := List.mem_singleton.mp hr'
      exact hdone
  · intro r' hr'
    rcases List.mem_append.mp hr' with hr' | hr'
    · exact h.honest r' hr'
    · obtain rfl := List.mem_singleton.mp hr'
      exact hhonest

theorem unqueue_told (h : Told s.book) (hw : w < s.calls) : Told (s.unqueue w).book := by
  refine ⟨h.entered_below, ?_, h.returned_below, h.writers_below, h.done, ?_, h.first, ?_⟩
  · intro v hv
    rcases List.mem_append.mp hv with hv | hv
    · exact h.unqueued_below v hv
    · obtain rfl := List.mem_singleton.mp hv
      exact hw
  · intro v c hv
    exact (h.progress v c hv).imp_left (fun hmem => List.mem_append_left _ hmem)
  · intro r hr hun
    exact h.honest r hr (fun hmem => hun (List.mem_append_left _ hmem))

theorem Told.not_done {k : Book α} (h : Told k) (hw : k.writers w = some c) :
    ∀ r ∈ k.returned, r.call ≠ w := by
  rintro r hr rfl
  rw [h.done r hr] at hw
  simp at hw

theorem enter_told (h : Told s.book) (hw : s.writers w = some c) (hwait : c.waiting = false)
    (hb : b.data = c.chunk) :
    Told ((s.enter w [b]).setcall w (some { c with waiting := true })).book := by
  have hbelow := h.writers_below w c hw
  have hqueued : ∀ v, queuedby ((s.enter w [b]).log.entered) v =
      queuedby s.log.entered v ++ if w = v then c.chunk else [] := by
    intro v
    simp only [State.enter, queuedby_append, queuedby_map, bytes_cons, bytes_nil, List.append_nil,
      hb]
  constructor
  · intro e he
    rcases List.mem_append.mp he with he | he
    · exact h.entered_below e he
    · obtain rfl := List.mem_singleton.mp he
      exact hbelow
  · exact h.unqueued_below
  · exact h.returned_below
  · intro v c' hv
    simp only [State.book, State.setcall, Function.update_apply] at hv
    split_ifs at hv with hvw
    · rw [hvw]
      exact hbelow
    · exact h.writers_below v c' hv
  · intro r hr
    have hne := h.not_done hw r hr
    simp only [State.book, State.setcall, Function.update_of_ne hne]
    exact h.done r hr
  · intro v c' hv
    simp only [State.book, State.setcall, Function.update_apply] at hv
    split_ifs at hv with hvw
    · obtain rfl := Option.some.inj hv
      subst hvw
      refine (h.progress v c hw).imp id (fun hprog => ?_)
      have hq := hqueued v
      rw [if_pos rfl] at hq
      refine hq.trans ?_
      rw [show queuedby s.log.entered v = _ from hprog]
      simp only [Call.passed, hwait, Bool.false_eq_true, if_false, add_zero, if_true]
      exact chunk_take c
    · refine (h.progress v c' hv).imp id (fun hprog => ?_)
      refine (hqueued v).trans ?_
      rw [if_neg (Ne.symm hvw), List.append_nil]
      exact hprog
  · intro hm v c' hv
    simp only [State.book, State.setcall, Function.update_apply] at hv
    split_ifs at hv with hvw
    · obtain rfl := Option.some.inj hv
      exact h.first hm w c hw
    · exact h.first hm v c' hv
  · intro r hr hun hmost
    refine (hqueued r.call).trans ?_
    rw [if_neg (h.not_done hw r hr).symm, List.append_nil]
    exact h.honest r hr hun hmost

theorem next_told (h : Told s.book) (hw : s.writers w = some c)
    (hprog : w ∈ s.log.unqueued ∨
      queuedby s.log.entered w = c.data.take (c.sofar + c.chunk.length)) :
    Told (s.next w c).book := by
  rw [State.next]
  split_ifs with hmore
  · constructor
    · exact h.entered_below
    · exact h.unqueued_below
    · exact h.returned_below
    · intro v c' hv
      simp only [State.book, State.setcall, Function.update_apply] at hv
      split_ifs at hv with hvw
      · rw [hvw]
        exact h.writers_below w c hw
      · exact h.writers_below v c' hv
    · intro r hr
      have hne := h.not_done hw r hr
      simp only [State.book, State.setcall, Function.update_of_ne hne]
      exact h.done r hr
    · intro v c' hv
      simp only [State.book, State.setcall, Function.update_apply] at hv
      split_ifs at hv with hvw
      · obtain rfl := Option.some.inj hv
        subst hvw
        simp only [Call.passed, Bool.false_eq_true, if_false, add_zero]
        exact hprog
      · exact h.progress v c' hv
    · intro hm
      have hm' : s.q.msg = true := hm
      simp [hmore.2] at hm'
    · exact h.honest
  · refine report_told (leave_told h w) (h.writers_below w c hw) ?_ ?_
    · simp [State.setcall]
    · intro hun hmost
      have hqueued := hprog.resolve_left hun
      refine hqueued.trans ?_
      have hfirst := fun hm => h.first hm w c hw
      cases hk : c.kind with
      | qiwrite => rw [Call.result, hk]
      | qwrite =>
        rw [Call.result, hk]
        rw [List.take_of_length_le (le_refl c.data.length), List.take_of_length_le]
        by_contra hlt
        have hm : s.q.msg = true := by
          by_contra hm
          exact hmore ⟨not_le.mp hlt, Bool.eq_false_iff.mpr hm⟩
        have hsofar : c.sofar = 0 := hfirst hm
        have hle : c.data.length ≤ Maxatomic := hmost hm (by simp [hk])
        simp only [Call.chunk, Call.most, hk, hsofar, List.drop_zero, List.length_take] at hlt
        omega
      | qbwrite pre post =>
        rw [Call.result, hk]
        rw [List.take_of_length_le (le_refl c.data.length), List.take_of_length_le]
        simp only [Call.chunk, Call.most, hk, List.length_take, List.length_drop]
        omega

theorem book_congr {s' : State α} (hmsg : s'.q.msg = s.q.msg) (hw : s'.writers = s.writers)
    (hc : s'.calls = s.calls) (he : s'.log.entered = s.log.entered)
    (hu : s'.log.unqueued = s.log.unqueued) (hr : s'.log.returned = s.log.returned) :
    s'.book = s.book := by
  rw [State.book, State.book, hmsg, hw, hc, he, hu, hr]

theorem unqueue_next_told (h : Told s.book) (hw : s.writers w = some c) :
    Told ((s.unqueue w).next w c).book :=
  next_told (unqueue_told h (h.writers_below w c hw)) hw (.inl (by simp [State.unqueue]))

theorem enter_next_told (h : Told s.book) (hw : s.writers w = some c) (hwait : c.waiting = false)
    (hb : b.data = c.chunk) : Told ((s.enter w [b]).next w c).book := by
  have henter := enter_told h hw hwait hb
  have hw' : ((s.enter w [b]).setcall w (some { c with waiting := true })).writers w =
      some { c with waiting := true } := Function.update_self _ _ _
  have hnext := next_told henter hw' ((henter.progress w _ hw').imp id (fun hprog => by
    simp only [Call.passed, if_true] at hprog
    exact hprog))
  have heq : (((s.enter w [b]).setcall w (some { c with waiting := true })).next w
      { c with waiting := true }).book = ((s.enter w [b]).next w c).book := by
    simp only [State.next, Call.chunk, Call.most, Call.result, State.setcall, State.enter]
    split_ifs <;> simp [State.book, State.report, Function.update_idem]
  rw [← heq]
  exact hnext

theorem block_data (c : Call α) (id : ℕ) : (c.block id).data = c.chunk := by
  simp only [Call.block]
  split <;> rfl

theorem qbwrite_told {s' : State α} (h : Told s.book) (hw : s.writers w = some c)
    (hwait : c.waiting = false) (hs : s.qbwrite w c = some s') : Told s'.book := by
  simp only [State.qbwrite, Queue.qbwrite] at hs
  by_cases hbypass : s.q.bypass = true
  · simp only [hbypass, if_true, Option.some.injEq] at hs
    subst hs
    exact unqueue_next_told h hw
  · simp only [hbypass, Bool.false_eq_true, if_false] at hs
    split_ifs at hs
    · obtain rfl := Option.some.inj hs
      exact leave_told h w
    · obtain rfl := Option.some.inj hs
      exact unqueue_next_told h hw
    · obtain rfl := Option.some.inj hs
      exact enter_told (s := { s with
        q := { s.q.qaddlist [c.block s.fresh] with starve := false }, wlock := some w })
        h hw hwait (block_data c _)

theorem qiwrite_told (h : Told s.book) (hw : s.writers w = some c) (hwait : c.waiting = false) :
    Told (s.qiwrite w c).book := by
  simp only [State.qiwrite, Queue.qiwrite]
  by_cases hbypass : s.q.bypass = true
  · simp only [hbypass, if_true]
    exact unqueue_next_told h hw
  · simp only [hbypass, Bool.false_eq_true, if_false]
    exact enter_next_told (s := { s with
      q := { s.q.qaddlist [c.block s.fresh] with starve := false }
      log := { s.log with shut := false } }) h hw hwait (block_data c _)

theorem once_told (bs : List (Block α)) (r : Report α) (h : Told s.book) (hr : r.call = s.calls)
    (hdata : bytes bs = r.data.take r.n) :
    Told ((({ s with calls := s.calls + 1 } : State α).enter s.calls bs).report r).book := by
  have hfree : ∀ v c, s.writers v = some c → v < s.calls := h.writers_below
  have hqueued : ∀ v, queuedby (({ s with calls := s.calls + 1 } : State α).enter s.calls
      bs).log.entered v = queuedby s.log.entered v ++ if s.calls = v then bytes bs else [] := by
    intro v
    simp only [State.enter, queuedby_append, queuedby_map]
  have hother : ∀ v < s.calls, queuedby (({ s with calls := s.calls + 1 } : State α).enter s.calls
      bs).log.entered v = queuedby s.log.entered v := by
    intro v hv
    rw [hqueued, if_neg (by omega), List.append_nil]
  have henter : Told (({ s with calls := s.calls + 1 } : State α).enter s.calls bs).book := by
    constructor
    · intro e he
      rcases List.mem_append.mp he with he | he
      · exact (h.entered_below e he).trans (Nat.lt_succ_self _)
      · obtain ⟨b, -, rfl⟩ := List.mem_map.mp he
        exact Nat.lt_succ_self _
    · exact fun v hv => (h.unqueued_below v hv).trans (Nat.lt_succ_self _)
    · exact fun r hr => (h.returned_below r hr).trans (Nat.lt_succ_self _)
    · exact fun v c hv => (hfree v c hv).trans (Nat.lt_succ_self _)
    · exact h.done
    · intro v c hv
      refine (h.progress v c hv).imp id (fun hprog => ?_)
      exact (hother v (hfree v c hv)).trans hprog
    · exact h.first
    · intro r hr hun hmost
      exact (hother _ (h.returned_below r hr)).trans (h.honest r hr hun hmost)
  refine report_told henter ?_ ?_ ?_
  · rw [hr]
    exact Nat.lt_succ_self _
  · by_contra hsome
    obtain ⟨c, hc⟩ := Option.ne_none_iff_exists'.mp hsome
    have hlt := hfree r.call c hc
    omega
  · intro _ _
    rw [hqueued, queuedby_fresh (by rw [hr]; exact h.entered_below), if_pos hr.symm, List.nil_append,
      hdata]

theorem called_told (h : Told s.book) : Told ({ s with calls := s.calls + 1 } : State α).book :=
  ⟨fun e he => (h.entered_below e he).trans (Nat.lt_succ_self _),
    fun v hv => (h.unqueued_below v hv).trans (Nat.lt_succ_self _),
    fun r hr => (h.returned_below r hr).trans (Nat.lt_succ_self _),
    fun v c hv => (h.writers_below v c hv).trans (Nat.lt_succ_self _),
    h.done, h.progress, h.first, h.honest⟩

theorem qproduce_told {data : List α} (h : Told s.book) : Told (s.qproduce data).book := by
  simp only [State.qproduce, Queue.qproduce]
  by_cases hclosed : s.q.closed = true
  · simp only [hclosed, if_true]
    exact called_told h
  · by_cases hlimit : s.q.limit ≤ s.q.len
    · simp only [hlimit, hclosed, Bool.false_eq_true, if_true, if_false]
      exact called_told h
    · simp only [hlimit, hclosed, Bool.false_eq_true, if_false]
      exact once_told [allocb s.fresh data] ⟨s.calls, none, data, data.length⟩ h rfl
        (by simp [allocb])

theorem qpass_told (h : Told s.book) : Told (s.qpass bs).book := by
  simp only [State.qpass, Queue.qpass]
  by_cases hlimit : s.q.limit ≤ s.q.len
  · simp only [hlimit, if_true]
    exact called_told h
  · by_cases hclosed : s.q.closed = true
    · simp only [hlimit, hclosed, if_true, if_false]
      have hcalled := called_told h
      refine report_told (unqueue_told hcalled (Nat.lt_succ_self _)) (Nat.lt_succ_self _) ?_ ?_
      · by_contra hsome
        obtain ⟨c, hc⟩ := Option.ne_none_iff_exists'.mp hsome
        have hlt := h.writers_below s.calls c hc
        simp only [State.book] at hlt
        omega
      · intro hun
        exact absurd (by simp [State.unqueue]) hun
    · simp only [hlimit, hclosed, Bool.false_eq_true, if_false]
      refine once_told (placed s.fresh bs) ⟨s.calls, none, bytes (placed s.fresh bs),
        blockalloclen (placed s.fresh bs)⟩ h rfl ?_
      rw [List.take_of_length_le]
      rw [bytes_length]
      exact blocklen_le_alloc _

theorem shed_msg (q : Queue α) : (shed q.bfirst q).msg = q.msg := by
  obtain ⟨gone, rest, -, -, hshed⟩ := shed_eq (rfl : q.bfirst = q.bfirst)
  rw [hshed]
  rfl

theorem qdiscard_msg (q : Queue α) (len : ℕ) : (q.qdiscard len).msg = q.msg := by
  rcases discardloop_eq len (rfl : q.bfirst = q.bfirst) with
    ⟨gone, rest, -, -, hloop, -⟩ | ⟨gone, b, rest, k, -, -, -, hloop, -⟩
  · simp only [Queue.qdiscard, hloop]
    rfl
  · simp only [Queue.qdiscard, hloop]
    rfl

theorem qwait_msg (q : Queue α) : q.qwait.2.msg = q.msg := by
  cases hq : q.bfirst with
  | nil => exact (qwait_nil hq).2.msg
  | cons b bs => rw [qwait_cons hq]

theorem take_msg (q : Queue α) (len : ℕ) : (q.take len).2.2.msg = q.msg := by
  cases hq : q.bfirst with
  | nil => simp [Queue.take, hq]
  | cons b bs =>
    obtain ⟨first, rest, -, htake, -⟩ := take_eq len hq
    rw [htake]
    rfl

theorem consume_msg (q : Queue α) (len : ℕ) : (consume q len).2.msg = q.msg := by
  simp only [consume]
  split
  · rfl
  · split_ifs <;> rfl

theorem qread_book (s : State α) (len : ℕ) : (s.qread len).book = s.book := by
  have hmsg : (if s.q.coalesce then shed s.q.bfirst s.q else s.q).msg = s.q.msg := by
    split_ifs
    · exact shed_msg s.q
    · rfl
  have hwait := (qwait_msg (if s.q.coalesce then shed s.q.bfirst s.q else s.q)).trans hmsg
  rw [State.qread]
  split
  · rename_i q hq
    rw [hq] at hwait
    exact book_congr ((take_msg q len).trans hwait) rfl rfl rfl rfl rfl
  · rename_i q hq
    rw [hq] at hwait
    exact book_congr hwait rfl rfl rfl rfl rfl
  · rename_i q hq
    rw [hq] at hwait
    exact book_congr hwait rfl rfl rfl rfl rfl

theorem qbread_book (s : State α) (len : ℕ) : (s.qbread len).book = s.book := by
  have hwait := qwait_msg s.q
  have hmsg : ∀ q : Queue α, (q.qbread len s.fresh).2.msg = q.msg := by
    intro q
    simp only [Queue.qbread]
    split
    · rfl
    · split_ifs <;> rfl
  rw [State.qbread]
  split
  · rename_i q hq
    rw [hq] at hwait
    have hread := (hmsg q).trans hwait
    split
    · rename_i q' hq'
      rw [hq'] at hread
      exact book_congr hread rfl rfl rfl rfl rfl
    · rename_i b q' hq'
      rw [hq'] at hread
      exact book_congr hread rfl rfl rfl rfl rfl
  · rename_i q hq
    rw [hq] at hwait
    exact book_congr hwait rfl rfl rfl rfl rfl
  · rename_i q hq
    rw [hq] at hwait
    exact book_congr hwait rfl rfl rfl rfl rfl

theorem copied_book (s : State α) (first : List (Block α)) (n len : ℕ) :
    (s.copied first n len).book = s.book := by
  refine book_congr ?_ rfl rfl rfl rfl rfl
  simp only [State.copied, Queue.copied]
  split
  · rfl
  · split_ifs <;> rfl

theorem qget_book (s : State α) : s.qget.book = s.book := by
  simp only [State.qget, Queue.qget]
  cases s.q.bfirst <;> rfl

theorem qconsume_book (s : State α) (len : ℕ) : (s.qconsume len).book = s.book := by
  have hmsg := (consume_msg (shed s.q.bfirst s.q) len).trans (shed_msg s.q)
  simp only [State.qconsume, Queue.qconsume]
  split
  · rename_i q hq
    rw [hq] at hmsg
    exact book_congr hmsg rfl rfl rfl rfl rfl
  · rename_i id d q hq
    rw [hq] at hmsg
    exact book_congr hmsg rfl rfl rfl rfl rfl

theorem pullupqueue_book (s : State α) (b : Block α) (bs : List (Block α)) (n : ℕ) :
    (s.pullupqueue b bs n).book = s.book := by
  simp only [State.pullupqueue, Queue.pullupqueue]
  split_ifs <;> rfl

theorem keeps_read {s' : State α} (h : Told s.book) (hstream : Stream s'.pipe)
    (hbook : s'.book = s.book) : Stream s'.pipe ∧ Told s'.book :=
  ⟨hstream, hbook ▸ h⟩

theorem idle_held {r : Reader α} (hr : r = .idle) : r.held = [] := by
  rw [hr]
  rfl

theorem step_keeps {a : Act α} {s' : State α} (h : Stream s.pipe) (ht : Told s.book)
    (hs : step s a = some s') : Stream s'.pipe ∧ Told s'.book := by
  have hsame : Same s.q s.q := ⟨rfl, rfl, rfl, rfl, rfl, rfl, id⟩
  cases a with
  | qread len | qbread len =>
    simp only [step] at hs
    split at hs <;> simp only [Option.some.injEq, reduceCtorEq] at hs
    subst hs
    rename_i hr
    exact ⟨h.same hsame (idle_held hr).symm trivial, ht⟩
  | read =>
    simp only [step] at hs
    split at hs <;> simp only [Option.some.injEq, reduceCtorEq] at hs
    · subst hs
      rename_i hr
      exact keeps_read ht (qread_stream h (by simp [hr, Reader.held])) (qread_book s _)
    · subst hs
      rename_i hr
      exact keeps_read ht (qbread_stream h (by simp [hr, Reader.held])) (qbread_book s _)
  | copied =>
    simp only [step] at hs
    split at hs <;> simp only [Option.some.injEq, reduceCtorEq] at hs
    subst hs
    rename_i hr
    exact keeps_read ht (copied_stream h hr) (copied_book s _ _ _)
  | readintr =>
    simp only [step] at hs
    split at hs <;> simp only [Option.some.injEq, reduceCtorEq] at hs
    all_goals
      subst hs
      rename_i hr
      exact ⟨h.idles hsame (by simp [State.pipe, hr, Reader.held]), ht⟩
  | qget =>
    simp only [step] at hs
    split at hs <;> simp only [Option.some.injEq, reduceCtorEq] at hs
    subst hs
    rename_i hr
    exact keeps_read ht (qget_stream h (idle_held hr)) (qget_book s)
  | qconsume len =>
    simp only [step] at hs
    split at hs <;> simp only [Option.some.injEq, reduceCtorEq] at hs
    subst hs
    rename_i hr
    exact keeps_read ht (qconsume_stream h (idle_held hr)) (qconsume_book s len)
  | qdiscard len =>
    simp only [step] at hs
    split at hs <;> simp only [Option.some.injEq, reduceCtorEq] at hs
    subst hs
    rename_i hr
    exact keeps_read ht (qdiscard_stream h (idle_held hr))
      (book_congr (qdiscard_msg s.q len) rfl rfl rfl rfl rfl)
  | pullupqueue n =>
    simp only [step] at hs
    split at hs <;> simp only [Option.some.injEq, reduceCtorEq] at hs
    subst hs
    rename_i hr hq
    exact keeps_read ht (pullupqueue_stream h (idle_held hr) hq) (pullupqueue_book s _ _ n)
  | qwrite data | qbwrite pre data post | qiwrite data =>
    obtain rfl := Option.some.inj hs
    exact ⟨h, start_told ht⟩
  | write w =>
    simp only [step] at hs
    split at hs <;> try contradiction
    rename_i c hw
    split_ifs at hs with hwait
    refine ⟨write_stream h hs, ?_⟩
    rw [State.write] at hs
    split at hs
    · obtain rfl := Option.some.inj hs
      exact qiwrite_told ht hw (Bool.eq_false_iff.mpr hwait)
    · exact qbwrite_told ht hw (Bool.eq_false_iff.mpr hwait) hs
  | full w =>
    simp only [step] at hs
    split at hs <;> try contradiction
    split_ifs at hs
    obtain rfl := Option.some.inj hs
    exact ⟨h.flags ⟨rfl, rfl, rfl, rfl, rfl, rfl, id⟩, ht⟩
  | notfull w =>
    simp only [step] at hs
    split at hs <;> try contradiction
    rename_i c hw
    split_ifs at hs with hready
    obtain rfl := Option.some.inj hs
    refine ⟨?_, next_told ht hw ((ht.progress w c hw).imp id (fun hprog => ?_))⟩
    · rw [pipe_next]
      exact h
    · rw [Call.passed, if_pos hready.1] at hprog
      exact hprog
  | writeintr w =>
    simp only [step] at hs
    split at hs <;> try contradiction
    split_ifs at hs
    obtain rfl := Option.some.inj hs
    exact ⟨h, leave_told ht w⟩
  | exhausted w =>
    simp only [step] at hs
    split at hs <;> try contradiction
    rename_i c hw
    split_ifs at hs with hwait
    split at hs
    · obtain rfl := Option.some.inj hs
      refine ⟨h, report_told (leave_told ht w) (ht.writers_below w c hw) ?_ (fun hun _ => ?_)⟩
      · exact Function.update_self _ _ _
      · have hprog := (ht.progress w c hw).resolve_left hun
        rw [Call.passed, if_neg hwait, add_zero] at hprog
        exact hprog
    · obtain rfl := Option.some.inj hs
      exact ⟨h, leave_told ht w⟩
  | qproduce data =>
    obtain rfl := Option.some.inj hs
    exact ⟨qproduce_stream h, qproduce_told ht⟩
  | qpass bs =>
    simp only [step] at hs
    split_ifs at hs
    obtain rfl := Option.some.inj hs
    exact ⟨qpass_stream h, qpass_told ht⟩
  | qhangup msg =>
    obtain rfl := Option.some.inj hs
    exact ⟨h.flags ⟨rfl, rfl, rfl, rfl, rfl, rfl, fun _ => rfl⟩, ht⟩
  | qclose =>
    obtain rfl := Option.some.inj hs
    exact ⟨empties_stream h rfl ⟨rfl, rfl⟩ rfl rfl (fun hs => ⟨rfl, List.isEmpty_iff.mp hs⟩), ht⟩
  | qflush =>
    obtain rfl := Option.some.inj hs
    refine ⟨empties_stream (b := s.log.shut) h rfl ⟨rfl, rfl⟩ rfl rfl (fun hs => ?_), ht⟩
    obtain ⟨hc, hlive⟩ := h.shut hs
    exact ⟨hc, (List.append_eq_nil_iff.mp hlive).1⟩
  | qreopen =>
    obtain rfl := Option.some.inj hs
    exact ⟨h.opens ⟨rfl, rfl, rfl, rfl, rfl, rfl⟩, ht⟩
  | qsetlimit limit | qnoblock onoff =>
    obtain rfl := Option.some.inj hs
    exact ⟨h.flags ⟨rfl, rfl, rfl, rfl, rfl, rfl, id⟩, ht⟩

def Queue.Opened (q : Queue α) : Prop :=
  (∃ limit msg coalesce, q = qopen limit msg coalesce) ∨ q = qbypass

theorem init_stream (hq : q.Opened) : Stream (init q).pipe := by
  have hempty : q.bfirst = [] ∧ q.len = 0 ∧ q.dlen = 0 := by
    rcases hq with ⟨limit, msg, coalesce, rfl⟩ | rfl <;> exact ⟨rfl, rfl, rfl⟩
  have hlive : (init q).pipe.live = [] := hempty.1
  constructor
  · simp [init, State.pipe, Pipe.live, Reader.held, hempty, InOrder, inbytes, outbytes]
  · simp [init, State.pipe, Pipe.live, Reader.held, hempty, Accounts, inbytes, outbytes]
  · simp [init, State.pipe, Queue.Counted, hempty]
  · simp [init, State.pipe, Queue.Last, hempty]
  · simp [hlive]
  · simp [hlive]
  · simp [init, State.pipe]
  · simp [init, State.pipe]
  · trivial
  · simp [init, State.pipe]
  · intro _
    constructor
    · simp [init, State.pipe, Pipe.live, Reader.held, hempty, InOrder]
    · simp [hlive]
    · simp [init, State.pipe]

theorem init_told (q : Queue α) : Told (init q).book := by
  constructor <;> simp [init, State.book]

theorem run_keeps {acts : List (Act α)} {s' : State α} (h : Stream s.pipe ∧ Told s.book)
    (hrun : run s acts = some s') : Stream s'.pipe ∧ Told s'.book := by
  induction acts generalizing s with
  | nil =>
    obtain rfl := Option.some.inj hrun
    exact h
  | cons a acts ih =>
    rw [run, List.foldlM_cons] at hrun
    obtain ⟨s₁, hstep, hrest⟩ := Option.bind_eq_some_iff.mp hrun
    exact ih (step_keeps h.1 h.2 hstep) hrest

structure Faithful (s : State α) : Prop where
  order : InOrder (inbytes s.log.entered) (outbytes s.log.delivered)
    (bytes s.reader.held ++ bytes s.q.bfirst)
  account : Accounts (inbytes s.log.entered) (outbytes s.log.delivered)
    (bytes s.reader.held ++ bytes s.q.bfirst) s.log.dropped
  complete : s.log.dropped = [] → outbytes s.log.delivered <+: inbytes s.log.entered
  honest : ∀ r ∈ s.log.returned, r.call ∉ s.log.unqueued →
    (s.q.msg = true → r.kind = some .qwrite → r.data.length ≤ Maxatomic) →
    queuedby s.log.entered r.call = r.data.take r.n
  messages : s.q.msg = true → s.q.coalesce = false → s.log.pulled = false →
    ((s.log.delivered.map Delivery.id).Sublist (s.log.entered.map Entry.id) ∧
      (s.log.entered.map Entry.id).Nodup ∧
      ∀ d ∈ s.log.delivered, ∃ e ∈ s.log.entered, e.id = d.id ∧
        ∃ k, d.data <+: e.data.drop k ∧ (s.log.skimmed = false → k = 0))
  counted : s.log.pulled = false →
    s.q.len = blockalloclen s.q.bfirst ∧ s.q.dlen = blocklen s.q.bfirst
  last : ∀ b ∈ s.q.bfirst.getLast?, s.q.blast = b.id
  shut : s.log.shut = true → s.q.closed = true ∧ s.q.bfirst = []

theorem faithful_of (h : Stream s.pipe) (ht : Told s.book) : Faithful s := by
  have horder := h.order
  have haccount := h.account
  simp only [Pipe.live, State.pipe, bytes_append] at horder haccount
  constructor
  · exact horder
  · exact haccount
  · intro hdrop
    rw [hdrop] at haccount
    exact ⟨_, horder.complete haccount⟩
  · exact ht.honest
  · intro hm hc hp
    have hmsg := h.messages ⟨hm, hc, hp⟩
    refine ⟨(List.sublist_append_left _ _).trans hmsg.order, h.entered_nodup, ?_⟩
    intro d hd
    obtain ⟨e, he, hed, m, ⟨k, rfl, hk⟩, hpre⟩ := hmsg.part d hd
    exact ⟨e, he, hed, k, hpre, hk⟩
  · exact h.counted
  · exact h.last
  · exact fun hs => ⟨(h.shut hs).1, (List.append_eq_nil_iff.mp (h.shut hs).2).2⟩

theorem queue_faithful (hq : q.Opened) (acts : List (Act α)) (hrun : run (init q) acts = some s) :
    Faithful s := by
  obtain ⟨hstream, htold⟩ := run_keeps ⟨init_stream hq, init_told q⟩ hrun
  exact faithful_of hstream htold

/-- Three writes of one byte to a nonblocking queue that holds one, the second while
it is full, and a read after the second and the third. -/
def lossyacts : List (Act UInt8) :=
  [.qnoblock true, .qwrite [1], .write 0, .notfull 0, .qwrite [2], .write 1,
    .qread 1, .read, .copied, .qwrite [3], .write 2, .notfull 2, .qread 1, .read, .copied]

theorem lossy_faithful : ∃ s, run (init (qopen 1 false false)) lossyacts = some s ∧ Faithful s :=
  ⟨_, rfl, queue_faithful (.inl ⟨1, false, false, rfl⟩) lossyacts rfl⟩

/-- The second write returns its length, and its byte is never delivered. -/
theorem noblock_loses : ∃ s, run (init (qopen 1 false false)) lossyacts = some s ∧
    s.log.returned.map Report.n = [1, 1, 1] ∧
    ¬ outbytes s.log.delivered <+: s.log.returned.flatMap Report.data :=
  ⟨_, rfl, by decide, by decide⟩

end Infernode.Qio
