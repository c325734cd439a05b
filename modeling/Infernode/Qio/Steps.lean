import Infernode.Qio.Stream

/-!
# Every section keeps the stream

One lemma for each operation, in the order of the readers, the writers and the
operations on the whole queue.
-/

namespace Infernode.Qio
open Infernode.Lib

variable {α : Type*} {s : State α} {p : Pipe α} {q q' : Queue α} {b : Block α}
  {bs gone rest : List (Block α)}

structure Same (q q' : Queue α) : Prop where
  bfirst : q'.bfirst = q.bfirst
  blast : q'.blast = q.blast
  len : q'.len = q.len
  dlen : q'.dlen = q.dlen
  msg : q'.msg = q.msg
  coalesce : q'.coalesce = q.coalesce
  closed : q.closed = true → q'.closed = true

theorem Same.counted (h : Same q q') (hc : q.Counted) : q'.Counted := by
  rw [Queue.Counted, h.bfirst, h.len, h.dlen]
  exact hc

theorem Same.last (h : Same q q') (hl : q.Last) : q'.Last := by
  rw [Queue.Last, h.bfirst, h.blast]
  exact hl

theorem Stream.same {r : Reader α} (h : Stream p) (hs : Same p.q q') (hheld : r.held = p.reader.held)
    (hcopy : Copying p.q.coalesce r) : Stream { p with q := q', reader := r } := by
  have hlive : Pipe.live { p with q := q', reader := r } = p.live := by
    simp only [Pipe.live, hheld, hs.bfirst]
  refine h.quiet (h.kept rfl le_rfl ?_ ?_ ?_ hs.closed ?_ hs.msg hs.coalesce ⟨rfl, rfl, rfl⟩)
    hlive rfl rfl
  · exact fun hp => hs.counted (h.counted hp)
  · exact hs.last h.last
  · rw [hs.coalesce]
    exact hcopy
  · exact fun hp => hlive.trans hp

theorem Stream.flags (h : Stream p) (hs : Same p.q q') : Stream { p with q := q' } :=
  h.same hs rfl h.copying

theorem Stream.idles (h : Stream p) (hs : Same p.q q') (hheld : p.reader.held = []) :
    Stream { p with q := q', reader := .idle } :=
  h.same hs hheld.symm trivial

theorem live_unheld (hheld : s.reader.held = []) : s.pipe.live = s.q.bfirst := by
  simp [Pipe.live, State.pipe, hheld]

theorem Stream.sheds (h : Stream p) (hheld : p.reader.held = []) :
    Stream { p with q := shed p.q.bfirst p.q } := by
  obtain ⟨gone, rest, hbs, hbytes, hshed⟩ := shed_eq (rfl : p.q.bfirst = p.q.bfirst)
  rw [hshed]
  have hlive : p.live = gone ++ rest := by simp [Pipe.live, hheld, hbs]
  have hlive' : Pipe.live { p with q := p.q.without gone rest } = [] ++ rest := by
    simp [Pipe.live, hheld, Queue.without]
  have hk : Kept p { p with q := p.q.without gone rest } := by
    refine h.kept rfl le_rfl (fun hp => (h.counted hp).without hbs) (h.last.without hbs) h.copying
      id ?_ rfl rfl ⟨rfl, rfl, rfl⟩
    intro hnil
    rw [hlive] at hnil
    rw [hlive', (List.append_eq_nil_iff.mp hnil).2]
    rfl
  have hfront : Front p { p with q := p.q.without gone rest } gone [] rest [] [] :=
    { hk with
      live := hlive
      live' := hlive'
      delivered := by simp
      dropped := by simp
      order := by simp [outbytes]
      account := by simp [outbytes, hbytes]
      nodup := by simp
      ids := by simp
      messages := by simp }
  exact h.moves hfront

theorem qget_stream (h : Stream s.pipe) (hheld : s.reader.held = []) : Stream s.qget.pipe := by
  cases hq : s.q.bfirst with
  | nil =>
    simp only [State.qget, Queue.qget, hq]
    exact h.flags ⟨hq.symm, rfl, rfl, rfl, rfl, rfl, id⟩
  | cons b bs =>
    simp only [State.qget, Queue.qget, hq]
    have hlive := (live_unheld hheld).trans hq
    refine h.leaves (h.kept rfl le_rfl ?_ ?_ h.copying id ?_ rfl rfl ⟨rfl, rfl, rfl⟩) hlive ?_ rfl
      (List.append_nil _).symm (List.append_nil _).symm
    · exact fun hp => ((h.counted hp).qremove hq).qwakeup
    · exact (h.last.qremove hq).qwakeup
    · simp [hlive]
    · simp [Pipe.live, State.pipe, hheld, Queue.qwakeup, Queue.restart, Queue.qremove,
        State.deliver]

theorem consume_stream {len : ℕ} (h : Stream ({ s with q := q } : State α).pipe)
    (hheld : s.reader.held = []) :
    Stream (match consume q len with
      | (none, q') => { s with q := q' }
      | (some (id, d), q') =>
        { (s.deliver id d).drop (q.remainder len) with q := q' } : State α).pipe := by
  cases hq : q.bfirst with
  | nil =>
    simp only [consume, hq]
    exact h.flags ⟨hq.symm, rfl, rfl, rfl, rfl, rfl, id⟩
  | cons b bs =>
    have hlive : ({ s with q := q } : State α).pipe.live = b :: bs := by
      simp [Pipe.live, State.pipe, hheld, hq]
    have hnil : ({ s with q := q } : State α).pipe.live = [] → ∀ p' : Pipe α, p'.live = [] := by
      simp [hlive]
    simp only [consume, hq]
    split_ifs with hc
    · refine h.leaves (h.kept rfl le_rfl ?_ ?_ h.copying id (hnil · _) rfl rfl ⟨rfl, rfl, rfl⟩)
        hlive ?_ rfl rfl ?_
      · exact fun hp => ((h.counted hp).qremove hq).qwakeup
      · exact (h.last.qremove hq).qwakeup
      · simp [Pipe.live, State.pipe, hheld, Queue.qwakeup, Queue.restart, Queue.qremove,
          State.deliver, State.drop]
      · simp only [Queue.remainder, hq]
        split_ifs with hm
        · exact (List.take_append_drop len b.data).symm
        · have hlen : b.data.length ≤ len := hc.resolve_left hm
          rw [List.take_of_length_le hlen, List.append_nil]
    · obtain ⟨hm, hlen⟩ := not_or.mp hc
      have hrem : q.remainder len = [] := by simp [Queue.remainder, hq, hm]
      refine h.splits (c := b.advance len) (h.kept rfl le_rfl ?_ ?_ h.copying id (hnil · _) rfl rfl ⟨rfl, rfl, rfl⟩)
        hlive ?_ rfl ?_ ?_ (.inl rfl) ?_
      · exact fun hp => ((h.counted hp).advance hq (by omega)).qwakeup
      · exact (h.last.advance hq _).qwakeup
      · simp only [Pipe.live, State.pipe, State.deliver, State.drop, hheld]
        rfl
      · simp [State.pipe, State.deliver, State.drop, hrem]
      · exact (List.take_append_drop len b.data).symm
      · exact Bool.eq_false_iff.mpr hm

theorem qconsume_stream {len : ℕ} (h : Stream s.pipe) (hheld : s.reader.held = []) :
    Stream (s.qconsume len).pipe :=
  consume_stream (h.sheds hheld) hheld

theorem take_bytes {len : ℕ} (hlen : blocklen gone = len ∨ blocklen gone ≤ len ∧ rest = []) :
    (bytes (gone ++ rest)).take len = bytes gone := by
  rw [bytes_append]
  rcases hlen with rfl | ⟨hle, rfl⟩
  · rw [← bytes_length, List.take_left']
    rfl
  · rw [bytes_nil, List.append_nil, List.take_of_length_le (by rw [bytes_length]; exact hle)]

theorem discards_whole {len : ℕ} (h : Stream p) (hheld : p.reader.held = [])
    (hbs : p.q.bfirst = gone ++ rest)
    (hlen : blocklen gone = len ∨ blocklen gone ≤ len ∧ rest = []) :
    Stream { p with
      q := p.q.without gone rest
      dropped := p.dropped ++ (bytes p.q.bfirst).take len } := by
  have hlive : p.live = gone ++ rest := by simp [Pipe.live, hheld, hbs]
  have hlive' : Pipe.live { p with
      q := p.q.without gone rest
      dropped := p.dropped ++ (bytes p.q.bfirst).take len } = [] ++ rest := by
    simp [Pipe.live, hheld, Queue.without]
  have hk : Kept p { p with
      q := p.q.without gone rest
      dropped := p.dropped ++ (bytes p.q.bfirst).take len } := by
    refine h.kept rfl le_rfl (fun hp => (h.counted hp).without hbs) (h.last.without hbs) h.copying
      id ?_ rfl rfl ⟨rfl, rfl, rfl⟩
    intro hnil
    rw [hlive] at hnil
    rw [hlive', (List.append_eq_nil_iff.mp hnil).2]
    rfl
  have hfront : Front p _ gone [] rest [] (bytes gone) :=
    { hk with
      live := hlive
      live' := hlive'
      delivered := by simp
      dropped := by rw [hbs, take_bytes hlen]
      order := by simp [outbytes]
      account := by simp [outbytes]
      nodup := by simp
      ids := by simp
      messages := by simp }
  exact h.moves hfront

theorem discards_part {k : ℕ} (h : Stream p) (hheld : p.reader.held = [])
    (hbs : p.q.bfirst = gone ++ b :: rest) (hk : k < b.BLEN) :
    Stream { p with
      q := { p.q.without gone (b.advance k :: rest) with dlen := p.q.dlen - blocklen gone - k }
      dropped := p.dropped ++ (bytes p.q.bfirst).take (blocklen gone + k)
      skimmed := true } := by
  have hlive : p.live = (gone ++ [b]) ++ rest := by simp [Pipe.live, hheld, hbs]
  have hbs' : (p.q.without gone (b :: rest)).bfirst = b :: rest := rfl
  have htake : (bytes p.q.bfirst).take (blocklen gone + k) = bytes gone ++ b.data.take k := by
    have hlen : (bytes gone).length = blocklen gone := bytes_length gone
    rw [hbs, bytes_append, bytes_cons, ← hlen, List.take_length_add_append,
      List.take_append_of_le_length (le_of_lt hk)]
  have hfront : Front p
      { p with
        q := { p.q.without gone (b.advance k :: rest) with dlen := p.q.dlen - blocklen gone - k }
        dropped := p.dropped ++ (bytes p.q.bfirst).take (blocklen gone + k)
        skimmed := true }
      (gone ++ [b]) [b.advance k] rest [] (bytes gone ++ b.data.take k) :=
    { entered := rfl
      fresh := le_rfl
      counted := fun hp => by
        have hc := ((h.counted hp).without hbs).advance hbs' hk.le
        exact hc
      last := Queue.Last.advance (h.last.without hbs) hbs' _
      copying := h.copying
      shut := fun hs => by simpa [hlive] using (h.shut hs).2
      plain := id
      skimmed := by simp
      live := hlive
      live' := by simp [Pipe.live, hheld, Queue.without]
      delivered := by simp
      dropped := by simp only [htake]
      order := by
        simp only [outbytes, List.flatMap_nil, List.nil_append, bytes_append, bytes_cons, bytes_nil,
          List.append_nil, Block.advance]
        exact (List.drop_sublist k b.data).trans (List.sublist_append_right _ _)
      account := by
        simp only [outbytes, List.flatMap_nil, List.nil_append, bytes_append, bytes_cons, bytes_nil,
          List.append_nil, Block.advance]
        calc bytes gone ++ b.data = bytes gone ++ b.data.take k ++ b.data.drop k := by
              rw [List.append_assoc, List.take_append_drop]
          _ |>.Perm (b.data.drop k ++ (bytes gone ++ b.data.take k)) := List.perm_append_comm
      nodup := by simp
      ids := by simp [Block.advance]
      messages := fun _ => by
        refine ⟨by simp [Block.advance], by simp, ?_⟩
        intro c hc
        obtain rfl : c = b.advance k := by simpa using hc
        exact ⟨b, by simp, rfl, k, rfl, by simp⟩ }
  exact h.moves hfront

theorem qdiscard_stream {len : ℕ} (h : Stream s.pipe) (hheld : s.reader.held = []) :
    Stream (s.qdiscard len).pipe := by
  have hflow : ∀ q : Queue α, Same q (q.restart q.limit) :=
    fun q => ⟨rfl, rfl, rfl, rfl, rfl, rfl, id⟩
  rcases discardloop_eq len (rfl : s.q.bfirst = s.q.bfirst) with
    ⟨gone, rest, hbs, hlen, hloop, hcut⟩ | ⟨gone, b, rest, k, hbs, rfl, hk, hloop, hcut⟩
  · have hs := (discards_whole h hheld hbs hlen).flags (hflow _)
    simp only [State.qdiscard, Queue.qdiscard, hloop, hcut, Bool.or_false]
    exact hs
  · have hs := (discards_part h hheld hbs hk).flags (hflow _)
    simp only [State.qdiscard, Queue.qdiscard, hloop, hcut, Bool.or_true]
    exact hs

theorem qwait_cons (hq : q.bfirst = b :: bs) : q.qwait = (.data, q) := by
  simp [Queue.qwait, hq]

theorem qwait_nil (hq : q.bfirst = []) : q.qwait.1 ≠ .data ∧ Same q q.qwait.2 := by
  simp only [Queue.qwait, hq]
  split_ifs
  · exact ⟨by simp, hq.symm, rfl, rfl, rfl, rfl, rfl, id⟩
  · exact ⟨by simp, hq.symm, rfl, rfl, rfl, rfl, rfl, id⟩
  · exact ⟨by simp, hq.symm, rfl, rfl, rfl, rfl, rfl, id⟩

theorem shed_stream (h : Stream s.pipe) (hheld : s.reader.held = []) :
    Stream ({ s with q := if s.q.coalesce then shed s.q.bfirst s.q else s.q } : State α).pipe := by
  split_ifs
  · exact h.sheds hheld
  · exact h

theorem qread_stream {len : ℕ} (h : Stream s.pipe) (hheld : s.reader.held = []) :
    Stream (s.qread len).pipe := by
  have hshed := shed_stream h hheld
  rw [State.qread]
  generalize (if s.q.coalesce then shed s.q.bfirst s.q else s.q) = q at hshed ⊢
  cases hq : q.bfirst with
  | nil =>
    obtain ⟨hdata, hsame⟩ := qwait_nil hq
    obtain ⟨r, q', hwait⟩ : ∃ r q', q.qwait = (r, q') := ⟨_, _, rfl⟩
    rw [hwait] at hdata hsame
    simp only [hwait]
    cases r with
    | data => exact absurd rfl hdata
    | closed | failed => exact hshed.idles hsame hheld
    | sleep => exact hshed.flags hsame
  | cons b bs =>
    obtain ⟨first, rest, hbs, htake, hfit, hone⟩ := take_eq len hq
    have hbs' := hq.trans hbs
    have hne : first ≠ [] := by
      rcases hfit with ⟨-, hne⟩ | rfl
      · exact hne
      · simp
    simp only [qwait_cons hq, htake]
    have hlive : ({ s with q := q } : State α).pipe.live = first ++ rest := by
      simpa [Pipe.live, State.pipe, hheld] using hbs'
    refine hshed.quiet (hshed.kept rfl le_rfl ?_ ?_ ?_ id ?_ rfl rfl ⟨rfl, rfl, rfl⟩) ?_ rfl rfl
    · exact fun hp => (hshed.counted hp).without hbs'
    · exact hshed.last.without hbs'
    · refine ⟨rfl, ?_, fun hc => ⟨b, hone hc⟩⟩
      exact hfit.imp id (fun hb => ⟨b, hb⟩)
    · simp [hlive, hne]
    · exact hlive.symm

theorem copied_fits {first : List (Block α)} {len : ℕ} (h : Stream s.pipe)
    (hr : s.reader = .copying first (blocklen first) len) (hfit : blocklen first ≤ len)
    (hne : first ≠ []) (hone : s.q.coalesce = false → ∃ b, first = [b]) :
    Stream (s.copied first (blocklen first) len).pipe := by
  have hlive : s.pipe.live = first ++ s.q.bfirst := by
    simp only [Pipe.live, State.pipe, hr, Reader.held]
  have htake : (bytes first).take (blocklen first) = bytes first :=
    List.take_of_length_le (by rw [bytes_length])
  obtain ⟨b, bs, rfl⟩ := List.exists_cons_of_ne_nil hne
  simp only [State.copied, bl2mem_fits hfit, Queue.copied, htake, bytes_nil, ite_self]
  have hk : Kept s.pipe (State.pipe
      { (s.deliver b.id (bytes (b :: bs))).drop [] with
        q := s.q.qwakeup
        reader := .idle }) :=
    h.kept rfl le_rfl (fun hp => (h.counted hp).qwakeup) h.last.qwakeup trivial id
      (fun hnil => by simp [hlive] at hnil) rfl rfl ⟨rfl, rfl, rfl⟩
  have hfront : Front s.pipe _ (b :: bs) [] s.q.bfirst [⟨b.id, bytes (b :: bs)⟩] [] :=
    { hk with
      live := hlive
      live' := rfl
      delivered := rfl
      dropped := by simp [State.pipe, State.drop, State.deliver]
      order := by simp [outbytes]
      account := by simp [outbytes]
      nodup := by simp
      ids := by simp
      messages := fun hp => by
        obtain ⟨c, hc⟩ := hone hp.2.1
        obtain ⟨rfl, rfl⟩ := List.cons.inj hc
        simp }
  exact h.moves hfront

theorem copied_short {len : ℕ} (h : Stream s.pipe) (hr : s.reader = .copying [b] b.BLEN len)
    (hlt : len < b.BLEN) : Stream (s.copied [b] b.BLEN len).pipe := by
  have hlive : s.pipe.live = b :: s.q.bfirst := by
    simp [Pipe.live, State.pipe, hr, Reader.held]
  have hnil : s.pipe.live = [] → ∀ p' : Pipe α, p'.live = [] := by simp [hlive]
  have hn : b.BLEN - (b.advance len).BLEN = len := by
    rw [BLEN_advance]
    omega
  simp only [State.copied, bl2mem_part hlt, Queue.copied, hn, List.take_take, min_self]
  by_cases hm : s.q.msg = true
  · simp only [hm, if_true, qwakeup_msg]
    refine h.leaves (d := b.data.take len) (h.kept rfl le_rfl ?_ ?_ trivial id (hnil · _) rfl rfl
      ⟨rfl, rfl, rfl⟩) hlive rfl rfl rfl ?_
    · exact fun hp => (h.counted hp).qwakeup
    · exact h.last.qwakeup
    · simp [Block.advance]
  · simp only [hm, qwakeup_msg]
    refine h.splits (c := b.advance len) (h.kept rfl le_rfl ?_ ?_ trivial id (hnil · _) rfl rfl
      ⟨rfl, rfl, rfl⟩) hlive rfl rfl ?_ ?_ (.inl rfl) (Bool.eq_false_iff.mpr hm)
    · exact fun hp => ((h.counted hp).qputback _).qwakeup
    · exact (h.last.qputback _).qwakeup
    · simp [State.pipe, State.drop, State.deliver, hm]
    · exact (List.take_append_drop len b.data).symm

theorem copied_stream {first : List (Block α)} {n len : ℕ} (h : Stream s.pipe)
    (hr : s.reader = .copying first n len) : Stream (s.copied first n len).pipe := by
  have hcopy := h.copying
  simp only [State.pipe, hr, Copying] at hcopy
  obtain ⟨rfl, ⟨hfit, hne⟩ | ⟨b, rfl⟩, hone⟩ := hcopy
  · exact copied_fits h hr hfit hne hone
  · have hlen : blocklen [b] = b.BLEN := by simp
    rw [hlen] at hr ⊢
    rcases lt_or_ge len b.BLEN with hlt | hge
    · exact copied_short h hr hlt
    · rw [← hlen] at hr hge ⊢
      exact copied_fits h hr hge (by simp) hone

theorem qbread_stream {len : ℕ} (h : Stream s.pipe) (hheld : s.reader.held = []) :
    Stream (s.qbread len).pipe := by
  rw [State.qbread]
  cases hq : s.q.bfirst with
  | nil =>
    obtain ⟨hdata, hsame⟩ := qwait_nil hq
    obtain ⟨r, q', hwait⟩ : ∃ r q', s.q.qwait = (r, q') := ⟨_, _, rfl⟩
    rw [hwait] at hdata hsame
    simp only [hwait]
    cases r with
    | data => exact absurd rfl hdata
    | closed | failed => exact h.idles hsame hheld
    | sleep => exact h.flags hsame
  | cons b bs =>
    have hlive := (live_unheld hheld).trans hq
    have hnil : s.pipe.live = [] → ∀ p' : Pipe α, p'.live = [] := by simp [hlive]
    simp only [qwait_cons hq, Queue.qbread, hq]
    by_cases hlt : len < b.BLEN
    · simp only [hlt, if_true]
      by_cases hm : s.q.msg = true
      · simp only [hm, if_true]
        refine h.leaves (h.kept rfl (Nat.le_succ _) ?_ ?_ trivial id (hnil · _) rfl rfl
          ⟨rfl, rfl, rfl⟩) hlive rfl rfl rfl ?_
        · exact fun hp => ((h.counted hp).qremove hq).qwakeup
        · exact (h.last.qremove hq).qwakeup
        · simp [Queue.remainder, hq, hm, Block.cut]
      · simp only [hm]
        refine h.splits (c := allocb s.fresh (b.data.drop len)) (h.kept rfl (Nat.le_succ _) ?_ ?_
          trivial id (hnil · _) rfl rfl ⟨rfl, rfl, rfl⟩) hlive rfl rfl ?_ ?_ (.inr ⟨?_, ?_⟩) ?_
        · exact fun hp => (((h.counted hp).qremove hq).qputback _).qwakeup
        · exact ((h.last.qremove hq).qputback _).qwakeup
        · simp [State.pipe, State.drop, State.deliver, Queue.remainder, hq, hm]
        · simp [allocb, Block.cut]
        · exact le_rfl
        · exact Nat.lt_succ_self _
        · exact Bool.eq_false_iff.mpr hm
    · simp only [hlt, if_false]
      refine h.leaves (h.kept rfl (Nat.le_succ _) ?_ ?_ trivial id (hnil · _) rfl rfl
        ⟨rfl, rfl, rfl⟩) hlive rfl rfl rfl ?_
      · exact fun hp => ((h.counted hp).qremove hq).qwakeup
      · exact (h.last.qremove hq).qwakeup
      · have hdrop : b.data.drop len = [] := List.drop_of_length_le (not_lt.mp hlt)
        simp [Queue.remainder, hq, hdrop]

theorem lastid_last (blast : ℕ) (bs : List (Block α)) (hb : b ∈ bs.getLast?) :
    lastid blast bs = b.id := by
  rw [lastid, Option.mem_def.mp hb]
  rfl

theorem pullupqueue_stream {n : ℕ} (h : Stream s.pipe) (hheld : s.reader.held = [])
    (hq : s.q.bfirst = b :: bs) : Stream (s.pullupqueue b bs n).pipe := by
  rw [State.pullupqueue]
  split_ifs with hn
  · rw [Queue.pullupqueue, if_pos hn]
    exact h
  · simp only [Queue.pullupqueue, if_neg hn]
    have hlive := (live_unheld hheld).trans hq
    have hids := h.nodup
    have hbelow := h.below
    rw [hlive] at hids hbelow
    have hfront : Front s.pipe (State.pipe
        { s.drop (if (pullupblock s.fresh b bs n).isEmpty then bytes s.q.bfirst else []) with
          q := { s.q with
            bfirst := pullupblock s.fresh b bs n
            blast := lastid 0 (pullupblock s.fresh b bs n) }
          fresh := s.fresh + 1
          log := { s.log with
            dropped := s.log.dropped ++
              if (pullupblock s.fresh b bs n).isEmpty then bytes s.q.bfirst else []
            pulled := true } })
        (b :: bs) (pullupblock s.fresh b bs n) [] []
        (if (pullupblock s.fresh b bs n).isEmpty then bytes s.q.bfirst else []) :=
      { entered := rfl
        fresh := Nat.le_succ _
        counted := by simp [State.pipe]
        last := fun c hc => lastid_last 0 _ hc
        copying := h.copying
        shut := fun hs => by simpa [hlive] using (h.shut hs).2
        plain := fun hp => by simp [Pipe.Plain, State.pipe] at hp
        skimmed := id
        live := by simpa using hlive
        live' := by simp [Pipe.live, State.pipe, State.drop, hheld]
        delivered := by simp [State.pipe, State.drop]
        dropped := rfl
        order := by
          rcases pullupblock_eq s.fresh b bs n with hnil | ⟨hbytes, -⟩
          · simp [hnil, outbytes]
          · simp [hbytes, outbytes]
        account := by
          rcases pullupblock_eq s.fresh b bs n with hnil | ⟨hbytes, -⟩
          · simp [hnil, outbytes, hq]
          · split_ifs with he
            · have hnil := List.isEmpty_iff.mp he
              simp [hnil, outbytes, hq]
            · simp [hbytes, outbytes]
        nodup := by
          rcases pullupblock_eq s.fresh b bs n with hnil | ⟨-, hsub⟩
          · simp [hnil]
          · refine hsub.nodup (List.nodup_cons.mpr ⟨?_, hids⟩)
            intro hmem
            rw [← List.map_cons] at hmem
            obtain ⟨c, hc, hcid⟩ := List.mem_map.mp hmem
            have hlt : c.id < s.fresh := hbelow c hc
            omega
        ids := by
          intro c hc
          rcases pullupblock_eq s.fresh b bs n with hnil | ⟨-, hsub⟩
          · simp [hnil] at hc
          · have hmem := hsub.subset (List.mem_map_of_mem hc)
            rcases List.mem_cons.mp hmem with hid | hmem
            · exact .inr ⟨hid.ge, by simp only [State.pipe, hid]; omega⟩
            · exact .inl hmem
        messages := fun hp => by simp [Pipe.Plain, State.pipe] at hp }
    exact h.moves hfront

theorem Stream.queues {w : ℕ} (h : Stream s.pipe) (hs : Same (s.q.qaddlist bs) q)
    (hids : bs.map Block.id = List.range' s.fresh bs.length) (hshut : s.log.shut = false) :
    Stream (({ s with q := q } : State α).enter w bs).pipe := by
  have hnodup : (s.q.bfirst.map Block.id).Nodup := by
    have hlive := h.nodup
    rw [Pipe.live, List.map_append] at hlive
    exact hlive.of_append_right
  have henters : Enters s.pipe (({ s with q := q } : State α).enter w bs).pipe w bs :=
    { bfirst := hs.bfirst.trans (qaddlist_bfirst h.last hnodup)
      reader := rfl
      fresh := rfl
      entered := rfl
      delivered := rfl
      dropped := rfl
      ids := hids
      counted := fun hp => hs.counted ((h.counted hp).qaddlist h.last hnodup)
      last := hs.last (h.last.qaddlist hnodup)
      coalesce := hs.coalesce
      shut := hshut
      plain := fun hp => ⟨hs.msg ▸ hp.1, hs.coalesce ▸ hp.2.1, hp.2.2⟩
      skimmed := rfl }
  exact h.enters henters

theorem Stream.not_shut (h : Stream s.pipe) (hc : s.q.closed = false) : s.log.shut = false := by
  by_contra hs
  have hclosed := (h.shut (Bool.not_eq_false _ ▸ hs)).1
  rw [show s.pipe.q.closed = s.q.closed from rfl, hc] at hclosed
  exact Bool.noConfusion hclosed

theorem Stream.opens (h : Stream s.pipe) (hs : s.q.bfirst = q.bfirst ∧ s.q.blast = q.blast ∧
    s.q.len = q.len ∧ s.q.dlen = q.dlen ∧ s.q.msg = q.msg ∧ s.q.coalesce = q.coalesce) :
    Stream ({ s with q := q, log := { s.log with shut := false } } : State α).pipe := by
  obtain ⟨hb, hl, hlen, hdlen, hm, hc⟩ := hs
  have hsame : Same s.q { q with closed := s.q.closed } :=
    ⟨hb.symm, hl.symm, hlen.symm, hdlen.symm, hm.symm, hc.symm, id⟩
  have hlive : ({ s with q := q, log := { s.log with shut := false } } : State α).pipe.live =
      s.pipe.live := by
    simp [Pipe.live, State.pipe, hb]
  refine h.quiet ⟨rfl, le_rfl, fun hp => ?_, ?_, ?_, fun hs => ?_, fun hp => ?_, id⟩ hlive rfl rfl
  · exact hsame.counted (h.counted hp)
  · exact hsame.last h.last
  · have hcopy := h.copying
    simp only [State.pipe, hc] at hcopy
    exact hcopy
  · exact absurd hs (by simp [State.pipe])
  · exact ⟨hm.trans hp.1, hc.trans hp.2.1, hp.2.2⟩

theorem block_ids (c : Call α) (id : ℕ) :
    [c.block id].map Block.id = List.range' id [c.block id].length := by
  simp only [Call.block]
  split <;> rfl

theorem qbwrite_stream {w : ℕ} {c : Call α} {s' : State α} (h : Stream s.pipe)
    (hs : s.qbwrite w c = some s') : Stream s'.pipe := by
  simp only [State.qbwrite, Queue.qbwrite] at hs
  by_cases hbypass : s.q.bypass = true
  · simp only [hbypass, if_true, Option.some.injEq] at hs
    subst hs
    rw [pipe_next]
    exact h
  · simp only [hbypass, Bool.false_eq_true, if_false] at hs
    split_ifs at hs with hw hclosed hlimit
    · obtain rfl := Option.some.inj hs
      exact h
    · obtain rfl := Option.some.inj hs
      rw [pipe_next]
      exact h
    · obtain rfl := Option.some.inj hs
      rw [pipe_setcall]
      exact h.queues (s := { s with wlock := some w }) ⟨rfl, rfl, rfl, rfl, rfl, rfl, id⟩
        (block_ids c s.fresh) (h.not_shut (Bool.eq_false_iff.mpr hclosed))

theorem qiwrite_stream {w : ℕ} {c : Call α} (h : Stream s.pipe) :
    Stream (s.qiwrite w c).pipe := by
  simp only [State.qiwrite, Queue.qiwrite]
  by_cases hbypass : s.q.bypass = true
  · simp only [hbypass, if_true, pipe_next]
    exact h
  · simp only [hbypass, Bool.false_eq_true, if_false, pipe_next]
    have hopen := h.opens (q := s.q) ⟨rfl, rfl, rfl, rfl, rfl, rfl⟩
    exact hopen.queues ⟨rfl, rfl, rfl, rfl, rfl, rfl, id⟩ (block_ids c s.fresh) rfl

theorem write_stream {w : ℕ} {c : Call α} {s' : State α} (h : Stream s.pipe)
    (hs : s.write w c = some s') : Stream s'.pipe := by
  rw [State.write] at hs
  split at hs
  · obtain rfl := Option.some.inj hs
    exact qiwrite_stream h
  · exact qbwrite_stream h hs

theorem placed_ids (id : ℕ) (bs : List (Block α)) :
    (placed id bs).map Block.id = List.range' id (placed id bs).length := by
  induction bs generalizing id with
  | nil => rfl
  | cons b bs ih =>
    rw [placed, List.map_cons, ih, List.length_cons, List.range'_succ]

theorem qpass_stream (h : Stream s.pipe) : Stream (s.qpass bs).pipe := by
  simp only [State.qpass, Queue.qpass]
  by_cases hlimit : s.q.limit ≤ s.q.len
  · simp only [hlimit, if_true]
    exact h
  · by_cases hclosed : s.q.closed = true
    · simp only [hlimit, hclosed, if_true, if_false]
      exact h
    · simp only [hlimit, hclosed, Bool.false_eq_true, if_false]
      exact h.queues (s := { s with calls := s.calls + 1 }) ⟨rfl, rfl, rfl, rfl, rfl, rfl, id⟩
        (placed_ids _ _) (h.not_shut (Bool.eq_false_iff.mpr hclosed))

theorem qproduce_stream {data : List α} (h : Stream s.pipe) : Stream (s.qproduce data).pipe := by
  simp only [State.qproduce, Queue.qproduce]
  by_cases hclosed : s.q.closed = true
  · simp only [hclosed, if_true]
    exact h
  · by_cases hlimit : s.q.limit ≤ s.q.len
    · simp only [hlimit, hclosed, Bool.false_eq_true, if_true, if_false]
      exact h.flags ⟨rfl, rfl, rfl, rfl, rfl, rfl, fun hc => absurd hc hclosed⟩
    · simp only [hlimit, hclosed, Bool.false_eq_true, if_false]
      exact h.queues (s := { s with calls := s.calls + 1 }) ⟨rfl, rfl, rfl, rfl, rfl, rfl, id⟩
        rfl (h.not_shut (Bool.eq_false_iff.mpr hclosed))

theorem empties_stream {b : Bool} (h : Stream s.pipe) (hq : q.bfirst = [])
    (hcount : q.len = 0 ∧ q.dlen = 0) (hmsg : q.msg = s.q.msg) (hcoalesce : q.coalesce = s.q.coalesce)
    (hshut : b = true → q.closed = true ∧ s.reader.held = []) :
    Stream { s.pipe with
      q := q, dropped := s.log.dropped ++ bytes s.q.bfirst, shut := b } := by
  have hfront : Front s.pipe
      { s.pipe with q := q, dropped := s.log.dropped ++ bytes s.q.bfirst, shut := b }
      (s.reader.held ++ s.q.bfirst) s.reader.held [] [] (bytes s.q.bfirst) :=
    { entered := rfl
      fresh := le_rfl
      counted := fun _ => by simp [Queue.Counted, hq, hcount]
      last := by simp [Queue.Last, hq]
      copying := by
        rw [hcoalesce]
        exact h.copying
      shut := fun hs => ⟨(hshut hs).1, by simp [Pipe.live, State.pipe, hq, (hshut hs).2]⟩
      plain := fun ⟨hm, hc, hp⟩ => ⟨hmsg ▸ hm, hcoalesce ▸ hc, hp⟩
      skimmed := id
      live := by simp [Pipe.live, State.pipe]
      live' := by simp [Pipe.live, State.pipe, hq]
      delivered := by simp
      dropped := rfl
      order := by simp [outbytes]
      account := by simp [outbytes]
      nodup := by
        have hnodup := h.nodup
        rw [Pipe.live, List.map_append] at hnodup
        exact hnodup.of_append_left
      ids := fun b hb => .inl (List.mem_map_of_mem (by simp [hb]))
      messages := fun _ => by
        refine ⟨by simp, by simp, ?_⟩
        exact fun c hc => ⟨c, by simp [hc], rfl, Left.refl _ _⟩ }
  exact h.moves hfront

end Infernode.Qio
