import Infernode.Qio.Steps

/-!
# Sleeping on a queue

A reader or a writer asks to be woken in one section under the queue's lock and
tests whether to sleep in another, without it: `Sleep` looks again before it sleeps,
and a wake-up that comes before that is not remembered. The section that lets a
sleeper go decides it under the lock and calls `Wakeup` after it.
-/

namespace Infernode.Qio

variable {α : Type*}

def Queue.qpassnolim (q : Queue α) (bs : List (Block α)) : Queued × Queue α :=
  if q.closed then (.freed, q)
  else
    let q' := q.qaddlist bs
    (.queued,
      { q' with flow := q'.flow || decide (q'.limit.tdiv 2 ≤ q'.len), starve := false })

def Queue.notempty (q : Queue α) : Bool :=
  q.closed || !q.bfirst.isEmpty

namespace Wakeups

inductive Op
  | qread (len : ℕ)
  | qbread (len : ℕ)
  deriving DecidableEq

inductive Rd (α : Type*)
  | idle
  | enter (op : Op)
  | check (op : Op)
  | asleep (op : Op)
  | copying (first : List (Block α)) (n len : ℕ)

inductive Wr
  | idle
  | loop
  | full
  | check
  | asleep
  deriving DecidableEq

def Rd.held : Rd α → List (Block α)
  | .copying first _ _ => first
  | _ => []

def Rd.copies : Rd α → Bool
  | .copying _ _ _ => true
  | _ => false

def Rd.checks : Rd α → Bool
  | .check _ => true
  | _ => false

def Rd.sleeps : Rd α → Bool
  | .asleep _ => true
  | _ => false

structure Sync (α : Type*) where
  q : Queue α
  fresh : ℕ
  rd : Rd α
  wr : Wr
  rrwake : ℕ
  wrwake : ℕ

inductive Act (α : Type*)
  | enter (op : Op)
  | read
  | copied
  | rsleep
  | rwakeup
  | rintr
  | qget
  | qconsume (len : ℕ)
  | qdiscard (len : ℕ)
  | qflush
  | qbwrite (b : Block α)
  | test
  | setflow
  | wsleep
  | wwakeup
  | wintr
  | qiwrite (b : Block α)
  | qproduce (data : List α)
  | qpass (bs : List (Block α))
  | qpassnolim (bs : List (Block α))
  | qhangup (msg : String)
  | qclose
  | qreopen
  | qsetlimit (limit : ℤ)
  | qnoblock (onoff : Bool)

def init (q : Queue α) : Sync α :=
  ⟨q, 0, .idle, .idle, 0, 0⟩

def Sync.sect (s : Sync α) (q : Queue α) : Sync α :=
  { s with
    q
    rrwake := s.rrwake + (if s.q.starve && !q.starve then 1 else 0)
    wrwake := s.wrwake + (if s.q.flow && !q.flow then 1 else 0) }

def Sync.add (s : Sync α) (n : ℕ) (q : Queue α) : Sync α :=
  { s.sect q with fresh := s.fresh + n }

def Sync.qread (s : Sync α) (len : ℕ) : Sync α :=
  let q := if s.q.coalesce then shed s.q.bfirst s.q else s.q
  match q.qwait with
  | (.data, q) =>
    let (first, n, q) := q.take len
    { s.sect q with rd := .copying first n len }
  | (.sleep, q) => { s.sect q with rd := .check (.qread len) }
  | (_, q) => { s.sect q with rd := .idle }

def Sync.qbread (s : Sync α) (len : ℕ) : Sync α :=
  match s.q.qwait with
  | (.data, q) => { s.add 1 (q.qbread len s.fresh).2 with rd := .idle }
  | (.sleep, q) => { s.sect q with rd := .check (.qbread len) }
  | (_, q) => { s.sect q with rd := .idle }

def step (s : Sync α) : Act α → Option (Sync α)
  | .enter op =>
    match s.rd with
    | .idle => some { s with rd := .enter op }
    | _ => none
  | .read =>
    match s.rd with
    | .enter (.qread len) => some (s.qread len)
    | .enter (.qbread len) => some (s.qbread len)
    | _ => none
  | .copied =>
    match s.rd with
    | .copying first n len =>
      some { s.sect (s.q.copied n (bl2mem len first).2).2 with rd := .idle }
    | _ => none
  | .rsleep =>
    match s.rd with
    | .check op => some { s with rd := if s.q.notempty then .enter op else .asleep op }
    | _ => none
  | .rwakeup =>
    if s.rrwake = 0 then none
    else
      let s := { s with rrwake := s.rrwake - 1 }
      match s.rd with
      | .asleep op => some { s with rd := .enter op }
      | _ => some s
  | .rintr =>
    match s.rd with
    | .check _ => some { s with rd := .idle }
    | .asleep _ => some { s with rd := .idle }
    | _ => none
  | .qget => some (s.sect s.q.qget.2)
  | .qconsume len => some (s.sect (s.q.qconsume len).2)
  | .qdiscard len => some (s.sect (s.q.qdiscard len))
  | .qflush => some { s with q := s.q.qflush, wrwake := s.wrwake + 1 }
  | .qbwrite b =>
    match s.wr with
    | .idle =>
      match s.q.qbwrite { b with id := s.fresh } with
      | (.queued, q) => some { s.add 1 q with wr := .loop }
      | _ => some s
    | _ => none
  | .test =>
    match s.wr with
    | .loop => some { s with wr := if s.q.noblock || s.q.qnotfull then .idle else .full }
    | _ => none
  | .setflow =>
    match s.wr with
    | .full => some { s with q := { s.q with flow := true }, wr := .check }
    | _ => none
  | .wsleep =>
    match s.wr with
    | .check => some { s with wr := if s.q.qnotfull then .loop else .asleep }
    | _ => none
  | .wwakeup =>
    if s.wrwake = 0 then none
    else
      let s := { s with wrwake := s.wrwake - 1 }
      match s.wr with
      | .asleep => some { s with wr := .loop }
      | _ => some s
  | .wintr =>
    match s.wr with
    | .check => some { s with wr := .idle }
    | .asleep => some { s with wr := .idle }
    | _ => none
  | .qiwrite b => some (s.add 1 (s.q.qiwrite { b with id := s.fresh }).2)
  | .qproduce data => some (s.add 1 (s.q.qproduce (allocb s.fresh data)).2)
  | .qpass bs =>
    if bs.isEmpty then none else some (s.add bs.length (s.q.qpass (placed s.fresh bs)).2)
  | .qpassnolim bs =>
    if bs.isEmpty then none else some (s.add bs.length (s.q.qpassnolim (placed s.fresh bs)).2)
  | .qhangup msg =>
    some { s with q := s.q.qhangup msg, rrwake := s.rrwake + 1, wrwake := s.wrwake + 1 }
  | .qclose => some { s with q := s.q.qclose, rrwake := s.rrwake + 1, wrwake := s.wrwake + 1 }
  | .qreopen => some { s with q := s.q.qreopen }
  | .qsetlimit limit => some { s with q := { s.q with limit } }
  | .qnoblock onoff => some { s with q := { s.q with noblock := onoff } }

def run (s : Sync α) (acts : List (Act α)) : Option (Sync α) :=
  acts.foldlM step s

/-- No wake-up is lost: a sleeper for whom none is issued has its flag set, and nothing
to wait for. A reader that copies has yet to decide on the writers' wake-up. -/
structure Kept (s : Sync α) : Prop where
  reader : s.rd.sleeps → s.rrwake = 0 →
    s.q.bfirst = [] ∧ s.q.closed = false ∧ s.q.starve = true
  writer : s.wr = .asleep → s.wrwake = 0 →
    s.q.closed = false ∧ s.q.flow = true ∧ (s.q.bfirst = [] → s.rd.copies)

section Laid
variable {q q' : Queue α} {b : Block α} {bs held gone rest : List (Block α)} {n k : ℕ}

structure Laid (q : Queue α) (held : List (Block α)) (n : ℕ) : Prop where
  counted : q.Counted
  last : q.Last
  ids : ((held ++ q.bfirst).map Block.id).Nodup
  fresh : ∀ i ∈ (held ++ q.bfirst).map Block.id, i < n

theorem Laid.same (h : Laid q held n) (hs : Same q q') : Laid q' held n := by
  refine ⟨hs.counted h.counted, hs.last h.last, ?_, ?_⟩
  · rw [hs.bfirst]
    exact h.ids
  · rw [hs.bfirst]
    exact h.fresh

theorem Laid.sublist (h : Laid q held n) (hc : q'.Counted) (hl : q'.Last)
    {held' : List (Block α)}
    (hsub : ((held' ++ q'.bfirst).map Block.id).Sublist ((held ++ q.bfirst).map Block.id)) :
    Laid q' held' n :=
  ⟨hc, hl, h.ids.sublist hsub, fun i hi => h.fresh i (hsub.subset hi)⟩

theorem Laid.without (h : Laid q held n) (hq : q.bfirst = gone ++ rest) :
    Laid (q.without gone rest) held n := by
  refine h.sublist (h.counted.without hq) (h.last.without hq) ?_
  rw [hq]
  exact ((List.sublist_append_right gone rest).append_left held).map Block.id

theorem Laid.take (h : Laid q [] n) (hq : q.bfirst = gone ++ rest) :
    Laid (q.without gone rest) gone n := by
  refine h.sublist (h.counted.without hq) (h.last.without hq) ?_
  rw [hq]
  exact List.Sublist.refl _

theorem Laid.drop (h : Laid q held n) : Laid q [] n :=
  h.sublist h.counted h.last ((List.sublist_append_right held q.bfirst).map Block.id)

theorem Laid.add (h : Laid q held n) (hbs : bs.map Block.id = List.range' n bs.length) :
    Laid (q.qaddlist bs) held (n + bs.length) := by
  have hnodup : (q.bfirst.map Block.id).Nodup :=
    h.ids.sublist ((List.sublist_append_right held q.bfirst).map Block.id)
  have hids : ((held ++ (q.qaddlist bs).bfirst).map Block.id) =
      (held ++ q.bfirst).map Block.id ++ List.range' n bs.length := by
    rw [qaddlist_bfirst h.last hnodup, ← List.append_assoc, List.map_append, hbs]
  refine ⟨h.counted.qaddlist h.last hnodup, h.last.qaddlist hnodup, ?_, fun i hi => ?_⟩
  · rw [hids, List.nodup_append]
    refine ⟨h.ids, List.nodup_range', fun i hi j hj => ?_⟩
    have := h.fresh i hi
    have := (List.mem_range'_1.1 hj).1
    omega
  · rw [hids, List.mem_append] at hi
    rcases hi with hi | hi
    · exact Nat.lt_add_right _ (h.fresh i hi)
    · exact (List.mem_range'_1.1 hi).2

theorem Laid.more (h : Laid q held n) (k : ℕ) : Laid q held (n + k) :=
  ⟨h.counted, h.last, h.ids, fun i hi => Nat.lt_add_right k (h.fresh i hi)⟩

theorem Laid.added (h : Laid q held n) (hbs : bs.map Block.id = List.range' n bs.length)
    (hq : Same q q' ∨ Same (q.qaddlist bs) q') : Laid q' held (n + bs.length) := by
  rcases hq with hq | hq
  · exact (h.same hq).more _
  · exact (h.add hbs).same hq

theorem Laid.empty (hb : q.bfirst = []) (hlen : q.len = 0) (hdlen : q.dlen = 0)
    (h : Laid q' held n) : Laid q held n := by
  refine h.sublist ⟨by simp [hb, hlen], by simp [hb, hdlen]⟩ (by simp [Queue.Last, hb]) ?_
  rw [hb, List.append_nil]
  exact (List.sublist_append_left held _).map Block.id

theorem Laid.advance (h : Laid q held n) (hq : q.bfirst = b :: bs) (hk : k ≤ b.BLEN) :
    Laid { q with bfirst := b.advance k :: bs, dlen := q.dlen - k } held n := by
  refine h.sublist (h.counted.advance hq hk) (h.last.advance hq _) ?_
  rw [hq]
  simp [Block.advance]

theorem bl2mem_ids (k : ℕ) (bs : List (Block α)) :
    ((bl2mem k bs).2.map Block.id).Sublist (bs.map Block.id) := by
  induction bs generalizing k with
  | nil => exact List.Sublist.refl _
  | cons b bs ih =>
    rw [bl2mem]
    split_ifs
    · exact List.Sublist.refl _
    · exact (ih _).cons _

theorem Laid.copied (h : Laid q held n) (k : ℕ) {rest : List (Block α)}
    (hrest : (rest.map Block.id).Sublist (held.map Block.id)) :
    Laid (q.copied k rest).2 [] n := by
  cases rest with
  | nil => exact h.drop.same ⟨rfl, rfl, rfl, rfl, rfl, rfl, id⟩
  | cons b bs =>
    simp only [Queue.copied]
    split_ifs
    · exact h.drop.same ⟨rfl, rfl, rfl, rfl, rfl, rfl, id⟩
    · have hput : Laid (q.qputback b) [] n := by
        refine h.sublist (h.counted.qputback b) (h.last.qputback b) ?_
        have hb : [b.id].Sublist (held.map Block.id) :=
          (List.singleton_sublist.2 (by simp)).trans hrest
        simpa [Queue.qputback] using hb.append (List.Sublist.refl (q.bfirst.map Block.id))
      exact hput.same ⟨rfl, rfl, rfl, rfl, rfl, rfl, id⟩

theorem shed_bfirst (hq : q.bfirst = bs) :
    (shed bs q).bfirst = bs.dropWhile (fun b => b.BLEN == 0) := by
  induction bs generalizing q with
  | nil => exact hq
  | cons b bs ih =>
    rw [shed]
    split_ifs with hb
    · rw [ih rfl]
      simp [hb]
    · rw [hq]
      simp [hb]

end Laid

section Drained
variable {q q' q₀ : Queue α} {b : Block α} {bs held gone rest : List (Block α)} {n : ℕ} {t : ℤ}

/-- A section that takes blocks off: it wakes no reader, and wakes a writer only below
the limit. -/
structure Drained (q q' : Queue α) : Prop where
  len : q'.len ≤ q.len
  limit : q'.limit = q.limit
  inilim : q'.inilim = q.inilim
  closed : q'.closed = q.closed
  starve : q.starve = true → q'.starve = true
  nil : q.bfirst = [] → q'.bfirst = []
  flow : q'.flow = true → q.flow = true
  below : q.flow = true → q'.flow = false → q'.len < q.limit

theorem Drained.refl (q : Queue α) : Drained q q :=
  ⟨le_rfl, rfl, rfl, rfl, id, id, id, fun h h' => absurd (h.symm.trans h') nofun⟩

theorem Drained.restart (h : Drained q q₀) (hflow : q₀.flow = q.flow) (ht : t ≤ q.limit) :
    Drained q (q₀.restart t) := by
  refine ⟨h.len, h.limit, h.inilim, h.closed, h.starve, h.nil, fun hf => ?_, fun hf hf' => ?_⟩
  · simp only [Queue.restart, Bool.and_eq_true] at hf
    rw [← hflow]
    exact hf.1
  · simp only [Queue.restart, hflow, hf, Bool.true_and, Bool.not_eq_false', decide_eq_true_eq]
      at hf' ⊢
    omega

theorem Drained.without (hrest : q.bfirst = [] → rest = []) :
    Drained q (q.without gone rest) :=
  ⟨by simp only [Queue.without]; omega, rfl, rfl, rfl, id, hrest, id,
    fun h h' => absurd (h.symm.trans h') nofun⟩

theorem tdiv_two (h : 2 ≤ q.limit) : 1 ≤ q.limit.tdiv 2 ∧ q.limit.tdiv 2 ≤ q.limit := by
  rw [Int.tdiv_eq_ediv_of_nonneg (by omega)]
  omega

theorem restart_kept (hc : q₀.Counted) (ht : 1 ≤ t) (hf : (q₀.restart t).flow = true) :
    (q₀.restart t).bfirst ≠ [] := by
  intro hnil
  have hnil : q₀.bfirst = [] := hnil
  have hlen : q₀.len = 0 := by simpa [hnil] using hc.1
  simp only [Queue.restart, Bool.and_eq_true, Bool.not_eq_true', decide_eq_false_iff_not] at hf
  omega

theorem qget_drained (h : Laid q held n) (hlimit : 2 ≤ q.limit) :
    Drained q q.qget.2 ∧ Laid q.qget.2 held n ∧
      (q.qget.2.flow = true → q.qget.2.bfirst = [] → q.bfirst = []) := by
  obtain ⟨ht, ht'⟩ := tdiv_two hlimit
  cases hq : q.bfirst with
  | nil =>
    have heq : q.qget.2 = { q with starve := true } := by simp only [Queue.qget, hq]
    rw [heq]
    exact ⟨⟨le_rfl, rfl, rfl, rfl, fun _ => rfl, id, id,
      fun hf hf' => absurd (hf.symm.trans hf') (by simp)⟩, h.same ⟨rfl, rfl, rfl, rfl, rfl, rfl, id⟩,
      fun _ _ => rfl⟩
  | cons b bs =>
    have hsplit : q.bfirst = [b] ++ bs := hq
    have hlaid := h.without hsplit
    have heq : q.qget.2 = (q.without [b] bs).qwakeup := by
      simp only [Queue.qget, hq, qremove_eq]
    rw [heq]
    refine ⟨(Drained.without fun hnil => by simp [hq] at hnil).restart rfl ht',
      hlaid.same ⟨rfl, rfl, rfl, rfl, rfl, rfl, id⟩, fun hf hnil => ?_⟩
    exact absurd hnil (restart_kept hlaid.counted ht hf)

theorem qdiscard_drained (len : ℕ) (h : Laid q held n) (hlimit : 2 ≤ q.limit) :
    Drained q (q.qdiscard len) ∧ Laid (q.qdiscard len) held n ∧
      ((q.qdiscard len).flow = true → (q.qdiscard len).bfirst = [] → q.bfirst = []) := by
  have hall : ∃ q₀, discardloop q.bfirst len q = q₀ ∧ Drained q q₀ ∧ Laid q₀ held n ∧
      q₀.flow = q.flow := by
    rcases discardloop_eq len (rfl : q.bfirst = q.bfirst) with
      ⟨gone, rest, hsplit, -, heq, -⟩ | ⟨gone, b, rest, k, hsplit, -, hk, heq, -⟩
    · refine ⟨_, heq, Drained.without fun hnil => ?_, h.without hsplit, rfl⟩
      rw [hnil] at hsplit
      exact (List.append_eq_nil_iff.1 hsplit.symm).2
    · refine ⟨_, heq, ⟨by simp only [Queue.without]; omega, rfl, rfl, rfl, id, fun hnil => ?_, id,
        fun hf hf' => absurd (hf.symm.trans hf') nofun⟩, ?_, rfl⟩
      · rw [hnil] at hsplit
        exact absurd hsplit.symm (by simp)
      · exact (h.without hsplit).advance rfl hk.le
  obtain ⟨q₀, heq, hd, hlaid, hflow⟩ := hall
  have hq₀ : q.qdiscard len = q₀.restart q.limit := by
    rw [Queue.qdiscard, heq, hd.limit]
  rw [hq₀]
  exact ⟨hd.restart hflow le_rfl, hlaid.same ⟨rfl, rfl, rfl, rfl, rfl, rfl, id⟩,
    fun hf hnil => absurd hnil (restart_kept hlaid.counted (by omega) hf)⟩

theorem shed_drained (h : Laid q held n) :
    Drained q (shed q.bfirst q) ∧ Laid (shed q.bfirst q) held n ∧
      (shed q.bfirst q).flow = q.flow ∧ (shed q.bfirst q).starve = q.starve := by
  obtain ⟨gone, rest, hsplit, -, heq⟩ := shed_eq (rfl : q.bfirst = q.bfirst)
  rw [heq]
  refine ⟨Drained.without fun hnil => ?_, h.without hsplit, rfl, rfl⟩
  rw [hnil] at hsplit
  exact (List.append_eq_nil_iff.1 hsplit.symm).2

theorem Drained.trans {q₁ : Queue α} (h : Drained q q₁) (h' : Drained q₁ q')
    (hflow : q₁.flow = q.flow) : Drained q q' := by
  refine ⟨h'.len.trans h.len, h'.limit.trans h.limit, h'.inilim.trans h.inilim,
    h'.closed.trans h.closed, fun hs => h'.starve (h.starve hs), fun hn => h'.nil (h.nil hn),
    fun hf => h.flow (h'.flow hf), fun hf hf' => ?_⟩
  rw [← h.limit]
  exact h'.below (hflow.trans hf) hf'

theorem consume_drained (len : ℕ) (h : Laid q held n) (hlimit : 2 ≤ q.limit) :
    Drained q (consume q len).2 ∧ Laid (consume q len).2 held n ∧
      ((consume q len).2.flow = true → (consume q len).2.bfirst = [] → q.bfirst = []) := by
  obtain ⟨ht, ht'⟩ := tdiv_two hlimit
  cases hq : q.bfirst with
  | nil =>
    have heq : (consume q len).2 = { q with starve := true } := by simp only [consume, hq]
    rw [heq]
    exact ⟨⟨le_rfl, rfl, rfl, rfl, fun _ => rfl, id, id,
      fun hf hf' => absurd (hf.symm.trans hf') (by simp)⟩, h.same ⟨rfl, rfl, rfl, rfl, rfl, rfl, id⟩,
      fun _ _ => rfl⟩
  | cons b bs =>
    have hsplit : q.bfirst = [b] ++ bs := hq
    have hlaid := h.without hsplit
    by_cases hwhole : q.msg = true ∨ b.BLEN ≤ len
    · have heq : (consume q len).2 = (q.without [b] bs).qwakeup := by
        simp only [consume, hq, if_pos hwhole, qremove_eq]
      rw [heq]
      exact ⟨(Drained.without fun hnil => by simp [hq] at hnil).restart rfl ht',
        hlaid.same ⟨rfl, rfl, rfl, rfl, rfl, rfl, id⟩,
        fun hf hnil => absurd hnil (restart_kept hlaid.counted ht hf)⟩
    · have heq : (consume q len).2 =
          Queue.qwakeup { q with bfirst := b.advance len :: bs, dlen := q.dlen - len } := by
        simp only [consume, hq, if_neg hwhole]
      rw [heq]
      have hcut := h.advance hq (k := len) (by omega)
      have hd : Drained q { q with bfirst := b.advance len :: bs, dlen := q.dlen - len } :=
        ⟨le_rfl, rfl, rfl, rfl, id, fun hnil => by simp [hq] at hnil, id,
          fun hf hf' => absurd (hf.symm.trans hf') (by simp)⟩
      exact ⟨hd.restart rfl ht', hcut.same ⟨rfl, rfl, rfl, rfl, rfl, rfl, id⟩,
        fun hf hnil => absurd hnil (restart_kept hcut.counted ht hf)⟩

theorem qconsume_drained (len : ℕ) (h : Laid q held n) (hlimit : 2 ≤ q.limit) :
    Drained q (q.qconsume len).2 ∧ Laid (q.qconsume len).2 held n ∧
      ((q.qconsume len).2.flow = true → (q.qconsume len).2.bfirst = [] →
        ∀ b ∈ q.bfirst, b.BLEN = 0) := by
  obtain ⟨hd, hlaid, hflow, -⟩ := shed_drained h
  have hlimit' : 2 ≤ (shed q.bfirst q).limit := by rwa [hd.limit]
  obtain ⟨hd', hlaid', hkept⟩ := consume_drained len hlaid hlimit'
  refine ⟨hd.trans hd' hflow, hlaid', fun hf hnil b hb => ?_⟩
  have hshed := hkept hf hnil
  rw [shed_bfirst rfl, List.dropWhile_eq_nil_iff] at hshed
  simpa using hshed b hb

end Drained

section Inv
variable {s s' : Sync α} {q' : Queue α} {b : Block α} {rd : Rd α} {n : ℕ}

/-- A reader or writer between its section and `Sleep` has its flag, or nothing to sleep
for. One that sleeps has its flag and something to wait for, or is about to be woken. -/
structure Inv (s : Sync α) : Prop where
  laid : Laid s.q s.rd.held s.fresh
  limit : 2 ≤ s.q.limit
  inilim : 2 ≤ s.q.inilim
  checking : s.rd.checks → s.q.starve = true ∨ s.q.closed = true ∨ s.q.bfirst ≠ []
  reader : s.rd.sleeps → 0 < s.rrwake ∨
    s.q.bfirst = [] ∧ s.q.closed = false ∧ s.q.starve = true
  testing : s.wr = .check → s.q.flow = true ∨ s.q.qnotfull = true
  writer : s.wr = .asleep → 0 < s.wrwake ∨
    s.q.closed = false ∧ s.q.flow = true ∧ (s.q.bfirst = [] → s.rd.copies)

theorem Inv.kept (h : Inv s) : Kept s :=
  ⟨fun hs hr => (h.reader hs).resolve_left (by omega),
    fun hs hr => (h.writer hs).resolve_left (by omega)⟩

theorem qnotfull_iff (q : Queue α) : q.qnotfull = true ↔ q.len < q.limit ∨ q.closed = true := by
  simp [Queue.qnotfull]

theorem Drained.testing {q : Queue α} (hd : Drained q q')
    (h : q.flow = true ∨ q.qnotfull = true) : q'.flow = true ∨ q'.qnotfull = true := by
  rw [qnotfull_iff] at h ⊢
  cases hf' : q'.flow with
  | true => exact .inl rfl
  | false =>
    refine .inr ?_
    rw [hd.limit, hd.closed]
    rcases h with hf | hlt | hc
    · exact .inl (hd.below hf hf')
    · exact .inl (hd.len.trans_lt hlt)
    · exact .inr hc

theorem Inv.drain (h : Inv s) (hd : Drained s.q q') (hl : Laid q' s.rd.held s.fresh)
    (hsteal : s.rd.checks → s.q.closed = false → s.q.starve = false → q'.bfirst ≠ [])
    (hkept : s.wr = .asleep → s.wrwake = 0 → q'.flow = true → q'.bfirst = [] →
      s.q.bfirst = []) : Inv (s.sect q') := by
  refine ⟨hl, hd.limit ▸ h.limit, hd.inilim ▸ h.inilim, fun hc => ?_, fun hs => ?_,
    fun hw => hd.testing (h.testing hw), fun hw => ?_⟩
  · change q'.starve = true ∨ q'.closed = true ∨ q'.bfirst ≠ []
    rw [hd.closed]
    by_cases hs : s.q.starve = true
    · exact .inl (hd.starve hs)
    · by_cases hcl : s.q.closed = true
      · exact .inr (.inl hcl)
      · exact .inr (.inr (hsteal hc (by simpa using hcl) (by simpa using hs)))
  · rcases h.reader hs with hr | ⟨hb, hc, hst⟩
    · exact .inl (Nat.lt_add_right _ hr)
    · exact .inr ⟨hd.nil hb, hd.closed.trans hc, hd.starve hst⟩
  · rcases Nat.eq_zero_or_pos s.wrwake with hz | hpos
    · obtain ⟨hc, hf, hcopies⟩ := (h.writer hw).resolve_left (by omega)
      cases hf' : q'.flow with
      | true =>
        exact .inr ⟨hd.closed.trans hc, hf', fun hnil => hcopies (hkept hw hz hf' hnil)⟩
      | false => exact .inl (by simp [Sync.sect, hf, hf'])
    · exact .inl (Nat.lt_add_right _ hpos)

theorem Inv.produce (h : Inv s) (hclosed : q'.closed = s.q.closed)
    (hlimit : q'.limit = s.q.limit) (hinilim : q'.inilim = s.q.inilim)
    (hadd : q'.bfirst = s.q.bfirst ∧ q'.starve = s.q.starve ∨
      q'.bfirst ≠ [] ∧ q'.starve = false)
    (hflow : s.q.flow = true → q'.flow = true)
    (hfull : s.wr = .check → q'.flow = false → s.q.qnotfull = true → q'.qnotfull = true)
    (hl : Laid q' s.rd.held (s.fresh + n)) : Inv (s.add n q') := by
  refine ⟨hl, hlimit ▸ h.limit, hinilim ▸ h.inilim, fun hc => ?_, fun hs => ?_, fun hw => ?_,
    fun hw => ?_⟩
  · change q'.starve = true ∨ q'.closed = true ∨ q'.bfirst ≠ []
    rcases hadd with ⟨hb, hst⟩ | ⟨hb, -⟩
    · rw [hb, hst, hclosed]
      exact h.checking hc
    · exact .inr (.inr hb)
  · rcases h.reader hs with hr | ⟨hb, hc, hst⟩
    · exact .inl (Nat.lt_add_right _ hr)
    · rcases hadd with ⟨hb', hst'⟩ | ⟨-, hst'⟩
      · exact .inr ⟨hb'.trans hb, hclosed.trans hc, hst'.trans hst⟩
      · exact .inl (by simp [Sync.add, Sync.sect, hst, hst'])
  · change q'.flow = true ∨ q'.qnotfull = true
    cases hf : q'.flow with
    | true => exact .inl rfl
    | false =>
      refine .inr (hfull hw hf ((h.testing hw).resolve_left fun hf' => ?_))
      exact absurd (hf.symm.trans (hflow hf')) nofun
  · rcases h.writer hw with hr | ⟨hc, hf, hcopies⟩
    · exact .inl (Nat.lt_add_right _ hr)
    · refine .inr ⟨hclosed.trans hc, hflow hf, fun hnil => hcopies ?_⟩
      rcases hadd with ⟨hb, -⟩ | ⟨hb, -⟩
      · exact hb.symm.trans hnil
      · exact absurd hnil hb

theorem Inv.reads (h : Inv s) (hrd : s.rd.copies = false) (hd : Drained s.q q')
    (hl : Laid q' rd.held (s.fresh + n)) (hsleeps : rd.sleeps = false)
    (hchecks : rd.checks → q'.starve = true)
    (hkept : s.wr = .asleep → s.wrwake = 0 → q'.flow = true → q'.bfirst = [] →
      rd.copies = true ∨ s.q.bfirst = []) : Inv { s.add n q' with rd := rd } := by
  refine ⟨hl, hd.limit ▸ h.limit, hd.inilim ▸ h.inilim, fun hc => .inl (hchecks hc),
    fun hs => absurd (hsleeps.symm.trans hs) nofun, fun hw => hd.testing (h.testing hw),
    fun hw => ?_⟩
  rcases Nat.eq_zero_or_pos s.wrwake with hz | hpos
  · obtain ⟨hc, hf, hcopies⟩ := (h.writer hw).resolve_left (by omega)
    cases hf' : q'.flow with
    | true =>
      refine .inr ⟨hd.closed.trans hc, hf', fun hnil => ?_⟩
      exact (hkept hw hz hf' hnil).resolve_right fun hb =>
        absurd (hrd.symm.trans (hcopies hb)) nofun
    | false => exact .inl (by simp [Sync.add, Sync.sect, hf, hf'])
  · exact .inl (Nat.lt_add_right _ hpos)

end Inv

section Meets

def Steals (s : Sync α) : Act α → Prop
  | .qget => s.q.bfirst.length ≤ 1
  | .qconsume len =>
    (s.q.bfirst.dropWhile fun b => b.BLEN == 0).length ≤ 1 ∧
      ∀ b ∈ s.q.bfirst.dropWhile fun b => b.BLEN == 0, s.q.msg = true ∨ b.BLEN ≤ len
  | .qdiscard len => blocklen s.q.bfirst ≤ len ∧ blocklen s.q.bfirst.dropLast < len
  | .qflush => True
  | _ => False

def Fills (s : Sync α) : Act α → Prop
  | .qiwrite b => s.q.closed = false ∧ s.q.limit ≤ s.q.len + b.BALLOC
  | .copied => ∃ first n len, s.rd = .copying first n len ∧ s.q.msg = false ∧
      s.q.closed = false ∧ ∃ b ∈ (bl2mem len first).2.head?, s.q.limit ≤ s.q.len + b.BALLOC
  | .qreopen => s.q.inilim ≤ s.q.len
  | .qsetlimit limit => s.q.closed = false ∧ limit ≤ s.q.len
  | _ => False

def Sheds (s : Sync α) : Act α → Prop
  | .read => s.q.coalesce = true ∧ (∃ len, s.rd = .enter (.qread len)) ∧ s.q.bfirst ≠ [] ∧
      ∀ b ∈ s.q.bfirst, b.BLEN = 0
  | .qconsume _ => s.q.bfirst ≠ [] ∧ ∀ b ∈ s.q.bfirst, b.BLEN = 0
  | _ => False

/-- A reader that is before its `Sleep` with its flag taken is not robbed of the blocks, a
writer that is before its own with its flag taken does not see the queue filled, and no
blocks without data are freed while a writer sleeps. -/
structure Meets (s : Sync α) (a : Act α) : Prop where
  steals : s.rd.checks → s.q.closed = false → s.q.starve = false → ¬Steals s a
  fills : s.wr = .check → s.q.flow = false → ¬Fills s a
  sheds : s.wr = .asleep → s.wrwake = 0 → ¬Sheds s a
  limit : ∀ limit, a = .qsetlimit limit → 2 ≤ limit

def Quiet (s : Sync α) : List (Act α) → Prop
  | [] => True
  | a :: acts => Meets s a ∧ ∀ s', step s a = some s' → Quiet s' acts

end Meets

section Step
variable {s s' : Sync α} {q q' : Queue α} {b : Block α} {bs : List (Block α)} {n len : ℕ}
  {limit : ℤ} {a : Act α}

theorem qget_left (h : 1 < q.bfirst.length) : q.qget.2.bfirst ≠ [] := by
  match hq : q.bfirst with
  | [] => simp [hq] at h
  | [b] => simp [hq] at h
  | b :: c :: bs =>
    have heq : q.qget.2.bfirst = c :: bs := by
      simp only [Queue.qget, hq]
      rfl
    rw [heq]
    exact List.cons_ne_nil _ _

theorem discardloop_left (left : ℕ) (hq : q.bfirst = bs) (hbs : bs ≠ [])
    (h : ¬(blocklen bs ≤ left ∧ blocklen bs.dropLast < left)) :
    (discardloop bs left q).bfirst ≠ [] := by
  induction bs generalizing q left with
  | nil => exact absurd rfl hbs
  | cons b bs ih =>
    rw [discardloop]
    split_ifs with hz hfit
    · rw [hq]
      exact List.cons_ne_nil _ _
    · cases bs with
      | nil =>
        simp only [blocklen_cons, blocklen_nil, List.dropLast_singleton, add_zero] at h
        exact absurd ⟨hfit, Nat.pos_of_ne_zero hz⟩ h
      | cons c cs =>
        refine ih _ rfl (List.cons_ne_nil _ _) fun hleft => h ?_
        rw [List.dropLast_cons_cons, blocklen_cons, blocklen_cons]
        rw [blocklen_cons] at hleft ⊢
        omega
    · exact List.cons_ne_nil _ _

theorem qconsume_left
    (h : ¬((q.bfirst.dropWhile fun b => b.BLEN == 0).length ≤ 1 ∧
      ∀ b ∈ q.bfirst.dropWhile fun b => b.BLEN == 0, q.msg = true ∨ b.BLEN ≤ len)) :
    (q.qconsume len).2.bfirst ≠ [] := by
  obtain ⟨gone, rest, -, -, hshed⟩ := shed_eq (rfl : q.bfirst = q.bfirst)
  have hmsg : (shed q.bfirst q).msg = q.msg := by rw [hshed]; rfl
  have hrest := shed_bfirst (rfl : q.bfirst = q.bfirst)
  rw [← hrest, ← hmsg] at h
  change (consume (shed q.bfirst q) len).2.bfirst ≠ []
  generalize shed q.bfirst q = q₀ at h
  match hq : q₀.bfirst with
  | [] => simp [hq] at h
  | [b] =>
    have hb : ¬(q₀.msg = true ∨ b.BLEN ≤ len) := by simpa [hq] using h
    simp only [consume, hq, if_neg hb]
    exact List.cons_ne_nil _ _
  | b :: c :: bs =>
    simp only [consume, hq]
    split_ifs <;> exact List.cons_ne_nil _ _

theorem Inv.sect_qget (h : Inv s) (hm : Meets s .qget) : Inv (s.sect s.q.qget.2) := by
  obtain ⟨hd, hl, hkept⟩ := qget_drained h.laid h.limit
  exact h.drain hd hl (fun hc hcl hs => qget_left (by simpa [Steals] using hm.steals hc hcl hs))
    fun _ _ => hkept

theorem Inv.sect_qdiscard (h : Inv s) (hm : Meets s (.qdiscard len)) :
    Inv (s.sect (s.q.qdiscard len)) := by
  obtain ⟨hd, hl, hkept⟩ := qdiscard_drained len h.laid h.limit
  refine h.drain hd hl (fun hc hcl hs => ?_) fun _ _ => hkept
  have hne : s.q.bfirst ≠ [] := by
    rcases h.checking hc with hst | hst | hne
    · exact absurd (hs.symm.trans hst) nofun
    · exact absurd (hcl.symm.trans hst) nofun
    · exact hne
  exact discardloop_left len rfl hne (hm.steals hc hcl hs)

theorem Inv.sect_qconsume (h : Inv s) (hm : Meets s (.qconsume len)) :
    Inv (s.sect (s.q.qconsume len).2) := by
  obtain ⟨hd, hl, hkept⟩ := qconsume_drained len h.laid h.limit
  refine h.drain hd hl (fun hc hcl hs => qconsume_left (hm.steals hc hcl hs))
    fun hw hz hf hnil => ?_
  by_contra hne
  exact hm.sheds hw hz ⟨hne, hkept hf hnil⟩

theorem qbread_drained (len id : ℕ) (h : Laid q [] id) (hlimit : 2 ≤ q.limit) (hq : q.bfirst ≠ []) :
    Drained q (q.qbread len id).2 ∧ Laid (q.qbread len id).2 [] (id + 1) ∧
      ((q.qbread len id).2.flow = true → (q.qbread len id).2.bfirst ≠ []) := by
  obtain ⟨ht, ht'⟩ := tdiv_two hlimit
  obtain ⟨b, bs, hb⟩ := List.exists_cons_of_ne_nil hq
  have hsplit : q.bfirst = [b] ++ bs := hb
  have hlaid := h.without hsplit
  have hrest : q.bfirst = [] → bs = [] := fun hnil => absurd hnil hq
  have hwhole : Drained q (q.without [b] bs).qwakeup ∧
      Laid (q.without [b] bs).qwakeup [] (id + 1) ∧
      ((q.without [b] bs).qwakeup.flow = true → (q.without [b] bs).qwakeup.bfirst ≠ []) :=
    ⟨(Drained.without hrest).restart rfl ht',
      (hlaid.more 1).same ⟨rfl, rfl, rfl, rfl, rfl, rfl, fun h => h⟩,
      fun hf => restart_kept hlaid.counted ht hf⟩
  by_cases hcut : len < b.BLEN
  · by_cases hmsg : q.msg = true
    · have heq : (q.qbread len id).2 = (q.without [b] bs).qwakeup := by
        simp only [Queue.qbread, hb, if_pos hcut, if_pos hmsg, qremove_eq]
      rw [heq]
      exact hwhole
    · have heq : (q.qbread len id).2 =
          ((q.without [b] bs).qputback (allocb id (b.data.drop len))).qwakeup := by
        simp only [Queue.qbread, hb, if_pos hcut, if_neg hmsg, qremove_eq]
      rw [heq]
      have hput : Laid ((q.without [b] bs).qputback (allocb id (b.data.drop len))) [] (id + 1) := by
        refine ⟨hlaid.counted.qputback _, hlaid.last.qputback _, ?_, fun i hi => ?_⟩
        · have hid : id ∉ bs.map Block.id := fun hm => absurd (hlaid.fresh id hm) (lt_irrefl _)
          have hnodup : (bs.map Block.id).Nodup := hlaid.ids
          exact List.nodup_cons.2 ⟨hid, hnodup⟩
        · rcases List.mem_cons.1 (show i ∈ id :: bs.map Block.id from hi) with rfl | hi
          · exact Nat.lt_succ_self _
          · exact Nat.lt_succ_of_lt (hlaid.fresh i hi)
      have hd : Drained q ((q.without [b] bs).qputback (allocb id (b.data.drop len))) := by
        refine ⟨?_, rfl, rfl, rfl, fun h => h, fun hnil => absurd hnil hq, fun h => h,
          fun hf hf' => absurd (hf.symm.trans hf') (by simp)⟩
        simp only [Queue.qputback, Queue.without, blockalloclen_cons, blockalloclen_nil,
          Block.BALLOC, allocb, List.length_drop]
        push_cast
        omega
      exact ⟨hd.restart rfl ht', hput.same ⟨rfl, rfl, rfl, rfl, rfl, rfl, fun h => h⟩,
        fun hf => restart_kept hput.counted ht hf⟩
  · have heq : (q.qbread len id).2 = (q.without [b] bs).qwakeup := by
      simp only [Queue.qbread, hb, if_neg hcut, qremove_eq]
    rw [heq]
    exact hwhole

theorem Inv.qread (h : Inv s) (hrd : s.rd = .enter (.qread len)) (hm : Meets s .read) :
    Inv (s.qread len) := by
  have hcopies : s.rd.copies = false := by rw [hrd]; rfl
  have hlaid : Laid s.q [] s.fresh := by
    have := h.laid
    rwa [hrd] at this
  have hq₀ : ∃ q₀, (if s.q.coalesce then shed s.q.bfirst s.q else s.q) = q₀ ∧ Drained s.q q₀ ∧
      Laid q₀ [] s.fresh ∧ q₀.flow = s.q.flow ∧
      (s.wr = .asleep → s.wrwake = 0 → q₀.bfirst = [] → s.q.bfirst = []) := by
    by_cases hc : s.q.coalesce = true
    · obtain ⟨hd, hl, hflow, -⟩ := shed_drained hlaid
      refine ⟨_, if_pos hc, hd, hl, hflow, fun hw hz hnil => ?_⟩
      rw [shed_bfirst rfl, List.dropWhile_eq_nil_iff] at hnil
      by_contra hne
      exact hm.sheds hw hz ⟨hc, ⟨len, hrd⟩, hne, fun b hb => by simpa using hnil b hb⟩
    · exact ⟨_, if_neg hc, Drained.refl _, hlaid, rfl, fun _ _ hnil => hnil⟩
  obtain ⟨q₀, heq, hd, hl, hflow, hnone⟩ := hq₀
  rw [Sync.qread, heq]
  cases hb : q₀.bfirst with
  | nil =>
    have hstill : Drained s.q { q₀ with eof := q₀.eof + 1 } :=
      ⟨hd.len, hd.limit, hd.inilim, hd.closed, hd.starve, hd.nil, hd.flow, hd.below⟩
    have hidle : Inv { s.sect { q₀ with eof := q₀.eof + 1 } with rd := .idle } :=
      h.reads (n := 0) hcopies hstill (hl.same ⟨rfl, rfl, rfl, rfl, rfl, rfl, fun h => h⟩) rfl
        (fun hc => by cases hc) fun hw hz _ _ => .inr (hnone hw hz hb)
    simp only [Queue.qwait, hb]
    split_ifs with hc he
    · simpa only [hb] using hidle
    · simpa only [hb] using hidle
    · have hstarve : Drained s.q { q₀ with starve := true } :=
        ⟨hd.len, hd.limit, hd.inilim, hd.closed, fun _ => rfl, hd.nil, hd.flow, hd.below⟩
      have hcheck : Inv { s.sect { q₀ with starve := true } with rd := .check (.qread len) } :=
        h.reads (n := 0) hcopies hstarve (hl.same ⟨rfl, rfl, rfl, rfl, rfl, rfl, fun h => h⟩) rfl
          (fun _ => rfl) fun hw hz _ _ => .inr (hnone hw hz hb)
      simpa only [hb] using hcheck
  | cons b bs =>
    obtain ⟨first, rest, hsplit, htake, -⟩ := take_eq len hb
    have hwait : q₀.qwait = (.data, q₀) := by simp only [Queue.qwait, hb]
    rw [hwait]
    simp only [htake]
    have hsplit : q₀.bfirst = first ++ rest := hb.trans hsplit
    have hdrop : Drained q₀ (q₀.without first rest) :=
      Drained.without fun hnil => absurd (hnil.symm.trans hb) (by simp)
    exact h.reads (n := 0) hcopies (hd.trans hdrop hflow) (hl.take hsplit) rfl (fun hc => by cases hc)
      fun _ _ _ _ => .inl rfl

theorem Inv.qbread (h : Inv s) (hrd : s.rd = .enter (.qbread len)) : Inv (s.qbread len) := by
  have hcopies : s.rd.copies = false := by rw [hrd]; rfl
  have hlaid : Laid s.q [] s.fresh := by
    have := h.laid
    rwa [hrd] at this
  rw [Sync.qbread]
  cases hb : s.q.bfirst with
  | nil =>
    have hd := Drained.refl s.q
    have hstill : Drained s.q { s.q with eof := s.q.eof + 1 } :=
      ⟨hd.len, hd.limit, hd.inilim, hd.closed, hd.starve, hd.nil, hd.flow, hd.below⟩
    have hidle : Inv { s.sect { s.q with eof := s.q.eof + 1 } with rd := .idle } :=
      h.reads (n := 0) hcopies hstill (hlaid.same ⟨rfl, rfl, rfl, rfl, rfl, rfl, fun h => h⟩) rfl
        nofun fun _ _ _ _ => .inr hb
    simp only [Queue.qwait, hb]
    split_ifs with hc he
    · simpa only [hb] using hidle
    · simpa only [hb] using hidle
    · have hstarve : Drained s.q { s.q with starve := true } :=
        ⟨hd.len, hd.limit, hd.inilim, hd.closed, fun _ => rfl, hd.nil, hd.flow, hd.below⟩
      have hcheck : Inv { s.sect { s.q with starve := true } with rd := .check (.qbread len) } :=
        h.reads (n := 0) hcopies hstarve (hlaid.same ⟨rfl, rfl, rfl, rfl, rfl, rfl, fun h => h⟩)
          rfl (fun _ => rfl) fun _ _ _ _ => .inr hb
      simpa only [hb] using hcheck
  | cons b bs =>
    have hwait : s.q.qwait = (.data, s.q) := by simp only [Queue.qwait, hb]
    rw [hwait]
    obtain ⟨hd, hl, hne⟩ := qbread_drained len s.fresh hlaid h.limit (by simp [hb])
    exact h.reads hcopies hd hl rfl nofun fun _ _ hf hnil => absurd hnil (hne hf)

theorem Inv.copied (h : Inv s) {first : List (Block α)} {k : ℕ}
    (hrd : s.rd = .copying first k len) (hm : Meets s .copied) :
    Inv { s.sect (s.q.copied k (bl2mem len first).2).2 with rd := .idle } := by
  obtain ⟨ht, ht'⟩ := tdiv_two h.limit
  have hheld : Laid s.q first s.fresh := by
    have := h.laid
    rwa [hrd] at this
  have hlaid := hheld.copied k (bl2mem_ids len first)
  -- What the queue is before its writers are woken.
  have hcases : ∃ q₀ : Queue α, (s.q.copied k (bl2mem len first).2).2 = q₀.qwakeup ∧
      q₀.flow = s.q.flow ∧ q₀.closed = s.q.closed ∧ q₀.limit = s.q.limit ∧ q₀.inilim = s.q.inilim ∧
      (s.wr = .check → s.q.flow = false → s.q.qnotfull = true → q₀.qnotfull = true) := by
    cases hrest : (bl2mem len first).2 with
    | nil => exact ⟨s.q, rfl, rfl, rfl, rfl, rfl, fun _ _ hf => hf⟩
    | cons b bs =>
      by_cases hmsg : s.q.msg = true
      · exact ⟨s.q, by simp only [Queue.copied, if_pos hmsg], rfl, rfl, rfl, rfl,
          fun _ _ hf => hf⟩
      · refine ⟨s.q.qputback b, by simp only [Queue.copied, if_neg hmsg], rfl, rfl, rfl, rfl,
          fun hw hf hnot => ?_⟩
        have hfills := hm.fills hw hf
        by_contra hfull
        rw [qnotfull_iff, not_or] at hfull
        refine hfills ⟨first, k, len, hrd, by simpa using hmsg,
          Bool.eq_false_iff.2 hfull.2, b, ?_,
          not_lt.1 hfull.1⟩
        rw [hrest]
        rfl
  obtain ⟨q₀, heq, hflow, hclosed, hlimit, hinilim, hfull⟩ := hcases
  rw [heq] at hlaid ⊢
  have hcounted : q₀.Counted := hlaid.counted
  refine ⟨hlaid, hlimit ▸ h.limit, hinilim ▸ h.inilim, (fun hc => by cases hc),
    (fun hc => by cases hc), fun hw => ?_, fun hw => ?_⟩
  · change q₀.qwakeup.flow = true ∨ q₀.qwakeup.qnotfull = true
    cases hf' : q₀.qwakeup.flow with
    | true => exact .inl rfl
    | false =>
      refine .inr ?_
      by_cases hf : s.q.flow = true
      · have hlt : q₀.len < q₀.limit.tdiv 2 := by
          simpa [Queue.qwakeup, Queue.restart, hflow, hf] using hf'
        rw [hlimit] at hlt
        refine (qnotfull_iff _).2 (.inl ?_)
        change q₀.len < q₀.limit
        omega
      · exact hfull hw (by simpa using hf) ((h.testing hw).resolve_left hf)
  · rcases h.writer hw with hr | ⟨hc, hf, -⟩
    · exact .inl (Nat.lt_add_right _ hr)
    · cases hf' : q₀.qwakeup.flow with
      | true =>
        exact .inr ⟨hclosed.trans hc, hf', fun hnil =>
          absurd hnil (restart_kept hcounted (by rwa [hlimit]) hf')⟩
      | false => exact .inl (by simp [Sync.sect, hf, hf'])

theorem qaddlist_ne (q : Queue α) (hbs : bs ≠ []) : (q.qaddlist bs).bfirst ≠ [] := by
  simp only [Queue.qaddlist]
  cases q.bfirst with
  | nil => exact hbs
  | cons c cs =>
    simp only [link]
    split_ifs <;> exact List.cons_ne_nil _ _

theorem placed_length (id : ℕ) (bs : List (Block α)) : (placed id bs).length = bs.length := by
  induction bs generalizing id with
  | nil => rfl
  | cons b bs ih => simp [placed, ih]

theorem Inv.queues (h : Inv s) (bs : List (Block α)) (q' : Queue α) (hbs : bs ≠ [])
    (hids : bs.map Block.id = List.range' s.fresh bs.length)
    (hq : Same (s.q.qaddlist bs) q') (hstarve : q'.starve = false)
    (hclosed : q'.closed = s.q.closed) (hlimit : q'.limit = s.q.limit)
    (hinilim : q'.inilim = s.q.inilim) (hflow : s.q.flow = true → q'.flow = true)
    (hfull : s.wr = .check → q'.flow = false → s.q.qnotfull = true → q'.qnotfull = true) :
    Inv (s.add bs.length q') :=
  h.produce hclosed hlimit hinilim (.inr ⟨hq.bfirst ▸ qaddlist_ne s.q hbs, hstarve⟩) hflow hfull
    (h.laid.added hids (.inr hq))

theorem Inv.refuses (h : Inv s) (n : ℕ) (hq : Same s.q q') (hstarve : q'.starve = s.q.starve)
    (hclosed : q'.closed = s.q.closed) (hlimit : q'.limit = s.q.limit)
    (hinilim : q'.inilim = s.q.inilim) (hflow : s.q.flow = true → q'.flow = true) :
    Inv (s.add n q') := by
  refine h.produce hclosed hlimit hinilim (.inl ⟨hq.bfirst, hstarve⟩) hflow
    (fun _ _ hnot => ?_) ((h.laid.same hq).more n)
  rw [qnotfull_iff] at hnot ⊢
  rwa [hq.len, hlimit, hclosed]

theorem Inv.add_qiwrite (h : Inv s) (hm : Meets s (.qiwrite b)) :
    Inv (s.add 1 (s.q.qiwrite { b with id := s.fresh }).2) := by
  rw [Queue.qiwrite]
  split_ifs
  · exact h.refuses 1 ⟨rfl, rfl, rfl, rfl, rfl, rfl, id⟩ rfl rfl rfl rfl id
  · refine h.queues [{ b with id := s.fresh }] _ (List.cons_ne_nil _ _) rfl
      ⟨rfl, rfl, rfl, rfl, rfl, rfl, id⟩ rfl rfl rfl rfl id fun hw hf hnot => ?_
    have hfills : ¬(s.q.closed = false ∧ s.q.limit ≤ s.q.len + b.BALLOC) := hm.fills hw hf
    rw [qnotfull_iff]
    simp only [Queue.qaddlist, blockalloclen_cons, blockalloclen_nil, add_zero]
    change s.q.len + (b.BALLOC : ℤ) < s.q.limit ∨ s.q.closed = true
    by_contra hnone
    rw [not_or, not_lt] at hnone
    exact hfills ⟨by simpa using hnone.2, hnone.1⟩

theorem Inv.add_qproduce (h : Inv s) (data : List α) :
    Inv (s.add 1 (s.q.qproduce (allocb s.fresh data)).2) := by
  rw [Queue.qproduce]
  split_ifs
  · exact h.refuses 1 ⟨rfl, rfl, rfl, rfl, rfl, rfl, id⟩ rfl rfl rfl rfl id
  · exact h.refuses 1 ⟨rfl, rfl, rfl, rfl, rfl, rfl, id⟩ rfl rfl rfl rfl fun _ => rfl
  · refine h.queues [allocb s.fresh data] _ (List.cons_ne_nil _ _) rfl
      ⟨rfl, rfl, rfl, rfl, rfl, rfl, id⟩ rfl rfl rfl rfl
      (fun hf => by simp [Queue.qaddlist, hf]) fun _ hf _ => ?_
    simp only [Bool.or_eq_false_iff, decide_eq_false_iff_not] at hf
    exact (qnotfull_iff _).2 (.inl (not_le.1 hf.2))

theorem Inv.add_pass (h : Inv s) (hbs : bs ≠ []) :
    Inv (s.add bs.length { s.q.qaddlist (placed s.fresh bs) with
      flow := (s.q.qaddlist (placed s.fresh bs)).flow ||
        decide (s.q.limit.tdiv 2 ≤ (s.q.qaddlist (placed s.fresh bs)).len)
      starve := false }) := by
  obtain ⟨ht, ht'⟩ := tdiv_two h.limit
  have hne : placed s.fresh bs ≠ [] := fun hnil => hbs (List.length_eq_zero_iff.1
    ((placed_length s.fresh bs).symm.trans (congrArg List.length hnil)))
  have hlen := placed_length s.fresh bs
  have := h.queues (placed s.fresh bs)
    { s.q.qaddlist (placed s.fresh bs) with
      flow := (s.q.qaddlist (placed s.fresh bs)).flow ||
        decide (s.q.limit.tdiv 2 ≤ (s.q.qaddlist (placed s.fresh bs)).len)
      starve := false }
    hne (placed_ids s.fresh bs)
    ⟨rfl, rfl, rfl, rfl, rfl, rfl, id⟩ rfl rfl rfl rfl
    (fun hf => by simp [Queue.qaddlist, hf]) fun _ hf _ => by
      simp only [Bool.or_eq_false_iff, decide_eq_false_iff_not] at hf
      refine (qnotfull_iff _).2 (.inl ?_)
      change (s.q.qaddlist (placed s.fresh bs)).len < s.q.limit
      omega
  rwa [hlen] at this

theorem Inv.add_qpass (h : Inv s) (hbs : bs ≠ []) :
    Inv (s.add bs.length (s.q.qpass (placed s.fresh bs)).2) := by
  rw [Queue.qpass]
  split_ifs
  · exact h.refuses _ ⟨rfl, rfl, rfl, rfl, rfl, rfl, id⟩ rfl rfl rfl rfl id
  · exact h.refuses _ ⟨rfl, rfl, rfl, rfl, rfl, rfl, id⟩ rfl rfl rfl rfl id
  · exact h.add_pass hbs

theorem Inv.add_qpassnolim (h : Inv s) (hbs : bs ≠ []) :
    Inv (s.add bs.length (s.q.qpassnolim (placed s.fresh bs)).2) := by
  rw [Queue.qpassnolim]
  split_ifs
  · exact h.refuses _ ⟨rfl, rfl, rfl, rfl, rfl, rfl, id⟩ rfl rfl rfl rfl id
  · exact h.add_pass hbs

theorem Inv.add_qbwrite (h : Inv s) (hw : s.wr = .idle) (hs : step s (.qbwrite b) = some s') :
    Inv s' := by
  simp only [step, hw, Queue.qbwrite] at hs
  split_ifs at hs
  · obtain rfl := Option.some.inj hs
    exact h
  · obtain rfl := Option.some.inj hs
    exact h
  · obtain rfl := Option.some.inj hs
    exact h
  · have hq := h.queues [{ b with id := s.fresh }]
      { s.q.qaddlist [{ b with id := s.fresh }] with starve := false } (List.cons_ne_nil _ _) rfl
      ⟨rfl, rfl, rfl, rfl, rfl, rfl, id⟩ rfl rfl rfl rfl id
      fun hc => absurd (hw.symm.trans hc) (by simp)
    obtain rfl := Option.some.inj hs
    exact ⟨hq.laid, hq.limit, hq.inilim, hq.checking, hq.reader, (by simp), (by simp)⟩

theorem Inv.rsleep {op : Op} (h : Inv s) (hrd : s.rd = .check op) :
    Inv { s with rd := if s.q.notempty then .enter op else .asleep op } := by
  have hlaid : Laid s.q [] s.fresh := by
    have := h.laid
    rwa [hrd] at this
  have hcopies : s.rd.copies = false := by rw [hrd]; rfl
  have hwriter : ∀ rd : Rd α, s.wr = .asleep → 0 < s.wrwake ∨
      s.q.closed = false ∧ s.q.flow = true ∧ (s.q.bfirst = [] → rd.copies) := fun rd hw =>
    (h.writer hw).imp_right fun hk => ⟨hk.1, hk.2.1, fun hnil =>
      (Bool.eq_false_iff.1 hcopies (hk.2.2 hnil)).elim⟩
  split_ifs with hne
  · exact ⟨hlaid, h.limit, h.inilim, nofun, nofun, h.testing, hwriter _⟩
  · simp only [Queue.notempty, Bool.or_eq_true, not_or, Bool.not_eq_true, Bool.not_eq_false',
      List.isEmpty_iff] at hne
    refine ⟨hlaid, h.limit, h.inilim, nofun, fun _ => .inr ⟨hne.2, hne.1, ?_⟩, h.testing,
      hwriter _⟩
    rcases h.checking (by rw [hrd]; rfl) with hst | hc | hb
    · exact hst
    · exact absurd (hne.1.symm.trans hc) nofun
    · exact absurd hne.2 hb

theorem Inv.leaves (h : Inv s) (rd : Rd α) (hcopies : s.rd.copies = false)
    (hheld : rd.held = []) (hchecks : rd.checks = false) (hsleeps : rd.sleeps = false) :
    Inv { s with rd := rd } := by
  refine ⟨?_, h.limit, h.inilim, fun hc => absurd (hchecks.symm.trans hc) nofun,
    fun hs => absurd (hsleeps.symm.trans hs) nofun, h.testing, fun hw => ?_⟩
  · change Laid s.q rd.held s.fresh
    rw [hheld]
    exact h.laid.drop
  · exact (h.writer hw).imp_right fun hk => ⟨hk.1, hk.2.1, fun hnil =>
      (Bool.eq_false_iff.1 hcopies (hk.2.2 hnil)).elim⟩

theorem Inv.goes (h : Inv s) {wr : Wr} (hcheck : wr ≠ .check) (hasleep : wr ≠ .asleep) :
    Inv { s with wr := wr } :=
  ⟨h.laid, h.limit, h.inilim, h.checking, h.reader, fun hw => absurd hw hcheck,
    fun hw => absurd hw hasleep⟩

theorem Inv.wsleep (h : Inv s) (hwr : s.wr = .check) :
    Inv { s with wr := if s.q.qnotfull then .loop else .asleep } := by
  split_ifs with hnot
  · exact h.goes nofun nofun
  · have hflow := (h.testing hwr).resolve_right hnot
    rw [qnotfull_iff, not_or, not_lt] at hnot
    refine ⟨h.laid, h.limit, h.inilim, h.checking, h.reader, nofun, fun _ => .inr
      ⟨Bool.eq_false_iff.2 hnot.2, hflow, fun hnil => ?_⟩⟩
    have hlen := h.laid.counted.1
    have hlimit := h.limit
    rw [hnil, blockalloclen_nil] at hlen
    simp only [Nat.cast_zero] at hlen
    omega

theorem Inv.rwakeup (h : Inv s) (hs : step s .rwakeup = some s') : Inv s' := by
  simp only [step] at hs
  split_ifs at hs with hz
  cases hrd : s.rd with
  | asleep op =>
    simp only [hrd] at hs
    obtain rfl := Option.some.inj hs
    have hl := h.leaves (.enter op) (by rw [hrd]; rfl) rfl rfl rfl
    exact ⟨hl.laid, hl.limit, hl.inilim, nofun, nofun, hl.testing, hl.writer⟩
  | _ =>
    simp only [hrd] at hs
    obtain rfl := Option.some.inj hs
    refine ⟨hrd ▸ h.laid, h.limit, h.inilim, ?_, nofun, h.testing, ?_⟩
    · exact fun hc => h.checking (by rw [hrd]; exact hc)
    · exact fun hw => hrd ▸ h.writer hw

theorem Inv.wwakeup (h : Inv s) (hs : step s .wwakeup = some s') : Inv s' := by
  simp only [step] at hs
  split_ifs at hs with hz
  cases hwr : s.wr with
  | asleep =>
    simp only [hwr] at hs
    obtain rfl := Option.some.inj hs
    exact ⟨h.laid, h.limit, h.inilim, h.checking, h.reader, nofun, nofun⟩
  | _ =>
    simp only [hwr] at hs
    obtain rfl := Option.some.inj hs
    exact ⟨h.laid, h.limit, h.inilim, h.checking, h.reader, fun hw => h.testing (hwr.trans hw),
      nofun⟩

theorem Inv.whole (h : Inv s) (hm : Meets s a) (ha : a = .qflush ∨ (∃ msg, a = .qhangup msg) ∨
    a = .qclose ∨ a = .qreopen) (hs : step s a = some s') : Inv s' := by
  have hpending : ∀ {m : ℕ} {P : Prop}, 0 < m + 1 ∨ P := .inl (Nat.succ_pos _)
  rcases ha with rfl | ⟨msg, rfl⟩ | rfl | rfl
  · obtain rfl := Option.some.inj hs
    refine ⟨Laid.empty rfl rfl rfl h.laid, h.limit, h.inilim, fun hc => ?_, fun hr => ?_,
      fun _ => .inr ((qnotfull_iff _).2 (.inl ?_)), fun _ => hpending⟩
    · by_contra hnone
      rw [not_or, not_or] at hnone
      exact hm.steals hc (Bool.eq_false_iff.2 hnone.2.1) (Bool.eq_false_iff.2 hnone.1) trivial
    · exact (h.reader hr).imp_right fun hk => ⟨rfl, hk.2⟩
    · have := h.limit
      change 0 < s.q.limit
      omega
  · obtain rfl := Option.some.inj hs
    exact ⟨h.laid.same ⟨rfl, rfl, rfl, rfl, rfl, rfl, fun _ => rfl⟩, h.limit, h.inilim,
      fun _ => .inr (.inl rfl), fun _ => hpending, fun _ => .inr ((qnotfull_iff _).2 (.inr rfl)),
      fun _ => hpending⟩
  · obtain rfl := Option.some.inj hs
    exact ⟨Laid.empty rfl rfl rfl h.laid, h.limit, h.inilim, fun _ => .inr (.inl rfl),
      fun _ => hpending, fun _ => .inr ((qnotfull_iff _).2 (.inr rfl)), fun _ => hpending⟩
  · obtain rfl := Option.some.inj hs
    refine ⟨⟨h.laid.counted, h.laid.last, h.laid.ids, h.laid.fresh⟩, h.inilim, h.inilim,
      fun _ => .inl rfl, fun hr => ?_, fun hw => ?_, fun hw => ?_⟩
    · exact (h.reader hr).imp_right fun hk => ⟨hk.1, rfl, rfl⟩
    · by_cases hf : s.q.flow = true
      · exact .inl hf
      · exact .inr ((qnotfull_iff _).2 (.inl
          (not_le.1 (hm.fills hw (Bool.eq_false_iff.2 hf)))))
    · exact (h.writer hw).imp_right fun hk => ⟨rfl, hk.2⟩

theorem Inv.setlimit (h : Inv s) (hm : Meets s (.qsetlimit limit)) :
    Inv { s with q := { s.q with limit := limit } } := by
  refine ⟨h.laid.same ⟨rfl, rfl, rfl, rfl, rfl, rfl, id⟩, hm.limit limit rfl, h.inilim, h.checking,
    h.reader, fun hw => ?_, h.writer⟩
  by_cases hf : s.q.flow = true
  · exact .inl hf
  · refine .inr ((qnotfull_iff _).2 ?_)
    have hfills : ¬(s.q.closed = false ∧ limit ≤ s.q.len) :=
      hm.fills hw (Bool.eq_false_iff.2 hf)
    by_contra hnone
    rw [not_or, not_lt] at hnone
    exact hfills ⟨Bool.eq_false_iff.2 hnone.2, hnone.1⟩

theorem Inv.step (h : Inv s) (hm : Meets s a) (hs : step s a = some s') : Inv s' := by
  cases a with
  | qflush => exact h.whole hm (.inl rfl) hs
  | qhangup msg => exact h.whole hm (.inr (.inl ⟨msg, rfl⟩)) hs
  | qclose => exact h.whole hm (.inr (.inr (.inl rfl))) hs
  | qreopen => exact h.whole hm (.inr (.inr (.inr rfl))) hs
  | rwakeup => exact h.rwakeup hs
  | wwakeup => exact h.wwakeup hs
  | qget => exact Option.some.inj hs ▸ h.sect_qget hm
  | qconsume len => exact Option.some.inj hs ▸ h.sect_qconsume hm
  | qdiscard len => exact Option.some.inj hs ▸ h.sect_qdiscard hm
  | qiwrite b => exact Option.some.inj hs ▸ h.add_qiwrite hm
  | qproduce data => exact Option.some.inj hs ▸ h.add_qproduce data
  | qsetlimit limit => exact Option.some.inj hs ▸ h.setlimit hm
  | qnoblock onoff =>
    obtain rfl := Option.some.inj hs
    exact ⟨h.laid.same ⟨rfl, rfl, rfl, rfl, rfl, rfl, id⟩, h.limit, h.inilim, h.checking,
      h.reader, h.testing, h.writer⟩
  | qpass bs =>
    simp only [Wakeups.step, List.isEmpty_iff] at hs
    split_ifs at hs with hbs
    exact Option.some.inj hs ▸ h.add_qpass hbs
  | qpassnolim bs =>
    simp only [Wakeups.step, List.isEmpty_iff] at hs
    split_ifs at hs with hbs
    exact Option.some.inj hs ▸ h.add_qpassnolim hbs
  | enter op =>
    cases hrd : s.rd <;> simp only [Wakeups.step, hrd, reduceCtorEq] at hs
    exact Option.some.inj hs ▸ h.leaves _ (by rw [hrd]; rfl) rfl rfl rfl
  | read =>
    cases hrd : s.rd with
    | enter op =>
      cases op with
      | qread len =>
        simp only [Wakeups.step, hrd] at hs
        exact Option.some.inj hs ▸ h.qread hrd hm
      | qbread len =>
        simp only [Wakeups.step, hrd] at hs
        exact Option.some.inj hs ▸ h.qbread hrd
    | _ => simp only [Wakeups.step, hrd, reduceCtorEq] at hs
  | copied =>
    cases hrd : s.rd <;> simp only [Wakeups.step, hrd, reduceCtorEq] at hs
    exact Option.some.inj hs ▸ h.copied hrd hm
  | rsleep =>
    cases hrd : s.rd <;> simp only [Wakeups.step, hrd, reduceCtorEq] at hs
    exact Option.some.inj hs ▸ h.rsleep hrd
  | rintr =>
    cases hrd : s.rd <;> simp only [Wakeups.step, hrd, reduceCtorEq] at hs
    all_goals exact Option.some.inj hs ▸ h.leaves _ (by rw [hrd]; rfl) rfl rfl rfl
  | qbwrite b =>
    cases hwr : s.wr with
    | idle => exact h.add_qbwrite hwr hs
    | _ => simp only [Wakeups.step, hwr, reduceCtorEq] at hs
  | test =>
    cases hwr : s.wr <;> simp only [Wakeups.step, hwr, reduceCtorEq] at hs
    obtain rfl := Option.some.inj hs
    split_ifs
    · exact h.goes nofun nofun
    · exact h.goes nofun nofun
  | setflow =>
    cases hwr : s.wr <;> simp only [Wakeups.step, hwr, reduceCtorEq] at hs
    obtain rfl := Option.some.inj hs
    exact ⟨h.laid.same ⟨rfl, rfl, rfl, rfl, rfl, rfl, id⟩, h.limit, h.inilim, h.checking,
      h.reader, fun _ => .inl rfl, nofun⟩
  | wsleep =>
    cases hwr : s.wr <;> simp only [Wakeups.step, hwr, reduceCtorEq] at hs
    exact Option.some.inj hs ▸ h.wsleep hwr
  | wintr =>
    cases hwr : s.wr <;> simp only [Wakeups.step, hwr, reduceCtorEq] at hs
    all_goals exact Option.some.inj hs ▸ h.goes nofun nofun

theorem inv_init (hlimit : 2 ≤ limit) (msg coalesce : Bool) :
    Inv (init (qopen limit msg coalesce : Queue α)) :=
  ⟨⟨⟨rfl, rfl⟩, nofun, List.nodup_nil, nofun⟩, hlimit, hlimit, nofun, nofun, nofun, nofun⟩

theorem Inv.run (h : Inv s) {acts : List (Act α)} (hquiet : Quiet s acts)
    (hrun : run s acts = some s') : Inv s' := by
  induction acts generalizing s with
  | nil =>
    obtain rfl : s = s' := by simpa [Wakeups.run] using hrun
    exact h
  | cons a acts ih =>
    obtain ⟨s₁, hs₁, hrest⟩ := Option.bind_eq_some_iff.1 (by simpa [Wakeups.run] using hrun)
    exact ih (h.step hquiet.1 hs₁) (hquiet.2 s₁ hs₁) hrest

end Step

section Exact

/-- In a run whose steps meet the condition no wake-up is lost. -/
theorem kept_of_quiet {limit : ℤ} (hlimit : 2 ≤ limit) (msg coalesce : Bool)
    {acts : List (Act α)} {s : Sync α} (hquiet : Quiet (init (qopen limit msg coalesce)) acts)
    (hrun : run (init (qopen limit msg coalesce)) acts = some s) : Kept s :=
  ((inv_init hlimit msg coalesce).run hquiet hrun).kept

def waiting : List (Act UInt8) := [.enter (.qread 1), .read, .rsleep]

theorem kept_of_quiet_waiting : ∃ s : Sync UInt8,
    run (init (qopen 2 false true)) waiting = some s ∧ s.rd = .asleep (.qread 1) ∧ Kept s := by
  have hquiet : Quiet (init (qopen 2 false true)) waiting := by
    refine ⟨⟨fun _ _ _ => id, fun _ _ => id, fun _ _ => id, nofun⟩, fun s₁ hs₁ => ?_⟩
    obtain rfl := Option.some.inj hs₁
    refine ⟨⟨fun _ _ _ => id, fun _ _ => id, nofun, nofun⟩, fun s₂ hs₂ => ?_⟩
    obtain rfl := Option.some.inj hs₂
    exact ⟨⟨fun _ _ _ => id, fun _ _ => id, fun _ _ => id, nofun⟩, fun _ _ => trivial⟩
  exact ⟨_, rfl, rfl, kept_of_quiet le_rfl false true hquiet rfl⟩

def shedding : List (Act UInt8) :=
  [.qbwrite ⟨0, 2, [], 0⟩, .test, .setflow, .wsleep, .enter (.qread 1), .read, .rsleep]

theorem shedding_lost : ¬∀ (acts : List (Act UInt8)) (s : Sync UInt8),
    run (init (qopen 2 false true)) acts = some s → Kept s := by
  intro h
  have hkept := h shedding _ rfl
  exact absurd ((hkept.writer rfl rfl).2.2 rfl) nofun

end Exact

end Wakeups

end Infernode.Qio
