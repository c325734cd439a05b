import Infernode.Qio.Queue

/-!
# Readers and writers of a queue

One step for each section that runs under the queue's lock, in any order. `rlock`
lets one process into `qread` or `qbread` at a time; the operations used without it
run when no process is in there. `wlock` is held from the section of `qbwrite` that
queues the block to the end of its wait for flow control. The log records what was
queued, delivered, thrown away and reported, and when blocks were pulled together,
a message was cut by `qdiscard`, and `qclose` left the queue shut.
-/

namespace Infernode.Qio

variable {α : Type*}

inductive Kind
  | qwrite
  | qbwrite (pre post : ℕ)
  | qiwrite
  deriving DecidableEq

structure Call (α : Type*) where
  kind : Kind
  data : List α
  sofar : ℕ
  waiting : Bool
  deriving DecidableEq

def Call.most (c : Call α) : ℕ :=
  match c.kind with
  | .qbwrite _ _ => c.data.length
  | _ => Maxatomic

def Call.chunk (c : Call α) : List α :=
  (c.data.drop c.sofar).take c.most

def Call.block (c : Call α) (id : ℕ) : Block α :=
  match c.kind with
  | .qbwrite pre post => ⟨id, pre, c.chunk, post⟩
  | _ => allocb id c.chunk

inductive Reader (α : Type*)
  | idle
  | qread (len : ℕ)
  | qbread (len : ℕ)
  | copying (first : List (Block α)) (n len : ℕ)
  deriving DecidableEq

def Reader.held : Reader α → List (Block α)
  | .copying first _ _ => first
  | _ => []

structure Entry (α : Type*) where
  call : ℕ
  id : ℕ
  data : List α
  deriving DecidableEq

structure Delivery (α : Type*) where
  id : ℕ
  data : List α
  deriving DecidableEq

/-- A write that returned without an error, and the count it returned. `kind` is
`none` for `qproduce` and `qpass`. -/
structure Report (α : Type*) where
  call : ℕ
  kind : Option Kind
  data : List α
  n : ℕ
  deriving DecidableEq

structure Log (α : Type*) where
  entered : List (Entry α)
  delivered : List (Delivery α)
  dropped : List α
  returned : List (Report α)
  unqueued : List ℕ
  pulled : Bool
  skimmed : Bool
  shut : Bool

structure State (α : Type*) where
  q : Queue α
  fresh : ℕ
  reader : Reader α
  writers : ℕ → Option (Call α)
  wlock : Option ℕ
  calls : ℕ
  log : Log α

inductive Act (α : Type*)
  | qread (len : ℕ)
  | qbread (len : ℕ)
  | read
  | copied
  | readintr
  | qget
  | qconsume (len : ℕ)
  | qdiscard (len : ℕ)
  | pullupqueue (n : ℕ)
  | qwrite (data : List α)
  | qbwrite (pre : ℕ) (data : List α) (post : ℕ)
  | qiwrite (data : List α)
  | write (w : ℕ)
  | full (w : ℕ)
  | notfull (w : ℕ)
  | writeintr (w : ℕ)
  | exhausted (w : ℕ)
  | qproduce (data : List α)
  | qpass (bs : List (Block α))
  | qhangup (msg : String)
  | qclose
  | qflush
  | qreopen
  | qsetlimit (limit : ℤ)
  | qnoblock (onoff : Bool)

def init (q : Queue α) : State α :=
  ⟨q, 0, .idle, fun _ => none, none, 0, ⟨[], [], [], [], [], false, false, false⟩⟩

def bytes (bs : List (Block α)) : List α :=
  bs.flatMap Block.data

def Queue.remainder (q : Queue α) (len : ℕ) : List α :=
  match q.bfirst with
  | [] => []
  | b :: _ => if q.msg then b.data.drop len else []

def cuts : List (Block α) → ℕ → Bool
  | [], _ => false
  | b :: bs, left =>
    if left = 0 then false
    else if b.BLEN ≤ left then cuts bs (left - b.BLEN)
    else true

def State.deliver (s : State α) (id : ℕ) (data : List α) : State α :=
  { s with log := { s.log with delivered := s.log.delivered ++ [⟨id, data⟩] } }

def State.drop (s : State α) (data : List α) : State α :=
  { s with log := { s.log with dropped := s.log.dropped ++ data } }

def State.enter (s : State α) (w : ℕ) (bs : List (Block α)) : State α :=
  { s with
    fresh := s.fresh + bs.length
    log := { s.log with
      entered := s.log.entered ++ bs.map (fun b => ⟨w, b.id, b.data⟩) } }

def State.unqueue (s : State α) (w : ℕ) : State α :=
  { s with log := { s.log with unqueued := s.log.unqueued ++ [w] } }

def State.report (s : State α) (r : Report α) : State α :=
  { s with log := { s.log with returned := s.log.returned ++ [r] } }

def State.start (s : State α) (kind : Kind) (data : List α) : State α :=
  { s with
    writers := Function.update s.writers s.calls (some ⟨kind, data, 0, false⟩)
    calls := s.calls + 1 }

def State.setcall (s : State α) (w : ℕ) (c : Option (Call α)) : State α :=
  { s with writers := Function.update s.writers w c }

def Call.result (c : Call α) (sofar : ℕ) : ℕ :=
  match c.kind with
  | .qiwrite => sofar
  | _ => c.data.length

def State.next (s : State α) (w : ℕ) (c : Call α) : State α :=
  let sofar := c.sofar + c.chunk.length
  if sofar < c.data.length ∧ s.q.msg = false then
    s.setcall w (some { c with sofar, waiting := false })
  else (s.setcall w none).report ⟨w, some c.kind, c.data, c.result sofar⟩

def State.qread (s : State α) (len : ℕ) : State α :=
  let q := if s.q.coalesce then shed s.q.bfirst s.q else s.q
  match q.qwait with
  | (.data, q) =>
    let (first, n, q) := q.take len
    { s with q, reader := .copying first n len }
  | (.sleep, q) => { s with q }
  | (_, q) => { s with q, reader := .idle }

def State.copied (s : State α) (first : List (Block α)) (n len : ℕ) : State α :=
  let (p, rest) := bl2mem len first
  let (n, q) := s.q.copied n rest
  { (s.deliver ((first.head?.map Block.id).getD 0) (p.take n)).drop
      (if q.msg then bytes rest else []) with q, reader := .idle }

def State.qbread (s : State α) (len : ℕ) : State α :=
  match s.q.qwait with
  | (.data, q) =>
    match q.qbread len s.fresh with
    | (none, q) => { s with q, reader := .idle }
    | (some b, q') =>
      { (s.deliver b.id b.data).drop (q.remainder len) with
        q := q', fresh := s.fresh + 1, reader := .idle }
  | (.sleep, q) => { s with q }
  | (_, q) => { s with q, reader := .idle }

def State.qget (s : State α) : State α :=
  match s.q.qget with
  | (none, q) => { s with q }
  | (some b, q) => { s.deliver b.id b.data with q }

def State.qconsume (s : State α) (len : ℕ) : State α :=
  match s.q.qconsume len with
  | (none, q) => { s with q }
  | (some (id, p), q) =>
    { (s.deliver id p).drop ((shed s.q.bfirst s.q).remainder len) with q }

def State.qdiscard (s : State α) (len : ℕ) : State α :=
  let s' := s.drop ((bytes s.q.bfirst).take len)
  { s' with
    q := s.q.qdiscard len
    log := { s'.log with skimmed := s.log.skimmed || cuts s.q.bfirst len } }

def State.pullupqueue (s : State α) (bp : Block α) (bs : List (Block α)) (n : ℕ) : State α :=
  if n ≤ bp.BLEN then { s with q := s.q.pullupqueue s.fresh bp bs n }
  else
    let q := s.q.pullupqueue s.fresh bp bs n
    let s' := s.drop (if q.bfirst.isEmpty then bytes s.q.bfirst else [])
    { s' with q, fresh := s.fresh + 1, log := { s'.log with pulled := true } }

def State.qbwrite (s : State α) (w : ℕ) (c : Call α) : Option (State α) :=
  let b := c.block s.fresh
  if s.q.bypass then some ((s.unqueue w).next w c)
  else if s.wlock.isSome then none
  else
    match s.q.qbwrite b with
    | (.queued, q) =>
      let s' := { s with q, wlock := some w }
      some ((s'.enter w [b]).setcall w (some { c with waiting := true }))
    | (.freed, q) => some (({ s with q }.unqueue w).next w c)
    | (.failed, q) => some ({ s with q }.setcall w none)

def State.qiwrite (s : State α) (w : ℕ) (c : Call α) : State α :=
  let b := c.block s.fresh
  match s.q.qiwrite b with
  | (.queued, q) =>
    let s' := { s with q, log := { s.log with shut := false } }
    (s'.enter w [b]).next w c
  | (_, q) => ({ s with q }.unqueue w).next w c

def State.write (s : State α) (w : ℕ) (c : Call α) : Option (State α) :=
  match c.kind with
  | .qiwrite => some (s.qiwrite w c)
  | _ => s.qbwrite w c

def placed : ℕ → List (Block α) → List (Block α)
  | _, [] => []
  | id, b :: bs => { b with id } :: placed (id + 1) bs

def State.qpass (s : State α) (bs : List (Block α)) : State α :=
  let bs := placed s.fresh bs
  let s' := { s with calls := s.calls + 1 }
  match s.q.qpass bs with
  | (.queued, q) =>
    ({ s' with q }.enter s.calls bs).report ⟨s.calls, none, bytes bs, blockalloclen bs⟩
  | (.freed, q) => ({ s' with q }.unqueue s.calls).report ⟨s.calls, none, bytes bs, blocklen bs⟩
  | (.failed, q) => { s' with q }

def State.qproduce (s : State α) (data : List α) : State α :=
  let b := allocb s.fresh data
  let s' := { s with calls := s.calls + 1 }
  match s.q.qproduce b with
  | (.queued, q) => ({ s' with q }.enter s.calls [b]).report ⟨s.calls, none, data, data.length⟩
  | (_, q) => { s' with q }

def State.qclose (s : State α) : State α :=
  let s' := s.drop (bytes s.q.bfirst)
  { s' with
    q := s.q.qclose
    log := { s'.log with shut := s.reader.held.isEmpty } }

def step (s : State α) : Act α → Option (State α)
  | .qread len =>
    match s.reader with
    | .idle => some { s with reader := .qread len }
    | _ => none
  | .qbread len =>
    match s.reader with
    | .idle => some { s with reader := .qbread len }
    | _ => none
  | .read =>
    match s.reader with
    | .qread len => some (s.qread len)
    | .qbread len => some (s.qbread len)
    | _ => none
  | .copied =>
    match s.reader with
    | .copying first n len => some (s.copied first n len)
    | _ => none
  | .readintr =>
    match s.reader with
    | .qread _ => some { s with reader := .idle }
    | .qbread _ => some { s with reader := .idle }
    | _ => none
  | .qget =>
    match s.reader with
    | .idle => some s.qget
    | _ => none
  | .qconsume len =>
    match s.reader with
    | .idle => some (s.qconsume len)
    | _ => none
  | .qdiscard len =>
    match s.reader with
    | .idle => some (s.qdiscard len)
    | _ => none
  | .pullupqueue n =>
    match s.reader, s.q.bfirst with
    | .idle, bp :: bs => some (s.pullupqueue bp bs n)
    | _, _ => none
  | .qwrite data => some (s.start .qwrite data)
  | .qbwrite pre data post => some (s.start (.qbwrite pre post) data)
  | .qiwrite data => some (s.start .qiwrite data)
  | .write w =>
    match s.writers w with
    | some c => if c.waiting then none else s.write w c
    | none => none
  | .full w =>
    match s.writers w with
    | some c => if c.waiting then some { s with q := { s.q with flow := true } } else none
    | none => none
  | .notfull w =>
    match s.writers w with
    | some c =>
      if c.waiting ∧ (s.q.noblock ∨ s.q.qnotfull) then some ({ s with wlock := none }.next w c)
      else none
    | none => none
  | .writeintr w =>
    match s.writers w with
    | some c => if c.waiting then some ({ s with wlock := none }.setcall w none) else none
    | none => none
  | .exhausted w =>
    match s.writers w with
    | some c =>
      if c.waiting then none
      else match c.kind with
        | .qiwrite => some ((s.setcall w none).report ⟨w, some c.kind, c.data, c.sofar⟩)
        | _ => some (s.setcall w none)
    | none => none
  | .qproduce data => some (s.qproduce data)
  | .qpass bs => if bs.isEmpty then none else some (s.qpass bs)
  | .qhangup msg => some { s with q := s.q.qhangup msg }
  | .qclose => some s.qclose
  | .qflush => some { s.drop (bytes s.q.bfirst) with q := s.q.qflush }
  | .qreopen => some { s with q := s.q.qreopen, log := { s.log with shut := false } }
  | .qsetlimit limit => some { s with q := { s.q with limit } }
  | .qnoblock onoff => some { s with q := { s.q with noblock := onoff } }

def run (s : State α) (acts : List (Act α)) : Option (State α) :=
  acts.foldlM step s

end Infernode.Qio
