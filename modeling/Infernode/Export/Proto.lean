import Mathlib

/-!
# The flush protocol of an export

One export of `exportfs.c`: the reader `exportproc`, and one slave for each request
taken off the queue. Requests are numbered as `exportproc` allocates them. A step is
a section under `exq.l`, under the export's lock `fs->l` or under the lock of a
request, or a call in between; a section that nests one lock in another is one step.
A call of the export's file server returns when it likes, with an error or without.
`exreply` sends one R-message whatever it is made of.
-/

namespace Infernode.Export

inductive Body
  | flush (oldtag : ℕ)
  | request (mutates : Bool)
  deriving DecidableEq

structure Fcall where
  tag : ℕ
  body : Body
  deriving DecidableEq

structure Exq where
  inp : Fcall
  busy : Bool
  finished : Bool
  shut : Bool
  flush : List ℕ
  deriving DecidableEq

/-- Where `exslave` is with its request. `answering` and `freeingflush` have a flush
taken off the request's queue. -/
inductive Slave
  | running
  | returned (err : Bool)
  | replying
  | draining
  | answering (fq : ℕ)
  | freeingflush (fq : ℕ)
  | unlinking
  | freeing
  deriving DecidableEq

/-- Where `exportproc` is. `searching` and `searchwork` are the two searches of
`exflushed`; in `shutting` it holds `fs->l`. -/
inductive Reader
  | reading
  | queueing (q : ℕ)
  | searching (fq : ℕ)
  | discarding (q fq : ℕ)
  | searchwork (fq : ℕ)
  | replying (q : ℕ)
  | freeing (q : ℕ)
  | shutexq
  | shutwork
  | shutting
  | ended
  deriving DecidableEq

inductive Event
  | recv (q : ℕ)
  | reply (q : ℕ)
  | free (q : ℕ)
  deriving DecidableEq

structure State where
  readonly : Bool
  next : ℕ
  exqs : ℕ → Exq
  exq : List ℕ
  work : List ℕ
  slave : ℕ → Option Slave
  reader : Reader
  log : List Event

inductive Act
  | recv (t : Fcall)
  | hangup
  | reader
  | take
  | fcall (q : ℕ) (err : Bool)
  | slave (q : ℕ)
  deriving DecidableEq

def noexq : Exq :=
  ⟨⟨0, .request false⟩, false, false, false, []⟩

def init (readonly : Bool) : State :=
  ⟨readonly, 0, fun _ => noexq, [], [], fun _ => none, .reading, []⟩

def State.setq (s : State) (q : ℕ) (x : Exq) : State :=
  { s with exqs := Function.update s.exqs q x }

def State.goto (s : State) (q : ℕ) (p : Option Slave) : State :=
  { s with slave := Function.update s.slave q p }

def State.exreply (s : State) (q : ℕ) : State :=
  { s with log := s.log ++ [.reply q] }

def State.exfreeq (s : State) (q : ℕ) : State :=
  { s.setq q { s.exqs q with flush := [] } with
    log := s.log ++ ((s.exqs q).flush.map .free ++ [.free q]) }

def State.names (s : State) (fq q : ℕ) : Bool :=
  (s.exqs fq).inp.body = .flush (s.exqs q).inp.tag

def State.receive (s : State) (t : Fcall) : State :=
  { s.setq s.next { noexq with inp := t } with
    next := s.next + 1
    log := s.log ++ [.recv s.next]
    reader := match t.body with
      | .flush _ => .searching s.next
      | .request mutates => if s.readonly && mutates then .replying s.next else .queueing s.next }

def State.flushwork (s : State) (fq q : ℕ) : State :=
  if (s.exqs q).finished then { s with reader := .replying fq }
  else
    { s.setq q { s.exqs q with flush := (s.exqs q).flush ++ [fq] } with reader := .reading }

def State.readstep (s : State) : Option State :=
  match s.reader with
  | .queueing q => some { s with exq := s.exq ++ [q], reader := .reading }
  | .searching fq =>
    match s.exq.find? (s.names fq) with
    | some q => some { s with exq := s.exq.erase q, reader := .discarding q fq }
    | none => some { s with reader := .searchwork fq }
  | .discarding q fq => some { s.exfreeq q with reader := .replying fq }
  | .searchwork fq =>
    match s.work.find? (s.names fq) with
    | some q => some (s.flushwork fq q)
    | none => some { s with reader := .replying fq }
  | .replying q => some { s.exreply q with reader := .freeing q }
  | .freeing q => some { s.exfreeq q with reader := .reading }
  | .shutexq => some { s.exq.foldl State.exfreeq s with exq := [], reader := .shutwork }
  | .shutwork => some { s with reader := .shutting }
  | .shutting =>
    match s.work with
    | q :: work => some { s.setq q { s.exqs q with shut := true } with work }
    | [] => some { s with reader := .ended }
  | _ => none

def State.drain (s : State) (q : ℕ) : State :=
  match (s.exqs q).flush, (s.exqs q).shut with
  | fq :: flush, false =>
    (s.setq q { s.exqs q with flush }).goto q (some (.answering fq))
  | _, _ => (s.setq q { s.exqs q with finished := true }).goto q (some .unlinking)

def State.returned (s : State) (q : ℕ) (err : Bool) : State :=
  let s := s.setq q { s.exqs q with busy := false }
  if (s.exqs q).shut = false ∧ ((s.exqs q).flush = [] ∨ err = false) then
    s.goto q (some .replying)
  else s.drain q

def State.slavestep (s : State) (q : ℕ) : Option State :=
  match s.slave q with
  | some (.returned err) => some (s.returned q err)
  | some .replying => some ((s.exreply q).goto q (some .draining))
  | some .draining => some (s.drain q)
  | some (.answering fq) => some ((s.exreply fq).goto q (some (.freeingflush fq)))
  | some (.freeingflush fq) => some ((s.exfreeq fq).goto q (some .draining))
  | some .unlinking =>
    if s.reader = .shutting then none
    else some ({ s with work := s.work.erase q }.goto q (some .freeing))
  | some .freeing => some ((s.exfreeq q).goto q none)
  | _ => none

def step (s : State) : Act → Option State
  | .recv t => if s.reader = .reading then some (s.receive t) else none
  | .hangup =>
    if s.reader = .reading then
      some { s with next := s.next + 1, log := s.log ++ [.free s.next], reader := .shutexq }
    else none
  | .reader => s.readstep
  | .take =>
    match s.exq with
    | q :: exq =>
      if s.reader = .shutting then none
      else
        some (({ s with exq, work := q :: s.work }.setq q { s.exqs q with busy := true }).goto q
          (some .running))
    | [] => none
  | .fcall q err =>
    if s.slave q = some .running then some (s.goto q (some (.returned err))) else none
  | .slave q => s.slavestep q

def run (s : State) (acts : List Act) : Option State :=
  acts.foldlM step s

end Infernode.Export
