import Mathlib

/-!
# Alternatives

`alt.c` over the queues of `xec.c`: `altrdy` counts the alternatives that are ready and queues
the Prog at each, `altcomm` performs the one chosen and `altdone` takes the Prog off. Progs,
channels and values are where they are in memory. What follows a nil pointer is `none`.
-/

namespace Infernode.Alts

inductive Side
  | send
  | recv
  deriving DecidableEq

def Side.other : Side → Side
  | .send => .recv
  | .recv => .send

/-- A `Progq *`: the Progs that wait, in order. One with none is a node without a Prog; `none`
is a pointer that is nil. -/
abbrev Queue := Option (List ℕ)

/-- `queue` is `send` and `recv`, `buf` the length of the buffer, none for `H`. -/
structure Channel where
  queue : Side → Queue
  buf : Option ℕ
  size : ℕ
  fits : size ≤ buf.getD 0

def Channel.canget (c : Channel) : Bool := 0 < c.size

def Channel.canput (c : Channel) : Bool := c.size < c.buf.getD 0

/-- An alternative, or one channel of an alternative that is an array: its numbers in the alt
and in the array, its channel, none for `H`, and where its value is. -/
structure Slot where
  side : Side
  n : ℕ
  an : Option ℕ
  c : Option ℕ
  ptr : ℕ
  deriving DecidableEq

def Slot.place (x : Slot) : ℕ := if x.an.isSome then x.ptr + 1 else x.ptr

inductive Recv
  | chan (c : Option ℕ)
  | array (cs : List (Option ℕ))
  deriving DecidableEq

structure Alt where
  send : List (Option ℕ × ℕ)
  recv : List (Recv × ℕ)
  deriving DecidableEq

def Recv.slots (n ptr : ℕ) : Recv → List Slot
  | .chan c => [⟨.recv, n, none, c, ptr⟩]
  | .array cs => cs.mapIdx fun an c => ⟨.recv, n, some an, c, ptr⟩

def Alt.sends (a : Alt) : List Slot := a.send.mapIdx fun n s => ⟨.send, n, none, s.1, s.2⟩

def Alt.recvs (a : Alt) : List Slot :=
  (a.recv.mapIdx fun i r => r.1.slots (a.send.length + i) r.2).flatten

def Alt.slots (a : Alt) : List Slot := a.sends ++ a.recvs

/-- What is done, in order: `W(p->reg.d) = n`, `ptr[0] = n`, the channel's mover, `cputb`,
`cgetb`, `delrun` and `addrun`. -/
inductive Event
  | index (p n : ℕ)
  | word (ptr n : ℕ)
  | copy (c : ℕ) (src dst : Option ℕ)
  | put (c : ℕ) (src : Option ℕ)
  | get (c dst : ℕ)
  | wait (p c : ℕ)
  | run (p : ℕ)
  deriving DecidableEq

/-- `alt` is `p->reg.s` of the Progs in `Palt`, none for another state. -/
structure State where
  chan : ℕ → Channel
  alt : ℕ → Option Alt
  ptr : ℕ → Option ℕ
  log : List Event

def State.q (s : State) (k : Side × ℕ) : Queue := (s.chan k.2).queue k.1

def State.setq (s : State) (k : Side × ℕ) (q : Queue) : State :=
  let c := s.chan k.2
  { s with chan := Function.update s.chan k.2 { c with queue := Function.update c.queue k.1 q } }

def State.write (s : State) (es : List Event) : State := { s with log := s.log ++ es }

def prog (q : Queue) : Option (Option ℕ) := q.map List.head?

def cqaddok (q : Queue) (p : ℕ) (malloc : Bool) : Option (Queue × Bool) :=
  q.map fun l =>
    if l = [] then (some [p], true)
    else if malloc then (some (l ++ [p]), true)
    else (some l, false)

def cqdel (q : Queue) : Queue := q.map List.tail

def cqdelp (q : Queue) (p : ℕ) : Queue :=
  q.bind fun l =>
    let left := l.filter (· ≠ p)
    if 2 ≤ l.length ∧ left = [] then none else some left

def records (p : ℕ) (x : Slot) : List Event :=
  .index p x.n :: x.an.elim [] fun an => [.word x.ptr an]

/-- One round of the loops of `altdone` and `altunmark`. `sel` is nil once it was found. -/
def unmark (p : ℕ) (r : State × Option (Side × ℕ)) (x : Slot) :
    Option (State × Option (Side × ℕ)) :=
  match x.c with
  | none => some r
  | some c =>
    let (s, sel) := r
    match prog (s.q (x.side, c)) with
    | none => none
    | some q =>
      let s := if q.isSome then s.setq (x.side, c) (cqdelp (s.q (x.side, c)) p) else s
      if sel = some (x.side, c) then
        some ({ s with ptr := Function.update s.ptr p (some x.place) }.write (records p x), none)
      else some (s, sel)

def altdone (s : State) (a : Alt) (p : ℕ) (sel : Option (Side × ℕ)) : Option State :=
  (a.slots.foldlM (unmark p) (s, sel)).map (·.1)

inductive Exc
  | exNilref
  | exNomem
  | exAlt
  deriving DecidableEq

structure Rdy where
  s : State
  rdy : List Slot
  e : Option Exc

def markrecv (p : ℕ) (malloc : Slot → Bool) (r : Rdy) (x : Slot) : Option Rdy :=
  match x.c with
  | none => some (if x.an.isSome then r else { r with e := some .exNilref })
  | some c => do
    let sender ← prog (r.s.q (.send, c))
    let (q, ok) ← cqaddok (r.s.q (.recv, c)) p (malloc x)
    some {
      s := r.s.setq (.recv, c) q
      rdy := if sender.isSome || (r.s.chan c).canget then r.rdy ++ [x] else r.rdy
      e := if ok then r.e else some .exNomem }

def marksend (p : ℕ) (malloc : Slot → Bool) (r : Rdy) (x : Slot) : Option Rdy :=
  match x.c with
  | none => some { r with e := some .exNilref }
  | some c => do
    let receiver ← prog (r.s.q (.recv, c))
    let ready := receiver.isSome || (r.s.chan c).canput
    if ready ∧ receiver = some p then some { r with e := some .exAlt }
    else do
      let (q, ok) ← cqaddok (r.s.q (.send, c)) p (malloc x)
      some {
        s := r.s.setq (.send, c) q
        rdy := if ready then r.rdy ++ [x] else r.rdy
        e := if ok then r.e else some .exNomem }

def altrdy (s : State) (a : Alt) (p : ℕ) (malloc : Slot → Bool) :
    Option (State × Except Exc (List Slot)) := do
  let r ← a.recvs.foldlM (markrecv p malloc) ⟨s, [], none⟩
  let r ← a.sends.foldlM (marksend p malloc) r
  match r.e with
  | none => some (r.s, .ok r.rdy)
  | some e => (altdone r.s a p none).map fun s => (s, .error e)

def addrun (s : State) (p : ℕ) : State :=
  { s with alt := Function.update s.alt p none }.write [.run p]

def take (s : State) (k : Side × ℕ) (q : ℕ) : Option State :=
  let s := s.setq k (cqdel (s.q k))
  match s.alt q with
  | none => some s
  | some b => altdone s b q (some k)

def Channel.put (c : Channel) (h : c.canput) : Channel :=
  { c with size := c.size + 1, fits := by simpa [Channel.canput] using h }

def Channel.get (c : Channel) : Channel :=
  { c with size := c.size - 1, fits := (Nat.sub_le ..).trans c.fits }

def cputb (s : State) (c : ℕ) (src : Option ℕ) : State :=
  if h : (s.chan c).canput then
    { s with chan := Function.update s.chan c ((s.chan c).put h) }.write [.put c src]
  else s

def cgetb (s : State) (c dst : ℕ) : State :=
  if (s.chan c).canget then
    { s with chan := Function.update s.chan c (s.chan c).get }.write [.get c dst]
  else s

def block (s : State) (p : ℕ) (k : Side × ℕ) (ptr : ℕ) (malloc : Bool) : Option State :=
  (cqaddok (s.q k) p malloc).map fun (q, ok) =>
    if ok then
      { s.setq k q with ptr := Function.update s.ptr p (some ptr) }.write [.wait p k.2]
    else s

def isend (s : State) (p c src : ℕ) (malloc : Bool) : Option State :=
  match prog (s.q (.recv, c)) with
  | none => none
  | some none =>
    if (s.chan c).canput then some (cputb s c (some src)) else block s p (.send, c) src malloc
  | some (some q) =>
    (take s (.recv, c) q).map fun s =>
      addrun ({ s with ptr := Function.update s.ptr q none }.write
        [.copy c (some src) (s.ptr q)]) q

def irecv (s : State) (p c dst : ℕ) (malloc : Bool) : Option State :=
  match prog (s.q (.send, c)) with
  | none => none
  | some none =>
    if (s.chan c).canget then some (cgetb s c dst) else block s p (.recv, c) dst malloc
  | some (some q) =>
    (take s (.send, c) q).map fun s =>
      let ptr := s.ptr q
      let s := { s with ptr := Function.update s.ptr q none }
      addrun
        (if (s.chan c).buf.isSome then cputb (cgetb s c dst) c ptr
        else s.write [.copy c ptr (some dst)]) q

def ready (s : State) (x : Slot) : Option Bool :=
  match x.c with
  | none => if x.an.isSome then some false else none
  | some c =>
    (prog (s.q (x.side.other, c))).map fun q =>
      q.isSome || match x.side with
        | .send => (s.chan c).canput
        | .recv => (s.chan c).canget

def pick (s : State) : List Slot → ℕ → Option (Option Slot)
  | [], _ => some none
  | x :: l, which =>
    match ready s x with
    | none => none
    | some false => pick s l which
    | some true =>
      match which with
      | 0 => some (some x)
      | which + 1 => pick s l which

def comm (s : State) (p : ℕ) (malloc : Bool) (x : Slot) : Option State :=
  x.c.elim none fun c =>
    match x.side with
    | .send => isend (s.write (records p x)) p c x.place malloc
    | .recv => irecv (s.write (records p x)) p c x.place malloc

def altcomm (s : State) (a : Alt) (p which : ℕ) (malloc : Bool) : Option State :=
  match pick s a.slots which with
  | none => none
  | some none => some s
  | some (some x) => comm s p malloc x

end Infernode.Alts
