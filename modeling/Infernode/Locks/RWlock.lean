import Infernode.Lib.Fifo

/-!
# Reader-writer locks

The locks of `lock.c`, one step for each attempt at a spin lock and one for what
is done under it. A process that waits for a `QLock` blocks on its semaphore,
which `osready` posts. `Pc` is where a process is in the five operations; a
process may hold several locks, and gives back what it took. The log records
what the queues and `canqlock` did.
-/

namespace Infernode.Locks
open Infernode.Lib

variable {P : Type*}

structure QLock (P : Type*) where
  use : Bool
  locked : Bool
  head : Option P
  tail : Option P

inductive Which
  | x
  | k
  deriving DecidableEq

structure RWlock (P : Type*) where
  l : Bool
  x : QLock P
  k : QLock P
  readers : ℕ
  writers : ℕ

inductive Locking
  | rx
  | wx
  | wk
  deriving DecidableEq

/-- The calls of `qunlock`: `rlock` on `x`, `runlock` on `k`, `wunlock` on `k` and
then on `x`. -/
inductive Unlocking
  | rx
  | rk
  | wk
  | wx
  deriving DecidableEq

def Locking.which : Locking → Which
  | .rx => .x
  | .wx => .x
  | .wk => .k

def Unlocking.which : Unlocking → Which
  | .rx => .x
  | .rk => .k
  | .wk => .k
  | .wx => .x

/-- Where a process is. An operation named without its section waits for the spin
lock `l`; `can` tells `canrlock` from `rlock`. -/
inductive Pc (P : Type*)
  | idle
  | qlock (a : Locking)
  | qlocking (a : Locking)
  | osblock (a : Locking)
  | rin (can : Bool)
  | rcount (can : Bool)
  | canqlock (can : Bool)
  | rout (can : Bool)
  | qunlock (a : Unlocking)
  | qunlocking (a : Unlocking)
  | osready (a : Unlocking) (p : P)
  | runlock
  | runcount
  | runout
  | wlock
  | wcount
  | wunlock
  | wuncount

structure Proc (P : Type*) where
  pc : Pc P
  sem : ℕ
  reads : ℕ
  writes : ℕ

inductive Call
  | rlock
  | canrlock
  | runlock
  | wlock
  | wunlock
  deriving DecidableEq

inductive Event (P : Type*)
  | takes (w : Which) (p : P)
  | waits (w : Which) (p : P)
  | hands (w : Which) (p : P)
  | frees (w : Which)
  | canqlock (first ok : Bool)

structure State (P : Type*) where
  rw : RWlock P
  proc : P → Proc P
  qnext : P → Option P
  log : List (Event P)

def RWlock.q (rw : RWlock P) : Which → QLock P
  | .x => rw.x
  | .k => rw.k

def RWlock.setq (rw : RWlock P) (w : Which) (q : QLock P) : RWlock P :=
  match w with
  | .x => { rw with x := q }
  | .k => { rw with k := q }

def QLock.init : QLock P := ⟨false, false, none, none⟩

def State.init : State P :=
  ⟨⟨false, .init, .init, 0, 0⟩, fun _ => ⟨.idle, 0, 0, 0⟩, fun _ => none, []⟩

def Proc.goto (pr : Proc P) (pc : Pc P) : Proc P := { pr with pc := pc }

@[simp] theorem goto_pc (pr : Proc P) (pc : Pc P) : (pr.goto pc).pc = pc := rfl

@[simp] theorem goto_sem (pr : Proc P) (pc : Pc P) : (pr.goto pc).sem = pr.sem := rfl

@[simp] theorem goto_reads (pr : Proc P) (pc : Pc P) : (pr.goto pc).reads = pr.reads := rfl

@[simp] theorem goto_writes (pr : Proc P) (pc : Pc P) : (pr.goto pc).writes = pr.writes := rfl

variable [DecidableEq P]

def State.put (s : State P) (p : P) (pr : Proc P) : State P :=
  { s with proc := Function.update s.proc p pr }

def State.goto (s : State P) (p : P) (pc : Pc P) : State P := s.put p ((s.proc p).goto pc)

def State.setq (s : State P) (w : Which) (q : QLock P) : State P :=
  { s with rw := s.rw.setq w q }

def State.setl (s : State P) (l : Bool) : State P := { s with rw := { s.rw with l := l } }

def State.logs (s : State P) (e : Event P) : State P := { s with log := s.log ++ [e] }

omit [DecidableEq P] in
@[simp] theorem setl_proc (s : State P) (l : Bool) : (s.setl l).proc = s.proc := rfl

omit [DecidableEq P] in
@[simp] theorem logs_rw (s : State P) (e : Event P) : (s.logs e).rw = s.rw := rfl

omit [DecidableEq P] in
theorem q_setq_self (rw : RWlock P) (w : Which) (q : QLock P) : (rw.setq w q).q w = q := by
  cases w <;> rfl

omit [DecidableEq P] in
theorem q_setq_ne {rw : RWlock P} {w v : Which} (q : QLock P) (h : v ≠ w) :
    (rw.setq w q).q v = rw.q v := by
  cases w <;> cases v <;> first | rfl | exact absurd rfl h

def locked (s : State P) (p : P) : Locking → State P
  | .rx => s.goto p (.rin false)
  | .wx => s.goto p (.qlock .wk)
  | .wk => s.put p { s.proc p with pc := .idle, writes := (s.proc p).writes + 1 }

def unlocked (s : State P) (p : P) : Unlocking → State P
  | .rx => s.put p { s.proc p with pc := .idle, reads := (s.proc p).reads + 1 }
  | .rk => s.goto p .runout
  | .wk => s.goto p (.qunlock .wx)
  | .wx => s.goto p .wunlock

def qlocking (s : State P) (p : P) (a : Locking) : State P :=
  let q := s.rw.q a.which
  if q.locked = false then
    locked ((s.setq a.which { q with use := false, locked := true }).logs (.takes a.which p)) p a
  else
    let s := s.setq a.which
      { q with use := false, head := pushhead q.head q.tail p, tail := some p }
    ({ s with qnext := pushnext s.qnext q.tail p }.logs (.waits a.which p)).goto p (.osblock a)

def qunlocking (s : State P) (p : P) (a : Unlocking) : State P :=
  let q := s.rw.q a.which
  match q.head with
  | some r =>
    let tail := if s.qnext r = none then none else q.tail
    ((s.setq a.which { q with use := false, head := s.qnext r, tail := tail }).logs
      (.hands a.which r)).goto p (.osready a r)
  | none =>
    unlocked ((s.setq a.which { q with use := false, locked := false }).logs (.frees a.which)) p a

def rcount (s : State P) (p : P) (can : Bool) : State P :=
  let rw := s.rw
  if can ∧ rw.writers ≠ 0 then (s.setl false).goto p .idle
  else if rw.k.use then
    ({ s with rw := { rw with readers := rw.readers + 1 } }.logs
      (.canqlock (rw.readers = 0) false)).goto p (.rout can)
  else
    { s with rw := { rw with readers := rw.readers + 1, k := { rw.k with use := true } } }.goto p
      (.canqlock can)

def canqlock (s : State P) (p : P) (can : Bool) : State P :=
  let k := s.rw.k
  ((s.setq .k { k with use := false, locked := true }).logs
    (.canqlock (s.rw.readers = 1) (!k.locked))).goto p (.rout can)

def rout (s : State P) (p : P) (can : Bool) : State P :=
  if can then
    (s.setl false).put p { s.proc p with pc := .idle, reads := (s.proc p).reads + 1 }
  else (s.setl false).goto p (.qunlock .rx)

def runcount (s : State P) (p : P) : State P :=
  let readers := s.rw.readers - 1
  { s with rw := { s.rw with readers := readers } }.goto p
    (if readers = 0 then .qunlock .rk else .runout)

def osready (s : State P) (p : P) (a : Unlocking) (r : P) : State P :=
  unlocked (s.put r { s.proc r with sem := (s.proc r).sem + 1 }) p a

def call (s : State P) (p : P) : Call → Option (State P)
  | .rlock => some (s.goto p (.qlock .rx))
  | .canrlock => some (s.goto p (.rin true))
  | .wlock => some (s.goto p .wlock)
  | .runlock =>
    if (s.proc p).reads = 0 then none
    else some (s.put p { s.proc p with pc := .runlock, reads := (s.proc p).reads - 1 })
  | .wunlock =>
    if (s.proc p).writes = 0 then none
    else some (s.put p { s.proc p with pc := .qunlock .wk, writes := (s.proc p).writes - 1 })

def takel (s : State P) (p : P) (pc : Pc P) : Option (State P) :=
  if s.rw.l then none else some ((s.setl true).goto p pc)

def takeuse (s : State P) (p : P) (w : Which) (pc : Pc P) : Option (State P) :=
  if (s.rw.q w).use then none else some ((s.setq w { s.rw.q w with use := true }).goto p pc)

def step (s : State P) (p : P) (c : Call) : Option (State P) :=
  match (s.proc p).pc with
  | .idle => call s p c
  | .qlock a => takeuse s p a.which (.qlocking a)
  | .qlocking a => some (qlocking s p a)
  | .osblock a =>
    if (s.proc p).sem = 0 then none
    else some (locked (s.put p { s.proc p with sem := (s.proc p).sem - 1 }) p a)
  | .rin can => takel s p (.rcount can)
  | .rcount can => some (rcount s p can)
  | .canqlock can => some (canqlock s p can)
  | .rout can => some (rout s p can)
  | .qunlock a => takeuse s p a.which (.qunlocking a)
  | .qunlocking a => some (qunlocking s p a)
  | .osready a r => some (osready s p a r)
  | .runlock => takel s p .runcount
  | .runcount => some (runcount s p)
  | .runout => some ((s.setl false).goto p .idle)
  | .wlock => takel s p .wcount
  | .wcount =>
    some ({ s with rw := { s.rw with l := false, writers := s.rw.writers + 1 } }.goto p
      (.qlock .wx))
  | .wunlock => takel s p .wuncount
  | .wuncount =>
    some ({ s with rw := { s.rw with l := false, writers := s.rw.writers - 1 } }.goto p .idle)

inductive Reached : State P → Prop
  | init : Reached .init
  | step (s s' : State P) (p : P) (c : Call) (h : Reached s) (hs : step s p c = some s') :
      Reached s'

end Infernode.Locks
