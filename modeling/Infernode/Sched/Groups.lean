import Infernode.Lib.Runs

/-!
# Process groups

The Progs of a VM in their tree of groups, and the threads that kill them: `killprog`, `killgrp`
and `killgrptree` of `dis.c`, each cut where it may let another thread have the VM.
-/

namespace Infernode.Sched

/-- `Pexiting` is either left by the Prog itself, or by the thread that kills it. -/
inductive PState
  | ready | alt | send | recv | release | exiting (itself : Bool) | broken | debug
  deriving DecidableEq

/-- `killed` is `Pkilled`; a Prog that is `calling` is in a kill and does nothing else. -/
structure Prog where
  state : PState
  group : ℕ
  kill : Bool
  killed : Bool
  addrun : Bool
  debug : Bool
  calling : Bool

structure Progs where
  killed : Bool
  parent : Option ℕ

/-- The Progs that are linked by their pids, the groups by their ids, the Progs that are unlinked
and wait for their closes, and what was freed. -/
structure Vm where
  pidnum : ℕ
  prog : ℕ → Option Prog
  grp : ℕ → Option Progs
  closing : ℕ → Bool
  freed : List ℕ
  freedgrp : List ℕ

def PState.isExiting : PState → Bool
  | .exiting _ => true
  | _ => false

def Vm.within (vm : Vm) (g p : ℕ) : Bool := (vm.prog p).any fun P => P.group = g

def Vm.head (vm : Vm) (g : ℕ) : List ℕ := (List.range (vm.pidnum + 1)).filter (vm.within g)

def Vm.put (vm : Vm) (p : ℕ) (P : Prog) : Vm :=
  { vm with prog := Function.update vm.prog p (some P) }

def Vm.freegrp (vm : Vm) (g : ℕ) (G : Progs) : Vm :=
  { vm with
    grp := fun h => if h = g then none else (vm.grp h).map fun H =>
      if H.parent = some g then { H with parent := G.parent } else H
    freedgrp := g :: vm.freedgrp }

def Vm.moveup : ℕ → Vm → ℕ → Vm × Option ℕ
  | 0, vm, g => (vm, some g)
  | k + 1, vm, g =>
    if vm.head g ≠ [] then (vm, some g)
    else
      match vm.grp g with
      | none => (vm, none)
      | some G =>
        match G.parent with
        | none => (vm.freegrp g G, none)
        | some pg => Vm.moveup k (vm.freegrp g G) pg

def Vm.delgrp (vm : Vm) (g : ℕ) : Vm × Option ℕ := vm.moveup (vm.pidnum + 1) g

def Vm.newprog (vm : Vm) (p : ℕ) : Vm :=
  match vm.prog p with
  | none => vm
  | some P =>
    let killed := P.killed || (vm.grp P.group).any (·.killed)
    if P.kill || killed then vm.put p { P with killed := killed }
    else
      { vm with pidnum := vm.pidnum + 1 }.put (vm.pidnum + 1)
        ⟨.ready, P.group, false, false, false, false, false⟩

def Vm.newgrp (vm : Vm) (p : ℕ) : Vm :=
  match vm.prog p with
  | none => vm
  | some P =>
    if P.group = p then vm
    else
      let r := (vm.put p { P with group := p }).delgrp P.group
      { r.1 with grp := Function.update r.1.grp p (some ⟨false, r.2⟩) }

def Vm.unlink (vm : Vm) (p : ℕ) : Vm :=
  match vm.prog p with
  | none => vm
  | some P =>
    ({ vm with
      prog := Function.update vm.prog p none
      closing := Function.update vm.closing p true }.delgrp P.group).1

def Vm.free (vm : Vm) (p : ℕ) : Vm :=
  { vm with closing := Function.update vm.closing p false, freed := p :: vm.freed }

/-- `killprog` up to `propex`, and whether it goes on; `runhd` says that `f` is at the head of the
run queue. -/
def Vm.killprog (vm : Vm) (f : ℕ) (runhd : Bool) : Vm × Bool :=
  match vm.prog f with
  | none => (vm, false)
  | some P =>
    if runhd && P.state = .ready then
      (vm.put f { P with kill := true, killed := true, state := .exiting true }, false)
    else
      match P.state with
      | .release =>
        (vm.put f { P with kill := true, killed := true, state := .exiting true }, false)
      | .exiting _ => (vm, false)
      | _ =>
        if P.addrun then
          (vm.put f { P with kill := true, killed := true, addrun := false, state := .ready },
            false)
        else if P.debug then (vm.put f { P with state := .broken, debug := false }, false)
        else (vm.put f { P with state := .exiting false }, true)

def Prog.breaks (P : Prog) (runhd : Bool) : Bool :=
  P.debug && !P.addrun && !P.state.isExiting && P.state ≠ .release &&
    !(runhd && P.state = .ready)

def Vm.flag (vm : Vm) (b : Bool) (on : ℕ → Bool) : Vm :=
  { vm with grp := fun g => (vm.grp g).map fun G => if on g then { G with killed := b } else G }

def Vm.below (vm : Vm) (h : ℕ) : ℕ → ℕ → Bool
  | 0, g => g = h
  | k + 1, g => g = h || ((vm.grp g).bind (·.parent)).any fun pg => vm.below h k pg

/-- A kill of a Prog, of a group by the list of its pids or with no memory for it, and of a
tree; and the wait of `killgrp` for another kill of the group that `p` is in. -/
inductive Kind
  | prog
  | wait (p gid : ℕ) (mem : Bool)
  | grp
  | low (n : ℕ)
  | tree
  deriving DecidableEq

/-- A thread in a kill: the Prog that calls it, the Progs of its groups at the call, the groups
and pids that it is to kill, the pids left, the Progs that it is killing, the innermost first
and unlinked or not, and the Progs that those to be killed have made since. -/
structure Task where
  self : Option ℕ
  kind : Kind
  called : List ℕ
  gids : List ℕ
  pids : List ℕ
  rest : List ℕ
  doing : List (ℕ × Bool)
  born : List ℕ

def Task.targets (T : Task) : List ℕ := T.called ++ T.born ++ T.pids

structure State where
  vm : Vm
  task : ℕ → Option Task

inductive Event
  | newprog (p : ℕ)
  | newgrp (p : ℕ)
  | change (p : ℕ) (state : PState) (addrun debug kill : Bool)
  | exit (i p : ℕ) (broken : Bool)
  | kill (i : ℕ) (self : Option ℕ) (f : ℕ)
  | killgrp (i : ℕ) (self : Option ℕ) (p gid : ℕ) (mem : Bool)
  | retry (i : ℕ)
  | killgrptree (i : ℕ) (self : Option ℕ) (p : ℕ) (mem : Bool)
  | next (i : ℕ) (runhd : Bool)
  | propex (i f : ℕ) (runhd : Bool)
  | unlink (i : ℕ)
  | free (i : ℕ)
  | finish (i : ℕ)
  | error (i : ℕ)

def Prog.runs (P : Prog) : Bool :=
  !P.calling && (P.state = .ready || P.state = .release)

def Vm.runs (vm : Vm) (p : ℕ) : Bool := (vm.prog p).any Prog.runs

def PState.still : PState → Bool
  | .exiting _ | .broken => false
  | _ => true

def Vm.change (vm : Vm) (p : ℕ) (state : PState) (addrun debug kill : Bool) : Vm :=
  match vm.prog p with
  | none => vm
  | some P =>
    if P.state.still && state.still then
      if P.calling then vm.put p { P with debug := debug, kill := kill }
      else vm.put p { P with state := state, addrun := addrun, debug := debug, kill := kill }
    else vm

def Vm.call (vm : Vm) (self : Option ℕ) (b : Bool) : Vm :=
  match self with
  | none => vm
  | some p =>
    match vm.prog p with
    | none => vm
    | some P => vm.put p { P with calling := b }

def State.set (s : State) (i : ℕ) (vm : Vm) (T : Option Task) : State :=
  ⟨vm, Function.update s.task i T⟩

def Vm.cancall (vm : Vm) (self : Option ℕ) : Bool := self.all vm.runs

def Vm.first (vm : Vm) (T : Task) : Option ℕ :=
  (vm.head (T.gids.headD 0)).find? fun p => (vm.prog p).any fun P =>
    T.self ≠ some p && !P.killed && !P.state.isExiting && P.state ≠ .broken

def State.take (s : State) (i : ℕ) (T : Task) (f : ℕ) (runhd : Bool) : State :=
  let r := s.vm.killprog f runhd
  s.set i r.1 (some { T with doing := if r.2 then (f, false) :: T.doing else T.doing })

def State.next (s : State) (i : ℕ) (T : Task) (runhd : Bool) : State :=
  match T.kind with
  | .low n =>
    match n with
    | 0 => s
    | n + 1 =>
      match s.vm.first T with
      | none => s.set i s.vm (some { T with kind := .low 0 })
      | some f => s.take i { T with kind := .low n } f runhd
  | _ =>
    match T.rest with
    | [] => s
    | f :: rest =>
      if T.self = some f then s.set i s.vm (some { T with rest := rest })
      else s.take i { T with rest := rest } f runhd

def Task.finished (T : Task) : Bool :=
  T.doing = [] && (match T.kind with
    | .low n => n = 0
    | .wait .. => false
    | _ => T.rest = [])

def Task.clears (T : Task) (vm : Vm) (g : ℕ) : Bool :=
  g ∈ T.gids && (match T.kind with
    | .grp => T.pids.any (vm.within g)
    | _ => vm.head g ≠ [])

def State.leave (s : State) (i : ℕ) (T : Task) : State :=
  s.set i ((s.vm.flag false (T.clears s.vm)).call T.self false) none

def Task.bear (T : Task) (p n : ℕ) : Task :=
  if p ∈ T.targets then { T with born := n :: T.born } else T

def State.newprog (s : State) (p : ℕ) : State :=
  let vm := s.vm.newprog p
  if vm.pidnum = s.vm.pidnum then { s with vm := vm }
  else ⟨vm, fun i => (s.task i).map fun T => T.bear p vm.pidnum⟩

def State.begin (s : State) (i : ℕ) (T : Task) (gid : ℕ) (mem : Bool) : State :=
  let pids := s.vm.head gid
  s.set i (s.vm.flag true (· = gid)) (some { T with
    kind := if mem then .grp else .low pids.length
    gids := [gid]
    pids := pids
    rest := if mem then pids else [] })

def State.killgrp (s : State) (i : ℕ) (self : Option ℕ) (p gid : ℕ) (mem : Bool) : State :=
  if s.vm.within gid p && s.vm.cancall self then
    let T : Task := ⟨self, .wait p gid mem, s.vm.head gid, [], [], [], [], []⟩
    let r := s.set i (s.vm.call self true) (some T)
    if (s.vm.grp gid).any (·.killed) then r else r.begin i T gid mem
  else s

def State.retry (s : State) (i : ℕ) (T : Task) : State :=
  match T.kind with
  | .wait p gid mem =>
    if !s.vm.within gid p then s.set i s.vm (some { T with kind := .prog })
    else if (s.vm.grp gid).any (·.killed) then s
    else s.begin i T gid mem
  | _ => s

def Vm.tree (vm : Vm) (p : ℕ) : List ℕ :=
  (List.range (vm.pidnum + 1)).filter fun f =>
    (vm.prog p).any fun P => (vm.prog f).any fun F => vm.below P.group (vm.pidnum + 1) F.group

def State.killgrptree (s : State) (i : ℕ) (self : Option ℕ) (p : ℕ) (mem : Bool) : State :=
  if mem && (s.vm.prog p).isSome && s.vm.cancall self then
    let pids := s.vm.tree p
    let gids := pids.filterMap fun f => (s.vm.prog f).map (·.group)
    s.set i ((s.vm.flag true (· ∈ gids)).call self true) (some
      { self := self
        kind := .tree
        called := pids
        gids := gids
        pids := pids
        rest := pids
        doing := []
        born := [] })
  else s

def State.exit (s : State) (i p : ℕ) (broken : Bool) : State :=
  match s.vm.prog p with
  | none => s
  | some P =>
    if P.state = .exiting true && !P.calling || P.runs then
      if P.debug || broken then
        { s with vm := s.vm.put p { P with state := .broken, debug := false } }
      else
        s.set i (s.vm.unlink p) (some ⟨none, .prog, [], [], [], [], [(p, true)], []⟩)
    else s

def step (s : State) : Event → State
  | .newprog p => if s.vm.runs p then s.newprog p else s
  | .newgrp p => if s.vm.runs p then { s with vm := s.vm.newgrp p } else s
  | .change p state addrun debug kill =>
    { s with vm := s.vm.change p state addrun debug kill }
  | .exit i p broken => if (s.task i).isNone then s.exit i p broken else s
  | .kill i self f =>
    if (s.task i).isNone && s.vm.cancall self then
      s.set i (s.vm.call self true) (some ⟨self, .prog, [], [], [], [f], [], []⟩)
    else s
  | .killgrp i self p gid mem => if (s.task i).isNone then s.killgrp i self p gid mem else s
  | .retry i =>
    match s.task i with
    | some T => s.retry i T
    | none => s
  | .killgrptree i self p mem => if (s.task i).isNone then s.killgrptree i self p mem else s
  | .next i runhd =>
    match s.task i with
    | some T => if T.doing = [] then s.next i T runhd else s
    | none => s
  | .propex i f runhd =>
    match s.task i with
    | some T =>
      match T.doing with
      | (_, false) :: _ => s.take i T f runhd
      | _ => s
    | none => s
  | .unlink i =>
    match s.task i with
    | some T =>
      match T.doing with
      | (f, false) :: doing => s.set i (s.vm.unlink f) (some { T with doing := (f, true) :: doing })
      | _ => s
    | none => s
  | .free i =>
    match s.task i with
    | some T =>
      match T.doing with
      | (f, true) :: doing => s.set i (s.vm.free f) (some { T with doing := doing })
      | _ => s
    | none => s
  | .finish i =>
    match s.task i with
    | some T => if T.finished then s.leave i T else s
    | none => s
  | .error i =>
    match s.task i with
    | some T => if T.doing = [] then s.leave i T else s
    | none => s

def boot : State where
  vm :=
    { pidnum := 1
      prog := fun p => if p = 1 then some ⟨.ready, 1, false, false, false, false, false⟩ else none
      grp := fun g => if g = 1 then some ⟨false, none⟩ else none
      closing := fun _ => false
      freed := []
      freedgrp := [] }
  task _ := none

end Infernode.Sched
