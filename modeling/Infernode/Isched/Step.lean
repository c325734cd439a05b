import Infernode.Isched.Runq
import Infernode.Isched.Vm

/-!
# The scheduler

The run queue is spliced by the proc that has the VM; a Prog's state is set beside. A Prog is
put back at the head by `acquire`, from the proc that carried it while it had not the VM.
-/

namespace Infernode.Isched

inductive PState
  | ready | alt | send | recv | release | exiting | broken | debug | dead
  deriving DecidableEq

inductive Hook
  | cwakeme | dbgaddrun
  deriving DecidableEq

inductive Who
  | own (i : ℕ)
  | pid (n : ℕ)
  deriving DecidableEq

structure Prog where
  state : PState
  hook : Option Hook
  killed : Bool

inductive PType
  | other | interp | gc
  deriving DecidableEq

structure State where
  vm : Vm
  type : ℕ → PType
  iprog : ℕ → Option Who
  runq : Runq Who
  prog : Who → Prog
  pidnum : ℕ
  -- the Progs that a killer is to free
  dying : ℕ → Bool
  -- a debugger waits for one to stop
  stepped : ℕ → Bool

inductive Event
  | appear (i : ℕ)
  | acquire (i : ℕ)
  | wake (i : ℕ)
  | release (i : ℕ)
  | osready (i : ℕ)
  | kproc (i k : ℕ)
  | nokproc (i : ℕ)
  | iyield (i : ℕ)
  | startup (i : ℕ)
  | delrun (i : ℕ) (st : PState)
  | delruntail (i : ℕ) (again : Bool)
  | newprog (i : ℕ)
  | addrun (i n : ℕ)
  | exprog (i n : ℕ)
  | dbgstart (i n : ℕ)
  | dbgstep (i n : ℕ)
  | dbgend (i n : ℕ)
  | dbgblock (i n : ℕ)
  | cblock (i : ℕ)
  | gc (i : ℕ)
  | gcend (i : ℕ)
  | killprog (i n : ℕ) (debugged : Bool)
  | delprog (i n : ℕ)
  | rotate (i : ℕ)

def State.set (s : State) (p : Who) (P : Prog) : State :=
  { s with prog := Function.update s.prog p P }

def State.setstate (s : State) (p : Who) (st : PState) : State :=
  s.set p { s.prog p with state := st }

def State.takerun (s : State) (i : ℕ) : State :=
  let put (s : State) (p : Who) : State :=
    { s.set p { s.prog p with
        state := .ready
        hook := if (s.prog p).hook = some .cwakeme then none else (s.prog p).hook } with
      runq := s.runq.push p }
  if s.type i = .interp then
    match s.iprog i with
    | some p => put { s with iprog := Function.update s.iprog i none } p
    | none => s
  else put s (.own i)

def State.acquire (s : State) (i : ℕ) : State :=
  if s.vm.idle then { s with vm := s.vm.acquire i }.takerun i
  else { s with vm := s.vm.acquire i }

def State.wake (s : State) (i : ℕ) : State :=
  match s.vm.place i with
  | .acquiring => { s with vm := s.vm.wake i }.takerun i
  | .idling => { s with vm := s.vm.wake i }
  | _ => s

def State.release (s : State) (i : ℕ) : State :=
  match s.runq.runhd with
  | none => s
  | some r =>
    { s.setstate r .release with
      runq := s.runq.delrun
      iprog := if s.type i = .interp then Function.update s.iprog i (some r) else s.iprog
      vm := s.vm.release i }

def State.startup (s : State) (i : ℕ) : State :=
  { s with
    type := Function.update s.type i .interp
    iprog := Function.update s.iprog i none
    vm := s.vm.startup i }

def State.addrun (s : State) (p : Who) : State :=
  match (s.prog p).hook with
  | some .cwakeme => s.set p { s.prog p with hook := none }
  | some .dbgaddrun => s.set p { s.prog p with hook := none, state := .debug }
  | none => { s.setstate p .ready with runq := s.runq.addrun p }

def PState.blocked : PState → Bool
  | .alt | .send | .recv => true
  | _ => false

def State.delrunq (s : State) (p : Who) : Runq Who :=
  s.runq.delrunq (s.pidnum + 2) p

def State.killoff (s : State) (n : ℕ) (debugged : Bool) : State :=
  let P := s.prog (.pid n)
  match P.hook with
  | some .cwakeme => s.set (.pid n) { P with hook := none, killed := true }
  | some .dbgaddrun => s.set (.pid n) { P with hook := none, killed := true, state := .debug }
  | none =>
    if debugged then s.setstate (.pid n) .broken
    else { s.setstate (.pid n) .exiting with dying := Function.update s.dying n true }

def State.killprog (s : State) (n : ℕ) (debugged : Bool) : State :=
  let P := s.prog (.pid n)
  if s.runq.runhd = some (.pid n) then s.set (.pid n) { P with killed := true, state := .exiting }
  else
    match P.state with
    | .release => s.set (.pid n) { P with killed := true, state := .exiting }
    | .exiting | .dead => s
    | .ready => { s with runq := s.delrunq (.pid n) }.killoff n debugged
    | _ => s.killoff n debugged

def State.delprog (s : State) (n : ℕ) : State :=
  { s.setstate (.pid n) .dead with
    dying := Function.update s.dying n false
    runq := if s.runq.runhd = some (.pid n) then s.runq.delrun else s.runq }

def State.newprog (s : State) : State :=
  let p := .pid (s.pidnum + 1)
  { s.set p ⟨.ready, none, false⟩ with
    pidnum := s.pidnum + 1
    runq := s.runq.addrun p }

def State.delruntail (s : State) (p : Who) (again : Bool) : State :=
  let s := { s.setstate p .debug with runq := s.delrunq p }
  if again then s.addrun p else s

def State.dbgblock (s : State) (i n : ℕ) : State :=
  { s.set (.pid n) { s.prog (.pid n) with state := .ready, hook := some .dbgaddrun } with
    runq := s.runq.push (.pid n) }.release i

def State.gc (s : State) (i : ℕ) : State :=
  { s.set (.own i) ⟨.ready, none, false⟩ with
    type := Function.update s.type i .gc
    -- idle, or busy
    runq := if s.runq.runhd.isNone then s.runq.addrun (.own i) else s.runq.push (.own i) }

def State.gcend (s : State) (i : ℕ) : State :=
  { s with
    type := Function.update s.type i .interp
    runq := s.delrunq (.own i) }

def State.interp (s : State) (i : ℕ) : Prop := s.vm.place i = .has ∧ s.type i = .interp

instance (s : State) (i : ℕ) : Decidable (s.interp i) := inferInstanceAs (Decidable (_ ∧ _))

def step (s : State) : Event → State
  | .appear i => if s.vm.place i = .absent then { s with vm := s.vm.at i .out } else s
  | .acquire i => if s.vm.place i = .out then s.acquire i else s
  | .wake i => if s.vm.woken i then s.wake i else s
  | .release i => if s.vm.place i = .has then s.release i else s
  | .osready i =>
    match s.vm.place i with
    | .readying p yields => { s with vm := s.vm.osready i p yields }
    | _ => s
  | .kproc i k =>
    if s.vm.place i = .making ∧ s.vm.place k = .absent then { s with vm := s.vm.kproc i k } else s
  | .nokproc i => if s.vm.place i = .making then { s with vm := s.vm.at i .out } else s
  | .iyield i => if s.interp i then { s with vm := s.vm.iyield i } else s
  | .startup i => if s.vm.place i = .coming then s.startup i else s
  | .delrun i st =>
    match s.runq.runhd with
    | some r =>
      if s.interp i ∧ (st.blocked ∨ st = .debug ∨ st = .broken) then
        { s.setstate r st with runq := s.runq.delrun }
      else s
    | none => s
  | .delruntail i again =>
    match s.runq.runtl with
    | some p => if s.interp i then s.delruntail p again else s
    | none => s
  | .newprog i => if s.vm.place i = .has then s.newprog else s
  | .addrun i n =>
    let P := s.prog (.pid n)
    if s.vm.place i = .has ∧ (P.state.blocked ∨ P.hook.isSome) then s.addrun (.pid n) else s
  | .exprog i n =>
    if s.vm.place i = .has ∧ (s.prog (.pid n)).state.blocked then s.addrun (.pid n) else s
  | .dbgstart i n =>
    if s.vm.place i = .has ∧ s.stepped n = false ∧ (s.prog (.pid n)).state = .debug then
      s.addrun (.pid n)
    else s
  | .dbgstep i n =>
    let P := s.prog (.pid n)
    if s.vm.place i = .has ∧ s.stepped n = false ∧ s.runq.runhd ≠ some (.pid n) ∧
        P.state ≠ .broken then
      { if P.state = .debug then s.addrun (.pid n) else s with
        stepped := Function.update s.stepped n true }
    else s
  | .dbgend i n =>
    -- told by the Prog, or interrupted
    if s.vm.place i = .has then { s with stepped := Function.update s.stepped n false } else s
  | .dbgblock i n =>
    let P := s.prog (.pid n)
    -- `pushrun` panics if it has a hook
    if s.interp i ∧ P.state.blocked ∧ P.hook.isNone then s.dbgblock i n else s
  | .cblock i =>
    match s.runq.runhd with
    | some r =>
      if s.interp i then (s.set r { s.prog r with hook := some .cwakeme }).release i else s
    | none => s
  | .gc i => if s.interp i then s.gc i else s
  | .gcend i => if s.vm.place i = .has ∧ s.type i = .gc then s.gcend i else s
  | .killprog i n debugged => if s.vm.place i = .has then s.killprog n debugged else s
  | .delprog i n =>
    if s.vm.place i = .has ∧
        (s.dying n ∨ s.type i = .interp ∧ s.runq.runhd = some (.pid n)) then
      s.delprog n
    else s
  | .rotate i => if s.interp i then { s with runq := s.runq.rotate } else s

def boot : State where
  vm := {
    idle := false
    creating := false
    vmq := none
    vmqt := none
    idlevmq := none
    qnext _ := none
    place i := if i = 0 then .has else .absent
    woken _ := false
    arrived := []
    granted := [] }
  type i := if i = 0 then .interp else .other
  iprog _ := none
  runq := ⟨some (.pid 1), some (.pid 1), fun _ => none⟩
  prog p := ⟨if p = .pid 1 then .ready else .dead, none, false⟩
  pidnum := 1
  dying _ := false
  stepped _ := false

end Infernode.Isched
