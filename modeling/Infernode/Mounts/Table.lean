import Infernode.Lib.Runs
import Infernode.Namespace.Walk

/-!
# The mount table

`cmount` and `cunmount` of `chan.c` over the hash table of a process group, with its
locks. A call comes with what `malloc` answers to `newmount`. A channel is what the two
look at: the file, whether it is a directory, and the channel its server is on.
-/

namespace Infernode.Mounts

open Lib
open Namespace (File Flag MORDER MREPL MBEFORE MAFTER MCREATE MREADONLY)

structure Chan where
  file : File
  qtdir : Bool
  mchan : Option File
  deriving DecidableEq

structure Mount where
  tochan : Chan
  mflag : Flag
  spec : Option String
  mountid : ℕ
  deriving DecidableEq

structure Mhead where
  fromchan : Chan
  mount : List Mount
  lock : Bool
  deriving DecidableEq

/-- `mallocs` is what `malloc` will answer in this call; past its end it succeeds. -/
structure Pgrp where
  mnthash : ℕ → List Mhead
  ns : Bool
  mountid : ℕ
  mallocs : List Bool

inductive Err
  | Emount
  | Eunmount
  | Eunion
  | Enomem
  | deadlock
  deriving DecidableEq

abbrev Call := Proc Pgrp Err

def MNTLOG : ℕ := 5

def MOUNTH (f : File) : ℕ := f.path % 2 ^ MNTLOG

def Pgrp.chain (s : Pgrp) (f : File) (g : List Mhead → List Mhead) : Pgrp :=
  { s with mnthash := Function.update s.mnthash (MOUNTH f) (g (s.mnthash (MOUNTH f))) }

def Pgrp.onhead (s : Pgrp) (f : File) (g : Mhead → Mhead) : Pgrp :=
  s.chain f fun ms => ms.map fun m => if m.fromchan.file = f then g m else m

def Pgrp.head (s : Pgrp) (f : File) : Option Mhead :=
  (s.mnthash (MOUNTH f)).find? fun m => m.fromchan.file = f

def Mhead.locked (m : Mhead) : Mhead := { m with lock := true }

def Mhead.unlocked (m : Mhead) : Mhead := { m with lock := false }

def wlockns : Call Unit := do
  let s ← get
  if s.ns then throw .deadlock
  else set { s with ns := true }

def wunlockns : Call Unit :=
  modify fun s => { s with ns := false }

def wlock (f : File) : Call Unit := do
  let s ← get
  if (s.head f).any (·.lock) then throw .deadlock
  else set (s.onhead f Mhead.locked)

def wunlock (f : File) : Call Unit :=
  modify fun s => s.onhead f Mhead.unlocked

def newmount (tochan : Chan) (flag : Flag) (spec : Option String) : Call Mount := do
  let s ← get
  if s.mallocs.head? = some false then do
    set { s with mallocs := s.mallocs.tail }
    throw .Enomem
  else do
    set { s with mallocs := s.mallocs.tail, mountid := s.mountid + 1 }
    pure ⟨tochan, flag, spec, s.mountid + 1⟩

def copyunion (flg : Flag) : List Mount → Call (List Mount)
  | [] => pure []
  | um :: ums => do
    let f ← newmount um.tochan (flg ||| (um.mflag &&& MREADONLY)) um.spec
    let fs ← copyunion flg ums
    pure (f :: fs)

def place (order : Flag) (nms mount : List Mount) : List Mount :=
  let mount := if order = MREPL then [] else mount
  if mount ≠ [] ∧ order = MAFTER then mount ++ nms else nms ++ mount

def addhead (old : Chan) : Call Unit :=
  modify fun s => s.chain old.file fun ms => ms ++ [⟨old, [], false⟩]

/-- The head of `old`, made when there is none. -/
def gethead (old : Chan) (order : Flag) : Call Unit := do
  let s ← get
  if s.head old.file = none then do
    addhead old
    if order ≠ MREPL then do
      let m ← newmount old 0 none
      modify fun s => s.onhead old.file fun h => { h with mount := [m] }
    else pure ()
  else pure ()

def fillhead (new : Chan) (union : List Mount) (old : Chan) (flag : Flag)
    (spec : Option String) : Call ℕ := do
  let order := flag &&& MORDER
  wunlockns
  let nm ← newmount new flag spec
  let flg := (if order = MREPL then MAFTER else order) ||| (flag &&& MREADONLY)
  let fs ← copyunion flg union.tail
  let nm := if flag &&& MCREATE ≠ 0 then { nm with mflag := nm.mflag ||| MCREATE } else nm
  modify fun s => s.onhead old.file fun h => { h with mount := place order (nm :: fs) h.mount }
  wunlock old.file
  pure nm.mountid

/-- What `cmount` refuses: a directory mounted on a file or the other way, a union at a
file, and a union bound as one that takes new files. -/
def Refused (new : Chan) (union : List Mount) (old : Chan) (flag : Flag) : Prop :=
  new.qtdir ≠ old.qtdir ∨ (old.qtdir = false ∧ flag &&& MORDER ≠ MREPL) ∨
    (flag &&& MCREATE ≠ 0 ∧ union ≠ [] ∧
      (union.tail ≠ [] ∨ ∀ um ∈ union.head?, um.mflag &&& MCREATE = 0))

instance (new : Chan) (union : List Mount) (old : Chan) (flag : Flag) :
    Decidable (Refused new union old flag) := by
  unfold Refused
  infer_instance

def cmount (new : Chan) (umh : Option (List Mount)) (old : Chan) (flag : Flag)
    (spec : Option String) : Call ℕ := do
  let order := flag &&& MORDER
  let union := umh.getD []
  if Refused new union old flag then throw .Emount
  else do
    wlockns
    gethead old order
    wlock old.file
    tryCatch (fillhead new union old flag spec) fun e => do
      wunlock old.file
      throw e

def unlink (f : File) : Call Unit :=
  modify fun s => s.chain f fun ms => ms.eraseP fun m => m.fromchan.file = f

def Mount.is (m : Mount) (mounted : Chan) : Bool :=
  m.tochan.file = mounted.file || m.tochan.mchan = some mounted.file

def cunmount (mnt : Chan) (mounted : Option Chan) : Call Unit := do
  wlockns
  let s ← get
  match s.head mnt.file with
  | none => do
    wunlockns
    throw .Eunmount
  | some m => do
    wlock mnt.file
    match mounted with
    | none => do
      unlink mnt.file
      wunlockns
    | some mounted =>
      if m.mount.any (·.is mounted) then do
        let rest := m.mount.eraseP (·.is mounted)
        if rest = [] then do
          unlink mnt.file
          wunlockns
        else do
          modify fun s => s.onhead mnt.file fun h => { h with mount := rest }
          wunlock mnt.file
          wunlockns
      else do
        wunlock mnt.file
        wunlockns
        throw .Eunion

/-- What is found at `f`: its head's first mount, which is followed with no check. A nil
mount is followed where there is no answer. -/
def findmount (s : Pgrp) (f : File) : Option (Option Chan) :=
  match s.head f with
  | none => some none
  | some m => m.mount.head?.map fun nm => some nm.tochan

inductive Act
  | mount (new : Chan) (umh : Option (List Mount)) (old : Chan) (flag : Flag)
      (spec : Option String) (mallocs : List Bool)
  | unmount (mnt : Chan) (mounted : Option Chan)

def call : Act → Call Unit
  | .mount new umh old flag spec mallocs => do
    modify fun s => { s with mallocs := mallocs }
    let _ ← cmount new umh old flag spec
    pure ()
  | .unmount mnt mounted => cunmount mnt mounted

def step (s : Pgrp) (a : Act) : Pgrp :=
  match call a s with
  | .ok _ s' => s'
  | .error _ s' => s'

def newpgrp : Pgrp := ⟨fun _ => [], false, 0, []⟩

end Infernode.Mounts
