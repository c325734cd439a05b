import Mathlib

/-!
# Walking a name space

`walk` of `chan.c` with the mount-point stack: batches of at most `MAXWELEM`
names go to a device, mounts are crossed where a batch meets them or at the
start of the next one, and `..` is undone from the stack. A channel is the file
it names and its mount flags; which files are directories, what they hold and
what is above them is the device's to say. Reference counts and the text of the
name are left out.
-/

namespace Infernode.Namespace

abbrev Flag := BitVec 32

abbrev MORDER : Flag := 0x3#32
abbrev MREPL : Flag := 0x0#32
abbrev MBEFORE : Flag := 0x1#32
abbrev MAFTER : Flag := 0x2#32
abbrev MCREATE : Flag := 0x4#32
abbrev MREADONLY : Flag := 0x8#32
abbrev MAXWELEM : ℕ := 16

structure File where
  type : ℕ
  dev : ℕ
  path : ℕ
  deriving DecidableEq

structure Chan where
  file : File
  mflag : Flag
  deriving DecidableEq

structure Bound where
  tochan : Chan
  mflag : Flag
  deriving DecidableEq

structure Mhead where
  fromchan : Chan
  mount : List Bound
  deriving DecidableEq

structure MountTable where
  find : File → Option Mhead
  keyed : ∀ f m, find f = some m → m.fromchan.file = f

/-- What a device answers: the path of a named file in a directory, the path of
a file's parent, and whether a file is a directory. -/
structure Device where
  child : File → String → Option ℕ
  parent : File → ℕ
  dir : File → Bool

inductive Elem
  | dotdot
  | name (s : String)
  deriving DecidableEq

abbrev Mtpt := List (Option Chan)

def File.at (f : File) (path : ℕ) : File := { f with path := path }

def Chan.at (c : Chan) (path : ℕ) : Chan := { c with file := c.file.at path }

def Bound.chan (b : Bound) : Chan := { b.tochan with mflag := b.mflag }

def readonly (f : Flag) : Bool := f &&& MREADONLY ≠ 0

section
variable (D : Device)

def lookup (f : File) (s : String) : Option ℕ := if D.dir f then D.child f s else none

def walkqids (f : File) : List String → List ℕ
  | [] => []
  | s :: names =>
    match lookup D f s with
    | none => []
    | some q => q :: walkqids (f.at q) names

structure Walkqid where
  clone : Option Chan
  qid : List ℕ
  deriving DecidableEq

def devwalk (c : Chan) (names : List String) : Option Walkqid :=
  match walkqids D c.file names with
  | [] => none
  | q :: qs =>
    some ⟨if (q :: qs).length = names.length then some (c.at ((q :: qs).getLastD 0)) else none,
      q :: qs⟩

def devwalkdotdot (c : Chan) : Chan := c.at (D.parent c.file)

def cnamecross (n : Mtpt) (mp : Chan) : Mtpt :=
  match n with
  | [] => []
  | _ :: rest => some mp :: rest

def adddotdot (n : Mtpt) : Mtpt := if 1 < n.length then n.tail else n

def undomount (c : Chan) (n : Mtpt) : Chan × Mtpt :=
  match n with
  | [] => (c, [])
  | [slot] => (slot.getD c, [slot])
  | slot :: rest => (slot.getD c, none :: rest)

variable (T : MountTable)

inductive Errstr
  | notdir
  | doesnotexist
  | device
  | fault
  deriving DecidableEq

structure WalkError where
  nerror : ℕ
  errstr : Errstr
  deriving DecidableEq

structure WalkState where
  c : Chan
  mh : Option Mhead
  didmount : Bool
  name : Mtpt
  deriving DecidableEq

def Mhead.first (m : Mhead) (n : ℕ) : Except WalkError Bound :=
  match m.mount with
  | [] => .error ⟨n, .fault⟩
  | b :: _ => .ok b

def batch : ℕ → List Elem → List String
  | n + 1, .name s :: names => s :: batch n names
  | _, _ => []

def unionwalk (names : List String) : List Bound → Option (Bound × Walkqid)
  | [] => none
  | b :: bs =>
    match devwalk D b.tochan names with
    | some wq => some (b, wq)
    | none => unionwalk names bs

def findmounts (f : File) : List ℕ → Option (ℕ × ℕ × Mhead)
  | [] => none
  | q :: qs =>
    match T.find (f.at q) with
    | some m => some (0, q, m)
    | none => (findmounts f qs).map fun r => (r.1 + 1, r.2)

def domount (nomount : Bool) (s : WalkState) (nhave : ℕ) : Except WalkError WalkState :=
  if !nomount && !s.didmount then
    match T.find s.c.file with
    | none => .ok s
    | some m => do
      let b ← m.first nhave
      .ok { s with
        c := b.chan
        mh := some m
        name := cnamecross s.name m.fromchan }
  else .ok s

def request (nomount : Bool) (s : WalkState) (nhave : ℕ) (names : List String) :
    Except WalkError (Chan × Walkqid) :=
  match devwalk D s.c names with
  | some wq => .ok (s.c, wq)
  | none =>
    match (if nomount then none else s.mh).bind fun m => unionwalk D names m.mount.tail with
    | some (b, wq) => .ok (b.chan, wq)
    | none => .error ⟨nhave + 1, .device⟩

def arrive (nomount : Bool) (name : Mtpt) (nhave ntry : ℕ) (c : Chan) (wq : Walkqid) :
    Except WalkError (WalkState × ℕ) :=
  match (if nomount then none else findmounts T c.file (wq.qid.take (ntry - 1))) with
  | some (i, _, m) => do
    let b ← m.first nhave
    .ok (⟨b.chan, some m, true, some m.fromchan :: (List.replicate i none ++ name)⟩, i + 1)
  | none =>
    match wq.clone with
    | some nc =>
      .ok (⟨{ nc with mflag := c.mflag }, none, false,
        List.replicate wq.qid.length none ++ name⟩, wq.qid.length)
    | none =>
      .error (if D.dir (c.file.at (wq.qid.getLastD 0)) then
        ⟨nhave + wq.qid.length + 1, .doesnotexist⟩ else ⟨nhave + wq.qid.length, .notdir⟩)

def walkround (nomount : Bool) (s : WalkState) (nhave : ℕ) (names : List Elem) :
    Except WalkError (WalkState × ℕ) :=
  if D.dir s.c.file = false then .error ⟨nhave, .notdir⟩
  else
    match batch MAXWELEM names with
    | [] =>
      let (c, name) := undomount (devwalkdotdot D s.c) (adddotdot s.name)
      .ok (⟨c, none, false, name⟩, 1)
    | ns => do
      let s ← domount T nomount s nhave
      let (c, wq) ← request D nomount s nhave ns
      arrive D T nomount s.name nhave ns.length c wq

def walkloop (nomount : Bool) : ℕ → WalkState → ℕ → List Elem → Except WalkError WalkState
  | _, s, _, [] => .ok s
  | 0, _, nhave, _ => .error ⟨nhave, .fault⟩
  | fuel + 1, s, nhave, names => do
    let (s, n) ← walkround D T nomount s nhave names
    walkloop nomount fuel s (nhave + n) (names.drop n)

structure Named where
  c : Chan
  name : Mtpt
  deriving DecidableEq

def pin (p : Named) : Mtpt := if p.name = [] then [some p.c] else p.name

def walk (p : Named) (names : List Elem) (nomount : Bool) : Except WalkError Named := do
  let s ← walkloop D T nomount names.length ⟨p.c, none, false, pin p⟩ 0 names
  .ok ⟨s.c, s.name⟩

end

end Infernode.Namespace
