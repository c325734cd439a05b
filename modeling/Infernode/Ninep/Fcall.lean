import Infernode.Lib.Cursor

/-!
# 9P messages and their bytes

An `Fcall` is encoded by `convS2M` after `sizeS2M` has measured it, and decoded
in place by `convM2S`, which leaves strings and data where they are in the
buffer. Pointers are a parameter: the encoder reads C strings and memory
through them, the decoder yields places in its buffer. `mountio` encodes a
request for a connection and writes it.
-/

namespace Infernode.Ninep

open Lib

structure CStr where
  bytes : List UInt8
  nonzero : (0 : UInt8) ∉ bytes
deriving DecidableEq

structure Qid where
  path : UInt64
  /-- An unsigned long; four bytes of it are sent. -/
  vers : UInt64
  type : UInt8
deriving DecidableEq, Inhabited

structure Fcall (S D : Type) where
  type : UInt8
  fid : UInt32
  tag : UInt16
  msize : UInt32
  version : S
  oldtag : UInt16
  ename : S
  qid : Qid
  iounit : UInt32
  aqid : Qid
  afid : UInt32
  uname : S
  aname : S
  perm : UInt32
  name : S
  mode : UInt8
  newfid : UInt32
  nwname : UInt16
  wname : ℕ → S
  nwqid : UInt16
  wqid : ℕ → Qid
  offset : Int64
  count : UInt32
  data : D
  nstat : UInt16
  stat : D
deriving Inhabited

inductive Ftype
  | Tversion | Rversion | Tauth | Rauth | Tattach | Rattach | Rerror | Tflush | Rflush
  | Twalk | Rwalk | Topen | Ropen | Tcreate | Rcreate | Tread | Rread | Twrite | Rwrite
  | Tclunk | Rclunk | Tremove | Rremove | Tstat | Rstat | Twstat | Rwstat
deriving DecidableEq

open Ftype

def ftype (b : UInt8) : Option Ftype :=
  match b.toNat with
  | 100 => some Tversion
  | 101 => some Rversion
  | 102 => some Tauth
  | 103 => some Rauth
  | 104 => some Tattach
  | 105 => some Rattach
  | 107 => some Rerror
  | 108 => some Tflush
  | 109 => some Rflush
  | 110 => some Twalk
  | 111 => some Rwalk
  | 112 => some Topen
  | 113 => some Ropen
  | 114 => some Tcreate
  | 115 => some Rcreate
  | 116 => some Tread
  | 117 => some Rread
  | 118 => some Twrite
  | 119 => some Rwrite
  | 120 => some Tclunk
  | 121 => some Rclunk
  | 122 => some Tremove
  | 123 => some Rremove
  | 124 => some Tstat
  | 125 => some Rstat
  | 126 => some Twstat
  | 127 => some Rwstat
  | _ => none

def MAXWELEM : ℕ := 16
def BIT8SZ : ℕ := 1
def BIT16SZ : ℕ := 2
def BIT32SZ : ℕ := 4
def BIT64SZ : ℕ := 8
def QIDSZ : ℕ := BIT8SZ + BIT32SZ + BIT64SZ

abbrev Message := Fcall (Option CStr) (List UInt8)

def stringsz : Option CStr → ℕ
  | none => BIT16SZ
  | some s => BIT16SZ + s.bytes.length

def sizeS2M (f : Message) : ℕ :=
  let n := BIT32SZ + BIT8SZ + BIT16SZ
  match ftype f.type with
  | none => 0
  | some t => (match t with
    | Tversion => n + BIT32SZ + stringsz f.version
    | Tflush => n + BIT16SZ
    | Tauth => n + BIT32SZ + stringsz f.uname + stringsz f.aname
    | Tattach => n + BIT32SZ + BIT32SZ + stringsz f.uname + stringsz f.aname
    | Twalk => n + BIT32SZ + BIT32SZ + BIT16SZ +
        ((List.range f.nwname.toNat).map fun i => stringsz (f.wname i)).sum
    | Topen => n + BIT32SZ + BIT8SZ
    | Tcreate => n + BIT32SZ + stringsz f.name + BIT32SZ + BIT8SZ
    | Tread => n + BIT32SZ + BIT64SZ + BIT32SZ
    | Twrite => n + BIT32SZ + BIT64SZ + BIT32SZ + f.count.toNat
    | Tclunk | Tremove => n + BIT32SZ
    | Tstat => n + BIT32SZ
    | Twstat => n + BIT32SZ + BIT16SZ + f.nstat.toNat
    | Rversion => n + BIT32SZ + stringsz f.version
    | Rerror => n + stringsz f.ename
    | Rflush => n
    | Rauth => n + QIDSZ
    | Rattach => n + QIDSZ
    | Rwalk => n + BIT16SZ + f.nwqid.toNat * QIDSZ
    | Ropen | Rcreate => n + QIDSZ + BIT32SZ
    | Rread => n + BIT32SZ + f.count.toNat
    | Rwrite => n + BIT32SZ
    | Rclunk => n
    | Rremove => n
    | Rstat => n + BIT16SZ + f.nstat.toNat
    | Rwstat => n) % 2 ^ 32

def PBIT8 (v : UInt8) : List UInt8 := le BIT8SZ v.toNat
def PBIT16 (v : UInt16) : List UInt8 := le BIT16SZ v.toNat
def PBIT32 (v : UInt32) : List UInt8 := le BIT32SZ v.toNat
def PBIT64 (v : UInt64) : List UInt8 := le BIT64SZ v.toNat

def pstring : Option CStr → List UInt8
  | none => PBIT16 0
  | some s => le BIT16SZ s.bytes.length ++ s.bytes

def pqid (q : Qid) : List UInt8 := PBIT8 q.type ++ (le BIT32SZ q.vers.toNat ++ PBIT64 q.path)

/-- What the switch of `convS2M` writes; `none` where it returns. -/
def body (f : Message) : Ftype → Option (List UInt8)
  | Tversion => some (PBIT32 f.msize ++ pstring f.version)
  | Tflush => some (PBIT16 f.oldtag)
  | Tauth => some (PBIT32 f.afid ++ pstring f.uname ++ pstring f.aname)
  | Tattach => some (PBIT32 f.fid ++ PBIT32 f.afid ++ pstring f.uname ++ pstring f.aname)
  | Twalk =>
    if f.nwname.toNat > MAXWELEM then none
    else some (PBIT32 f.fid ++ PBIT32 f.newfid ++ PBIT16 f.nwname ++
      (List.range f.nwname.toNat).flatMap fun i => pstring (f.wname i))
  | Topen => some (PBIT32 f.fid ++ PBIT8 f.mode)
  | Tcreate => some (PBIT32 f.fid ++ pstring f.name ++ PBIT32 f.perm ++ PBIT8 f.mode)
  | Tread => some (PBIT32 f.fid ++ PBIT64 f.offset.toUInt64 ++ PBIT32 f.count)
  | Twrite =>
    some (PBIT32 f.fid ++ PBIT64 f.offset.toUInt64 ++ PBIT32 f.count ++
      f.data.take f.count.toNat)
  | Tclunk | Tremove => some (PBIT32 f.fid)
  | Tstat => some (PBIT32 f.fid)
  | Twstat => some (PBIT32 f.fid ++ PBIT16 f.nstat ++ f.stat.take f.nstat.toNat)
  | Rversion => some (PBIT32 f.msize ++ pstring f.version)
  | Rerror => some (pstring f.ename)
  | Rflush => some []
  | Rauth => some (pqid f.aqid)
  | Rattach => some (pqid f.qid)
  | Rwalk =>
    if f.nwqid.toNat > MAXWELEM then none
    else some (PBIT16 f.nwqid ++ (List.range f.nwqid.toNat).flatMap fun i => pqid (f.wqid i))
  | Ropen | Rcreate => some (pqid f.qid ++ PBIT32 f.iounit)
  | Rread => some (PBIT32 f.count ++ f.data.take f.count.toNat)
  | Rwrite => some (PBIT32 f.count)
  | Rclunk => some []
  | Rremove => some []
  | Rstat => some (PBIT16 f.nstat ++ f.stat.take f.nstat.toNat)
  | Rwstat => some []

def convS2M (f : Message) (nap : ℕ) : ℕ × List UInt8 :=
  let size := sizeS2M f
  if size = 0 then (0, [])
  else if size > nap then (0, [])
  else
    let head := le BIT32SZ size ++ PBIT8 f.type ++ PBIT16 f.tag
    match ftype f.type with
    | none => (0, head)
    | some t =>
      match body f t with
      | none => (0, head)
      | some b => if size ≠ (head ++ b).length then (0, head ++ b) else (size, head ++ b)

abbrev Received := Fcall ℕ ℕ

def GBIT8 : Decoder UInt8 := do
  let n ← number BIT8SZ
  pure (UInt8.ofNat n)

def GBIT16 : Decoder UInt16 := do
  let n ← number BIT16SZ
  pure (UInt16.ofNat n)

def GBIT32 : Decoder UInt32 := do
  let n ← number BIT32SZ
  pure (UInt32.ofNat n)

def GBIT64 : Decoder UInt64 := do
  let n ← number BIT64SZ
  pure (UInt64.ofNat n)

def gstring : Decoder ℕ := terminated

def gqid : Decoder Qid := do
  need QIDSZ
  let type ← GBIT8
  let vers ← GBIT32
  let path ← GBIT64
  pure ⟨path, vers.toUInt64, type⟩

def stored {α : Type} (w : ℕ → α) (l : List α) : ℕ → α := fun i => (l[i]?).getD (w i)

def decode (f : Received) : Ftype → Decoder Received
  | Tversion => do
    need BIT32SZ
    let msize ← GBIT32
    let version ← gstring
    pure { f with msize, version }
  | Tflush => do
    need BIT16SZ
    let oldtag ← GBIT16
    pure { f with oldtag }
  | Tauth => do
    need BIT32SZ
    let afid ← GBIT32
    let uname ← gstring
    let aname ← gstring
    pure { f with afid, uname, aname }
  | Tattach => do
    need BIT32SZ
    let fid ← GBIT32
    need BIT32SZ
    let afid ← GBIT32
    let uname ← gstring
    let aname ← gstring
    pure { f with fid, afid, uname, aname }
  | Twalk => do
    need (BIT32SZ + BIT32SZ + BIT16SZ)
    let fid ← GBIT32
    let newfid ← GBIT32
    let nwname ← GBIT16
    if nwname.toNat > MAXWELEM then giveup
    else
      let wname ← many gstring nwname.toNat
      pure { f with fid, newfid, nwname, wname := stored f.wname wname }
  | Topen => do
    need (BIT32SZ + BIT8SZ)
    let fid ← GBIT32
    let mode ← GBIT8
    pure { f with fid, mode }
  | Tcreate => do
    need BIT32SZ
    let fid ← GBIT32
    let name ← gstring
    need (BIT32SZ + BIT8SZ)
    let perm ← GBIT32
    let mode ← GBIT8
    pure { f with fid, name, perm, mode }
  | Tread => do
    need (BIT32SZ + BIT64SZ + BIT32SZ)
    let fid ← GBIT32
    let offset ← GBIT64
    let count ← GBIT32
    pure { f with fid, offset := offset.toInt64, count }
  | Twrite => do
    need (BIT32SZ + BIT64SZ + BIT32SZ)
    let fid ← GBIT32
    let offset ← GBIT64
    let count ← GBIT32
    need count.toNat
    let data ← region count.toNat
    pure { f with fid, offset := offset.toInt64, count, data }
  | Tclunk | Tremove => do
    need BIT32SZ
    let fid ← GBIT32
    pure { f with fid }
  | Tstat => do
    need BIT32SZ
    let fid ← GBIT32
    pure { f with fid }
  | Twstat => do
    need (BIT32SZ + BIT16SZ)
    let fid ← GBIT32
    let nstat ← GBIT16
    need nstat.toNat
    let stat ← region nstat.toNat
    pure { f with fid, nstat, stat }
  | Rversion => do
    need BIT32SZ
    let msize ← GBIT32
    let version ← gstring
    pure { f with msize, version }
  | Rerror => do
    let ename ← gstring
    pure { f with ename }
  | Rflush => pure f
  | Rauth => do
    let aqid ← gqid
    pure { f with aqid }
  | Rattach => do
    let qid ← gqid
    pure { f with qid }
  | Rwalk => do
    need BIT16SZ
    let nwqid ← GBIT16
    if nwqid.toNat > MAXWELEM then giveup
    else
      let wqid ← many gqid nwqid.toNat
      pure { f with nwqid, wqid := stored f.wqid wqid }
  | Ropen | Rcreate => do
    let qid ← gqid
    need BIT32SZ
    let iounit ← GBIT32
    pure { f with qid, iounit }
  | Rread => do
    need BIT32SZ
    let count ← GBIT32
    need count.toNat
    let data ← region count.toNat
    pure { f with count, data }
  | Rwrite => do
    need BIT32SZ
    let count ← GBIT32
    pure { f with count }
  | Rclunk | Rremove => pure f
  | Rstat => do
    need BIT16SZ
    let nstat ← GBIT16
    need nstat.toNat
    let stat ← region nstat.toNat
    pure { f with nstat, stat }
  | Rwstat => pure f

def message (f : Received) : Decoder (ℕ × Received) := do
  need (BIT32SZ + BIT8SZ + BIT16SZ)
  let size ← GBIT32
  if size.toNat < BIT32SZ + BIT8SZ + BIT16SZ then giveup
  else
    let type ← GBIT8
    let tag ← GBIT16
    match ftype type with
    | none => giveup
    | some t => do
      let g ← decode { f with type, tag } t
      pure (size.toNat, g)

inductive Conv
  /-- Bytes outside the buffer were touched. -/
  | fault
  | zero
  | size (n : ℕ) (g : Received) (mem : List UInt8)

def convM2S (buf : List UInt8) (f : Received) : Conv :=
  match message f ⟨[], buf⟩ with
  | .fault => .fault
  | .bad => .zero
  | .ok (size, g) c => if size = c.before.length then .size size g (c.before ++ c.after) else .zero

/-- A connection: the message size that `mntversion` accepted, and the device's
write on it, `none` when it raises an error. -/
structure Mnt where
  msize : ℕ
  sense : 256 ≤ msize ∧ msize ≤ 1024 * 1024
  write : List UInt8 → Option ℤ

inductive Sent
  | panics
  | fails
  | waits
deriving DecidableEq

def mountio (m : Mnt) (f : Message) : Sent :=
  let (n, rpc) := convS2M f m.msize
  if (BitVec.ofNat 32 n).toInt < 0 then .panics
  else if m.write (rpc.take n) ≠ some (BitVec.ofNat 32 n).toInt then .fails
  else .waits

end Infernode.Ninep
