import Infernode.Lib.Runs

/-!
# Reading a union of directories

`unionread` and `unionrewind` of `sysfile.c`. The position in the union is the number of
the directory in `c->uri` and the channel open on it in `c->umc`, which has a position of
its own.
-/

namespace Infernode.Chans

def total (l : List (List UInt8)) : ℕ := (l.map List.length).sum

/-- A directory of a union. Reading it from entry `bad` on raises. How many of the entries
that fit a read returns is the device's to say. -/
structure Mount where
  mounted : Bool
  opens : Bool
  entries : List (List UInt8)
  bad : ℕ
  gives : ℕ → ℕ → ℕ
  entry_pos : ∀ e ∈ entries, e ≠ []
  fits : ∀ j n, total (((entries.take bad).drop j).take (gives j n)) ≤ n
  goes : ∀ j n e, (entries.take bad)[j]? = some e → e.length ≤ n → 0 < gives j n

def Mount.readable (m : Mount) : List (List UInt8) :=
  if m.mounted && m.opens then m.entries.take m.bad else []

def Mount.read (m : Mount) (j n : ℕ) : Option (List (List UInt8)) :=
  if m.bad ≤ j ∧ j < m.entries.length then none
  else some (((m.entries.take m.bad).drop j).take (m.gives j n))

structure Entry where
  mount : ℕ
  index : ℕ
  bytes : List UInt8
  deriving DecidableEq

structure Umc where
  mount : ℕ
  index : ℕ
  deriving DecidableEq

structure Pos where
  uri : ℕ
  umc : Option Umc
  deriving DecidableEq

def Umc.entries (u : Umc) (l : List (List UInt8)) : List Entry :=
  l.mapIdx fun i e => ⟨u.mount, u.index + i, e⟩

def umcread (mounts : List Mount) (u : Umc) (n : ℕ) : List Entry :=
  u.entries ((mounts[u.mount]?.bind (·.read u.index n)).getD [])

def current (m : Mount) (p : Pos) : Option Umc :=
  if m.mounted then p.umc.or (if m.opens then some ⟨p.uri, 0⟩ else none) else none

def unionloop (mounts : List Mount) (n : ℕ) : List Mount → Pos → List Entry × Pos
  | [], p => ([], p)
  | m :: rest, p =>
    match current m p with
    | none => unionloop mounts n rest ⟨p.uri + 1, none⟩
    | some u =>
      let es := umcread mounts u n
      if es = [] then unionloop mounts n rest ⟨p.uri + 1, none⟩
      else (es, ⟨p.uri, some { u with index := u.index + es.length }⟩)

def unionread (mounts : List Mount) (p : Pos) (n : ℕ) : List Entry × Pos :=
  unionloop mounts n (mounts.drop p.uri) p

def unionrewind : Pos := ⟨0, none⟩

def size (es : List Entry) : ℕ := total (es.map (·.bytes))

theorem size_entries (u : Umc) (l : List (List UInt8)) : size (u.entries l) = total l := by
  have hbytes : (u.entries l).map (·.bytes) = l := by
    exact List.ext_getElem (by simp [Umc.entries]) (by simp [Umc.entries])
  rw [size, hbytes]

theorem Mount.read_fits {m : Mount} {j n : ℕ} {es : List (List UInt8)} (h : m.read j n = some es) :
    total es ≤ n := by
  unfold Mount.read at h
  split at h
  · cases h
  · cases h
    exact m.fits j n

theorem umcread_fits (mounts : List Mount) (u : Umc) (n : ℕ) : size (umcread mounts u n) ≤ n := by
  rw [umcread, size_entries]
  cases h : mounts[u.mount]?.bind (·.read u.index n) with
  | none => exact Nat.zero_le n
  | some es =>
    obtain ⟨m, -, hread⟩ := Option.bind_eq_some_iff.mp h
    exact m.read_fits hread

theorem unionloop_fits (mounts : List Mount) (n : ℕ) (rest : List Mount) (p : Pos) :
    size (unionloop mounts n rest p).1 ≤ n := by
  induction rest generalizing p with
  | nil => exact Nat.zero_le n
  | cons m rest ih =>
    rw [unionloop]
    split
    · exact ih _
    case h_2 u _ =>
      simp only
      split
      · exact ih _
      · exact umcread_fits mounts u n

theorem unionread_fits (mounts : List Mount) (p : Pos) (n : ℕ) :
    size (unionread mounts p n).1 ≤ n := unionloop_fits mounts n _ p

/-!
## The offset of an open file

`rread`, `rwrite` and `kseek` of `sysfile.c` on one channel. A call comes with whether its
descriptor lets it have the channel and with what the device answers: an error, or a count
that the code does not check.
-/

open Lib

@[ext] structure Vlong where
  val : ℤ
  lo : -2 ^ 63 ≤ val
  hi : val < 2 ^ 63

def Vlong.wrap (x : ℤ) : Vlong :=
  ⟨Int.bmod x (2 ^ 64), by
    have := Int.le_bmod (x := x) (m := 2 ^ 64) (by norm_num)
    omega, by
    have := Int.bmod_lt (x := x) (m := 2 ^ 64) (by norm_num)
    omega⟩

structure Chan where
  offset : Vlong
  dri : ℕ
  pos : Pos
  qtdir : Bool
  umh : Option (List Mount)
  pipe : Bool

inductive Err
  | Ebadfd
  | Etoosmall
  | Enegoff
  | Eisdir
  | Eisstream
  | Ebadarg
  | Estat
  /-- What the device raises. -/
  | Eio
  deriving DecidableEq

abbrev Answer := Except Err Vlong

def zero : Vlong := ⟨0, by norm_num, by norm_num⟩

def Vlong.add (a b : Vlong) : Vlong := .wrap (a.val + b.val)
def Vlong.sub (a b : Vlong) : Vlong := .wrap (a.val - b.val)

def union (c : Chan) : Option (List Mount) := if c.qtdir then c.umh else none

def restart (c : Chan) (offp : Option Vlong) (off : Vlong) : Chan :=
  if off.val = 0 then
    if offp.isNone then { c with offset := zero, dri := 0, pos := unionrewind }
    else { c with pos := unionrewind }
  else c

/-- What `rread` does where there is none. -/
def devread (c : Chan) (offp : Option Vlong) (dev : Option Vlong) : Answer × Chan :=
  let off := offp.getD c.offset
  if off.val < 0 then (.error .Enegoff, c)
  else
    let c := restart c offp off
    match dev with
    | none => (.error .Eio, c)
    -- made for pread too
    | some n => (.ok n, { c with offset := c.offset.add n })

def rread (c : Chan) (chan : Bool) (n : Vlong) (offp : Option Vlong) (dev : Option Vlong) :
    Answer × Chan :=
  if ¬chan then (.error .Ebadfd, c)
  else if n.val < 0 then (.error .Etoosmall, c)
  else
    match union c with
    | some mounts =>
      let (es, pos) := unionread mounts c.pos n.val.toNat
      (.ok (.wrap (size es)), { c with pos := pos })
    | none => devread c offp dev

def kread (c : Chan) (chan : Bool) (n : Vlong) (dev : Option Vlong) : Answer × Chan :=
  rread c chan n none dev

def kpread (c : Chan) (chan : Bool) (n off : Vlong) (dev : Option Vlong) : Answer × Chan :=
  rread c chan n (some off) dev

/-- What `rwrite` does once the offset is taken, and `c` has it moved ahead if it is to
move; `back` has what it was. -/
def devwrite (c back : Chan) (n : Vlong) (offp : Option Vlong) (off : Vlong)
    (dev : Option Vlong) : Answer × Chan :=
  if off.val < 0 then (.error .Enegoff, back)
  else
    match dev with
    | none => (.error .Eio, back)
    | some m =>
      if offp.isNone ∧ m.val < n.val then (.ok m, { c with offset := c.offset.sub (n.sub m) })
      else (.ok m, c)

def rwrite (c : Chan) (chan : Bool) (n : Vlong) (offp : Option Vlong) (dev : Option Vlong) :
    Answer × Chan :=
  if ¬chan then (.error .Ebadfd, c)
  else if c.qtdir then (.error .Eisdir, c)
  else if n.val < 0 then (.error .Etoosmall, c)
  else if offp.isNone then
    let ahead := { c with offset := c.offset.add n }
    devwrite ahead { ahead with offset := ahead.offset.sub n } n offp c.offset dev
  else devwrite c c n offp (offp.getD c.offset) dev

def kwrite (c : Chan) (chan : Bool) (n : Vlong) (dev : Option Vlong) : Answer × Chan :=
  rwrite c chan n none dev

def kpwrite (c : Chan) (chan : Bool) (n off : Vlong) (dev : Option Vlong) : Answer × Chan :=
  rwrite c chan n (some off) dev

def vlongmax : ℤ := 2 ^ 63 - 1

def seekadd (base off : Vlong) : Answer :=
  if off.val > 0 ∧ base.val > vlongmax - off.val then .error .Ebadarg
  else if off.val < 0 ∧ base.val < -vlongmax - 1 - off.val then .error .Ebadarg
  else .ok (base.add off)

def kseekto (c : Chan) (off : Vlong) (whence : ℤ) (stat : Option Vlong) : Answer :=
  if c.pipe then .error .Eisstream
  else if whence = 0 then
    if c.qtdir then if off.val ≠ 0 then .error .Eisdir else .ok off
    else if off.val < 0 then .error .Enegoff
    else .ok off
  else if whence = 1 then
    if c.qtdir then .error .Eisdir
    else do
      let off ← seekadd c.offset off
      if off.val < 0 then .error .Enegoff else .ok off
  else if whence = 2 then
    if c.qtdir then .error .Eisdir
    else
      match stat with
      | none => .error .Estat
      | some length => do
        let off ← seekadd length off
        if off.val < 0 then .error .Enegoff else .ok off
  else .error .Ebadarg

def kseek (c : Chan) (chan : Bool) (off : Vlong) (whence : ℤ) (stat : Option Vlong) :
    Answer × Chan :=
  if ¬chan then (.error .Ebadfd, c)
  else
    match kseekto c off whence stat with
    | .error e => (.error e, c)
    | .ok off =>
      (.ok off, { c with
        offset := off, dri := 0, pos := if whence = 0 ∧ c.qtdir then unionrewind else c.pos })

end Infernode.Chans
