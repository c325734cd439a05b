import Infernode.Lib.Cursor
import Infernode.Lib.Runs

/-!
# Strings of the Dis machine

A string is bytes or runes in one block, its length negative for runes and its
capacity counted in the unit of its representation. The machine holds strings
by counted references in slots; a nil slot is an empty string. Characters are
written into blocks as bytes, and a write past the block is an `overrun`.
-/

namespace Infernode.Dis

open Lib

def UTFmax : ℕ := 4
def Runeself : ℕ := 0x80
def Runeerror : ℕ := 0xFFFD
def Runemax : ℕ := 0x10FFFF
def SurrogateMin : ℕ := 0xD800
def SurrogateMax : ℕ := 0xDFFF

def Bit (i : ℕ) : ℕ := 7 - i
def T (i : ℕ) : ℕ := (1 <<< (Bit i + 1) - 1) ^^^ 0xFF
def Bitx : ℕ := Bit 1
def RuneX (i : ℕ) : ℕ := 1 <<< (Bit i + (i - 1) * Bitx) - 1
def Tx : ℕ := T 1
def Rune1 : ℕ := 1 <<< (Bit 0) - 1
def Maskx : ℕ := 1 <<< Bitx - 1
def Testx : ℕ := Maskx ^^^ 0xFF

def chartoruneloop (str : List UInt8) (c0 : ℕ) : ℕ → ℕ → ℕ → ℕ × ℕ
  | 0, _, _ => (Runeerror, 1)
  | fuel + 1, i, l =>
    let c := (str.getD i 0).toNat ^^^ Tx
    if c &&& Testx ≠ 0 then (Runeerror, 1)
    else
      let l := l <<< Bitx ||| c
      if c0 < T (i + 2) then
        let l := l &&& RuneX (i + 1)
        if i = 1 then
          if c0 < T 2 ∨ l ≤ Rune1 then (Runeerror, 1) else (l, i + 1)
        else if l ≤ RuneX i ∨ l > Runemax then (Runeerror, 1)
        else if i = 2 ∧ SurrogateMin ≤ l ∧ l ≤ SurrogateMax then (Runeerror, 1)
        else (l, i + 1)
      else chartoruneloop str c0 fuel (i + 1) l

def chartorune (str : List UInt8) : ℕ × ℕ :=
  let c0 := (str.getD 0 0).toNat
  if c0 < Tx then (c0, 1) else chartoruneloop str c0 (UTFmax - 1) 1 c0

def fullrune (str : List UInt8) : Bool :=
  match str with
  | [] => false
  | c :: _ =>
    if c.toNat < Tx then true
    else if c.toNat < T 3 then decide (2 ≤ str.length)
    else if c.toNat < T 4 then decide (3 ≤ str.length)
    else decide (UTFmax ≤ str.length)

def sizeofRune : ℕ := 4
def sizeofString : ℕ := 24
def sizeofHeap : ℕ := 32

def dataoffset : ℕ := sizeofHeap + 16

def int (n : ℤ) : ℤ := n.bmod (2 ^ 32)

/-- A heap pool: what the `k`th request of `n` bytes gets, a block as it was left or
nothing. A request of 2^30 bytes is refused; a larger block may be handed out
whole. -/
structure Pool where
  get : ℕ → ℕ → Option (List UInt8)
  least : ∀ k n b, get k n = some b → n ≤ b.length
  most : ∀ k n b, get k n = some b → b.length < n + 2 ^ 16
  sane : ∀ k n, 2 ^ 30 ≤ n → get k n = none

structure Str where
  len : ℤ
  max : ℤ
  data : List UInt8
deriving DecidableEq

structure Obj where
  ref : ℕ
  str : Str

inductive Raised
  | exBounds
  | exNilref
  | exHeap
  | overrun
deriving DecidableEq

structure Vm (n : ℕ) where
  allocs : ℕ
  fresh : ℕ
  heap : ℕ → Option Obj
  slot : Fin n → Option ℕ

section
variable (pool : Pool) {n : ℕ}

abbrev Op (n : ℕ) (α : Type) := Proc (Vm n) Raised α

def nheap (size : ℤ) : Op n (List UInt8) := do
  let vm ← get
  set { vm with allocs := vm.allocs + 1 }
  match pool.get vm.allocs ((sizeofHeap + int size) % 2 ^ 64).toNat with
  | none => throw .exHeap
  | some b => pure b

def newstring (nb : ℤ) : Op n Str := do
  let b ← nheap pool (sizeofString + int nb)
  pure ⟨int nb, b.length - (sizeofString + sizeofHeap), b.drop dataoffset⟩

def newrunes (nr : ℤ) : Op n Str :=
  let nr := int nr
  if nr = 0 then newstring pool nr
  else do
    let nr := if nr < 0 then int (-nr) else nr
    let b ← nheap pool (sizeofString + nr * sizeofRune)
    pure ⟨-nr, (b.length - (sizeofString + sizeofHeap)) / sizeofRune, b.drop dataoffset⟩

def poke (s : Str) (i : ℕ) (bs : List UInt8) : Op n Str :=
  if i + bs.length ≤ s.data.length then
    pure { s with data := s.data.take i ++ bs ++ s.data.drop (i + bs.length) }
  else throw .overrun

def Srune (s : Str) (v : ℕ) : ℕ := leval ((s.data.drop (v * sizeofRune)).take sizeofRune)

def Sascii (s : Str) (v : ℕ) : ℕ := (s.data.getD v 0).toNat

def rune (r : ℤ) : List UInt8 := le sizeofRune (r % 2 ^ 32).toNat

def cvtup (s : Str) : List UInt8 := (s.data.take s.len.toNat).flatMap fun b => rune b.toNat

def stringdup (s : Str) : Op n Str :=
  if s.len ≥ 0 then do
    let ns ← newstring pool s.len
    poke ns 0 (s.data.take s.len.toNat)
  else do
    let ns ← newrunes pool (-s.len)
    poke ns 0 (s.data.take ((-s.len).toNat * sizeofRune))

def split (s : Str) (expand : Bool) : Op n Str :=
  if expand ∧ s.len > 0 then do
    let ns ← newrunes pool s.len
    poke ns 0 (cvtup s)
  else stringdup pool s

def countrunes : ℕ → List UInt8 → ℕ
  | 0, _ => 0
  | _ + 1, [] => 0
  | fuel + 1, c :: cs =>
    if c.toNat < Runeself then countrunes fuel cs + 1
    else if UTFmax ≤ (c :: cs).length ∨ fullrune (c :: cs) then
      countrunes fuel ((c :: cs).drop (chartorune (c :: cs)).2) + 1
    else 0

def readrunes : ℕ → List UInt8 → List ℕ
  | 0, _ => []
  | nc + 1, cs => (chartorune cs).1 :: readrunes nc (cs.drop (chartorune cs).2)

def c2string (cs : List UInt8) : Op n Str :=
  if cs.any fun c => decide (c.toNat ≥ Runeself) then do
    let nc := countrunes cs.length cs
    let s ← newrunes pool nc
    poke s 0 ((readrunes nc cs).flatMap fun r : ℕ => rune r)
  else do
    let s ← newstring pool cs.length
    poke s 0 cs

/-- `none` is the nil string. -/
def slicer (start v : ℕ) (ds : Option Str) : Op n (Option Str) :=
  match ds with
  | none => if start = 0 ∧ v = 0 then pure none else throw .exBounds
  | some ds =>
    let nc := int (v - start)
    if ds.len < 0 then
      if v < start ∨ v > -ds.len then throw .exBounds
      else if nc = 0 then pure none
      else do
        let ns ← newrunes pool nc
        let ns ← poke ns 0 ((ds.data.drop (start * sizeofRune)).take (nc.toNat * sizeofRune))
        pure (some ns)
    else
      if v < start ∨ v > ds.len then throw .exBounds
      else if nc = 0 then pure none
      else do
        let ns ← newstring pool nc
        let ns ← poke ns 0 ((ds.data.drop start).take nc.toNat)
        pure (some ns)

/-- What an operation leaves for a slot: nil, the string that was there changed in
place, or another. -/
inductive Left
  | nil
  | same (s : Str)
  | other (s : Str)

def addstring (s1 : Option Obj) (s2 : Option Str) (append : Bool) : Op n Left :=
  match s1, s2 with
  | none, none => pure .nil
  | none, some s2 => do
    let ns ← stringdup pool s2
    pure (.other ns)
  | some o, none =>
    if append ∧ o.ref ≤ 1 then pure (.same o.str)
    else do
      let ns ← stringdup pool o.str
      pure (.other ns)
  | some o, some s2 =>
    let s1 := o.str
    let append := append && decide (o.ref ≤ 1)
    if s1.len < 0 then
      let l1 := -s1.len
      let l2 := s2.len
      let l := if l2 < 0 then int (l1 - l2) else int (l1 + l2)
      let tail := if l2 < 0 then s2.data.take ((-l2).toNat * sizeofRune) else cvtup s2
      if append ∧ l ≤ s1.max then do
        let ns ← poke { s1 with len := -l } (l1.toNat * sizeofRune) tail
        pure (.same ns)
      else do
        let ns ← newrunes pool (if append then l + l / 4 else l)
        let ns ← poke ns 0 (s1.data.take (l1.toNat * sizeofRune))
        let ns ← poke { ns with len := -l } (l1.toNat * sizeofRune) tail
        pure (.other ns)
    else if s2.len < 0 then do
      let l2 := -s2.len
      let l := int (s1.len + l2)
      let ns ← newrunes pool (if append then l + l / 4 else l)
      let ns ← poke { ns with len := -l } 0 (cvtup s1)
      let ns ← poke ns (s1.len.toNat * sizeofRune) (s2.data.take (l2.toNat * sizeofRune))
      pure (.other ns)
    else
      let l1 := s1.len
      let l2 := s2.len
      let l := int (l1 + l2)
      if append ∧ l ≤ s1.max then do
        let ns ← poke { s1 with len := l } l1.toNat (s2.data.take l2.toNat)
        pure (.same ns)
      else do
        let ns ← newstring pool (if append then l + l / 4 else l)
        let ns ← poke ns 0 (s1.data.take l1.toNat)
        let ns ← poke { ns with len := l } l1.toNat (s2.data.take l2.toNat)
        pure (.other ns)

def insrune (ss : Str) (l : ℤ) (v : ℕ) (r : ℤ) : Op n Left :=
  if v < l then do
    let ss ← poke ss (v * sizeofRune) (rune r)
    pure (.same ss)
  else if v = l ∧ v < ss.max then do
    let ss ← poke { ss with len := -int (v + 1) } (v * sizeofRune) (rune r)
    pure (.same ss)
  else if v ≠ l then throw .exBounds
  else do
    let ns ← newstring pool ((v + 1 + v / 4) * sizeofRune)
    let ns ← poke ns 0 (ss.data.take ((-ss.len).toNat * sizeofRune))
    let ns ← poke ns (v * sizeofRune) (rune r)
    pure (.other { ns with len := -int (v + 1), max := ns.max / sizeofRune })

def insbyte (ss : Str) (v : ℕ) (r : ℤ) : Op n Left :=
  let l := ss.len
  let c := UInt8.ofNat (r % 2 ^ 8).toNat
  if v < l then do
    let ss ← poke ss v [c]
    pure (.same ss)
  else if v = l ∧ v < ss.max then do
    let ss ← poke { ss with len := int (v + 1) } v [c]
    pure (.same ss)
  else if v ≠ l then throw .exBounds
  else do
    let ns ← newstring pool (v + 1 + v / 4)
    let ns ← poke ns 0 (ss.data.take l.toNat)
    let ns ← poke ns v [c]
    pure (.other { ns with len := int (v + 1) })

def Vm.look (vm : Vm n) (i : Fin n) : Option Obj := (vm.slot i).bind vm.heap

def Vm.destroy (vm : Vm n) (i : Fin n) : Vm n :=
  match vm.slot i with
  | none => vm
  | some id =>
    { vm with
      heap := Function.update vm.heap id ((vm.heap id).bind fun o =>
        if o.ref - 1 > 0 then some { o with ref := o.ref - 1 } else none)
      slot := Function.update vm.slot i none }

def Vm.place (vm : Vm n) (i : Fin n) (s : Str) : Vm n :=
  { vm with
    fresh := vm.fresh + 1
    heap := Function.update vm.heap vm.fresh (some ⟨1, s⟩)
    slot := Function.update vm.slot i (some vm.fresh) }

def Vm.rewrite (vm : Vm n) (i : Fin n) (s : Str) : Vm n :=
  match vm.slot i with
  | none => vm
  | some id =>
    { vm with heap := Function.update vm.heap id ((vm.heap id).map fun o => { o with str := s }) }

def leave (d : Fin n) : Left → Op n Unit
  | .nil => modify fun vm => vm.destroy d
  | .same s => modify fun vm => vm.rewrite d s
  | .other s => modify fun vm => (vm.destroy d).place d s

def movp (d s : Fin n) : Op n Unit :=
  modify fun vm =>
    match vm.slot s with
    | none => vm.destroy d
    | some id =>
      let heap := Function.update vm.heap id ((vm.heap id).map fun o => { o with ref := o.ref + 1 })
      let vm := { vm with heap }.destroy d
      { vm with slot := Function.update vm.slot d (some id) }

def splitc (d : Fin n) (expand : Bool) : Op n Unit := do
  let vm ← get
  match vm.look d with
  | none => pure ()
  | some o => do
    let ns ← split pool o.str expand
    leave d (.other ns)

def insown (d : Fin n) (ss : Str) (expand : Bool) (v : ℕ) (r : ℤ) : Op n Unit := do
  let left ← if ss.len < 0 ∨ expand then insrune pool ss (-ss.len) v r else insbyte pool ss v r
  leave d left

/-- `v` is an unsigned long and `r` an int. A string made here replaces nil. -/
def insc (d : Fin n) (v : ℕ) (r : ℤ) : Op n Unit := do
  let expand := decide (r < 0 ∨ r ≥ Runeself)
  let vm ← get
  match vm.look d with
  | none => do
    let ss ← newstring pool 0
    let left ←
      if expand then insrune pool { ss with max := ss.max / sizeofRune } 0 v r
      else insbyte pool ss v r
    match left with
    | .nil => leave d .nil
    | .same s => leave d (.other s)
    | .other s => leave d (.other s)
  | some o =>
    if o.ref > 1 ∨ (expand ∧ o.str.len > 0) then do
      let ss ← split pool o.str expand
      leave d (.other ss)
      insown pool d ss expand v r
    else insown pool d o.str expand v r

def addc (d m s : Fin n) : Op n Unit := do
  let vm ← get
  let left ← addstring pool (vm.look m) ((vm.look s).map Obj.str) (decide (m = d))
  leave d left

def slicec (d s : Fin n) (start v : ℕ) : Op n Unit := do
  let vm ← get
  let ns ← slicer pool start v ((vm.look s).map Obj.str)
  match ns with
  | none => leave d .nil
  | some ns => leave d (.other ns)

def dupc (d s : Fin n) : Op n Unit := do
  let vm ← get
  match vm.look s with
  | none => leave d .nil
  | some o => do
    let ns ← stringdup pool o.str
    leave d (.other ns)

end

def indc (ss : Option Str) (v : ℕ) : Except Raised ℤ :=
  match ss with
  | none => .error .exNilref
  | some ss =>
    if ss.len < 0 then
      if v ≥ -ss.len then .error .exBounds else .ok (int (Srune ss v))
    else
      if v ≥ ss.len then .error .exBounds else .ok (Sascii ss v)

def differ (c1 c2 : ℕ → ℤ) : ℕ → ℕ → Option ℤ
  | 0, _ => none
  | n + 1, i => if c1 i ≠ c2 i then some (if c1 i < c2 i then -1 else 1) else differ c1 c2 n (i + 1)

def snil : Str := ⟨0, 0, []⟩

def stringcmp (s1 s2 : Option Str) : ℤ :=
  let s1 := s1.getD snil
  let s2 := s2.getD snil
  let n1 := if s1.len < 0 then -s1.len else s1.len
  let n2 := if s2.len < 0 then -s2.len else s2.len
  let n := if n2 < n1 then n2 else n1
  let r1 := fun i => int (Srune s1 i)
  let r2 := fun i => int (Srune s2 i)
  let a1 := fun i => (Sascii s1 i : ℤ)
  let a2 := fun i => (Sascii s2 i : ℤ)
  let found :=
    match decide (s1.len < 0), decide (s2.len < 0) with
    | false, false => differ a1 a2 n.toNat 0
    | true, false => differ r1 a2 n.toNat 0
    | false, true => differ a1 r2 n.toNat 0
    | true, true => differ r1 r2 n.toNat 0
  found.getD (n1 - n2)

def Vm.cmp {n : ℕ} (vm : Vm n) (i j : Fin n) : ℤ :=
  if vm.slot i = vm.slot j then 0
  else stringcmp ((vm.look i).map Obj.str) ((vm.look j).map Obj.str)

end Infernode.Dis
