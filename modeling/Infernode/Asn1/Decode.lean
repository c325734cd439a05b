import Infernode.Limbo.Utf

/-!
# Decoding BER

An element's tag, length and value are read from a byte array at an index; what is returned is
an error code, the index after, and what was read. No result is an exception.
-/

namespace Infernode.Asn1

open Limbo

structure Tag where
  cl : ℕ
  num : ℕ
  constr : Bool
  deriving DecidableEq

inductive Value
  | bool (v : ℤ)
  | int (v : ℤ)
  | octets (bytes : List UInt8)
  | bigint (bytes : List UInt8)
  | real (bytes : List UInt8)
  | other (bytes : List UInt8)
  | bitstring (unusedbits : ℕ) (bits : List UInt8)
  | null
  | eoc
  | objid (nums : List ℤ)
  | string (s : Str)
  deriving DecidableEq

inductive Elem
  | elem (tag : Tag) (val : Value)
  | seq (tag : Tag) (l : List Elem)
  | set (tag : Tag) (l : List Elem)

inductive Kind
  | eoc | boolean | integer | bitstring | octets | null | objid | external | real | sequence | set
  | string | other
  deriving DecidableEq

def Kind.of : ℕ → Kind
  | 0 => .eoc
  | 1 => .boolean
  | 2 | 10 => .integer
  | 3 => .bitstring
  | 4 | 7 => .octets
  | 5 => .null
  | 6 => .objid
  | 8 | 11 => .external
  | 9 => .real
  | 16 => .sequence
  | 17 => .set
  | 12 | 18 | 19 | 20 | 21 | 22 | 23 | 24 | 25 | 26 | 27 | 28 | 30 => .string
  | _ => .other

inductive Err
  | ok | short | toobig | vallen | constr | prim | inval | unimpl
  deriving DecidableEq

def Maxdepth : ℕ := 32

abbrev Out (α : Type) := Option (Err × ℕ × Option α)

def add (x y : ℤ) : ℤ := (x + y).bmod (2 ^ 32)

def getb (a : List UInt8) (i : ℕ) : ℕ := (a.getD i 0).toNat

def slice (a : List UInt8) (i : ℕ) (length : ℤ) : Option (List UInt8) :=
  if 0 ≤ length ∧ i + length ≤ a.length then some ((a.drop i).take length.toNat) else none

def uint7loop (a : List UInt8) : ℕ → ℕ → ℕ → Err × ℕ × ℕ
  | 0, i, num => (.short, i, num)
  | k + 1, i, num =>
    let v := getb a i
    if 2 ^ 24 ≤ num then (.toobig, i + 1, num)
    else
      let num := num * 128 + v % 128
      if 128 ≤ v then uint7loop a k (i + 1) num else (.ok, i + 1, num)

def uint7_decode (a : List UInt8) (i n : ℕ) : Err × ℕ × ℕ := uint7loop a (n - i) i 0

def intloop (num : ℤ) (bs : List UInt8) : ℤ :=
  bs.foldl (fun num v => (num * 256 + v.toNat).bmod (2 ^ 32)) num

def int_decode (a : List UInt8) (i n count : ℕ) (unsigned : Bool) : Err × ℕ × ℤ :=
  if count ≤ n - i then
    if 4 < count ∨ unsigned ∧ count = 4 ∧ 128 ≤ getb a i then (.toobig, i, 0)
    else
      let num := if unsigned = false ∧ 0 < count ∧ count < 4 ∧ 128 ≤ getb a i then -1 else 0
      (.ok, i + count, intloop num ((a.drop i).take count))
  else (.short, i, 0)

def tag_decode (a : List UInt8) (i n : ℕ) : Err × ℕ × Tag :=
  if 2 ≤ n - i then
    let v := getb a i
    let cl := v / 64 * 64
    let constr := v / 32 % 2 = 1
    if v % 32 = 31 then
      let (err, i, num) := uint7_decode a (i + 1) n
      (err, i, ⟨cl, num, constr⟩)
    else (.ok, i + 1, ⟨cl, v % 32, constr⟩)
  else (.short, i, ⟨0, 0, false⟩)

def length_decode (a : List UInt8) (i n : ℕ) : Err × ℕ × ℤ :=
  if i < n then
    let v := getb a i
    if 128 ≤ v then int_decode a (i + 1) n (v % 128) true
    else if v = 0x80 then (.ok, i + 1, -1)
    else (.ok, i + 1, v)
  else (.short, i, 0)

def Elem.iseoc : Elem → Bool
  | .elem _ .eoc => true
  | _ => false

def seqloop (sub : ℕ → Out Elem) (length stop : ℤ) : ℕ → ℕ → List Elem → Out (List Elem)
  | 0, _, _ => none
  | k + 1, i, lve =>
    if 0 ≤ length ∧ stop ≤ i then
      some (if (i : ℤ) ≠ stop then (.vallen, i, none) else (.ok, i, some lve.reverse))
    else
      match sub i with
      | some (.ok, i', some e) =>
        if e.iseoc then
          some (if length ≠ -1 then (.inval, i, none) else (.ok, i', some lve.reverse))
        else seqloop sub length stop k i' (e :: lve)
      | some (.ok, _, none) | none => none
      | some (err, i', _) => some (err, i', none)

def seq_decode (n : ℕ) (sub : ℕ → Out Elem) (i : ℕ) (length : ℤ) (constr : Bool) :
    Out (List Elem) :=
  if constr = false then some (.prim, i, none)
  else seqloop sub length (add i length) (n - i + 1) i []

def octetloop (sub : ℕ → Out Elem) (length stop : ℤ) :
    ℕ → ℕ → List (List UInt8) → Out (List UInt8)
  | 0, _, _ => none
  | k + 1, i, lva =>
    if 0 ≤ length ∧ stop ≤ i then
      some (if (i : ℤ) ≠ stop then (.vallen, i, none) else (.ok, i, some lva.reverse.flatten))
    else
      match sub i with
      | some (.ok, i', some e) =>
        match e with
        | .elem _ (.octets bytes) => octetloop sub length stop k i' (bytes :: lva)
        | .elem _ .eoc =>
          some (if length ≠ -1 then (.inval, i, none) else (.ok, i', some lva.reverse.flatten))
        | _ => some (.inval, i, none)
      | some (.ok, _, none) | none => none
      | some (err, i', _) => some (err, i', none)

def octet_decode (a : List UInt8) (n : ℕ) (sub : ℕ → Out Elem) (i : ℕ) (length : ℤ)
    (constr : Bool) : Out (List UInt8) :=
  if 0 ≤ length ∧ constr = false then
    (slice a i length).map fun va => (.ok, i + length.toNat, some va)
  else octetloop sub length (add i length) (n - i + 1) i []

def objidloop (a : List UInt8) (n : ℕ) (iend : ℤ) : ℕ → ℕ → List ℕ → Err × ℕ × List ℕ
  | 0, i, subids => (.ok, i, subids.reverse)
  | k + 1, i, subids =>
    if i < iend then
      match uint7_decode a i n with
      | (.ok, i, x) => objidloop a n iend k i (x :: subids)
      | (err, i, _) => (err, i, [])
    else (.ok, i, subids.reverse)

def arcs : List ℕ → List ℤ
  | [] => []
  | y :: ys => (y / 40 : ℕ) :: (y % 40 : ℕ) :: ys.map Int.ofNat

def bytes_decode (a : List UInt8) (i : ℕ) (length : ℤ) (f : List UInt8 → Value) :
    Out (Tag → Elem) :=
  (slice a i length).map fun va => (.ok, i + length.toNat, some (.elem · (f va)))

def value_decode (a : List UInt8) (n : ℕ) (sub : ℕ → Out Elem) (i : ℕ) (length : ℤ) (kind : Kind)
    (constr : Bool) : Out (Tag → Elem) :=
  if length = -1 ∧ constr = false then some (.inval, i, none)
  else if length ≠ -1 ∧ n < add i length then some (.vallen, i, none)
  else
    match kind with
    | .eoc =>
      some (if length = 0 then (.ok, i, some (.elem · .eoc)) else (.inval, i, none))
    | .boolean =>
      some (if constr then (.constr, i, none)
        else if length ≠ 1 then (.vallen, i, none)
        else (.ok, i + 1, some (.elem · (.bool (getb a 0)))))
    | .integer =>
      if constr then some (.constr, i, none)
      else if length ≤ 4 then
        -- past the array where the sum wrapped
        if a.length < i + length.toNat then none
        else
          match int_decode a i (i + length.toNat) length.toNat false with
          | (.ok, i, num) => some (.ok, i, some (.elem · (.int num)))
          | (err, i, _) => some (err, i, none)
      else bytes_decode a i length .bigint
    | .bitstring =>
      if constr then
        some (if length = -1 ∧ i + 2 ≤ n ∧ getb a i = 0 ∧ getb a (i + 1) = 0 then
          (.ok, i + 2, some (.elem · (.bitstring 0 [])))
        else (.unimpl, i, none))
      else if length < 2 then
        some (if length = 1 ∧ getb a 0 = 0 then (.ok, i + 1, some (.elem · (.bitstring 0 [])))
        else (.inval, i, none))
      else if a.length ≤ i then none
      else if 7 < getb a i then some (.inval, i, none)
      else if 0x0FFFFFFF < length then some (.toobig, i, none)
      else
        (slice a (i + 1) (length - 1)).map fun va =>
          (.ok, i + length.toNat, some (.elem · (.bitstring (getb a i) va)))
    | .octets =>
      (octet_decode a n sub i length constr).map fun (err, i, va) =>
        (err, i, va.map fun va => (.elem · (.octets va)))
    | .null =>
      some (if constr then (.constr, i, none)
        else if length ≠ 0 then (.vallen, i, none)
        else (.ok, i, some (.elem · .null)))
    | .objid =>
      if constr then some (.constr, i, none)
      else if length = 0 then some (.vallen, i, none)
      else
        let iend := add i length
        match objidloop a n iend (n - i) i [] with
        | (.ok, i, subids) =>
          some (if (i : ℤ) ≠ iend then (.vallen, i, none)
          else (.ok, i, some (.elem · (.objid (arcs subids)))))
        | (err, i, _) => some (err, i, none)
    | .external | .other => bytes_decode a i length .other
    | .real => if constr then some (.constr, i, none) else bytes_decode a i length .real
    | .sequence =>
      (seq_decode n sub i length constr).map fun (err, i, vl) =>
        (err, i, vl.map fun vl => (.seq · vl))
    | .set =>
      (seq_decode n sub i length constr).map fun (err, i, vl) =>
        (err, i, vl.map fun vl => (.set · vl))
    | .string =>
      (octet_decode a n sub i length constr).map fun (err, i, va) =>
        (err, i, va.map fun va => (.elem · (.string (Limbo.string va))))

def Tag.kind (tag : Tag) : Kind := if tag.cl = 0 then .of tag.num else .octets

def Tag.nests (tag : Tag) : Bool := tag.cl = 0 ∧ tag.constr

def ber_decode (a : List UInt8) (n : ℕ) : ℕ → ℕ → Out Elem
  | 0, i => some (.toobig, i, none)
  | levels + 1, i =>
    match tag_decode a i n with
    | (.ok, i, tag) =>
      match length_decode a i n with
      | (.ok, i, length) =>
        (value_decode a n (ber_decode a n levels) i length tag.kind tag.nests).map
          fun (err, i, val) => (err, i, val.map (· tag))
      | (err, i, _) => some (err, i, none)
    | (err, i, _) => some (err, i, none)

/-- The texts of `errstr`; none where all of the array is a value. -/
def errtext : Err → String
  | .ok => "OK"
  | .short => "need more data"
  | .toobig => "value exceeds implementation limit"
  | .vallen => "value has wrong length"
  | .constr => "value is constructed, should be primitive"
  | .prim => "value is primitive"
  | .inval => "value encoding invalid"
  | .unimpl => "unknown error 7"

def errstr (ecode : Err) (i n : ℕ) : Str :=
  if ecode = .ok ∧ i = n then []
  else lit ("BER decode: " ++ errtext ecode ++ " at byte " ++ toString i)

def decode (a : List UInt8) : Option (Str × Option Elem) :=
  (ber_decode a a.length (Maxdepth + 1) 0).map fun (ecode, i, elem) =>
    (errstr ecode i a.length, elem)

end Infernode.Asn1
