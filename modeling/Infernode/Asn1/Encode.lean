import Infernode.Asn1.Decode

/-!
# Encoding by BER rules

An element is gone through twice: for its size, and to put its bytes into an array of that size.
-/

namespace Infernode.Asn1

open Limbo

def byte (v : ℤ) : UInt8 := UInt8.ofNat (v % 256).toNat

def rounds (b : ℕ) : ℕ → ℕ → ℕ
  | 0, _ => 0
  | k + 1, v => if v = 0 then 0 else rounds b k (v / b) + 1

def uint7_len (num : ℤ) : ℕ := rounds 128 31 (num / 128).toNat + 1

def uint7_put (num : ℤ) : List UInt8 :=
  let n := uint7_len num
  (List.range (n - 1)).reverse.map (fun k => byte (128 + num / 128 ^ (k + 1) % 128)) ++
    [byte (num % 128)]

def int_len (num : ℤ) (unsigned : Bool) : ℕ :=
  let v := if num < 0 then -(num + 1) else num
  let n := rounds 256 31 (v.toNat / 256) + 1
  let prevv := v.toNat / 256 ^ (n - 1)
  if unsigned = false ∧ 128 ≤ prevv then n + 1 else n

def int_put (num : ℤ) (unsigned : Bool) : List UInt8 :=
  (List.range (int_len num unsigned)).reverse.map fun k => byte (num / 256 ^ k)

/-- Bytes laid from `i` on; it raises where the array ends before. -/
def put (b : List UInt8) (i : ℕ) (bs : List UInt8) : Option (List UInt8) :=
  if i + bs.length ≤ b.length then some (b.take i ++ bs ++ b.drop (i + bs.length)) else none

def Value.kind (tag : Tag) : Value → Kind
  | .bool _ => .boolean
  | .int _ | .bigint _ => .integer
  | .octets _ | .other _ => .octets
  | .real _ => .real
  | .bitstring _ _ => .bitstring
  | .null => .null
  | .objid _ => .objid
  | .string _ => .string
  | .eoc => .of tag.num

def BOOLEAN : ℕ := 1

def INTEGER : ℕ := 2

def BIT_STRING : ℕ := 3

def OBJECT_ID : ℕ := 6

def is_int (tag : Tag) : Value → Option ℤ
  | .bool v | .int v =>
    if tag.cl = 0 ∧ (tag.num = INTEGER ∨ tag.num = BOOLEAN) then some v else none
  | _ => none

def is_bigint (tag : Tag) : Value → Option (List UInt8)
  | .bigint bytes => if tag.cl = 0 ∧ tag.num = INTEGER then some bytes else none
  | .int x =>
    if tag.cl = 0 ∧ tag.num = INTEGER then
      let a := (List.range 4).reverse.map fun k => byte (x / 256 ^ k)
      some ((a.take 3).dropWhile (· = 0) ++ a.drop 3)
    else none
  | _ => none

def is_bitstring (tag : Tag) : Value → Option (ℕ × List UInt8)
  | .bitstring unusedbits bits =>
    if tag.cl = 0 ∧ tag.num = BIT_STRING then some (unusedbits, bits) else none
  | _ => none

def is_oid (tag : Tag) : Value → Option (List ℤ)
  | .objid nums => if tag.cl = 0 ∧ tag.num = OBJECT_ID then some nums else none
  | _ => none

def subids : List ℤ → List ℤ
  | [] => []
  | [x] => [(x * 40).bmod (2 ^ 32)]
  | x :: y :: zs => ((x * 40).bmod (2 ^ 32) + y).bmod (2 ^ 32) :: zs

/-- What `val_enc` of a value that is no list measures, and the bytes that it lays; none is a
bad value for the encoding kind. An array of no bits is nil. -/
def leaf_enc (tag : Tag) (val : Value) : Option (ℕ × List UInt8) :=
  match (if tag.cl = 0 then Kind.of tag.num else val.kind tag) with
  | .boolean =>
    (is_int tag val).map fun v =>
      let v := if v ≠ 0 then 255 else 0
      (int_len v true, int_put v true)
  | .integer =>
    match is_int tag val with
    | some v => some (int_len v false, int_put v false)
    | none => (is_bigint tag val).map fun bb => (bb.length, bb)
  | .bitstring =>
    match is_bitstring tag val with
    | some (v, bb) =>
      if bb = [] then some (1, [0])
      else if 7 < v then none
      else some (1 + bb.length, byte v :: bb)
    | none => none
  | .octets | .external | .real =>
    match val with
    | .octets bytes | .real bytes | .other bytes => some (bytes.length, bytes)
    | _ => none
  | .null => some (0, [])
  | .objid =>
    (is_oid tag val).map fun nums =>
      (((subids nums).map uint7_len).sum, ((subids nums).map uint7_put).flatten)
  | .sequence | .set => some (0, [])
  | .string =>
    match val with
    | .string s => some ((bytes s).length, bytes s)
    | _ => none
  | .eoc | .other => none

def list_enc (tag : Tag) : Option Bool :=
  if tag.cl = 0 then
    match Kind.of tag.num with
    | .sequence | .set => some true
    | .null => some false
    | _ => none
  else some true

def tag_len (tag : Tag) : ℕ := if tag.num < 31 then 1 else 1 + uint7_len tag.num

def length_len (vlen : ℕ) : ℕ := if vlen < 0x80 then 1 else 1 + int_len vlen true

def header (tag : Tag) (constr : Bool) (vlen : ℕ) : List UInt8 :=
  let v := tag.cl + if constr then 0x20 else 0
  (if tag.num < 31 then [byte (v + tag.num : ℕ)] else byte (v + 31 : ℕ) :: uint7_put tag.num) ++
    if vlen < 0x80 then [byte vlen]
    else byte (0x80 + int_len vlen true : ℕ) :: int_put vlen true

mutual

def enc_len : Elem → ℕ → Option ℕ
  | .elem tag val, i =>
    (leaf_enc tag val).map fun (vlen, _) => i + tag_len tag + length_len vlen + vlen
  | .seq tag l, i | .set tag l, i =>
    match list_enc tag with
    | some true => (encs_len l 0).map fun vlen => i + tag_len tag + length_len vlen + vlen
    | some false => some (i + tag_len tag + length_len 0 + 0)
    | none => none

def encs_len : List Elem → ℕ → Option ℕ
  | [], i => some i
  | e :: l, i => (enc_len e i).bind (encs_len l)

end

mutual

def enc_put : Elem → List UInt8 → ℕ → Option (List UInt8)
  | .elem tag val, b, i =>
    match leaf_enc tag val with
    | some (vlen, bs) => do
      let b ← put b i (header tag false vlen)
      put b (i + tag_len tag + length_len vlen) bs
    | none => some b
  | .seq tag l, b, i | .set tag l, b, i =>
    match list_enc tag with
    | some true =>
      match encs_len l 0 with
      | some vlen => do
        let b ← put b i (header tag true vlen)
        encs_put l b (i + tag_len tag + length_len vlen)
      | none => some b
    | some false => put b i (header tag false 0)
    | none => some b

def encs_put : List Elem → List UInt8 → ℕ → Option (List UInt8)
  | [], b, _ => some b
  | e :: l, b, i => do
    let b ← enc_put e b i
    match enc_len e i with
    | some i => encs_put l b i
    | none => some b

end

def encode (e : Elem) : Option (Str × List UInt8) :=
  match enc_len e 0 with
  | none => some (lit "bad value for encoding kind", [])
  | some n =>
    if n < 2 ^ 31 then (enc_put e (List.replicate n 0) 0).map fun b => ([], b) else none

end Infernode.Asn1
