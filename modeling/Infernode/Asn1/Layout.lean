import Infernode.Asn1.Encode

/-!
# The bytes of an element

`ber` lays an element out in one go. The first pass of the encoder measures its length, and the
second puts it in place.
-/

namespace Infernode.Asn1

open Limbo

mutual

def ber : Elem → Option (List UInt8)
  | .elem tag val => (leaf_enc tag val).map fun (vlen, bs) => header tag false vlen ++ bs
  | .seq tag l | .set tag l =>
    match list_enc tag with
    | some true => (bers l).map fun bs => header tag true bs.length ++ bs
    | some false => some (header tag false 0)
    | none => none

def bers : List Elem → Option (List UInt8)
  | [] => some []
  | e :: l => (ber e).bind fun bs => (bers l).map (bs ++ ·)

end

variable {b bs cs : List UInt8} {i : ℕ}

theorem uint7_put_length (num : ℤ) : (uint7_put num).length = uint7_len num := by
  simp [uint7_put, uint7_len]

theorem int_put_length (num : ℤ) (unsigned : Bool) :
    (int_put num unsigned).length = int_len num unsigned := by
  simp [int_put]

theorem header_length (tag : Tag) (constr : Bool) (vlen : ℕ) :
    (header tag constr vlen).length = tag_len tag + length_len vlen := by
  rw [header, tag_len, length_len]
  split_ifs <;> simp [uint7_put_length, int_put_length] <;> omega

theorem leaf_enc_length {tag : Tag} {val : Value} {vlen : ℕ}
    (h : leaf_enc tag val = some (vlen, bs)) : bs.length = vlen := by
  unfold leaf_enc at h
  generalize (if tag.cl = 0 then Kind.of tag.num else val.kind tag) = kind at h
  cases kind with
  | eoc | other => exact nomatch h
  | boolean =>
    obtain ⟨v, -, hv⟩ := Option.map_eq_some_iff.mp h
    obtain ⟨rfl, rfl⟩ := Prod.mk.inj hv
    exact int_put_length _ _
  | integer =>
    simp only at h
    split at h
    · obtain ⟨rfl, rfl⟩ := Prod.mk.inj (Option.some.inj h)
      exact int_put_length _ _
    · obtain ⟨bb, -, hbb⟩ := Option.map_eq_some_iff.mp h
      obtain ⟨rfl, rfl⟩ := Prod.mk.inj hbb
      rfl
  | bitstring =>
    simp only at h
    split at h
    · split_ifs at h
      · obtain ⟨rfl, rfl⟩ := Prod.mk.inj (Option.some.inj h)
        rfl
      · obtain ⟨rfl, rfl⟩ := Prod.mk.inj (Option.some.inj h)
        rw [List.length_cons, Nat.add_comm]
    · exact nomatch h
  | octets | external | real =>
    cases val with
    | octets bytes | real bytes | other bytes =>
      obtain ⟨rfl, rfl⟩ := Prod.mk.inj (Option.some.inj h)
      rfl
    | _ => exact nomatch h
  | null | sequence | set =>
    obtain ⟨rfl, rfl⟩ := Prod.mk.inj (Option.some.inj h)
    rfl
  | objid =>
    obtain ⟨nums, -, hnums⟩ := Option.map_eq_some_iff.mp h
    obtain ⟨rfl, rfl⟩ := Prod.mk.inj hnums
    rw [List.length_flatten, List.map_map]
    exact congrArg List.sum (List.map_congr_left fun num _ => uint7_put_length num)
  | string =>
    cases val with
    | string s =>
      obtain ⟨rfl, rfl⟩ := Prod.mk.inj (Option.some.inj h)
      rfl
    | _ => exact nomatch h

mutual

theorem enc_len_eq : ∀ (e : Elem) (i : ℕ), enc_len e i = (ber e).map (i + ·.length)
  | .elem tag val, i => by
    rw [enc_len, ber]
    cases h : leaf_enc tag val with
    | none => rfl
    | some p =>
      obtain ⟨vlen, bs⟩ := p
      simp [header_length, leaf_enc_length h, Nat.add_assoc]
  | .seq tag l, i | .set tag l, i => by
    rw [enc_len, ber]
    cases list_enc tag with
    | none => rfl
    | some laid =>
      cases laid with
      | false => simp [header_length, Nat.add_assoc]
      | true =>
        simp only [encs_len_eq l 0]
        cases bers l <;> simp [header_length, Nat.add_assoc]

theorem encs_len_eq : ∀ (l : List Elem) (i : ℕ), encs_len l i = (bers l).map (i + ·.length)
  | [], i => rfl
  | e :: l, i => by
    rw [encs_len, bers, enc_len_eq e i]
    cases ber e with
    | none => rfl
    | some bs =>
      simp only [Option.map_some, Option.bind_some, encs_len_eq l]
      cases bers l <;> simp [Nat.add_assoc]

end

theorem put_put {b' : List UInt8} (cs : List UInt8) (h : put b i bs = some b') :
    put b' (i + bs.length) cs = put b i (bs ++ cs) := by
  rw [put] at h
  split_ifs at h with hle
  obtain rfl := Option.some.inj h
  have hlen : (b.take i ++ bs).length = i + bs.length := by
    rw [List.length_append, List.length_take]
    omega
  have htotal : (b.take i ++ bs ++ b.drop (i + bs.length)).length = b.length := by
    rw [List.length_append, hlen, List.length_drop]
    omega
  rw [put, put, htotal, List.length_append, ← Nat.add_assoc, ← hlen, List.take_left,
    ← List.drop_drop, List.drop_left, List.drop_drop, hlen, List.append_assoc (b.take i)]

theorem put_isSome (bs : List UInt8) (h : i + bs.length ≤ b.length) : ∃ b', put b i bs = some b' :=
  ⟨_, if_pos h⟩

theorem put_length {b' : List UInt8} (h : put b i bs = some b') : b'.length = b.length := by
  rw [put] at h
  split_ifs at h with hle
  obtain rfl := Option.some.inj h
  simp only [List.length_append, List.length_take, List.length_drop]
  omega

mutual

theorem enc_put_eq : ∀ (e : Elem) {bs : List UInt8} (b : List UInt8) (i : ℕ), ber e = some bs →
    i + bs.length ≤ b.length → enc_put e b i = put b i bs
  | .elem tag val, bs, b, i, hbs, hle => by
    rw [ber] at hbs
    rw [enc_put]
    obtain ⟨⟨vlen, cs⟩, hleaf, rfl⟩ := Option.map_eq_some_iff.mp hbs
    rw [List.length_append] at hle
    obtain ⟨b', hb'⟩ := put_isSome (b := b) (i := i) (header tag false vlen) (by omega)
    have hput := put_put cs hb'
    rw [header_length, ← Nat.add_assoc] at hput
    simp only [hleaf, hb', Option.bind_eq_bind, Option.bind_some, hput]
  | .seq tag l, bs, b, i, hbs, hle | .set tag l, bs, b, i, hbs, hle => by
    rw [ber] at hbs
    rw [enc_put]
    cases hlist : list_enc tag with
    | none => exact nomatch hlist ▸ hbs
    | some laid =>
      rw [hlist] at hbs
      cases laid with
      | false =>
        obtain rfl := Option.some.inj hbs
        rfl
      | true =>
        obtain ⟨cs, hcs, rfl⟩ := Option.map_eq_some_iff.mp hbs
        rw [List.length_append] at hle
        obtain ⟨b', hb'⟩ := put_isSome (b := b) (i := i) (header tag true cs.length)
          (by omega)
        have hput := put_put cs hb'
        have hrest := encs_put_eq l b' (i + (header tag true cs.length).length) hcs
          (by rw [put_length hb']; omega)
        rw [hput, header_length, ← Nat.add_assoc] at hrest
        simp only [encs_len_eq, hcs, Option.map_some, Nat.zero_add, hb', Option.bind_eq_bind,
          Option.bind_some, hrest]

theorem encs_put_eq : ∀ (l : List Elem) {bs : List UInt8} (b : List UInt8) (i : ℕ),
    bers l = some bs → i + bs.length ≤ b.length → encs_put l b i = put b i bs
  | [], bs, b, i, hbs, hle => by
    obtain rfl := Option.some.inj hbs
    rw [encs_put, put, if_pos hle]
    simp
  | e :: l, bs, b, i, hbs, hle => by
    rw [bers] at hbs
    obtain ⟨cs, hcs, hrest⟩ := Option.bind_eq_some_iff.mp hbs
    obtain ⟨ds, hds, rfl⟩ := Option.map_eq_some_iff.mp hrest
    rw [List.length_append] at hle
    obtain ⟨b', hb'⟩ := put_isSome (b := b) (i := i) cs (by omega)
    rw [encs_put, enc_put_eq e b i hcs (by omega), enc_len_eq, hcs]
    have htail := encs_put_eq l b' (i + cs.length) hds (by rw [put_length hb']; omega)
    simp only [hb', Option.map_some, Option.bind_eq_bind, Option.bind_some, htail]
    exact put_put _ hb'

end

theorem encode_eq {e : Elem} (h : ber e = some bs) :
    encode e = if bs.length < 2 ^ 31 then some ([], bs) else none := by
  rw [encode, enc_len_eq, h]
  simp only [Option.map_some, Nat.zero_add]
  split_ifs with hlt
  · rw [enc_put_eq e _ 0 h (by simp), put, if_pos (by simp)]
    simp
  · rfl

theorem encode_bad {e : Elem} (h : ber e = none) :
    encode e = some (lit "bad value for encoding kind", []) := by
  rw [encode, enc_len_eq, h]
  rfl

end Infernode.Asn1
