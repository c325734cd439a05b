import Infernode.Asn1.Digits

/-!
# What is decoded of an encoding

`read` says what the decoder makes of the bytes of an element: the element, for most.
-/

namespace Infernode.Asn1

open Limbo

variable {a bs rest : List UInt8} {i n first : ℕ} {tag : Tag}

structure Tag.Valid (tag : Tag) : Prop where
  cl : tag.cl = 0 ∨ tag.cl = 0x40 ∨ tag.cl = 0x80 ∨ tag.cl = 0xC0
  num : tag.num < 2 ^ 31

theorem byte_toNat {v : ℕ} (hv : v < 256) : (byte v).toNat = v := by
  have hbyte := toNat_byte (v : ℤ)
  omega

theorem length_of_drop (h : a.drop i = bs ++ rest) (hbs : bs ≠ []) : i + bs.length ≤ a.length := by
  have hlen := congrArg List.length h
  have hpos := List.length_pos_iff.mpr hbs
  rw [List.length_drop, List.length_append] at hlen
  omega

theorem tag_decode_header (htag : tag.Valid) {constr : Bool} {vlen : ℕ}
    (h : a.drop i = header tag constr vlen ++ rest) :
    tag_decode a i a.length = (.ok, i + tag_len tag, { tag with constr := constr }) := by
  have hlen : 2 ≤ (header tag constr vlen).length := by
    rw [header_length, tag_len, length_len]
    split_ifs <;> omega
  have hle := length_of_drop h (by intro hnil; rw [hnil] at hlen; exact absurd hlen (by simp))
  have hcl := htag.cl
  rw [tag_decode, if_pos (by omega), tag_len]
  rw [header] at h
  split_ifs with hnum
  · rw [if_pos hnum, List.append_assoc, List.singleton_append] at h
    obtain ⟨-, hget, -⟩ := drop_cons h
    rw [byte_toNat (by split_ifs <;> omega)] at hget
    simp only [hget]
    cases constr
    · rw [if_neg (by simp; omega)]
      refine Prod.ext rfl (Prod.ext rfl ?_)
      simp only [Tag.mk.injEq]
      refine ⟨?_, ?_, ?_⟩ <;> simp <;> omega
    · rw [if_neg (by simp; omega)]
      refine Prod.ext rfl (Prod.ext rfl ?_)
      simp only [Tag.mk.injEq]
      refine ⟨?_, ?_, ?_⟩ <;> simp <;> omega
  · rw [if_neg hnum, List.append_assoc, List.cons_append] at h
    obtain ⟨-, hget, hrest⟩ := drop_cons h
    rw [byte_toNat (by split_ifs <;> omega)] at hget
    simp only [hget]
    rw [if_pos (by split_ifs <;> omega), uint7_decode_put htag.num hrest]
    refine Prod.ext rfl (Prod.ext (by simp only; omega) ?_)
    simp only [Tag.mk.injEq]
    cases constr <;> refine ⟨?_, trivial, ?_⟩ <;> simp <;> omega

theorem length_decode_header {constr : Bool} (hn : n < 2 ^ 31)
    (h : a.drop i = header tag constr n ++ rest) :
    length_decode a (i + tag_len tag) a.length =
      (.ok, i + tag_len tag + length_len n, (n : ℤ)) := by
  obtain ⟨tagbytes, hbytes, htaglen⟩ : ∃ bs : List UInt8, header tag constr n =
      bs ++ (if n < 0x80 then [byte n] else byte (0x80 + int_len n true : ℕ) :: int_put n true) ∧
        bs.length = tag_len tag := by
    refine ⟨_, rfl, ?_⟩
    rw [tag_len]
    by_cases hnum : tag.num < 31
    · rw [if_pos hnum, if_pos hnum]
      rfl
    · rw [if_neg hnum, if_neg hnum, List.length_cons, uint7_put_length, Nat.add_comm]
  rw [hbytes, List.append_assoc] at h
  have hdrop := (drop_append h).1
  rw [htaglen] at hdrop
  by_cases hsmall : n < 0x80
  · rw [if_pos hsmall, List.singleton_append] at hdrop
    obtain ⟨hi, hget, -⟩ := drop_cons hdrop
    rw [byte_toNat (by omega)] at hget
    simp only [length_decode, length_len, if_pos hsmall, if_pos hi, hget,
      if_neg (show ¬ 128 ≤ n by omega), if_neg (show n ≠ 0x80 by omega)]
  · rw [if_neg hsmall, List.cons_append] at hdrop
    obtain ⟨hi, hget, hrest⟩ := drop_cons hdrop
    have hput := int_put_length n true
    have hpos : 0 < int_len n true := by simp [int_len]
    have hne : int_put n true ≠ [] := by
      intro hnil
      rw [hnil] at hput
      simp only [List.length_nil] at hput
      omega
    have hle := length_of_drop hrest hne
    obtain ⟨hfour, hint⟩ := int_decode_length (k := a.length) hn hrest (by omega)
    rw [byte_toNat (by omega)] at hget
    have hcount : (0x80 + int_len n true) % 128 = int_len n true := by omega
    simp only [length_decode, length_len, if_neg hsmall, if_pos hi, hget,
      if_pos (Nat.le_add_right 128 _), hcount, hint]
    refine Prod.ext rfl (Prod.ext (by simp only; omega) rfl)

def Value.Fits (tag : Tag) : Value → Prop
  | .bool v => tag = ⟨0, 1, false⟩ ∧ -2 ^ 31 ≤ v ∧ v < 2 ^ 31
  | .int v => (tag = ⟨0, 2, false⟩ ∨ tag = ⟨0, 10, false⟩) ∧ -2 ^ 31 ≤ v ∧ v < 2 ^ 31
  | .bigint bytes => (tag = ⟨0, 2, false⟩ ∨ tag = ⟨0, 10, false⟩) ∧ 4 < bytes.length
  | .octets _ => tag = ⟨0, 4, false⟩ ∨ tag = ⟨0, 7, false⟩ ∨ tag.cl ≠ 0 ∧ tag.Valid
  | .bitstring unusedbits bits => tag = ⟨0, 3, false⟩ ∧
    unusedbits ≤ 7 ∧ (bits = [] → unusedbits = 0)
  | .null => tag = ⟨0, 5, false⟩
  | .objid nums => tag = ⟨0, 6, false⟩ ∧ ∃ x y zs, nums = x :: y :: zs ∧ (0 ≤ x ∧ x ≤ 2) ∧
    (0 ≤ y ∧ y < 2 ^ 31) ∧ ∀ z ∈ zs, 0 ≤ z ∧ z < 2 ^ 31
  | .string _ => tag.cl = 0 ∧ Kind.of tag.num = .string ∧ tag.constr = false
  | .real _ | .other _ | .eoc => False

def digits (v : ℤ) : ℕ := if v < 0 then (v % 128).toNat else v.toNat

def Value.read (first : ℕ) : Value → Option Value
  | .bool _ => some (.bool first)
  | .bitstring unusedbits bits =>
    if bits = [] ∨ 0x0FFFFFFF ≤ bits.length then none else some (.bitstring unusedbits bits)
  | .objid nums => some (.objid (arcs ((subids nums).map digits)))
  | v => some v

mutual

def Elem.Fits : Elem → ℕ → Prop
  | .elem tag val, _ => val.Fits tag
  | .seq tag l, d => tag = ⟨0, 16, true⟩ ∧ AllFit l d
  | .set tag l, d => tag = ⟨0, 17, true⟩ ∧ AllFit l d

def AllFit : List Elem → ℕ → Prop
  | [], _ => True
  | _ :: _, 0 => False
  | e :: l, d + 1 => e.Fits d ∧ AllFit l (d + 1)

end

mutual

def Elem.read (first : ℕ) : Elem → Option Elem
  | .elem tag val => (val.read first).map (.elem { tag with constr := false })
  | .seq tag l => (reads first l).map (.seq tag)
  | .set tag l => (reads first l).map (.set tag)

def reads (first : ℕ) : List Elem → Option (List Elem)
  | [] => some []
  | e :: l => (e.read first).bind fun e => (reads first l).map (e :: ·)

end

def Decoded {α : Type} (o : Out α) (j : ℕ) : Option α → Prop
  | some x => o = some (.ok, j, some x)
  | none => ∃ err j, err ≠ .ok ∧ o = some (err, j, none)

theorem slice_eq (h : a.drop i = bs ++ rest) (hle : i + bs.length ≤ a.length) :
    slice a i bs.length = some bs := by
  rw [slice, if_pos (by omega), Int.toNat_natCast, h, List.take_left]

theorem uint7_decode_digits {v : ℤ} (hlo : -2 ^ 31 ≤ v) (hhi : v < 2 ^ 31)
    (h : a.drop i = uint7_put v ++ rest) :
    uint7_decode a i a.length = (.ok, i + uint7_len v, digits v) := by
  rw [digits]
  split_ifs with hneg
  · have hlen : uint7_len v = 1 := by
      have hzero : (v / 128).toNat = 0 := by omega
      simp [uint7_len, hzero, rounds]
    rw [uint7_put, hlen] at h
    obtain ⟨hi, hget, -⟩ := drop_cons h
    have hbyte := toNat_byte (v % 128)
    obtain ⟨k, hk⟩ : ∃ k, a.length - i = k + 1 := ⟨a.length - i - 1, by omega⟩
    have hsmall : ¬ 128 ≤ getb a i := by omega
    have hvalue : 0 * 128 + getb a i % 128 = (v % 128).toNat := by omega
    simp only [uint7_decode, hk, uint7loop, hlen, if_neg hsmall, hvalue]
    simp
  · obtain ⟨num, rfl⟩ := Int.eq_ofNat_of_zero_le (not_lt.mp hneg)
    rw [uint7_decode_put (by omega) h]
    simp

theorem objidloop_subids {vs : List ℤ} (hvs : ∀ v ∈ vs, -2 ^ 31 ≤ v ∧ v < 2 ^ 31) (lva : List ℕ)
    {k iend : ℕ} (h : a.drop i = (vs.map uint7_put).flatten ++ rest)
    (hiend : iend = i + (vs.map uint7_len).sum) (hk : (vs.map uint7_len).sum ≤ k) :
    objidloop a a.length iend k i lva = (.ok, iend, lva.reverse ++ vs.map digits) := by
  induction vs generalizing i k lva with
  | nil =>
    simp only [List.map_nil, List.sum_nil] at hiend
    subst hiend
    cases k <;> simp [objidloop]
  | cons v vs ih =>
    rw [List.map_cons, List.flatten_cons, List.append_assoc] at h
    rw [List.map_cons, List.sum_cons] at hiend hk
    have hpos : 0 < uint7_len v := by simp [uint7_len]
    obtain ⟨k, rfl⟩ : ∃ j, k = j + 1 := ⟨k - 1, by omega⟩
    have hv := hvs v List.mem_cons_self
    have hdrop := (drop_append h).1
    rw [uint7_put_length] at hdrop
    have hlt : (i : ℤ) < iend := by omega
    simp only [objidloop, if_pos hlt, uint7_decode_digits hv.1 hv.2 h]
    rw [ih (fun w hw => hvs w (List.mem_cons_of_mem v hw)) _ hdrop (by omega) (by omega)]
    simp

theorem add_eq {x y : ℕ} (h : x + y < 2 ^ 31) : add x y = (x + y : ℕ) := by
  rw [add, Int.bmod_def]
  split_ifs <;> omega

theorem octet_decode_slice (sub : ℕ → Out Elem) (h : a.drop i = bs ++ rest)
    (hle : i + bs.length ≤ a.length) :
    octet_decode a a.length sub i bs.length false = some (.ok, i + bs.length, some bs) := by
  rw [octet_decode, if_pos ⟨Int.natCast_nonneg _, rfl⟩, slice_eq h hle]
  rfl

theorem subids_int {x y : ℤ} {zs : List ℤ} (hzs : ∀ z ∈ zs, 0 ≤ z ∧ z < 2 ^ 31) :
    ∀ v ∈ subids (x :: y :: zs), -2 ^ 31 ≤ v ∧ v < 2 ^ 31 := by
  intro v hv
  rcases List.mem_cons.mp hv with rfl | hv
  · rw [Int.bmod_def]
    split_ifs <;> omega
  · have hz := hzs v hv
    omega

theorem value_decode_leaf (sub : ℕ → Out Elem) {val : Value} {vlen : ℕ} (hfit : val.Fits tag)
    (hleaf : leaf_enc tag val = some (vlen, bs)) (h : a.drop i = bs ++ rest)
    (hle : i + bs.length ≤ a.length) (hlen : a.length < 2 ^ 31) (hfirst : getb a 0 ≠ 0) :
    Decoded (value_decode a a.length sub i bs.length { tag with constr := false }.kind
      { tag with constr := false }.nests) (i + bs.length)
      ((val.read (getb a 0)).map fun v => (.elem · v)) := by
  have hnests : ({ tag with constr := false } : Tag).nests = false := by simp [Tag.nests]
  have hkind : ({ tag with constr := false } : Tag).kind = tag.kind := rfl
  have hadd : add i bs.length = (i + bs.length : ℕ) := add_eq (by omega)
  have hshort : ¬ ((bs.length : ℤ) = -1 ∧ (false : Bool) = false) := by omega
  have hlong : ¬ ((bs.length : ℤ) ≠ -1 ∧ (a.length : ℤ) < add i bs.length) := by omega
  rw [hnests, hkind]
  unfold value_decode
  rw [if_neg hshort, if_neg hlong]
  cases val with
  | bool v =>
    obtain ⟨rfl, -, -⟩ := hfit
    have hbs : bs.length = 1 := by
      change some (int_len (if v ≠ 0 then 255 else 0) true,
        int_put (if v ≠ 0 then 255 else 0) true) = some (vlen, bs) at hleaf
      obtain ⟨-, rfl⟩ := Prod.mk.inj (Option.some.inj hleaf)
      rw [int_put_length]
      split_ifs <;> rfl
    simp [Tag.kind, Kind.of, Value.read, Decoded, hbs]
  | int v =>
    obtain ⟨htag, hlo, hhi⟩ := hfit
    rcases htag with rfl | rfl
    · obtain ⟨rfl, rfl⟩ := Prod.mk.inj (Option.some.inj hleaf)
      have hdecode := int_decode_put hlo hhi h
      obtain ⟨-, hfour, -⟩ := int_len_bounds hlo hhi
      rw [int_put_length] at hle ⊢
      have hshort : (int_len v false : ℤ) ≤ 4 := by omega
      have hin : ¬ a.length < i + int_len v false := by omega
      simp [Tag.kind, Kind.of, Value.read, Decoded, hshort, hdecode, hin]
    · exact nomatch hleaf
  | bigint bytes =>
    obtain ⟨htag, hlong⟩ := hfit
    rcases htag with rfl | rfl
    · obtain ⟨rfl, rfl⟩ := Prod.mk.inj (Option.some.inj hleaf)
      have hnot : ¬ (bytes.length : ℤ) ≤ 4 := by omega
      simp [Tag.kind, Kind.of, Value.read, Decoded, hnot, bytes_decode, slice_eq h hle]
    · exact nomatch hleaf
  | octets bytes =>
    have hocts : tag.kind = .octets := by
      rcases hfit with rfl | rfl | ⟨hcl, -⟩
      · rfl
      · rfl
      · rw [Tag.kind, if_neg hcl]
    have hbs : bs = bytes := by
      unfold leaf_enc at hleaf
      have hkind : (if tag.cl = 0 then Kind.of tag.num else (Value.octets bytes).kind tag) =
          .octets := hocts
      rw [hkind] at hleaf
      exact (Prod.mk.inj (Option.some.inj hleaf)).2.symm
    subst hbs
    simp [hocts, Value.read, Decoded, octet_decode_slice sub h hle]
  | bitstring unusedbits bits =>
    obtain ⟨rfl, hunused, -⟩ := hfit
    change (if bits = [] then some (1, [0]) else if 7 < unusedbits then none
      else some (1 + bits.length, byte unusedbits :: bits)) = some (vlen, bs) at hleaf
    by_cases hnil : bits = []
    · rw [if_pos hnil] at hleaf
      obtain ⟨-, rfl⟩ := Prod.mk.inj (Option.some.inj hleaf)
      simp [Tag.kind, Kind.of, Value.read, Decoded, hnil, hfirst]
    · rw [if_neg hnil, if_neg (not_lt.mpr hunused)] at hleaf
      obtain ⟨-, rfl⟩ := Prod.mk.inj (Option.some.inj hleaf)
      obtain ⟨hi, hget, hrest⟩ := drop_cons h
      rw [byte_toNat (by omega)] at hget
      have hpos := List.length_pos_iff.mpr hnil
      rw [List.length_cons] at hle ⊢
      have htwo : ¬ ((bits.length + 1 : ℕ) : ℤ) < 2 := by omega
      have hslice := slice_eq hrest (by omega)
      have hminus : ((bits.length + 1 : ℕ) : ℤ) - 1 = bits.length := by omega
      simp only [Tag.kind, Kind.of, Value.read, hnil, false_or, if_neg htwo, hget,
        if_neg (not_le.mpr hi), if_neg (not_lt.mpr hunused), hminus, hslice]
      by_cases hmany : 0x0FFFFFFF ≤ bits.length
      · have hmore : (0x0FFFFFFF : ℤ) < ((bits.length + 1 : ℕ) : ℤ) := by omega
        rw [if_pos hmany, if_pos hmore]
        exact ⟨.toobig, i, nofun, rfl⟩
      · have hmore : ¬ (0x0FFFFFFF : ℤ) < ((bits.length + 1 : ℕ) : ℤ) := by omega
        rw [if_neg hmany, if_neg hmore]
        rfl
  | null =>
    obtain rfl := hfit
    obtain ⟨-, rfl⟩ := Prod.mk.inj (Option.some.inj hleaf)
    simp [Tag.kind, Kind.of, Value.read, Decoded]
  | objid nums =>
    obtain ⟨rfl, x, y, zs, rfl, hx, hy, hzs⟩ := hfit
    obtain ⟨-, rfl⟩ := Prod.mk.inj (Option.some.inj hleaf)
    have hlength : (((subids (x :: y :: zs)).map uint7_put).flatten).length =
        ((subids (x :: y :: zs)).map uint7_len).sum := by
      rw [List.length_flatten, List.map_map]
      exact congrArg List.sum (List.map_congr_left fun num _ => uint7_put_length num)
    have hpos : 0 < ((subids (x :: y :: zs)).map uint7_len).sum := by
      simp [subids, uint7_len]
    have hloop := objidloop_subids (k := a.length - i) (subids_int hzs) [] h rfl (by omega)
    rw [hlength] at hadd hle ⊢
    have hnonzero : (((subids (x :: y :: zs)).map uint7_len).sum : ℤ) ≠ 0 := by omega
    simp only [Tag.kind, Kind.of, Value.read, hnonzero, hadd, hloop, if_true]
    simp [Decoded]
  | string s =>
    obtain ⟨hcl, hkind, -⟩ := hfit
    have hstring : tag.kind = .string := by rw [Tag.kind, if_pos hcl, hkind]
    have hbs : bs = bytes s := by
      unfold leaf_enc at hleaf
      rw [if_pos hcl, hkind] at hleaf
      exact (Prod.mk.inj (Option.some.inj hleaf)).2.symm
    subst hbs
    simp [hstring, Value.read, Decoded, octet_decode_slice sub h hle]
  | real _ | other _ | eoc => exact hfit.elim

theorem Value.Fits.valid {val : Value} (h : val.Fits tag) : tag.Valid := by
  have hbyte {num : ℕ} (hnum : num < 31) : Tag.Valid ⟨0, num, false⟩ :=
    ⟨.inl rfl, lt_of_lt_of_le hnum (by omega)⟩
  cases val with
  | bool v | bitstring unusedbits bits | objid nums =>
    rw [h.1]
    exact hbyte (by omega)
  | int v | bigint bytes => rcases h.1 with rfl | rfl <;> exact hbyte (by omega)
  | octets bytes =>
    rcases h with rfl | rfl | h
    · exact hbyte (by omega)
    · exact hbyte (by omega)
    · exact h.2
  | null =>
    obtain rfl := h
    exact hbyte (by omega)
  | string s =>
    refine ⟨.inl h.1, ?_⟩
    by_contra hnum
    have hkind := h.2.1
    unfold Kind.of at hkind
    split at hkind <;> first | omega | exact nomatch hkind
  | real _ | other _ | eoc => exact h.elim

theorem Value.Fits.read_ne_eoc {val val' : Value} (h : val.Fits tag)
    (hread : val.read first = some val') : val' ≠ .eoc := by
  rintro rfl
  cases val with
  | bitstring unusedbits bits =>
    rw [Value.read] at hread
    split_ifs at hread
    exact nomatch hread
  | eoc => exact h
  | _ => exact nomatch hread

theorem Elem.Fits.read_iseoc {e e' : Elem} {d : ℕ} (h : e.Fits d) (hread : e.read first = some e') :
    e'.iseoc = false := by
  cases e with
  | elem tag val =>
    obtain ⟨val', hval, rfl⟩ := Option.map_eq_some_iff.mp (by simpa only [Elem.read] using hread)
    have hne := Value.Fits.read_ne_eoc (by simpa only [Elem.Fits] using h) hval
    cases val' <;> first | rfl | exact absurd rfl hne
  | seq tag l | set tag l =>
    obtain ⟨l', -, rfl⟩ := Option.map_eq_some_iff.mp (by simpa only [Elem.read] using hread)
    rfl

theorem ber_length {e : Elem} (h : ber e = some bs) : 2 ≤ bs.length := by
  have hheader (tag : Tag) (constr : Bool) (vlen : ℕ) (cs : List UInt8) :
      2 ≤ (header tag constr vlen ++ cs).length := by
    rw [List.length_append, header_length, tag_len, length_len]
    split_ifs <;> omega
  cases e with
  | elem tag val =>
    rw [ber] at h
    obtain ⟨⟨vlen, cs⟩, -, rfl⟩ := Option.map_eq_some_iff.mp h
    exact hheader _ _ _ _
  | seq tag l | set tag l =>
    rw [ber] at h
    split at h
    · obtain ⟨cs, -, rfl⟩ := Option.map_eq_some_iff.mp h
      exact hheader _ _ _ _
    · obtain rfl := Option.some.inj h
      simpa using hheader tag false 0 []
    · cases h

theorem header_ne_nil (tag : Tag) (constr : Bool) (vlen : ℕ) : header tag constr vlen ≠ [] := by
  intro hnil
  have hlength := header_length tag constr vlen
  rw [hnil, tag_len] at hlength
  simp only [List.length_nil] at hlength
  split_ifs at hlength <;> omega

theorem ber_decode_header {constr : Bool} {cs : List UInt8} {d : ℕ} {o : Option (Tag → Elem)}
    (htag : tag.Valid) (h : a.drop i = header tag constr cs.length ++ (cs ++ rest))
    (hcs : cs.length < 2 ^ 31)
    (hvalue : Decoded (value_decode a a.length (ber_decode a a.length d)
      (i + tag_len tag + length_len cs.length) cs.length { tag with constr := constr }.kind
      { tag with constr := constr }.nests) (i + tag_len tag + length_len cs.length + cs.length) o) :
    Decoded (ber_decode a a.length (d + 1) i) (i + (header tag constr cs.length ++ cs).length)
      (o.map (· { tag with constr := constr })) := by
  have hend : i + (header tag constr cs.length ++ cs).length =
      i + tag_len tag + length_len cs.length + cs.length := by
    rw [List.length_append, header_length]
    omega
  rw [hend, ber_decode, tag_decode_header htag h]
  simp only [length_decode_header hcs h]
  cases o with
  | some f =>
    rw [Decoded] at hvalue
    rw [hvalue]
    rfl
  | none =>
    obtain ⟨err, j, herr, hvalue⟩ := hvalue
    rw [hvalue]
    exact ⟨err, j, herr, rfl⟩

theorem ber_decode_list {num d : ℕ} {f : Tag → List Elem → Elem} {cs : List UInt8}
    {o : Option (List Elem)} (hf : num = 16 ∧ f = Elem.seq ∨ num = 17 ∧ f = Elem.set)
    (h : a.drop i = header ⟨0, num, true⟩ true cs.length ++ cs ++ rest) (hlen : a.length < 2 ^ 31)
    (hloop : ∀ j, a.drop j = cs ++ rest → j + cs.length ≤ a.length →
      Decoded (seqloop (ber_decode a a.length d) cs.length (j + cs.length : ℕ) (a.length - j + 1) j
        []) (j + cs.length) o) :
    Decoded (ber_decode a a.length (d + 1) i)
      (i + (header ⟨0, num, true⟩ true cs.length ++ cs).length) (o.map (f ⟨0, num, true⟩)) := by
  have htag : Tag.Valid ⟨0, num, true⟩ :=
    ⟨.inl rfl, by rcases hf with ⟨rfl, -⟩ | ⟨rfl, -⟩ <;> norm_num⟩
  rw [List.append_assoc] at h
  have hle := length_of_drop h (header_ne_nil _ _ _)
  obtain ⟨hdrop, hlast⟩ := drop_append h
  rw [header_length] at hdrop hlast hle
  rw [List.length_append] at hlast
  rw [← Nat.add_assoc] at hdrop
  obtain ⟨j, hj⟩ : ∃ j, i + tag_len ⟨0, num, true⟩ + length_len cs.length = j := ⟨_, rfl⟩
  have hfit : j + cs.length ≤ a.length := by omega
  rw [hj] at hdrop
  have hone := hloop j hdrop hfit
  have hadd : add j cs.length = (j + cs.length : ℕ) := add_eq (by omega)
  have hshort : ¬ ((cs.length : ℤ) = -1 ∧ (true : Bool) = false) := by simp
  have hlong : ¬ ((cs.length : ℤ) ≠ -1 ∧ (a.length : ℤ) < add j cs.length) := by omega
  have hdecoded := ber_decode_header (o := o.map fun vl => (f · vl)) (d := d) htag h
    (by omega) (by
      have hnests : Tag.nests ⟨0, num, true⟩ = true := rfl
      rw [hj, hnests]
      unfold value_decode
      rw [if_neg hshort, if_neg hlong]
      rcases hf with ⟨rfl, rfl⟩ | ⟨rfl, rfl⟩
      all_goals
        simp only [Tag.kind, Kind.of, seq_decode, hadd]
        cases o with
        | some vl =>
          rw [Decoded] at hone
          simp only [Bool.true_eq_false, if_false, hone]
          rfl
        | none =>
          obtain ⟨err, m, herr, hone⟩ := hone
          refine ⟨err, m, herr, ?_⟩
          simp only [Bool.true_eq_false, if_false, hone]
          rfl)
  rwa [Option.map_map] at hdecoded

mutual

theorem ber_decode_ber : ∀ (e : Elem) {bs : List UInt8} (d : ℕ), e.Fits d → ber e = some bs →
    ∀ {a rest : List UInt8} {i : ℕ}, a.drop i = bs ++ rest → a.length < 2 ^ 31 →
      getb a 0 ≠ 0 →
      Decoded (ber_decode a a.length (d + 1) i) (i + bs.length) (e.read (getb a 0))
  | .elem tag val, bs, d, hfit, hbs, a, rest, i, h, hlen, hfirst => by
    have hvalue : val.Fits tag := by simpa only [Elem.Fits] using hfit
    rw [ber] at hbs
    obtain ⟨⟨vlen, cs⟩, hleaf, rfl⟩ := Option.map_eq_some_iff.mp hbs
    obtain rfl := leaf_enc_length hleaf
    rw [List.append_assoc] at h
    have hle := length_of_drop h (header_ne_nil _ _ _)
    obtain ⟨hdrop, hlast⟩ := drop_append h
    rw [header_length] at hdrop hlast hle
    have hcs : cs.length ≤ a.length := by
      rw [List.length_append] at hlast
      omega
    rw [← Nat.add_assoc] at hdrop
    have hleaf := value_decode_leaf (ber_decode a a.length d) hvalue hleaf hdrop
      (by rw [List.length_append] at hlast; omega) hlen hfirst
    have hdecoded := ber_decode_header hvalue.valid h (by omega) hleaf
    rw [Elem.read]
    cases hread : val.read (getb a 0) with
    | none | some val' => simpa [hread] using hdecoded
  | .seq tag l, bs, d, hfit, hbs, a, rest, i, h, hlen, hfirst => by
    rw [Elem.Fits] at hfit
    obtain ⟨rfl, hfit⟩ := hfit
    obtain ⟨cs, hcs, rfl⟩ := Option.map_eq_some_iff.mp (show (bers l).map _ = some bs from hbs)
    rw [Elem.read]
    refine ber_decode_list (.inl ⟨rfl, rfl⟩) h hlen fun j hj hle => ?_
    have hloop := seqloop_bers l d hfit hcs (k := a.length - j + 1) [] hj hlen hfirst
      (Int.natCast_nonneg cs.length) (by omega)
    simpa using hloop
  | .set tag l, bs, d, hfit, hbs, a, rest, i, h, hlen, hfirst => by
    rw [Elem.Fits] at hfit
    obtain ⟨rfl, hfit⟩ := hfit
    obtain ⟨cs, hcs, rfl⟩ := Option.map_eq_some_iff.mp (show (bers l).map _ = some bs from hbs)
    rw [Elem.read]
    refine ber_decode_list (.inr ⟨rfl, rfl⟩) h hlen fun j hj hle => ?_
    have hloop := seqloop_bers l d hfit hcs (k := a.length - j + 1) [] hj hlen hfirst
      (Int.natCast_nonneg cs.length) (by omega)
    simpa using hloop

theorem seqloop_bers : ∀ (l : List Elem) {bs : List UInt8} (d : ℕ), AllFit l d →
    bers l = some bs → ∀ {a rest : List UInt8} {i k : ℕ} {length : ℤ} (lve : List Elem),
      a.drop i = bs ++ rest → a.length < 2 ^ 31 → getb a 0 ≠ 0 → 0 ≤ length → bs.length < k →
      Decoded (seqloop (ber_decode a a.length d) length (i + bs.length : ℕ) k i lve)
        (i + bs.length) ((reads (getb a 0) l).map (lve.reverse ++ ·))
  | [], bs, d, hfit, hbs, a, rest, i, k, length, lve, h, hlen, hfirst, hlength, hk => by
    obtain rfl := Option.some.inj hbs
    obtain ⟨k, rfl⟩ : ∃ j, k = j + 1 := ⟨k - 1, by omega⟩
    simp [seqloop, hlength, reads, Decoded]
  | e :: l, bs, 0, hfit, hbs, a, rest, i, k, length, lve, h, hlen, hfirst, hlength, hk => by
    simp [AllFit] at hfit
  | e :: l, bs, d + 1, hfit, hbs, a, rest, i, k, length, lve, h, hlen, hfirst, hlength, hk => by
    rw [AllFit] at hfit
    rw [bers] at hbs
    obtain ⟨cs, hcs, hrest⟩ := Option.bind_eq_some_iff.mp hbs
    obtain ⟨ds, hds, rfl⟩ := Option.map_eq_some_iff.mp hrest
    have htwo := ber_length hcs
    rw [List.length_append] at hk ⊢
    rw [List.append_assoc] at h
    obtain ⟨k, rfl⟩ : ∃ j, k = j + 1 := ⟨k - 1, by omega⟩
    have hone := ber_decode_ber e d hfit.1 hcs h hlen hfirst
    have hgo : ¬ (0 ≤ length ∧ ((i + (cs.length + ds.length) : ℕ) : ℤ) ≤ i) := by omega
    rw [seqloop, if_neg hgo, reads]
    cases hread : e.read (getb a 0) with
    | none =>
      rw [hread] at hone
      obtain ⟨err, j, herr, hone⟩ := hone
      refine ⟨err, j, herr, ?_⟩
      rw [hone]
      cases err with
      | ok => exact absurd rfl herr
      | _ => rfl
    | some e' =>
      rw [hread, Decoded] at hone
      simp only [hone, hfit.1.read_iseoc hread, Bool.false_eq_true, if_false, Option.bind_some]
      have htail := seqloop_bers l (d + 1) hfit.2 hds (k := k) (e' :: lve) (drop_append h).1 hlen
        hfirst hlength (by omega)
      rw [Nat.add_assoc] at htail
      cases hl : reads (getb a 0) l with
      | none | some l' => simpa [hl] using htail

end

end Infernode.Asn1
