import Infernode.Lib.Rlp
import Infernode.Wallet.Amount

/-!
# Signing an Ethereum transaction

`rlpencode_bytes`, `rlpencode_list`, `rlpencode_uint`, `rlpencode_bigbe`, `encodelen`,
`bigtobytes` and `signtx`. The hash and the signature are the keyring's. What is signed and what
is returned are the encodings of nine strings, so a signature is of one transaction only, where
`nil` is an empty array and a value is its number.
-/

namespace Infernode.Eth

open Lib Lib.BigEndian Wallet

abbrev Big := { v : ℤ // -2 ^ 63 ≤ v ∧ v < 2 ^ 63 }

abbrev Word := { v : ℤ // -2 ^ 31 ≤ v ∧ v < 2 ^ 31 }

structure EthTx where
  nonce : Big
  gasprice : Big
  gaslimit : Big
  dst : Bytes
  value : Bytes
  data : Bytes
  chainid : Word

/-- A new array: its size is an `int`, and one that wraps to a negative size raises. -/
def fresh (r : List UInt8) : Option (List UInt8) := if r.length < 2 ^ 31 then some r else none

def encodelen (n : ℕ) : List UInt8 :=
  if n < 256 then [UInt8.ofNat n]
  else if n < 65536 then [UInt8.ofNat (n >>> 8), UInt8.ofNat n]
  else if n < 16777216 then [UInt8.ofNat (n >>> 16), UInt8.ofNat (n >>> 8), UInt8.ofNat n]
  else [UInt8.ofNat (n >>> 24), UInt8.ofNat (n >>> 16), UInt8.ofNat (n >>> 8), UInt8.ofNat n]

def rlpencodeBytes (s : Bytes) : Option (List UInt8) :=
  let s := s.getD []
  if s.length = 1 ∧ (s.headD 0).toNat ≤ 0x7f then some s
  else if s.length ≤ 55 then fresh (UInt8.ofNat (0x80 + s.length) :: s)
  else
    let lenb := encodelen s.length
    fresh (UInt8.ofNat (0xb7 + lenb.length) :: (lenb ++ s))

def rlpencodeList (items : List (List UInt8)) : Option (List UInt8) := do
  let payload ← fresh items.flatten
  if payload.length ≤ 55 then fresh (UInt8.ofNat (0xc0 + payload.length) :: payload)
  else
    let lenb := encodelen payload.length
    fresh (UInt8.ofNat (0xf7 + lenb.length) :: (lenb ++ payload))

def bytecount : ℕ → ℤ → ℕ
  | 0, _ => 0
  | n + 1, tmp => if 0 < tmp then bytecount n (tmp / 256) + 1 else 0

def bytefill : ℕ → ℤ → List UInt8 → List UInt8
  | 0, _, b => b
  | i + 1, v, b => bytefill i (v / 256) (UInt8.ofNat (v % 256).toNat :: b)

def bigtobytes (v : ℤ) : List UInt8 := if v = 0 then [] else bytefill (bytecount 8 v) v []

def rlpencodeUint (v : ℤ) : Option (List UInt8) :=
  if v = 0 then some [0x80] else rlpencodeBytes (some (bigtobytes v))

def rlpencodeBigbe (b : Bytes) : Option (List UInt8) :=
  if (minimalbe b).length = 0 then some [0x80] else rlpencodeBytes (some (minimalbe b))

def encodefields (fields : List (Option (List UInt8))) : Option (List UInt8) := do
  rlpencodeList (← fields.mapM id)

def unsigned (tx : EthTx) : Option (List UInt8) :=
  encodefields [rlpencodeUint tx.nonce, rlpencodeUint tx.gasprice, rlpencodeUint tx.gaslimit,
    rlpencodeBytes tx.dst, rlpencodeBigbe (some (minimalbe tx.value)), rlpencodeBytes tx.data,
    rlpencodeUint tx.chainid, rlpencodeUint 0, rlpencodeUint 0]

def signed (tx : EthTx) (sig : List UInt8) : Option (List UInt8) :=
  let recid : ℤ := (sig.getD 64 0).toNat
  encodefields [rlpencodeUint tx.nonce, rlpencodeUint tx.gasprice, rlpencodeUint tx.gaslimit,
    rlpencodeBytes tx.dst, rlpencodeBigbe (some (minimalbe tx.value)), rlpencodeBytes tx.data,
    rlpencodeUint (recid + tx.chainid * 2 + 35), rlpencodeBigbe (some (sig.take 32)),
    rlpencodeBigbe (some ((sig.drop 32).take 32))]

def EthTx.Valid (tx : EthTx) : Prop :=
  0 < tx.chainid.1 ∧ 0 ≤ tx.nonce.1 ∧ 0 ≤ tx.gasprice.1 ∧ 0 < tx.gaslimit.1 ∧
    ((tx.dst.getD []).length = 0 ∨ (tx.dst.getD []).length = 20) ∧
    (minimalbe tx.value).length ≤ 32

instance (tx : EthTx) : Decidable tx.Valid := inferInstanceAs (Decidable (_ ∧ _))

variable (keccak256 : List UInt8 → List UInt8) (secp256k1_sign : List UInt8 → List UInt8 → Bytes)

/-- `none` is an exception, `some none` is nil. -/
def signtx (tx : Option EthTx) (privkey : Bytes) : Option Bytes :=
  match tx, privkey with
  | some tx, some privkey =>
    if privkey.length ≠ 32 then some none
    else if tx.chainid.1 ≤ 0 then some none
    else if tx.nonce.1 < 0 ∨ tx.gasprice.1 < 0 ∨ tx.gaslimit.1 ≤ 0 then some none
    else if (tx.dst.getD []).length ≠ 0 ∧ (tx.dst.getD []).length ≠ 20 then some none
    else if (minimalbe tx.value).length > 32 then some none
    else do
      let hash := keccak256 (← unsigned tx)
      match secp256k1_sign privkey hash with
      | none => return none
      | some sig => if sig.length ≠ 65 then return none else some (← signed tx sig)
  | _, _ => some none

def EthTx.fields (tx : EthTx) : List (List UInt8) :=
  [tobytes tx.nonce.1.toNat, tobytes tx.gasprice.1.toNat, tobytes tx.gaslimit.1.toNat,
    tx.dst.getD [], minimalbe tx.value, tx.data.getD []]

def EthTx.preimage (tx : EthTx) : List (List UInt8) :=
  tx.fields ++ [tobytes tx.chainid.1.toNat, [], []]

def EthTx.items (tx : EthTx) (sig : List UInt8) : List (List UInt8) :=
  tx.fields ++ [tobytes ((sig.getD 64 0).toNat + 2 * tx.chainid.1.toNat + 35),
    strip (sig.take 32), strip ((sig.drop 32).take 32)]

def EthTx.Same (tx tx' : EthTx) : Prop :=
  tx.nonce = tx'.nonce ∧ tx.gasprice = tx'.gasprice ∧ tx.gaslimit = tx'.gaslimit ∧
    tx.dst.getD [] = tx'.dst.getD [] ∧ amountval tx.value = amountval tx'.value ∧
    tx.data.getD [] = tx'.data.getD [] ∧ tx.chainid = tx'.chainid

section Codec

variable {n : ℕ} {v : ℤ} {s : Bytes} {b : List UInt8}

theorem fresh_eq_some {r : List UInt8} : fresh b = some r ↔ b.length < 2 ^ 31 ∧ b = r := by
  simp only [fresh, Option.ite_none_right_eq_some, Option.some.injEq]

theorem value_ofNat (d : ℕ) (l : List UInt8) :
    value (UInt8.ofNat d :: l) = d % 256 * 256 ^ l.length + value l := by
  rw [value_cons, UInt8.toNat_ofNat']

theorem encodelen_value (h : n < 2 ^ 32) : value (encodelen n) = n := by
  simp only [encodelen, Nat.shiftRight_eq_div_pow]
  split_ifs <;> simp only [value_ofNat, List.length_cons, List.length_nil, value_nil] <;> omega

theorem encodelen_stripped (h0 : 0 < n) (h : n < 2 ^ 32) : Stripped (encodelen n) := by
  have hne : ∀ d, 0 < d % 256 → UInt8.ofNat d ≠ 0 := fun d hd h' => by
    have := congrArg UInt8.toNat h'
    rw [UInt8.toNat_ofNat'] at this
    simp only [UInt8.toNat_zero] at this
    omega
  simp only [encodelen, Nat.shiftRight_eq_div_pow]
  split_ifs <;> simp only [Stripped, List.head?_cons, ne_eq, Option.some.injEq] <;>
    exact hne _ (by omega)

theorem encodelen_eq (h0 : 0 < n) (h : n < 2 ^ 32) : encodelen n = tobytes n :=
  Rlp.eq_of_value (encodelen_stripped h0 h) (Rlp.tobytes_stripped n)
    ((encodelen_value h).trans (value_tobytes n).symm)

theorem prefix_eq (base : ℕ) (b : List UInt8) :
    (if b.length ≤ 55 then fresh (UInt8.ofNat (base + b.length) :: b)
      else fresh (UInt8.ofNat (base + 55 + (encodelen b.length).length) ::
        (encodelen b.length ++ b))) = fresh (Rlp.head base b.length ++ b) := by
  simp only [Rlp.head]
  split_ifs with h
  · rfl
  · by_cases hlen : b.length < 2 ^ 32
    · rw [encodelen_eq (by omega) hlen]
      rfl
    · have hlarge : ∀ l, ¬(l ++ b).length < 2 ^ 31 := fun l => by
        rw [List.length_append]
        omega
      simp only [← List.cons_append, fresh, if_neg (hlarge _)]

theorem rlpencodeBytes_eq (s : Bytes) : rlpencodeBytes s = fresh (Rlp.str (s.getD [])) := by
  have hlong : ∀ b : List UInt8, ¬(b.length = 1 ∧ (b.headD 0).toNat ≤ 0x7f) →
      rlpencodeBytes (some b) = fresh (Rlp.head 128 b.length ++ b) := fun b hb => by
    rw [← prefix_eq]
    exact if_neg hb
  have hnil : rlpencodeBytes s = rlpencodeBytes (some (s.getD [])) := rfl
  rw [hnil]
  match s.getD [] with
  | [] => exact hlong [] (by simp)
  | [c] =>
    by_cases hc : c.toNat < 128
    · have hone : Rlp.str [c] = [c] := if_pos hc
      rw [hone]
      exact if_pos ⟨rfl, Nat.le_of_lt_succ hc⟩
    · have hone : Rlp.str [c] = Rlp.head 128 1 ++ [c] := if_neg hc
      rw [hone]
      exact hlong [c] fun h => hc (Nat.lt_succ_of_le h.2)
  | c :: d :: b => exact hlong (c :: d :: b) (by simp)

theorem rlpencodeList_eq (items : List (List UInt8)) :
    rlpencodeList items = fresh (Rlp.head 192 items.flatten.length ++ items.flatten) := by
  by_cases h : items.flatten.length < 2 ^ 31
  · rw [← prefix_eq, rlpencodeList, fresh, if_pos h]
    rfl
  · have hlarge : ¬(Rlp.head 192 items.flatten.length ++ items.flatten).length < 2 ^ 31 := by
      rw [List.length_append]
      omega
    rw [rlpencodeList, fresh, if_neg h, fresh, if_neg hlarge]
    rfl

theorem bytefill_append (n : ℕ) (v : ℤ) (b : List UInt8) :
    bytefill n v b = bytefill n v [] ++ b := by
  induction n generalizing v b with
  | zero => rfl
  | succ n ih =>
    rw [bytefill, ih, bytefill, ih (v / 256) [_], List.append_assoc]
    rfl

theorem bytefill_eq {m : ℕ} (h : n < 256 ^ m) :
    bytefill (bytecount m n) n [] = tobytes n := by
  induction m generalizing n with
  | zero =>
    obtain rfl : n = 0 := by simpa using h
    rfl
  | succ m ih =>
    obtain rfl | hpos := Nat.eq_zero_or_pos n
    · rfl
    have hdiv : ((n : ℤ) / 256) = ((n / 256 : ℕ) : ℤ) := by simp
    have hmod : ((n : ℤ) % 256).toNat = n % 256 := by omega
    rw [bytecount, if_pos (by exact_mod_cast hpos), bytefill, bytefill_append, hdiv, hmod,
      ih (Nat.div_lt_of_lt_mul (by rwa [pow_succ, Nat.mul_comm] at h)), tobytes, tobytes,
      Nat.digits_def' (by norm_num : 1 < 256) hpos, List.reverse_cons, List.map_append]
    rfl

theorem bigtobytes_eq (h0 : 0 ≤ v) (h : v < 256 ^ 8) : bigtobytes v = tobytes v.toNat := by
  lift v to ℕ using h0
  rw [bigtobytes]
  split_ifs with hzero
  · rw [hzero]
    rfl
  · exact bytefill_eq (by exact_mod_cast h)

theorem rlpencodeUint_eq (h0 : 0 ≤ v) (h : v < 256 ^ 8) :
    rlpencodeUint v = fresh (Rlp.str (tobytes v.toNat)) := by
  rw [rlpencodeUint]
  split_ifs with hzero
  · rw [hzero]
    rfl
  · rw [rlpencodeBytes_eq, Option.getD_some, bigtobytes_eq h0 h]

theorem rlpencodeBigbe_eq (s : Bytes) : rlpencodeBigbe s = fresh (Rlp.str (minimalbe s)) := by
  rw [rlpencodeBigbe]
  split_ifs with hzero
  · rw [List.length_eq_zero_iff.1 hzero]
    rfl
  · rw [rlpencodeBytes_eq, Option.getD_some]

theorem minimalbe_minimalbe (s : Bytes) : minimalbe (some (minimalbe s)) = minimalbe s :=
  Rlp.eq_of_value (minimalbe_stripped _) (minimalbe_stripped _) (by
    rw [value_minimalbe, amountval, Option.getD_some])

theorem mapM_fresh {items l : List (List UInt8)}
    (h : items.mapM (fun s => fresh (Rlp.str s)) = some l) : l = items.map Rlp.str := by
  induction items generalizing l with
  | nil => exact (Option.some.inj h).symm
  | cons s items ih =>
    simp only [List.mapM_cons, Option.bind_eq_bind, Option.bind_eq_some_iff, fresh_eq_some] at h
    obtain ⟨_, ⟨-, rfl⟩, l, hl, heq⟩ := h
    rw [← Option.some.inj heq, ih hl, List.map_cons]

theorem mapM_fresh_some {items : List (List UInt8)}
    (h : ∀ s ∈ items, (Rlp.str s).length < 2 ^ 31) :
    items.mapM (fun s => fresh (Rlp.str s)) = some (items.map Rlp.str) := by
  induction items with
  | nil => rfl
  | cons s items ih =>
    have hs : fresh (Rlp.str s) = some (Rlp.str s) := if_pos (h s (by simp))
    rw [List.mapM_cons, hs, ih fun s hs => h s (by simp [hs])]
    rfl

theorem encodefields_eq (items : List (List UInt8)) :
    encodefields (items.map fun s => fresh (Rlp.str s)) = fresh (Rlp.encode items) := by
  have hlist : rlpencodeList (items.map Rlp.str) = fresh (Rlp.encode items) := by
    rw [rlpencodeList_eq, ← List.flatMap_def, Rlp.encode]
  have hmap : (items.map fun s => fresh (Rlp.str s)).mapM id =
      items.mapM fun s => fresh (Rlp.str s) := by
    rw [List.mapM_map]
    rfl
  by_cases hfit : (Rlp.encode items).length < 2 ^ 31
  · rw [encodefields, hmap, mapM_fresh_some fun s hs => ?_, ← hlist]
    · rfl
    · obtain ⟨l₁, l₂, rfl⟩ := List.append_of_mem hs
      simp only [Rlp.encode, List.flatMap_append, List.flatMap_cons, List.length_append] at hfit
      omega
  · rw [encodefields, hmap, fresh, if_neg hfit]
    obtain hnone | ⟨l, hl⟩ := Option.eq_none_or_eq_some (items.mapM fun s => fresh (Rlp.str s))
    · rw [hnone]
      rfl
    · rw [hl, mapM_fresh hl]
      exact hlist.trans (if_neg hfit)

end Codec

section Signing

variable {tx tx' : EthTx}

theorem unsigned_eq (h : tx.Valid) : unsigned tx = fresh (Rlp.encode tx.preimage) := by
  obtain ⟨hc, hn, hp, hl, -, -⟩ := h
  have hbig : ∀ v : Big, 0 ≤ v.1 → rlpencodeUint v = fresh (Rlp.str (tobytes v.1.toNat)) :=
    fun v hv => rlpencodeUint_eq hv (v.2.2.trans (by norm_num))
  have hchain : rlpencodeUint tx.chainid = fresh (Rlp.str (tobytes tx.chainid.1.toNat)) :=
    rlpencodeUint_eq hc.le (tx.chainid.2.2.trans (by norm_num))
  rw [← encodefields_eq, unsigned, hbig _ hn, hbig _ hp, hbig _ hl.le, rlpencodeBytes_eq,
    rlpencodeBigbe_eq, minimalbe_minimalbe, rlpencodeBytes_eq, hchain]
  rfl

theorem signed_eq (h : tx.Valid) (sig : List UInt8) :
    signed tx sig = fresh (Rlp.encode (tx.items sig)) := by
  obtain ⟨hc, hn, hp, hl, -, -⟩ := h
  have hbig : ∀ v : Big, 0 ≤ v.1 → rlpencodeUint v = fresh (Rlp.str (tobytes v.1.toNat)) :=
    fun v hv => rlpencodeUint_eq hv (v.2.2.trans (by norm_num))
  have hrec : (sig.getD 64 0).toNat < 256 := UInt8.toNat_lt _
  have hchain := tx.chainid.2.2
  have hv : rlpencodeUint ((sig.getD 64 0).toNat + tx.chainid * 2 + 35) =
      fresh (Rlp.str (tobytes ((sig.getD 64 0).toNat + 2 * tx.chainid.1.toNat + 35))) := by
    rw [rlpencodeUint_eq (by omega) (by omega)]
    congr 3
    omega
  rw [← encodefields_eq, signed, hbig _ hn, hbig _ hp, hbig _ hl.le, rlpencodeBytes_eq,
    rlpencodeBigbe_eq, minimalbe_minimalbe, rlpencodeBytes_eq, hv, rlpencodeBigbe_eq,
    rlpencodeBigbe_eq]
  rfl

theorem signtx_eq_some {key out : List UInt8} :
    signtx keccak256 secp256k1_sign (some tx) (some key) = some (some out) ↔
      key.length = 32 ∧ tx.Valid ∧ (Rlp.encode tx.preimage).length < 2 ^ 31 ∧
        ∃ sig, secp256k1_sign key (keccak256 (Rlp.encode tx.preimage)) = some sig ∧
          sig.length = 65 ∧ out.length < 2 ^ 31 ∧ out = Rlp.encode (tx.items sig) := by
  by_cases hkey : key.length = 32
  swap
  · simp [signtx, hkey]
  by_cases hvalid : tx.Valid
  swap
  · refine iff_of_false (fun h => hvalid ?_) fun h => hvalid h.2.1
    simp only [signtx] at h
    split_ifs at h with h1 h2 h3 h4 h5
    · simp at h
    · simp at h
    · simp at h
    · simp at h
    · simp at h
    · exact ⟨by omega, by omega, by omega, by omega, by tauto, by omega⟩
  have hgates : signtx keccak256 secp256k1_sign (some tx) (some key) = (do
      let hash := keccak256 (← unsigned tx)
      match secp256k1_sign key hash with
      | none => return none
      | some sig => if sig.length ≠ 65 then return none else some (← signed tx sig)) := by
    obtain ⟨hc, hn, hp, hl, hd, hv⟩ := hvalid
    simp only [signtx]
    rw [if_neg (not_not.2 hkey), if_neg (by omega), if_neg (by omega), if_neg (by tauto),
      if_neg (by omega)]
  rw [hgates, unsigned_eq hvalid]
  simp only [hkey, hvalid, true_and, Option.bind_eq_bind, Option.bind_eq_some_iff, fresh_eq_some]
  constructor
  · rintro ⟨_, ⟨hfit, rfl⟩, h⟩
    refine ⟨hfit, ?_⟩
    split at h
    · simp at h
    · next sig hsig =>
      split_ifs at h with hlen
      · simp at h
      rw [signed_eq hvalid] at h
      simp only [Option.bind_eq_some_iff, fresh_eq_some, Option.some.injEq] at h
      obtain ⟨_, ⟨hout, rfl⟩, rfl⟩ := h
      exact ⟨sig, hsig, not_not.1 hlen, hout, rfl⟩
  · rintro ⟨hfit, sig, hsig, hlen, hout, rfl⟩
    refine ⟨_, ⟨hfit, rfl⟩, ?_⟩
    simp only [hsig, hlen, ne_eq, not_true_eq_false, if_false, signed_eq hvalid]
    rw [fresh, if_pos hout]
    rfl

theorem decode_encode_of_lt {items : List (List UInt8)}
    (h : (Rlp.encode items).length < 2 ^ 31) : Rlp.decode (Rlp.encode items) = some items := by
  refine Rlp.decode_encode ?_
  rw [Rlp.encode, List.length_append] at h
  omega

theorem tobytes_toNat_inj {a b : ℤ} (ha : 0 ≤ a) (hb : 0 ≤ b)
    (h : tobytes a.toNat = tobytes b.toNat) : a = b := by
  have := congrArg value h
  rw [value_tobytes, value_tobytes] at this
  omega

theorem preimage_eq_iff (h : tx.Valid) (h' : tx'.Valid) :
    tx.preimage = tx'.preimage ↔ tx.Same tx' := by
  obtain ⟨hc, hn, hp, hl, -, -⟩ := h
  obtain ⟨hc', hn', hp', hl', -, -⟩ := h'
  simp only [EthTx.preimage, EthTx.fields, List.cons_append, List.nil_append, List.cons.injEq,
    and_true, EthTx.Same]
  constructor
  · rintro ⟨heqn, heqp, heql, hdst, hval, hdata, heqc⟩
    refine ⟨Subtype.ext (tobytes_toNat_inj hn hn' heqn),
      Subtype.ext (tobytes_toNat_inj hp hp' heqp),
      Subtype.ext (tobytes_toNat_inj hl.le hl'.le heql), hdst, ?_, hdata,
      Subtype.ext (tobytes_toNat_inj hc.le hc'.le heqc)⟩
    rw [← value_minimalbe, hval, value_minimalbe]
  · rintro ⟨heqn, heqp, heql, hdst, hval, hdata, heqc⟩
    rw [heqn, heqp, heql, heqc]
    refine ⟨rfl, rfl, rfl, hdst, ?_, hdata, rfl⟩
    refine Rlp.eq_of_value (minimalbe_stripped _) (minimalbe_stripped _) ?_
    rw [value_minimalbe, value_minimalbe, hval]

/-- What is returned is the encoding of nine strings, its numbers without leading zeros, and it
decodes to them; what is signed tells which transaction it is of. -/
theorem signtx_canonical (tx tx' : EthTx) (key : List UInt8) :
    (∀ out, signtx keccak256 secp256k1_sign (some tx) (some key) = some (some out) →
      ∃ sig, (unsigned tx).bind (fun p => secp256k1_sign key (keccak256 p)) = some sig ∧
        out = Rlp.encode (tx.items sig) ∧ Rlp.decode out = some (tx.items sig) ∧
          (∀ n, Stripped (tobytes n)) ∧ Stripped (minimalbe tx.value) ∧
            Stripped (strip (sig.take 32)) ∧ Stripped (strip ((sig.drop 32).take 32))) ∧
      (tx.Valid → tx'.Valid → ∀ p, unsigned tx = some p →
        (unsigned tx' = some p ↔ tx.Same tx')) := by
  constructor
  · intro out h
    obtain ⟨-, hvalid, hfit, sig, hsig, -, hout, rfl⟩ := (signtx_eq_some _ _).1 h
    refine ⟨sig, ?_, rfl, decode_encode_of_lt hout, Rlp.tobytes_stripped, minimalbe_stripped _,
      strip_stripped _, strip_stripped _⟩
    rw [unsigned_eq hvalid, fresh, if_pos hfit]
    exact hsig
  · intro h h' p hp
    rw [unsigned_eq h, fresh_eq_some] at hp
    obtain ⟨hfit, rfl⟩ := hp
    rw [unsigned_eq h', fresh_eq_some, ← preimage_eq_iff h h']
    constructor
    · rintro ⟨hfit', heq⟩
      have := decode_encode_of_lt hfit'
      rw [heq, decode_encode_of_lt hfit] at this
      exact Option.some.inj this
    · intro heq
      rw [← heq]
      exact ⟨hfit, rfl⟩

def transfer : EthTx where
  nonce := ⟨9, by decide⟩
  gasprice := ⟨20000, by decide⟩
  gaslimit := ⟨21000, by decide⟩
  dst := some (List.replicate 20 53)
  value := some [0, 13, 224]
  data := none
  chainid := ⟨1, by decide⟩

def transferKey : List UInt8 := List.replicate 32 70

def transferSig : List UInt8 := 0 :: List.replicate 31 40 ++ List.replicate 32 103 ++ [1]

theorem signtx_canonical_transfer : ∃ out sig,
    signtx (fun _ => List.replicate 32 0) (fun _ _ => some transferSig) (some transfer)
      (some transferKey) = some (some out) ∧ Rlp.decode out = some (transfer.items sig) := by
  have hsome : ((signtx (fun _ => List.replicate 32 0) (fun _ _ => some transferSig)
      (some transfer) (some transferKey)).bind id).isSome := by decide
  obtain ⟨out, hout⟩ := Option.isSome_iff_exists.1 hsome
  simp only [Option.bind_eq_some_iff, id_eq, exists_eq_right] at hout
  obtain ⟨sig, -, -, hdecode, -⟩ := (signtx_canonical _ _ transfer transfer transferKey).1 out hout
  exact ⟨out, sig, hout, hdecode⟩

end Signing

end Infernode.Eth
