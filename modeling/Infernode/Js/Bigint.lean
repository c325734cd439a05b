import Infernode.Limbo.Token

/-!
# BigInts

`bigarith`, `bitwise`, `bigwrap` and `bigproto_tostring`. A BigInt is the decimal digits of an
integer. The keyring's integers are Lean's, its `and`, `ori` and `xor` those of natural numbers,
and a shift to the left by a negative count is one to the right.
-/

namespace Infernode.Js.Bigint

open Limbo

inductive Err
  | RangeError (text : String)
  | TypeError (text : String)
  deriving DecidableEq

inductive V
  | Tbig (x : Str)
  | Tstr (x : Str)
  | Tother
  deriving DecidableEq

inductive Op
  | Osub | Omul | Odiv | Omod | Oexp | Oshl | Oshr | Oushr | Oband | Obor | Obxor | Oother
  deriving DecidableEq

def bits (x : ℤ) : ℕ := x.natAbs.size

def shl (x n : ℤ) : ℤ := if 0 ≤ n then x * 2 ^ n.toNat else x.tdiv (2 ^ (-n).toNat)

def mod (x m : ℤ) : Option ℤ := if m = 0 then none else some (x % m)

def iptostr (i : ℤ) : Str := (if i < 0 then ['-'] else []) ++ decimal i.natAbs

def strtoip : Str → ℤ
  | '-' :: s => -decvalue s
  | s => decvalue s

def fromip (i : ℤ) : Str :=
  let s := iptostr i
  if s = [] ∨ s = lit "-0" then lit "0" else s

def toint (n : ℤ) : ℤ := n.bmod (2 ^ 32)

def bigwrap (x : Str) (bits : ℕ) (signed : Bool) : Option Str :=
  if bits = 0 then some (fromip 0)
  else do
    let m := shl 1 (toint bits)
    let r ← mod (strtoip x) m
    let r := if r < 0 then r + m else r
    if signed then
      let half := shl 1 (toint (toint bits - 1))
      return fromip (if half ≤ r then r - m else r)
    else return fromip r

def absip (x : ℤ) : ℤ := if x < 0 then -x else x

def quotient (x y : ℤ) : ℤ :=
  let q := absip x / absip y
  if decide (x < 0) ≠ decide (y < 0) then -q else q

def remainder (x y : ℤ) : ℤ :=
  let r := absip x % absip y
  if x < 0 then -r else r

def exceeded : Err := .RangeError "maximum BigInt size exceeded"

def maxbits : ℕ := 1000000

def exploop : ℕ → ℕ → ℤ → ℤ → Except Err ℤ
  | 0, _, r, _ => .ok r
  | n + 1, e, r, base =>
    if e = 0 then .ok r
    else
      let r := if e % 2 = 1 then r * base else r
      let e := e / 2
      let base := if 0 < e then base * base else base
      if maxbits < bits r then .error exceeded else exploop n e r base

def bigexp (x y : ℤ) : Except Err ℤ :=
  if y < 0 then .error (.RangeError "exponent must be non-negative")
  else if 31 < bits y then .error exceeded
  else if x = 0 ∧ y ≠ 0 then .ok 0
  else exploop 31 y.toNat 1 x

def bigshift (x n : ℤ) : Except Err ℤ :=
  if 0 ≤ n then
    if 30 < bits n then .error exceeded else .ok (x * shl 1 n)
  else
    let n := -n
    if 30 < bits n then .ok (if x < 0 then -1 else 0)
    else
      let d := shl 1 n
      let q := absip x / d
      let r := absip x % d
      .ok (if x < 0 then (if r ≠ 0 then -q - 1 else -q) else q)

def bitwise (op : ℕ → ℕ → ℕ) (x y : ℤ) : ℤ :=
  let w := (if bits x < bits y then bits y else bits x) + 2
  let m := shl 1 w
  let ux := if x < 0 then x + m else x
  let uy := if y < 0 then y + m else y
  let r : ℤ := (op ux.toNat uy.toNat : ℕ)
  let half := shl 1 (w - 1)
  if half ≤ r then r - m else r

def bigarith (op : Op) : V → V → Except Err V
  | .Tbig a, .Tbig b =>
    let x := strtoip a
    let y := strtoip b
    let big (r : ℤ) : V := .Tbig (fromip r)
    match op with
    | .Osub => .ok (big (x - y))
    | .Omul => .ok (big (x * y))
    | .Odiv =>
      if y = 0 then .error (.RangeError "division by zero") else .ok (big (quotient x y))
    | .Omod =>
      if y = 0 then .error (.RangeError "division by zero") else .ok (big (remainder x y))
    | .Oexp => (bigexp x y).map big
    | .Oshl => (bigshift x y).map big
    | .Oshr => (bigshift x (-y)).map big
    | .Oushr =>
      .error (.TypeError "BigInts have no unsigned right shift, use >> instead")
    | .Oband => .ok (big (bitwise (· &&& ·) x y))
    | .Obor => .ok (big (bitwise (· ||| ·) x y))
    | .Obxor => .ok (big (bitwise (· ^^^ ·) x y))
    | .Oother => .error (.TypeError "unsupported BigInt operation")
  | _, _ => .error (.TypeError "cannot mix BigInt and other types, use explicit conversions")

def digitchars : Str := lit "0123456789abcdefghijklmnopqrstuvwxyz"

def decdivloop (d : ℕ) : Str → Str → ℕ → Str × ℕ
  | [], q, rem => (q, rem)
  | c :: s, q, rem =>
    let x := rem * 10 + digitval c
    decdivloop d s (q ++ [Char.ofNat ('0'.toNat + x / d)]) (x % d)

def trimzeros : Str → Str
  | '0' :: c :: q => trimzeros (c :: q)
  | q => q

def decdivsmall (s : Str) (d : ℕ) : Str × ℕ :=
  let (q, rem) := decdivloop d s [] 0
  (trimzeros q, rem)

def tostringloop (r : ℕ) : ℕ → Str → Str → Str
  | 0, _, out => out
  | n + 1, ds, out =>
    if ds = lit "0" then out
    else
      let (q, rem) := decdivsmall ds r
      tostringloop r n q (out ++ [digitchars.getD rem '0'])

def bigtostring (x : Str) (r : ℕ) : Str :=
  if r = 10 then x
  else
    let neg := x.head? = some '-'
    let ds := if neg then x.tail else x
    let out := tostringloop r (4 * ds.length) ds []
    let out := if out = [] then lit "0" else out
    (if neg then ['-'] else []) ++ out.reverse

/-- `none` is `undefined`. The radix is `tointorinf` of what is given. -/
def bigproto_tostring (x : Str) (rx : Option ℤ) : Except Err V :=
  match rx with
  | none => .ok (.Tstr (bigtostring x 10))
  | some rx =>
    if rx < 2 ∨ 36 < rx then
      .error (.RangeError "toString() radix must be between 2 and 36")
    else .ok (.Tstr (bigtostring x rx.toNat))

section Bits

variable {x y z : ℤ} {w k i : ℕ}

theorem bits_le : bits x ≤ w ↔ -2 ^ w < x ∧ x < 2 ^ w := by
  have hcast : ((2 ^ w : ℕ) : ℤ) = 2 ^ w := by push_cast; rfl
  rw [bits, Nat.size_le]
  omega

theorem lt_bits : w < bits x ↔ 2 ^ w ≤ x.natAbs := Nat.lt_size

theorem testBit_emod (h : i < w) : x.testBit i = (x % 2 ^ w).toNat.testBit i := by
  have hcast : ((2 ^ w : ℕ) : ℤ) = 2 ^ w := by push_cast; rfl
  obtain m | m := x
  · have hmod : (Int.ofNat m % 2 ^ w).toNat = m % 2 ^ w := by
      rw [← hcast]
      exact Int.toNat_natCast _
    rw [hmod, Nat.testBit_mod_two_pow, decide_eq_true h, Bool.true_and]
    rfl
  · have hlt : m % 2 ^ w < 2 ^ w := Nat.mod_lt _ (Nat.two_pow_pos w)
    have hmod : (Int.negSucc m % 2 ^ w).toNat = 2 ^ w - (m % 2 ^ w + 1) := by
      rw [Int.negSucc_emod _ (by positivity), ← hcast, ← Int.natCast_mod]
      omega
    rw [hmod, Nat.testBit_two_pow_sub_succ hlt, Nat.testBit_mod_two_pow, decide_eq_true h,
      Bool.true_and, Bool.true_and]
    rfl

theorem testBit_sign (h : -2 ^ k ≤ x ∧ x < 2 ^ k) (hi : k ≤ i) : x.testBit i = decide (x < 0) := by
  have hcast : ((2 ^ k : ℕ) : ℤ) = 2 ^ k := by push_cast; rfl
  have hpow : 2 ^ k ≤ 2 ^ i := Nat.pow_le_pow_right (by norm_num) hi
  obtain m | m := x
  · have hm : m < 2 ^ i := by
      have := h.2
      rw [← hcast] at this
      exact lt_of_lt_of_le (Int.ofNat_lt.1 this) hpow
    rw [decide_eq_false (by simp)]
    exact Nat.testBit_lt_two_pow hm
  · have hm : m < 2 ^ i := by
      have := h.1
      rw [← hcast] at this
      omega
    rw [decide_eq_true (Int.negSucc_lt_zero m)]
    exact congrArg not (Nat.testBit_lt_two_pow hm)

theorem eq_of_testBit (h : ∀ i, x.testBit i = y.testBit i) : x = y := by
  have hrange : ∀ z k, bits z ≤ k → -2 ^ k ≤ z ∧ z < 2 ^ k := fun z k hz =>
    ⟨(bits_le.1 hz).1.le, (bits_le.1 hz).2⟩
  have hsign : x < 0 ↔ y < 0 := by
    have := h (max (bits x) (bits y))
    rwa [testBit_sign (hrange x _ (le_max_left _ _)) le_rfl,
      testBit_sign (hrange y _ (le_max_right _ _)) le_rfl, decide_eq_decide] at this
  obtain m | m := x
  · obtain n | n := y
    · exact congrArg Int.ofNat (Nat.eq_of_testBit_eq h)
    · exact absurd (hsign.2 (Int.negSucc_lt_zero n)) (by simp)
  · obtain n | n := y
    · exact absurd (hsign.1 (Int.negSucc_lt_zero m)) (by simp)
    · exact congrArg Int.negSucc (Nat.eq_of_testBit_eq fun i => Bool.not_inj (h i))

theorem add_pow_emod (h : -2 ^ w ≤ x ∧ x < 2 ^ w) :
    (if x < 0 then x + 2 ^ w else x) = x % 2 ^ w := by
  split_ifs with hneg
  · rw [← Int.add_emod_right, Int.emod_eq_of_lt (by omega) (by omega)]
  · exact (Int.emod_eq_of_lt (not_lt.1 hneg) h.2).symm

theorem bitwise_testBit {op : ℕ → ℕ → ℕ} {f : Bool → Bool → Bool}
    (hop : ∀ m n i, (op m n).testBit i = f (m.testBit i) (n.testBit i))
    (hlt : ∀ {m n k}, m < 2 ^ k → n < 2 ^ k → op m n < 2 ^ k) (i : ℕ) :
    (bitwise op x y).testBit i = f (x.testBit i) (y.testBit i) := by
  obtain ⟨v, hv⟩ : ∃ v, v = if bits x < bits y then bits y else bits x := ⟨_, rfl⟩
  have hxv : bits x ≤ v := by
    rw [hv]
    split_ifs <;> omega
  have hyv : bits y ≤ v := by
    rw [hv]
    split_ifs <;> omega
  have hpow : (2 : ℤ) ^ (v + 2) = 2 * 2 ^ (v + 1) ∧ (2 : ℤ) ^ (v + 1) = 2 * 2 ^ v :=
    ⟨by ring, by ring⟩
  have hpos : (0 : ℤ) < 2 ^ v := by positivity
  have hx := bits_le.1 hxv
  have hy := bits_le.1 hyv
  obtain ⟨r, hr⟩ : ∃ r, r = op (x % 2 ^ (v + 2)).toNat (y % 2 ^ (v + 2)).toNat := ⟨_, rfl⟩
  have hcast : ((2 ^ (v + 2) : ℕ) : ℤ) = 2 ^ (v + 2) := by push_cast; rfl
  have hmodlt : ∀ z : ℤ, (z % 2 ^ (v + 2)).toNat < 2 ^ (v + 2) := fun z => by
    have := Int.emod_lt_of_pos z (by positivity : (0 : ℤ) < 2 ^ (v + 2))
    omega
  have hrlt : r < 2 ^ (v + 2) := hr ▸ hlt (hmodlt x) (hmodlt y)
  obtain ⟨z, hz⟩ : ∃ z : ℤ, z = if 2 ^ (v + 1) ≤ (r : ℤ) then (r : ℤ) - 2 ^ (v + 2)
    else (r : ℤ) := ⟨_, rfl⟩
  have heq : bitwise op x y = z := by
    have hm : shl 1 ((v : ℤ) + 2) = 2 ^ (v + 2) := by
      rw [shl, if_pos (by omega), one_mul]
      rfl
    have hhalf : shl 1 ((v : ℤ) + 2 - 1) = 2 ^ (v + 1) := by
      rw [shl, if_pos (by omega), one_mul]
      congr 1
      omega
    simp only [bitwise, ← hv, Nat.cast_add, Nat.cast_ofNat, hm, hhalf]
    rw [add_pow_emod ⟨by omega, by omega⟩, add_pow_emod ⟨by omega, by omega⟩, ← hr, hz]
  have hzrange : -2 ^ (v + 1) ≤ z ∧ z < 2 ^ (v + 1) := by
    rw [hz]
    split_ifs <;> omega
  have hzmod : (z % 2 ^ (v + 2)).toNat = r := by
    have hrmod : (r : ℤ) % 2 ^ (v + 2) = r := Int.emod_eq_of_lt (by omega) (by omega)
    rw [hz]
    split_ifs
    · rw [← Int.add_emod_right, Int.sub_add_cancel, hrmod, Int.toNat_natCast]
    · rw [hrmod, Int.toNat_natCast]
  have hlow : ∀ j, j < v + 2 → z.testBit j = f (x.testBit j) (y.testBit j) := fun j hj => by
    rw [testBit_emod hj, hzmod, hr, hop, ← testBit_emod hj, ← testBit_emod hj]
  rw [heq]
  by_cases hi : i < v + 2
  · exact hlow i hi
  · have htop := hlow (v + 1) (by omega)
    rw [testBit_sign hzrange le_rfl, testBit_sign ⟨hx.1.le, hx.2⟩ (by omega),
      testBit_sign ⟨hy.1.le, hy.2⟩ (by omega)] at htop
    rw [testBit_sign hzrange (by omega), testBit_sign ⟨hx.1.le, hx.2⟩ (by omega),
      testBit_sign ⟨hy.1.le, hy.2⟩ (by omega), htop]

theorem bitwise_and (x y : ℤ) : bitwise (· &&& ·) x y = x.land y :=
  eq_of_testBit fun i => by
    rw [bitwise_testBit Nat.testBit_and (fun _ hn => Nat.and_lt_two_pow _ hn), Int.testBit_land]

theorem bitwise_or (x y : ℤ) : bitwise (· ||| ·) x y = x.lor y :=
  eq_of_testBit fun i => by
    rw [bitwise_testBit Nat.testBit_or Nat.or_lt_two_pow, Int.testBit_lor]

theorem bitwise_xor (x y : ℤ) : bitwise (· ^^^ ·) x y = x.xor y :=
  eq_of_testBit fun i => by
    rw [bitwise_testBit Nat.testBit_xor Nat.xor_lt_two_pow, Int.testBit_lxor]

end Bits

section Arith

variable {x y z : ℤ} {n e : ℕ} {signed : Bool}

theorem iptostr_ne (i : ℤ) : iptostr i ≠ [] ∧ iptostr i ≠ lit "-0" := by
  have hne := decimal_ne_nil i.natAbs
  refine ⟨by simp [iptostr, hne], fun h => ?_⟩
  by_cases hneg : i < 0
  · have hdec : decimal i.natAbs = decimal 0 := by
      rw [iptostr, if_pos hneg] at h
      exact (List.cons.inj h).2
    have := decimal_injective hdec
    omega
  · rw [iptostr, if_neg hneg, List.nil_append] at h
    have hdigit := List.all_eq_true.1 (decimal_isdigit i.natAbs) '-' (by rw [h]; decide)
    exact absurd hdigit (by decide)

theorem fromip_eq (i : ℤ) : fromip i = (if i < 0 then ['-'] else []) ++ decimal i.natAbs :=
  if_neg (not_or.2 (iptostr_ne i))

theorem strtoip_fromip (x : ℤ) : strtoip (fromip x) = x := by
  rw [fromip_eq]
  split_ifs with hneg
  · have hval : strtoip (['-'] ++ decimal x.natAbs) = -decvalue (decimal x.natAbs) := rfl
    rw [hval, decvalue_decimal]
    omega
  · have hval : ∀ s : Str, s.head? ≠ some '-' → strtoip s = decvalue s := fun s hs => by
      unfold strtoip
      split
      · simp at hs
      · rfl
    rw [List.nil_append, hval, decvalue_decimal]
    · omega
    · intro hhead
      have hdigit := List.all_eq_true.1 (decimal_isdigit x.natAbs) '-' (List.mem_of_mem_head? hhead)
      exact absurd hdigit (by decide)

theorem fromip_injective (h : fromip x = fromip y) : x = y := by
  rw [← strtoip_fromip x, h, strtoip_fromip]

theorem absip_of_neg (h : x < 0) : absip x = -x := if_pos h

theorem absip_of_nonneg (h : ¬x < 0) : absip x = x := if_neg h

theorem quotient_eq (x y : ℤ) : quotient x y = x.tdiv y := by
  simp only [quotient]
  by_cases hx : x < 0 <;> by_cases hy : y < 0
  · rw [absip_of_neg hx, absip_of_neg hy, if_neg (by simp [hx, hy]),
      ← Int.tdiv_eq_ediv_of_nonneg (by omega), Int.neg_tdiv_neg]
  · rw [absip_of_neg hx, absip_of_nonneg hy, if_pos (by simp [hx, hy]),
      ← Int.tdiv_eq_ediv_of_nonneg (by omega), Int.neg_tdiv, neg_neg]
  · rw [absip_of_nonneg hx, absip_of_neg hy, if_pos (by simp [hx, hy]),
      ← Int.tdiv_eq_ediv_of_nonneg (by omega), Int.tdiv_neg, neg_neg]
  · rw [absip_of_nonneg hx, absip_of_nonneg hy, if_neg (by simp [hx, hy]),
      ← Int.tdiv_eq_ediv_of_nonneg (by omega)]

theorem remainder_eq (x y : ℤ) : remainder x y = x.tmod y := by
  have hy : x.tmod (absip y) = x.tmod y := by
    by_cases hy : y < 0
    · rw [absip_of_neg hy, Int.tmod_neg]
    · rw [absip_of_nonneg hy]
  simp only [remainder]
  by_cases hx : x < 0
  · rw [if_pos hx, absip_of_neg hx, ← Int.tmod_eq_emod_of_nonneg (by omega), Int.neg_tmod, neg_neg,
      hy]
  · rw [if_neg hx, absip_of_nonneg hx, ← Int.tmod_eq_emod_of_nonneg (by omega), hy]

theorem bits_le_mul (hy : y ≠ 0) (x : ℤ) : bits x ≤ bits (x * y) := by
  refine Nat.size_le_size ?_
  rw [Int.natAbs_mul]
  exact Nat.le_mul_of_pos_right _ (Int.natAbs_pos.2 hy)

theorem exploop_eq {r base : ℤ} (hbase : base ≠ 0) (he : e < 2 ^ n) :
    exploop n e r base = if e = 0 then .ok r
      else if maxbits < bits (r * base ^ e) then .error exceeded else .ok (r * base ^ e) := by
  induction n generalizing e r base with
  | zero =>
    obtain rfl : e = 0 := by simpa using he
    rfl
  | succ n ih =>
    rw [exploop]
    by_cases h0 : e = 0
    · rw [if_pos h0, if_pos h0]
    rw [if_neg h0, if_neg h0]
    obtain ⟨r', hr'⟩ : ∃ r', r' = if e % 2 = 1 then r * base else r := ⟨_, rfl⟩
    obtain ⟨b, hb⟩ : ∃ b, b = if 0 < e / 2 then base * base else base := ⟨_, rfl⟩
    simp only [← hr', ← hb]
    have hb0 : b ≠ 0 := by
      rw [hb]
      split_ifs
      · exact mul_ne_zero hbase hbase
      · exact hbase
    -- one round keeps the product of the result and the power that is left
    have hinv : r * base ^ e = r' * b ^ (e / 2) := by
      have hpow : b ^ (e / 2) = (base ^ 2) ^ (e / 2) := by
        rw [hb]
        split_ifs with hpos
        · rw [pow_two]
        · rw [Nat.eq_zero_of_not_pos hpos, pow_zero, pow_zero]
      rw [hpow, ← pow_mul, hr']
      split_ifs
      · rw [mul_assoc, ← pow_succ']
        congr 2
        omega
      · congr 2
        omega
    rw [hinv, ih hb0 (by omega)]
    have hmono : bits r' ≤ bits (r' * b ^ (e / 2)) := bits_le_mul (pow_ne_zero _ hb0) r'
    by_cases hbig : maxbits < bits r'
    · rw [if_pos hbig, if_pos (lt_of_lt_of_le hbig hmono)]
    · rw [if_neg hbig]
      by_cases hhalf : e / 2 = 0
      · rw [if_pos hhalf, hhalf, pow_zero, mul_one, if_neg hbig]
      · rw [if_neg hhalf]

theorem pow_toNat_cast (n : ℕ) : ((2 ^ n : ℕ) : ℤ) = 2 ^ n := by push_cast; rfl

theorem bigexp_eq (h0 : 0 ≤ y) (h : y < 2 ^ 31) :
    bigexp x y = if maxbits < bits (x ^ y.toNat) then .error exceeded else .ok (x ^ y.toNat) := by
  have hone : ¬maxbits < bits 1 := by
    rw [not_lt, bits, Nat.size_le]
    exact Nat.one_lt_two_pow (by decide)
  rw [bigexp, if_neg (not_lt.2 h0), if_neg (by rw [lt_bits]; omega)]
  by_cases hy : y = 0
  · rw [if_neg fun h => h.2 hy, hy]
    simp only [Int.toNat_zero, pow_zero, if_neg hone]
    rfl
  by_cases hx : x = 0
  · have hzero : ¬maxbits < bits 0 := Nat.not_lt_zero _
    rw [if_pos ⟨hx, hy⟩, hx, zero_pow (by omega), if_neg hzero]
  · rw [if_neg fun h => hx h.1, exploop_eq hx (by omega), if_neg (by omega), one_mul]

theorem shl_one (n : ℕ) : shl 1 n = 2 ^ n := by
  rw [shl, if_pos (by omega), one_mul]
  rfl

theorem ediv_eq_of_add {d q r : ℤ} (h : r + d * q = x) (h0 : 0 ≤ r) (hlt : r < d) : x / d = q :=
  ((Int.ediv_emod_unique (h0.trans_lt hlt)).2 ⟨h, h0, hlt⟩).1

theorem floor_eq {d : ℤ} (hd : 0 < d) :
    (if x < 0 then (if absip x % d ≠ 0 then -(absip x / d) - 1 else -(absip x / d))
      else absip x / d) = x / d := by
  by_cases hx : x < 0
  swap
  · rw [if_neg hx, absip_of_nonneg hx]
  rw [if_pos hx, absip_of_neg hx]
  have hdiv := Int.emod_add_mul_ediv (-x) d
  have hnonneg := Int.emod_nonneg (-x) hd.ne'
  have hlt := Int.emod_lt_of_pos (-x) hd
  split_ifs with hr
  · have hsum : (d - -x % d) + d * (-(-x / d) - 1) = x := by linear_combination -hdiv
    exact (ediv_eq_of_add hsum (by omega) (by omega)).symm
  · have hsum : 0 + d * -(-x / d) = x := by linear_combination not_not.1 hr - hdiv
    exact (ediv_eq_of_add hsum le_rfl hd).symm

def Gives (z : ℤ) : Except Err ℤ → Prop
  | .ok r => r = z
  | .error (.RangeError _) => maxbits < bits z
  | .error (.TypeError _) => False

def shifted (x n : ℤ) : ℤ := if 0 ≤ n then x * 2 ^ n.toNat else x / 2 ^ (-n).toNat

def ShiftHolds (x n : ℤ) : Prop :=
  (2 ^ 30 ≤ n → x ≠ 0) ∧ (n ≤ -2 ^ 30 → -2 ^ (-n).toNat ≤ x ∧ x < 2 ^ (-n).toNat)

theorem maxbits_lt_of_le (hn : 2 ^ 30 ≤ n) (h : 2 ^ n ≤ x.natAbs) : maxbits < bits x := by
  have hmax : maxbits ≤ n := le_trans (by decide) hn
  exact lt_bits.2 ((Nat.pow_le_pow_right (by norm_num) hmax).trans h)

theorem bigexp_gives (h0 : 0 ≤ y) :
    Gives (x ^ y.toNat) (bigexp x y) ↔ (2 ^ 31 ≤ y → 2 ≤ x.natAbs) := by
  by_cases h : y < 2 ^ 31
  · refine iff_of_true ?_ fun h' => absurd h (not_lt.2 h')
    rw [bigexp_eq h0 h]
    split_ifs with hbig
    · exact hbig
    · rfl
  · have hlarge : bigexp x y = .error exceeded := by
      rw [bigexp, if_neg (not_lt.2 h0), if_pos (by rw [lt_bits]; omega)]
    have hiff : Gives (x ^ y.toNat) (bigexp x y) ↔ maxbits < bits (x ^ y.toNat) := by
      rw [hlarge]
      rfl
    rw [hiff]
    constructor
    · rintro hbig -
      by_contra hsmall
      refine absurd hbig (not_lt.2 ?_)
      rw [bits, Nat.size_le, Int.natAbs_pow]
      calc x.natAbs ^ y.toNat ≤ 1 ^ y.toNat := Nat.pow_le_pow_left (by omega) _
        _ = 1 := one_pow _
        _ < 2 ^ maxbits := Nat.one_lt_two_pow (by decide)
    · intro htwo
      have hn : 2 ^ 30 ≤ y.toNat := by omega
      refine maxbits_lt_of_le hn ?_
      rw [Int.natAbs_pow]
      exact Nat.pow_le_pow_left (htwo (by omega)) _

theorem bigshift_gives (x n : ℤ) : Gives (shifted x n) (bigshift x n) ↔ ShiftHolds x n := by
  rw [shifted, bigshift]
  by_cases h0 : 0 ≤ n
  · lift n to ℕ using h0
    simp only [Int.natCast_nonneg, if_true, Int.toNat_natCast, lt_bits]
    split_ifs with hbig
    · have hn : 2 ^ 30 ≤ n := by omega
      have hiff : Gives (x * 2 ^ n) (.error exceeded) ↔ maxbits < bits (x * 2 ^ n) := Iff.rfl
      rw [hiff, ShiftHolds]
      constructor
      · refine fun hlt => ⟨fun _ hx => ?_, fun h => by omega⟩
        rw [hx, zero_mul] at hlt
        exact absurd hlt (Nat.not_lt_zero _)
      · rintro ⟨hx, -⟩
        refine maxbits_lt_of_le hn ?_
        rw [Int.natAbs_mul, Int.natAbs_pow]
        exact Nat.le_mul_of_pos_left _ (Int.natAbs_pos.2 (hx (by omega)))
    · refine iff_of_true ?_ ⟨fun h => by omega, fun h => by omega⟩
      rw [shl_one]
      rfl
  · obtain ⟨k, hk⟩ : ∃ k : ℕ, -n = k := ⟨(-n).toNat, by omega⟩
    simp only [if_neg h0, hk, Int.toNat_natCast, lt_bits]
    have hpos : (0 : ℤ) < 2 ^ k := by positivity
    by_cases hbig : 2 ^ 30 ≤ (k : ℤ).natAbs
    swap
    · refine iff_of_true ?_ ⟨fun h => by omega, fun h => by omega⟩
      rw [if_neg hbig, shl_one, floor_eq hpos]
      rfl
    rw [if_pos hbig, ShiftHolds, hk, Int.toNat_natCast]
    have hiff : ∀ q, Gives (x / 2 ^ k) (.ok q) ↔ q = x / 2 ^ k := fun q => Iff.rfl
    rw [hiff]
    have hdiv := Int.emod_add_mul_ediv x (2 ^ k)
    have hnonneg := Int.emod_nonneg x hpos.ne'
    have hlt := Int.emod_lt_of_pos x hpos
    constructor
    · refine fun hq => ⟨fun h => by omega, fun _ => ?_⟩
      rw [← hq] at hdiv
      split_ifs at hdiv
      · rw [mul_neg_one] at hdiv
        omega
      · rw [mul_zero] at hdiv
        omega
    · rintro ⟨-, hrange⟩
      have hx := hrange (by omega)
      split_ifs with hneg
      · have hsum : (x + 2 ^ k) + 2 ^ k * -1 = x := by ring
        exact (ediv_eq_of_add hsum (by omega) (by omega)).symm
      · exact (Int.ediv_eq_zero_of_lt (not_lt.1 hneg) hx.2).symm

/-- `r` is congruent to `x` modulo `2 ^ bits` and of `bits` bits, with a sign or without. -/
def Wrapped (signed : Bool) (bits : ℕ) (x r : ℤ) : Prop :=
  2 ^ bits ∣ x - r ∧
    if signed then -2 ^ bits ≤ 2 * r ∧ 2 * r < 2 ^ bits else 0 ≤ r ∧ r < 2 ^ bits

def wrapped (signed : Bool) (bits : ℕ) (x : ℤ) : ℤ :=
  if signed then x.bmod (2 ^ bits) else x % 2 ^ bits

def WrapHolds (signed : Bool) (bits : ℕ) (x : ℤ) : Prop :=
  bits < 2 ^ 31 ∨ 0 ≤ toint bits ∧
    if signed then
      (toint bits = 0 ∧ x.bmod (2 ^ bits) = -1) ∨
        (toint bits ≠ 0 ∧ -2 ^ (toint bits).toNat ≤ 2 * x.bmod (2 ^ bits) ∧
          2 * x.bmod (2 ^ bits) < 2 ^ (toint bits).toNat)
    else x % 2 ^ bits < 2 ^ (toint bits).toNat

theorem bmod_pow_eq_iff {k : ℕ} (hk : k ≠ 0) (x : ℤ) :
    x.bmod (2 ^ k) = x ↔ -2 ^ k ≤ 2 * x ∧ 2 * x < 2 ^ k := by
  obtain ⟨j, rfl⟩ := Nat.exists_eq_add_one_of_ne_zero hk
  have hpow : 2 ^ (j + 1) = 2 * 2 ^ j := pow_succ' 2 j
  have hcast : ((2 ^ j : ℕ) : ℤ) = 2 ^ j := pow_toNat_cast j
  have hpow' : (2 : ℤ) ^ (j + 1) = 2 * 2 ^ j := pow_succ' 2 j
  have hpos : 0 < 2 ^ j := Nat.two_pow_pos j
  constructor
  · intro h
    have hge := Int.le_bmod (x := x) (Nat.two_pow_pos (j + 1))
    have hlt := Int.bmod_lt (x := x) (Nat.two_pow_pos (j + 1))
    rw [h, hpow] at hge hlt
    omega
  · rintro ⟨hge, hlt⟩
    refine Int.bmod_eq_of_le ?_ ?_ <;> (rw [hpow]; omega)

theorem wrapped_iff {bits : ℕ} {r : ℤ} : Wrapped signed bits x r ↔ r = wrapped signed bits x := by
  have hcast : ((2 ^ bits : ℕ) : ℤ) = 2 ^ bits := pow_toNat_cast bits
  cases signed with
  | false =>
    simp only [Wrapped, wrapped, Bool.false_eq_true, if_false]
    constructor
    · rintro ⟨hdvd, h0, hlt⟩
      rw [← Int.emod_eq_of_lt h0 hlt]
      exact (Int.emod_eq_emod_iff_emod_sub_eq_zero.2 (Int.emod_eq_zero_of_dvd hdvd)).symm
    · rintro rfl
      exact ⟨Int.dvd_self_sub_emod, Int.emod_nonneg _ (by positivity),
        Int.emod_lt_of_pos _ (by positivity)⟩
  | true =>
    simp only [Wrapped, wrapped, if_true]
    obtain rfl | hbits := Nat.eq_zero_or_pos bits
    · have hone : x.bmod (2 ^ 0) = 0 := Int.bmod_one x
      rw [hone, pow_zero]
      exact ⟨fun h => by omega, fun h => ⟨one_dvd _, by omega, by omega⟩⟩
    constructor
    · rintro ⟨hdvd, hrange⟩
      rw [← (bmod_pow_eq_iff hbits.ne' r).2 hrange]
      refine (Int.bmod_eq_bmod_iff_bmod_sub_eq_zero.2 ?_).symm
      exact Int.bmod_eq_zero_of_dvd (hcast ▸ hdvd)
    · rintro rfl
      refine ⟨hcast ▸ Int.dvd_self_sub_bmod, ?_⟩
      exact (bmod_pow_eq_iff hbits.ne' _).1 Int.bmod_bmod

theorem mod_of_ne {m : ℤ} (h : m ≠ 0) : mod x m = some (x % m) := if_neg h

theorem toint_range (n : ℤ) : -2 ^ 31 ≤ toint n ∧ toint n < 2 ^ 31 := by
  have hge := Int.le_bmod (x := n) (by norm_num : 0 < 2 ^ 32)
  have hlt := Int.bmod_lt (x := n) (by norm_num : 0 < 2 ^ 32)
  rw [toint]
  generalize n.bmod (2 ^ 32) = b at hge hlt
  norm_num at hge hlt
  omega

theorem bigwrap_eq {bits : ℕ} (h0 : bits ≠ 0) :
    bigwrap (fromip x) bits signed = if toint bits < 0 then none
      else if signed = true ∧ toint bits = 0 then some (fromip (-1))
      else some (fromip (wrapped signed (toint bits).toNat x)) := by
  have hrange := toint_range bits
  have hpred : ∀ n : ℤ, 0 ≤ n → n < 2 ^ 31 → toint (n - 1) = n - 1 := fun n hn hlt => by
    refine Int.bmod_eq_of_le ?_ ?_ <;> (norm_num; omega)
  have hneg : ∀ j : ℕ, j ≠ 0 → (1 : ℤ).tdiv (2 ^ j) = 0 := fun j hj => by
    refine Int.tdiv_eq_zero_of_lt (by norm_num) ?_
    exact one_lt_pow₀ (by norm_num) hj
  rw [bigwrap, if_neg h0, strtoip_fromip]
  obtain hlt | hge := lt_or_ge (toint bits) 0
  · rw [if_pos hlt, shl, if_neg (not_le.2 hlt), hneg _ (by omega)]
    rfl
  obtain ⟨k, hk⟩ : ∃ k : ℕ, toint bits = k := ⟨(toint bits).toNat, by omega⟩
  have hpos : (0 : ℤ) < 2 ^ k := by positivity
  have hmod : ¬x % 2 ^ k < 0 := not_lt.2 (Int.emod_nonneg _ hpos.ne')
  rw [if_neg (not_lt.2 hge), hpred _ hge hrange.2, hk, shl_one]
  simp only [mod_of_ne hpos.ne', Option.bind_eq_bind, Option.bind_some, if_neg hmod,
    Int.toNat_natCast, wrapped]
  cases signed with
  | false => simp
  | true =>
    simp only [if_true, true_and]
    obtain rfl | hk0 := Nat.eq_zero_or_pos k
    · have hone : x % 2 ^ 0 = 0 := Int.emod_one x
      have hhalf : shl 1 ((0 : ℕ) - 1) = 0 := hneg 1 (by norm_num)
      rw [hone, hhalf, if_pos le_rfl]
      rfl
    · obtain ⟨j, rfl⟩ := Nat.exists_eq_add_one_of_ne_zero hk0.ne'
      have hhalf : shl 1 ((j + 1 : ℕ) - 1) = 2 ^ j := by
        have hsub : ((j + 1 : ℕ) : ℤ) - 1 = j := by omega
        rw [hsub, shl_one]
      have hne : ¬((j + 1 : ℕ) : ℤ) = 0 := by omega
      have hcast : ((2 ^ (j + 1) : ℕ) : ℤ) = 2 ^ (j + 1) := pow_toNat_cast _
      have hpow : (2 : ℤ) ^ (j + 1) = 2 * 2 ^ j := pow_succ' 2 j
      have hdiv : ((2 : ℤ) ^ (j + 1) + 1) / 2 = 2 ^ j := by
        rw [hpow]
        omega
      rw [if_neg hne, hhalf, Int.bmod_def, hcast, hdiv]
      by_cases htop : 2 ^ j ≤ x % 2 ^ (j + 1)
      · rw [if_pos htop, if_neg (not_lt.2 htop)]
        rfl
      · rw [if_neg htop, if_pos (not_le.1 htop)]
        rfl

theorem toint_of_lt (h : n < 2 ^ 31) : toint n = n := by
  refine Int.bmod_eq_of_le ?_ ?_
  · norm_num
  · norm_num
    omega

theorem bigwrap_exact (signed : Bool) (bits : ℕ) (x : ℤ) :
    (∃ r, bigwrap (fromip x) bits signed = some (fromip r) ∧ Wrapped signed bits x r) ↔
      WrapHolds signed bits x := by
  simp only [wrapped_iff, exists_eq_right]
  obtain rfl | h0 := Nat.eq_zero_or_pos bits
  · refine iff_of_true ?_ (Or.inl (by norm_num))
    have hzero : wrapped signed 0 x = 0 := by
      cases signed with
      | false => exact Int.emod_one x
      | true => exact Int.bmod_one x
    rw [hzero]
    rfl
  have hsome : ∀ r : ℤ, some (fromip r) = some (fromip (wrapped signed bits x)) ↔
      r = wrapped signed bits x := fun r =>
    ⟨fun h => fromip_injective (Option.some.inj h), fun h => by rw [h]⟩
  rw [bigwrap_eq h0.ne', WrapHolds]
  by_cases hbits : bits < 2 ^ 31
  · refine iff_of_true ?_ (Or.inl hbits)
    rw [toint_of_lt hbits, if_neg (by omega), if_neg (by omega), Int.toNat_natCast]
  rw [or_iff_right hbits]
  obtain hlt | hge := lt_or_ge (toint bits) 0
  · rw [if_pos hlt]
    exact iff_of_false (by simp) fun h => absurd h.1 (not_le.2 hlt)
  obtain ⟨k, hk⟩ : ∃ k : ℕ, toint bits = k := ⟨(toint bits).toNat, by omega⟩
  have hkle : k ≤ bits := by
    have := toint_range bits
    omega
  rw [if_neg (not_lt.2 hge), hk, Int.toNat_natCast]
  cases signed with
  | false =>
    rw [if_neg (by simp), hsome]
    simp only [wrapped, Bool.false_eq_true, if_false, Int.natCast_nonneg, true_and]
    have hdvd : (2 : ℤ) ^ k ∣ 2 ^ bits := pow_dvd_pow 2 hkle
    constructor
    · intro heq
      rw [← heq]
      exact Int.emod_lt_of_pos _ (by positivity)
    · intro hsmall
      rw [← Int.emod_emod_of_dvd x hdvd]
      exact Int.emod_eq_of_lt (Int.emod_nonneg _ (by positivity)) hsmall
  | true =>
    simp only [true_and, if_true, Int.natCast_nonneg]
    obtain rfl | hk0 := Nat.eq_zero_or_pos k
    · rw [if_pos Int.natCast_zero, hsome]
      simp [wrapped, eq_comm]
    · have hdvd : 2 ^ k ∣ 2 ^ bits := pow_dvd_pow 2 hkle
      rw [if_neg (by omega), hsome, ← bmod_pow_eq_iff hk0.ne', Int.bmod_bmod_of_dvd hdvd]
      simp [wrapped, hk0.ne']

end Arith

section Radix

variable {r d n e : ℕ} {c : Char} {s q out : Str}

def dig (d : ℕ) : Char := digitchars.getD d '0'

def radixvalue (r : ℕ) (s : Str) : ℕ := s.foldl (fun v c => v * r + digitchars.idxOf c) 0

theorem dig_spec : ∀ d < 36, digitchars.idxOf (dig d) = d ∧ dig d ∈ digitchars := by decide

theorem dig_decimal : ∀ d < 10, d.digitChar = dig d := by decide

theorem isdigit_iff : isdigit c = true ↔ '0'.toNat ≤ c.toNat ∧ c.toNat ≤ '9'.toNat := by
  simp only [isdigit, Bool.and_eq_true, decide_eq_true_eq]
  exact Iff.rfl

theorem digitval_lt (h : isdigit c = true) : digitval c < 10 := by
  have hrange : 48 ≤ c.toNat ∧ c.toNat ≤ 57 := isdigit_iff.1 h
  have hval : digitval c = c.toNat - 48 := rfl
  omega

theorem eq_zero_of_digitval (h : isdigit c = true) (h0 : digitval c = 0) : c = '0' := by
  have hrange : 48 ≤ c.toNat ∧ c.toNat ≤ 57 := isdigit_iff.1 h
  have hval : digitval c = c.toNat - 48 := rfl
  exact Char.toNat_inj.1 (by have : '0'.toNat = 48 := rfl; omega)

theorem ofNat_digit : ∀ e < 10, isdigit (Char.ofNat ('0'.toNat + e)) = true ∧
    digitval (Char.ofNat ('0'.toNat + e)) = e := by decide

theorem decdivloop_spec (hs : s.all isdigit = true) (hq : q.all isdigit = true)
    (hrem : e < d) : (decdivloop d s q e).1.all isdigit = true ∧
      (decdivloop d s q e).1.length = q.length + s.length ∧ (decdivloop d s q e).2 < d ∧
      decvalue (decdivloop d s q e).1 * d + (decdivloop d s q e).2 =
        s.foldl (fun v c => v * 10 + digitval c) (decvalue q * d + e) := by
  induction s generalizing q e with
  | nil => exact ⟨hq, rfl, hrem, rfl⟩
  | cons c s ih =>
    rw [List.all_cons, Bool.and_eq_true] at hs
    have hc := digitval_lt hs.1
    obtain ⟨x, hx⟩ : ∃ x, x = e * 10 + digitval c := ⟨_, rfl⟩
    have hdigit := ofNat_digit (x / d) (Nat.div_lt_of_lt_mul (by omega))
    obtain ⟨hall, hlen, hlt, hval⟩ := ih hs.2 (q := q ++ [Char.ofNat ('0'.toNat + x / d)])
      (by rw [List.all_append, hq, List.all_cons, hdigit.1]; rfl)
      (Nat.mod_lt x (Nat.zero_lt_of_lt hrem))
    rw [decdivloop, ← hx]
    refine ⟨hall, ?_, hlt, ?_⟩
    · simp only [hlen, List.length_append, List.length_cons, List.length_nil]
      omega
    · rw [hval, List.foldl_cons, decvalue_append, hdigit.2]
      congr 1
      have := Nat.div_add_mod x d
      rw [Nat.mul_comm] at this
      linarith [Nat.add_mul (decvalue q * 10) (x / d) d]

def Trimmed (s : Str) : Prop :=
  s ≠ [] ∧ s.all isdigit = true ∧ (s.head? = some '0' → s = ['0'])

theorem trimzeros_spec (hne : q ≠ []) (hq : q.all isdigit = true) :
    Trimmed (trimzeros q) ∧ decvalue (trimzeros q) = decvalue q := by
  induction q with
  | nil => exact absurd rfl hne
  | cons c q ih =>
    rw [List.all_cons, Bool.and_eq_true] at hq
    by_cases hc : c = '0'
    · obtain - | ⟨c', q⟩ := q
      · subst hc
        exact ⟨⟨by simp [trimzeros], by decide, fun _ => rfl⟩, rfl⟩
      · subst hc
        have hval : decvalue ('0' :: c' :: q) = decvalue (c' :: q) := rfl
        rw [trimzeros, hval]
        exact ih (by simp) hq.2
    · have hself : trimzeros (c :: q) = c :: q := by
        unfold trimzeros
        split
        · simp_all
        · rfl
      rw [hself]
      refine ⟨⟨by simp, by rw [List.all_cons, hq.1, hq.2]; rfl, fun h => ?_⟩, rfl⟩
      exact absurd (Option.some.inj h) hc

theorem le_foldl (s : Str) (v : ℕ) : v ≤ s.foldl (fun v c => v * 10 + digitval c) v := by
  induction s generalizing v with
  | nil => exact le_rfl
  | cons c s ih =>
    have hv : v ≤ v * 10 + digitval c := by omega
    exact hv.trans (ih _)

theorem Trimmed.eq_zero_iff (h : Trimmed s) : s = lit "0" ↔ decvalue s = 0 := by
  obtain ⟨hne, hall, hhead⟩ := h
  constructor
  · rintro rfl
    rfl
  · intro hval
    obtain ⟨c, t, rfl⟩ := List.exists_cons_of_ne_nil hne
    rw [List.all_cons, Bool.and_eq_true] at hall
    have hle := le_foldl t (digitval c)
    have hfold : decvalue (c :: t) = t.foldl (fun v c => v * 10 + digitval c) (digitval c) := by
      simp [decvalue]
    exact hhead (congrArg some (eq_zero_of_digitval hall.1 (by omega)))

theorem decdivsmall_spec (h : Trimmed s) (hd : 0 < d) :
    Trimmed (decdivsmall s d).1 ∧ decvalue (decdivsmall s d).1 = decvalue s / d ∧
      (decdivsmall s d).2 = decvalue s % d := by
  obtain ⟨hne, hall, -⟩ := h
  obtain ⟨hq, hlen, hlt, hval⟩ := @decdivloop_spec d 0 s [] hall rfl hd
  have hqne : (decdivloop d s [] 0).1 ≠ [] := by
    have := List.length_pos_iff.2 hne
    rw [← List.length_pos_iff, hlen]
    omega
  obtain ⟨htrim, hsame⟩ := trimzeros_spec hqne hq
  have hzero : decvalue [] * d + 0 = 0 := by simp [decvalue]
  rw [hzero] at hval
  have hdec : decvalue s = d * decvalue (decdivloop d s [] 0).1 + (decdivloop d s [] 0).2 := by
    rw [decvalue, ← hval, Nat.mul_comm]
  refine ⟨htrim, ?_, ?_⟩
  · have hdiv : decvalue (decdivsmall s d).1 = decvalue (decdivloop d s [] 0).1 := hsame
    rw [hdiv, hdec, Nat.mul_add_div hd, Nat.div_eq_of_lt hlt, Nat.add_zero]
  · have hmod : (decdivsmall s d).2 = (decdivloop d s [] 0).2 := rfl
    rw [hmod, hdec, Nat.mul_add_mod, Nat.mod_eq_of_lt hlt]

theorem tostringloop_eq (hr : 2 ≤ r) (h : Trimmed s) (hn : decvalue s < 2 ^ n) :
    tostringloop r n s out = out ++ (Nat.digits r (decvalue s)).map dig := by
  induction n generalizing s out with
  | zero =>
    have hzero : decvalue s = 0 := by simpa using hn
    rw [hzero, Nat.digits_zero, List.map_nil, List.append_nil]
    rfl
  | succ n ih =>
    have hround : tostringloop r (n + 1) s out = if s = lit "0" then out else
        tostringloop r n (decdivsmall s r).1 (out ++ [dig (decdivsmall s r).2]) := rfl
    rw [hround]
    by_cases hs : s = lit "0"
    · rw [if_pos hs, h.eq_zero_iff.1 hs, Nat.digits_zero, List.map_nil, List.append_nil]
    · have hpos : 0 < decvalue s := Nat.pos_of_ne_zero fun h0 => hs (h.eq_zero_iff.2 h0)
      obtain ⟨htrim, hdiv, hmod⟩ := decdivsmall_spec h (by omega : 0 < r)
      have hlt : decvalue (decdivsmall s r).1 < 2 ^ n := by
        rw [hdiv]
        refine Nat.div_lt_of_lt_mul (lt_of_lt_of_le hn ?_)
        rw [pow_succ']
        exact Nat.mul_le_mul_right _ hr
      rw [if_neg hs, ih htrim hlt, hdiv, hmod, Nat.digits_def' (by omega) hpos, List.map_cons,
        List.append_assoc]
      rfl

def numeral (r n : ℕ) : Str := if n = 0 then lit "0" else ((Nat.digits r n).map dig).reverse

theorem decimal_eq_numeral (n : ℕ) : decimal n = numeral 10 n := by
  rw [decimal, numeral, ← List.map_reverse]
  congr 1
  refine List.map_congr_left fun d hd => dig_decimal d ?_
  exact Nat.digits_lt_base (by norm_num) (List.mem_reverse.1 hd)

theorem decimal_trimmed (n : ℕ) : Trimmed (decimal n) := by
  refine ⟨decimal_ne_nil n, decimal_isdigit n, fun hhead => ?_⟩
  by_cases hn : n = 0
  · rw [hn]
    rfl
  have hne : Nat.digits 10 n ≠ [] := Nat.digits_ne_nil_iff_ne_zero.2 hn
  rw [decimal, if_neg hn, List.head?_map, List.head?_reverse,
    List.getLast?_eq_getLast_of_ne_nil hne] at hhead
  have hlast := Nat.getLast_digit_ne_zero 10 hn
  have hlt := Nat.digits_lt_base (by norm_num : 1 < 10) (List.getLast_mem hne)
  have := (digitChar_digit hlt).2
  rw [Option.some.inj hhead] at this
  exact absurd this.symm hlast

theorem radixvalue_numeral (hr : 2 ≤ r) (hr' : r ≤ 36) (n : ℕ) :
    radixvalue r (numeral r n) = n := by
  rw [numeral]
  split_ifs with hn
  · rw [hn]
    decide +revert
  have hdigits : ∀ l : List ℕ, (∀ d ∈ l, d < r) →
      radixvalue r (l.map dig).reverse = Nat.ofDigits r l := fun l hl => by
    induction l with
    | nil => rfl
    | cons d l ih =>
      have hd := (dig_spec d ((hl d (by simp)).trans_le hr')).1
      have happ : ∀ t c, radixvalue r (t ++ [c]) = radixvalue r t * r + digitchars.idxOf c :=
        fun t c => by simp [radixvalue]
      rw [List.map_cons, List.reverse_cons, happ, ih fun d hd => hl d (by simp [hd]), hd,
        Nat.ofDigits_cons]
      ring
  rw [hdigits _ fun d hd => Nat.digits_lt_base (by omega) hd, Nat.ofDigits_digits]

theorem bigtostring_fromip (hr : 2 ≤ r) (x : ℤ) :
    bigtostring (fromip x) r = (if x < 0 then ['-'] else []) ++ numeral r x.natAbs := by
  rw [bigtostring, fromip_eq]
  by_cases h10 : r = 10
  · rw [if_pos h10, h10, decimal_eq_numeral]
  have hhead : (decimal x.natAbs).head? ≠ some '-' := fun hhead => by
    have hdigit := List.all_eq_true.1 (decimal_isdigit x.natAbs) '-' (List.mem_of_mem_head? hhead)
    exact absurd hdigit (by decide)
  have hlen : decvalue (decimal x.natAbs) < 2 ^ (4 * (decimal x.natAbs).length) := by
    rw [decvalue_decimal, pow_mul]
    refine lt_of_lt_of_le ((decimal_length_le ?_).1 le_rfl) (Nat.pow_le_pow_left (by norm_num) _)
    exact (List.length_pos_iff.2 (decimal_ne_nil _)).ne'
  have hloop := @tostringloop_eq r _ _ [] hr (decimal_trimmed x.natAbs) hlen
  rw [decvalue_decimal, List.nil_append] at hloop
  have hout : (if tostringloop r (4 * (decimal x.natAbs).length) (decimal x.natAbs) [] = [] then
      lit "0" else tostringloop r (4 * (decimal x.natAbs).length) (decimal x.natAbs) []).reverse =
        numeral r x.natAbs := by
    rw [hloop, numeral]
    by_cases hx : x.natAbs = 0
    · rw [if_pos hx, hx, Nat.digits_zero]
      rfl
    · have hne : (Nat.digits r x.natAbs).map dig ≠ [] := fun h =>
        Nat.digits_ne_nil_iff_ne_zero.2 hx (List.map_eq_nil_iff.1 h)
      rw [if_neg hx, if_neg hne]
  rw [if_neg h10]
  by_cases hx : x < 0
  · simp only [if_pos hx, List.singleton_append, List.head?_cons, if_true, List.tail_cons, hout]
  · simp only [if_neg hx, List.nil_append, hhead, if_false, hout]

theorem numeral_ne_nil (n : ℕ) : numeral r n ≠ [] := by
  rw [numeral]
  split_ifs with hn
  · simp [lit]
  · simpa using Nat.digits_ne_nil_iff_ne_zero.2 hn

theorem numeral_digit (hr : 2 ≤ r) (hr' : r ≤ 36) (hc : c ∈ numeral r n) :
    digitchars.idxOf c < r := by
  rw [numeral] at hc
  split_ifs at hc with hn
  · rw [List.mem_singleton.1 hc]
    exact lt_of_lt_of_le (by decide) hr
  · obtain ⟨d, hd, rfl⟩ := List.mem_map.1 (List.mem_reverse.1 hc)
    have hlt := Nat.digits_lt_base (by omega) hd
    rw [(dig_spec d (by omega)).1]
    exact hlt

end Radix

section Exact

def value (op : Op) (x y : ℤ) : Option ℤ :=
  match op with
  | .Osub => some (x - y)
  | .Omul => some (x * y)
  | .Odiv => if y = 0 then none else some (x.tdiv y)
  | .Omod => if y = 0 then none else some (x.tmod y)
  | .Oexp => if y < 0 then none else some (x ^ y.toNat)
  | .Oshl => some (shifted x y)
  | .Oshr => some (shifted x (-y))
  | .Oband => some (x.land y)
  | .Obor => some (x.lor y)
  | .Obxor => some (x.xor y)
  | .Oushr | .Oother => none

/-- The value, or a `RangeError` where there is none or where it is too large. -/
def Exact (op : Op) (x y : ℤ) : Except Err V → Prop
  | .ok v => ∃ z, value op x y = some z ∧ v = .Tbig (fromip z)
  | .error (.RangeError _) =>
    ((op = .Odiv ∨ op = .Omod) ∧ y = 0) ∨ (op = .Oexp ∧ y < 0) ∨
      ∃ z, value op x y = some z ∧ maxbits < bits z
  | .error (.TypeError _) => op = .Oushr ∨ op = .Oother

def Holds (op : Op) (x y : ℤ) : Prop :=
  match op with
  | .Oexp => 2 ^ 31 ≤ y → 2 ≤ x.natAbs
  | .Oshl => ShiftHolds x y
  | .Oshr => ShiftHolds x (-y)
  | _ => True

def Canonical (s : Str) : Prop :=
  Trimmed s ∨ ∃ t, s = '-' :: t ∧ Trimmed t ∧ t ≠ lit "0"

variable {op : Op} {x y z : ℤ}

theorem fromip_canonical (x : ℤ) : Canonical (fromip x) := by
  rw [fromip_eq]
  split_ifs with hx
  · refine .inr ⟨_, rfl, decimal_trimmed _, fun h0 => ?_⟩
    have := (decimal_trimmed _).eq_zero_iff.1 h0
    rw [decvalue_decimal] at this
    omega
  · exact .inl (decimal_trimmed _)

theorem exact_map {e : Except Err ℤ} (hz : value op x y = some z)
    (hop : (op = .Oexp ∧ 0 ≤ y) ∨ op = .Oshl ∨ op = .Oshr) :
    Exact op x y (e.map fun r => V.Tbig (fromip r)) ↔ Gives z e := by
  obtain err | r := e
  · obtain text | text := err
    · have hiff : Exact op x y (.error (.RangeError text)) ↔
          Gives z (.error (.RangeError text)) := by
        simp only [Exact, Gives, hz, Option.some.injEq, exists_eq_left']
        refine ⟨fun h => ?_, fun h => .inr (.inr h)⟩
        obtain ⟨rfl | rfl, -⟩ | ⟨rfl, hneg⟩ | h := h
        · simp at hop
        · simp at hop
        · simp at hop
          omega
        · exact h
      exact hiff
    · refine iff_of_false (fun h => ?_) id
      obtain rfl | rfl := (h : op = .Oushr ∨ op = .Oother) <;> simp at hop
  · have hiff : Exact op x y (.ok (.Tbig (fromip r))) ↔ r = z := by
      simp only [Exact, hz, Option.some.injEq, exists_eq_left', V.Tbig.injEq]
      exact ⟨fromip_injective, fun h => by rw [h]⟩
    exact hiff

theorem bigarith_exact (op : Op) (x y : ℤ) :
    Exact op x y (bigarith op (.Tbig (fromip x)) (.Tbig (fromip y))) ↔ Holds op x y := by
  simp only [bigarith, strtoip_fromip]
  cases op with
  | Osub | Omul => exact iff_of_true ⟨_, rfl, rfl⟩ trivial
  | Odiv =>
    refine iff_of_true ?_ trivial
    split_ifs with hy
    · exact .inl ⟨.inl rfl, hy⟩
    · exact ⟨_, if_neg hy, by rw [quotient_eq]⟩
  | Omod =>
    refine iff_of_true ?_ trivial
    split_ifs with hy
    · exact .inl ⟨.inr rfl, hy⟩
    · exact ⟨_, if_neg hy, by rw [remainder_eq]⟩
  | Oexp =>
    by_cases hy : y < 0
    · refine iff_of_true ?_ fun h => by omega
      rw [bigexp, if_pos hy]
      exact .inr (.inl ⟨rfl, hy⟩)
    · have hvalue : value .Oexp x y = some (x ^ y.toNat) := if_neg hy
      exact (exact_map hvalue (.inl ⟨rfl, not_lt.1 hy⟩)).trans (bigexp_gives (not_lt.1 hy))
  | Oshl => exact (exact_map rfl (.inr (.inl rfl))).trans (bigshift_gives x y)
  | Oshr => exact (exact_map rfl (.inr (.inr rfl))).trans (bigshift_gives x (-y))
  | Oushr => exact iff_of_true (.inl rfl) trivial
  | Oband => exact iff_of_true ⟨_, rfl, by rw [bitwise_and]⟩ trivial
  | Obor => exact iff_of_true ⟨_, rfl, by rw [bitwise_or]⟩ trivial
  | Obxor => exact iff_of_true ⟨_, rfl, by rw [bitwise_xor]⟩ trivial
  | Oother => exact iff_of_true (.inr rfl) trivial

theorem not_wrapped_zero {bits : ℕ} (h : bits ≠ 0) : ¬Wrapped false bits 1 0 := by
  rintro ⟨hdvd, -⟩
  have htwo : (2 : ℤ) ∣ 1 - 0 := (dvd_pow_self 2 h).trans hdvd
  omega

end Exact

end Infernode.Js.Bigint
