import Mathlib

/-!
# Unsigned integers as byte strings

`value` reads a byte string most significant byte first. A string is stripped
when it has no leading zero byte; stripped strings are ordered by length and,
at equal length, by their first differing byte, as their values are. `addlow`
adds two strings given least significant byte first, one byte at a time.
-/

namespace Infernode.Lib.BigEndian

def lowvalue : List UInt8 → ℕ
  | [] => 0
  | b :: l => b.toNat + 256 * lowvalue l

def value (l : List UInt8) : ℕ := lowvalue l.reverse

@[simp] theorem value_nil : value [] = 0 := rfl

theorem lowvalue_append (a b : List UInt8) :
    lowvalue (a ++ b) = lowvalue a + 256 ^ a.length * lowvalue b := by
  induction a with
  | nil => simp [lowvalue]
  | cons x a ih =>
    simp only [List.cons_append, lowvalue, ih, List.length_cons]
    ring

theorem value_cons (b : UInt8) (l : List UInt8) :
    value (b :: l) = b.toNat * 256 ^ l.length + value l := by
  simp only [value, List.reverse_cons, lowvalue_append, lowvalue, List.length_reverse]
  ring

theorem lowvalue_lt (l : List UInt8) : lowvalue l < 256 ^ l.length := by
  induction l with
  | nil => simp [lowvalue]
  | cons b l ih =>
    have hb : b.toNat < 256 := b.toNat_lt
    simp only [lowvalue, List.length_cons, pow_succ]
    omega

theorem value_lt (l : List UInt8) : value l < 256 ^ l.length := by
  simpa [value] using lowvalue_lt l.reverse

@[simp] theorem value_zeros (n : ℕ) (l : List UInt8) : value (List.replicate n 0 ++ l) = value l := by
  induction n with
  | zero => rfl
  | succ n ih => simp [List.replicate_succ, value_cons, ih]

def strip (l : List UInt8) : List UInt8 := l.dropWhile (· == 0)

@[simp] theorem value_strip (l : List UInt8) : value (strip l) = value l := by
  induction l with
  | nil => rfl
  | cons b l ih =>
    by_cases hb : b = 0
    · subst hb
      rw [value_cons]
      simpa [strip] using ih
    · simp [strip, hb]

def Stripped (l : List UInt8) : Prop := l.head? ≠ some 0

theorem strip_stripped (l : List UInt8) : Stripped (strip l) := by
  induction l with
  | nil => simp [strip, Stripped]
  | cons b l ih =>
    by_cases hb : b = 0
    · subst hb
      simpa [strip] using ih
    · simp [strip, hb, Stripped]

theorem Stripped.le_value {l : List UInt8} (h : Stripped l) {n : ℕ} (hn : n < l.length) :
    256 ^ n ≤ value l := by
  cases l with
  | nil => simp at hn
  | cons b l =>
    have hb : 1 ≤ b.toNat := by
      rw [Nat.one_le_iff_ne_zero]
      intro h0
      have : b = 0 := UInt8.toNat_inj.mp (by simpa using h0)
      simp [Stripped, this] at h
    have hpow : 256 ^ n ≤ 256 ^ l.length :=
      Nat.pow_le_pow_right (by norm_num) (by simpa using Nat.lt_succ_iff.mp hn)
    rw [value_cons]
    calc 256 ^ n ≤ 1 * 256 ^ l.length := by simpa using hpow
      _ ≤ b.toNat * 256 ^ l.length := Nat.mul_le_mul_right _ hb
      _ ≤ _ := Nat.le_add_right _ _

theorem Stripped.length_le_iff {l : List UInt8} (h : Stripped l) (n : ℕ) :
    l.length ≤ n ↔ value l < 256 ^ n := by
  constructor
  · intro hn
    exact (value_lt l).trans_le (Nat.pow_le_pow_right (by norm_num) hn)
  · intro hv
    by_contra hn
    exact absurd (h.le_value (not_le.mp hn)) (not_le.mpr hv)

theorem Stripped.value_lt_of_length {a b : List UInt8} (hb : Stripped b)
    (h : a.length < b.length) : value a < value b :=
  (value_lt a).trans_le (hb.le_value h)

/-- At equal length the first differing byte decides. -/
theorem value_lt_of_head {x y : UInt8} {a b : List UInt8} (hlen : a.length = b.length)
    (h : x.toNat < y.toNat) : value (x :: a) < value (y :: b) := by
  have ha := value_lt a
  rw [value_cons, value_cons, ← hlen]
  have hmul : (x.toNat + 1) * 256 ^ a.length ≤ y.toNat * 256 ^ a.length :=
    Nat.mul_le_mul_right _ h
  rw [Nat.add_mul, Nat.one_mul] at hmul
  omega

theorem value_inj {a b : List UInt8} (hlen : a.length = b.length) (h : value a = value b) :
    a = b := by
  induction a generalizing b with
  | nil => exact (List.length_eq_zero_iff.1 hlen.symm).symm
  | cons x a ih =>
    obtain - | ⟨y, b⟩ := b
    · simp at hlen
    have hlen' : a.length = b.length := by simpa using hlen
    obtain hlt | heq | hlt := lt_trichotomy x.toNat y.toNat
    · exact absurd h (Nat.ne_of_lt (value_lt_of_head hlen' hlt))
    · rw [value_cons, value_cons, heq, hlen', Nat.add_left_cancel_iff] at h
      rw [UInt8.toNat_inj.1 heq, ih hlen' h]
    · exact absurd h (Nat.ne_of_gt (value_lt_of_head hlen'.symm hlt))

def addlow : ℕ → List UInt8 → List UInt8 → ℕ → List UInt8
  | 0, _, _, carry => [UInt8.ofNat carry]
  | n + 1, a, b, carry =>
    UInt8.ofNat (((a.headD 0).toNat + (b.headD 0).toNat + carry) % 256) ::
      addlow n a.tail b.tail (((a.headD 0).toNat + (b.headD 0).toNat + carry) / 256)

theorem lowvalue_head (a : List UInt8) :
    lowvalue a = (a.headD 0).toNat + 256 * lowvalue a.tail := by
  cases a <;> simp [lowvalue]

theorem lowvalue_addlow {n : ℕ} {a b : List UInt8} {c : ℕ} (ha : a.length ≤ n)
    (hb : b.length ≤ n) (hc : c ≤ 1) :
    lowvalue (addlow n a b c) = lowvalue a + lowvalue b + c := by
  induction n generalizing a b c with
  | zero =>
    have ha0 : a = [] := List.length_eq_zero_iff.mp (Nat.le_zero.mp ha)
    have hb0 : b = [] := List.length_eq_zero_iff.mp (Nat.le_zero.mp hb)
    have hmod : c % 256 = c := Nat.mod_eq_of_lt (by omega)
    simp [addlow, lowvalue, ha0, hb0, hmod]
  | succ n ih =>
    have hx : (a.headD 0).toNat < 256 := UInt8.toNat_lt _
    have hy : (b.headD 0).toNat < 256 := UInt8.toNat_lt _
    have hta : a.tail.length ≤ n := by simp; omega
    have htb : b.tail.length ≤ n := by simp; omega
    have hrec := ih hta htb (c := ((a.headD 0).toNat + (b.headD 0).toNat + c) / 256)
      (by omega)
    rw [addlow, lowvalue, hrec, lowvalue_head a, lowvalue_head b]
    have hdigit : (UInt8.ofNat (((a.headD 0).toNat + (b.headD 0).toNat + c) % 256)).toNat =
        ((a.headD 0).toNat + (b.headD 0).toNat + c) % 256 := by
      simp
    rw [hdigit]
    omega

def tobytes (n : ℕ) : List UInt8 := (Nat.digits 256 n).reverse.map UInt8.ofNat

@[simp] theorem value_tobytes (n : ℕ) : value (tobytes n) = n := by
  have hlow : ∀ l : List ℕ, (∀ d ∈ l, d < 256) →
      lowvalue (l.map UInt8.ofNat) = Nat.ofDigits 256 l := by
    intro l
    induction l with
    | nil => intro _; rfl
    | cons d l ih =>
      intro hd
      have hd0 : d % 256 = d := Nat.mod_eq_of_lt (hd d (by simp))
      simp only [List.map_cons, lowvalue, Nat.ofDigits_cons, ih fun x hx => hd x (by simp [hx])]
      simp [hd0]
  rw [value, tobytes, ← List.map_reverse, List.reverse_reverse,
    hlow _ fun d hd => Nat.digits_lt_base (by norm_num) hd, Nat.ofDigits_digits]

end Infernode.Lib.BigEndian
