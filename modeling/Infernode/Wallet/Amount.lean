import Infernode.Lib.BigEndian
import Infernode.Limbo.Token

/-!
# Amounts

Amounts are unsigned big-endian byte arrays, `nil` included: `none` is Limbo's
nil array, which the comparison and the sum read as zero and which a parse or
a sum returns on failure. An empty array is not nil.
-/

namespace Infernode.Wallet
open Infernode.Limbo Infernode.Lib.BigEndian

abbrev Bytes := Option (List UInt8)

def minimalbe : Bytes → List UInt8
  | none => []
  | some b => strip b

def amountval (b : Bytes) : ℕ := value (b.getD [])

theorem amountval_nil : amountval none = 0 := rfl

def cmploop : List UInt8 → List UInt8 → ℤ
  | a :: as, b :: bs =>
    if a ≠ b then (if a.toNat < b.toNat then -1 else 1) else cmploop as bs
  | _, _ => 0

def becmp (a b : Bytes) : ℤ :=
  if (minimalbe a).length ≠ (minimalbe b).length then
    (if (minimalbe a).length < (minimalbe b).length then -1 else 1)
  else cmploop (minimalbe a) (minimalbe b)

def sumbytes (a b : List UInt8) : List UInt8 :=
  strip (addlow (max a.length b.length) a.reverse b.reverse 0).reverse

def beadd (a b : Bytes) : Bytes :=
  let r := sumbytes (minimalbe a) (minimalbe b)
  if r.length > 32 then none else some r

def dectobe (s : Str) : Bytes :=
  if s = [] ∨ s.length > 78 then none
  else if s.all isdigit = false then none
  else
    let b := strip (tobytes (decvalue s))
    if b.length > 32 then none else some b

def betodec (b : Bytes) : Str := decimal (value (minimalbe b))

theorem value_minimalbe (b : Bytes) : value (minimalbe b) = amountval b := by
  cases b with
  | none => rfl
  | some b => exact value_strip b

theorem minimalbe_stripped (b : Bytes) : Stripped (minimalbe b) := by
  cases b with
  | none => simp [minimalbe, Stripped]
  | some b => exact strip_stripped b

theorem cmploop_sign (a b : List UInt8) (h : a.length = b.length) :
    (0 < cmploop a b ↔ value b < value a) ∧ (cmploop a b < 0 ↔ value a < value b) := by
  induction a generalizing b with
  | nil =>
    have hb : b = [] := List.length_eq_zero_iff.mp h.symm
    simp [hb, cmploop]
  | cons x a ih =>
    cases b with
    | nil => simp at h
    | cons y b =>
      have hlen : a.length = b.length := by simpa using h
      simp only [cmploop]
      split_ifs with hne hlt
      · have hv := value_lt_of_head hlen hlt
        omega
      · have hyx : y.toNat < x.toNat := by
          refine lt_of_le_of_ne (not_lt.mp hlt) fun he => hne ?_
          exact UInt8.toNat_inj.mp he.symm
        have hv := value_lt_of_head hlen.symm hyx
        omega
      · have hxy : x = y := not_not.mp hne
        have := ih b hlen
        rw [value_cons, value_cons, hxy, hlen]
        omega

theorem becmp_pos (a b : Bytes) : 0 < becmp a b ↔ amountval b < amountval a := by
  rw [← value_minimalbe, ← value_minimalbe, becmp]
  split_ifs with hne hlt
  · have := (minimalbe_stripped b).value_lt_of_length hlt
    omega
  · have hlt' : (minimalbe b).length < (minimalbe a).length := by omega
    have := (minimalbe_stripped a).value_lt_of_length hlt'
    omega
  · exact (cmploop_sign _ _ (not_not.mp hne)).1

theorem value_sumbytes (a b : List UInt8) : value (sumbytes a b) = value a + value b := by
  have hadd : lowvalue (addlow (max a.length b.length) a.reverse b.reverse 0) =
      lowvalue a.reverse + lowvalue b.reverse + 0 :=
    lowvalue_addlow (by simp) (by simp) (Nat.zero_le 1)
  rw [sumbytes, value_strip, value, List.reverse_reverse, hadd]
  rfl

theorem beadd_eq_none (a b : Bytes) : beadd a b = none ↔ 2 ^ 256 ≤ amountval a + amountval b := by
  have hlen := (strip_stripped (addlow
    (max (minimalbe a).length (minimalbe b).length)
    (minimalbe a).reverse (minimalbe b).reverse 0).reverse).length_le_iff 32
  rw [← sumbytes, value_sumbytes, value_minimalbe, value_minimalbe,
    show (256 : ℕ) ^ 32 = 2 ^ 256 by norm_num] at hlen
  simp only [beadd, ite_eq_left_iff, reduceCtorEq, imp_false, not_not]
  omega

theorem beadd_eq_some {a b : Bytes} {r : List UInt8} (h : beadd a b = some r) :
    value r = amountval a + amountval b := by
  simp only [beadd] at h
  split_ifs at h
  rw [← Option.some.inj h, value_sumbytes, value_minimalbe, value_minimalbe]

theorem dectobe_value {s : Str} (h : dectobe s ≠ none) : amountval (dectobe s) = decvalue s := by
  simp only [dectobe] at h ⊢
  split_ifs at h ⊢
  · simp at h
  · simp at h
  · simp at h
  · simp [amountval]

end Infernode.Wallet
