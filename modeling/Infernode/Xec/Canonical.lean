import Infernode.Xec.Arith

/-!
# Powers in 64 bits

The loop of `iexpw` and `iexpl` gives the power modulo 2^64, and of an int that is only 1 or -1
where the power itself is.
-/

namespace Infernode.Xec

theorem CW_wrap (v : ℤ) : CW (wrap v) = CW v := Int.bmod_bmod_of_dvd (by decide)

theorem CW_CW (v : ℤ) : CW (CW v) = CW v := Int.bmod_bmod_of_dvd (dvd_refl _)

theorem wrap_wrap (v : ℤ) : wrap (wrap v) = wrap v := Int.bmod_bmod_of_dvd (dvd_refl _)

theorem CW_congr {a b : ℤ} (h : a % 2 ^ 32 = b % 2 ^ 32) : CW a = CW b := by
  have ha : CW (a % 2 ^ 32) = CW a := Int.emod_bmod a (2 ^ 32)
  have hb : CW (b % 2 ^ 32) = CW b := Int.emod_bmod b (2 ^ 32)
  rw [← ha, ← hb, h]

theorem CW_eq_self {v : ℤ} : CW v = v ↔ -2 ^ 31 ≤ v ∧ v < 2 ^ 31 := by
  constructor
  · intro h
    have hlo : -(2 ^ 32 / 2 : ℤ) ≤ CW v := Int.le_bmod (by decide)
    have hhi : CW v < (2 ^ 32 + 1) / 2 := Int.bmod_lt (by decide)
    omega
  · rintro ⟨hlo, hhi⟩
    exact Int.bmod_eq_of_le (by omega) (by omega)

theorem wrap_eq_self {v : ℤ} : wrap v = v ↔ -2 ^ 63 ≤ v ∧ v < 2 ^ 63 := by
  constructor
  · intro h
    have hlo : -(2 ^ 64 / 2 : ℤ) ≤ wrap v := Int.le_bmod (by decide)
    have hhi : wrap v < (2 ^ 64 + 1) / 2 := Int.bmod_lt (by decide)
    omega
  · rintro ⟨hlo, hhi⟩
    exact Int.bmod_eq_of_le (by omega) (by omega)

theorem wrap_modEq (v : ℤ) : wrap v ≡ v [ZMOD 2 ^ 64] := Int.bmod_emod

theorem wrap_congr {a b : ℤ} (h : a ≡ b [ZMOD 2 ^ 64]) : wrap a = wrap b := by
  have ha : wrap (a % 2 ^ 64) = wrap a := Int.emod_bmod a (2 ^ 64)
  have hb : wrap (b % 2 ^ 64) = wrap b := Int.emod_bmod b (2 ^ 64)
  rw [← ha, ← hb, h]

theorem wrap_eq_zero {v : ℤ} : wrap v = 0 ↔ 2 ^ 64 ∣ v := by
  constructor
  · intro h
    have hmod := wrap_modEq v
    rw [h] at hmod
    exact Int.modEq_zero_iff_dvd.mp hmod.symm
  · intro h
    exact (wrap_congr (Int.modEq_zero_iff_dvd.mpr h)).trans (by decide)

theorem exploop_eq (k : ℕ) (x : ℤ) (n : ℕ) {r : ℤ} (hn : n < 2 ^ (k + 1)) (hr : wrap r = r) :
    exploop (k + 1) x n r = .ok (wrap (r * x ^ n)) := by
  induction k generalizing x n r with
  | zero =>
    obtain rfl | rfl : n = 0 ∨ n = 1 := by omega
    · simp [exploop, hr]
    · simp [exploop]
  | succ k ih =>
    have hhalf : (n : ℤ) / 2 = ((n / 2 : ℕ) : ℤ) := by omega
    set r' := if (n : ℤ) % 2 = 1 then wrap (r * x) else r with hr'
    have hwrap : wrap r' = r' := by
      rw [hr']
      split_ifs
      · exact wrap_wrap _
      · exact hr
    have hpow : r' * (x * x) ^ (n / 2) ≡ r * x ^ n [ZMOD 2 ^ 64] := by
      rw [hr']
      split_ifs with hodd
      · have hexp : n = 1 + 2 * (n / 2) := by omega
        have heq : r * x * (x * x) ^ (n / 2) = r * x ^ n := by
          nth_rewrite 2 [hexp]
          rw [pow_add, pow_mul, pow_one, pow_two, mul_assoc]
        rw [← heq]
        exact (wrap_modEq (r * x)).mul_right _
      · have hexp : n = 2 * (n / 2) := by omega
        have heq : r * (x * x) ^ (n / 2) = r * x ^ n := by
          nth_rewrite 2 [hexp]
          rw [pow_mul, pow_two]
        rw [heq]
    rw [exploop]
    simp only [← hr']
    split_ifs with hzero
    · have hn0 : n / 2 = 0 := by omega
      rw [hn0, pow_zero, mul_one] at hpow
      rw [← wrap_congr hpow, hwrap]
    · rw [hhalf, ih (wrap (x * x)) (n / 2) (by omega) hwrap]
      refine congrArg _ (wrap_congr (Int.ModEq.trans ?_ hpow))
      exact ((wrap_modEq (x * x)).pow _).mul_left _

theorem pow_unit {x : ℤ} {n : ℕ} (hx : CW x = x) (hn : n ≠ 0) (hn' : n ≤ 2 ^ 31)
    (h : x ^ n ≡ 1 [ZMOD 2 ^ 64] ∨ x ^ n ≡ -1 [ZMOD 2 ^ 64]) : x = 1 ∨ x = -1 := by
  obtain ⟨hlo, hhi⟩ := CW_eq_self.mp hx
  -- the square of the power is 1
  have hsq : (2 : ℤ) ^ 64 ∣ x ^ (2 * n) - 1 := by
    have hmod : x ^ (2 * n) ≡ 1 [ZMOD 2 ^ 64] := by
      rw [mul_comm, pow_mul]
      rcases h with h | h
      · simpa using h.pow 2
      · simpa using h.pow 2
    exact (Int.modEq_iff_dvd.mp hmod.symm)
  have hodd : ¬(2 : ℤ) ∣ x := by
    intro heven
    have hpow : (2 : ℤ) ∣ x ^ (2 * n) := dvd_pow heven (by omega)
    have hone : (2 : ℤ) ∣ x ^ (2 * n) - 1 := (dvd_pow_self 2 (by decide)).trans hsq
    omega
  by_contra hne
  rw [not_or] at hne
  have hval := Int.two_pow_sub_pow (x := x) (y := 1) (n := 2 * n) (by omega) hodd (even_two_mul n)
  rw [one_pow] at hval
  have hbound : ∀ {m : ℤ} {k : ℕ}, ¬(2 : ℤ) ^ (k + 1) ∣ m → emultiplicity 2 m ≤ k := fun hm =>
    Order.le_of_lt_add_one (by exact_mod_cast emultiplicity_lt_iff_not_dvd.mpr hm)
  have hlarge : (64 : ℕ) ≤ emultiplicity 2 (x ^ (2 * n) - 1) := le_emultiplicity_of_pow_dvd hsq
  have hsmall : ∀ {m : ℤ} {k : ℕ}, m ≠ 0 → |m| < 2 ^ k → ¬(2 : ℤ) ^ k ∣ m := fun hm hlt hdvd =>
    hm (Int.eq_zero_of_abs_lt_dvd hdvd hlt)
  have hexp : emultiplicity (2 : ℤ) ((2 * n : ℕ) : ℤ) ≤ (32 : ℕ) :=
    hbound (hsmall (by omega) (by rw [abs_of_nonneg (by omega)]; push_cast; omega))
  have hsum : emultiplicity 2 (x + 1) + emultiplicity 2 (x - 1) ≤ (32 : ℕ) := by
    have hplus : emultiplicity 2 (x + 1) ≤ (31 : ℕ) :=
      hbound (hsmall (by omega) (by rw [abs_lt]; omega))
    have hminus : emultiplicity 2 (x - 1) ≤ (31 : ℕ) :=
      hbound (hsmall (by omega) (by rw [abs_lt]; omega))
    by_cases hfour : (2 : ℤ) ^ (1 + 1) ∣ x + 1
    · have hone : emultiplicity 2 (x - 1) ≤ (1 : ℕ) := hbound (by omega)
      exact (add_le_add hplus hone).trans (by norm_cast)
    · exact (add_le_add (hbound hfour) hminus).trans (by norm_cast)
  have htotal : ((64 : ℕ) : ℕ∞) + 1 ≤ (32 : ℕ) + (32 : ℕ) := by
    calc ((64 : ℕ) : ℕ∞) + 1 ≤ emultiplicity 2 (x ^ (2 * n) - 1) + 1 := by gcongr
      _ = emultiplicity 2 (x + 1) + emultiplicity 2 (x - 1) +
          emultiplicity (2 : ℤ) ((2 * n : ℕ) : ℤ) := hval
      _ ≤ (32 : ℕ) + (32 : ℕ) := add_le_add hsum hexp
  exact absurd htotal (by norm_cast)

/-!
## Canonical slots

Every run of the instructions keeps each int a sign-extended 32-bit value, the mathematical
result modulo 2^32, and divides by no zero, as long as each step is `Spared`.
-/

open Limbo (Str decimal)
open Audit (dec)

def Outcome.Right {α : Type} (P : α → Prop) : Outcome α → Prop
  | .ok a => P a
  | .exZdiv | .exBounds | .exNilref => True
  | .trap | .spins => False

theorem Outcome.Right.bind {α β : Type} {x : Outcome α} {f : α → Outcome β} {P : α → Prop}
    {Q : β → Prop} (hx : x.Right P) (hf : ∀ a, P a → (f a).Right Q) : (x >>= f).Right Q := by
  cases x with
  | ok a => exact hf a hx
  | exZdiv | exBounds | exNilref => trivial
  | trap | spins => exact hx.elim

theorem Outcome.Right.mono {α : Type} {x : Outcome α} {P Q : α → Prop} (hx : x.Right P)
    (hPQ : ∀ a, P a → Q a) : x.Right Q := by
  cases x with
  | ok a => exact hPQ a hx
  | exZdiv | exBounds | exNilref => trivial
  | trap | spins => exact hx.elim

theorem quot_right {x y : ℤ} (hy : y ≠ 0) (h : ¬(x = -2 ^ 63 ∧ y = -1)) :
    (quot x y).Right fun q => q = wrap (x.tdiv y) := by
  rw [quot, if_neg (not_or.mpr ⟨hy, h⟩)]
  rfl

theorem rem_right {x y : ℤ} (hy : y ≠ 0) (h : ¬(x = -2 ^ 63 ∧ y = -1)) :
    (rem x y).Right fun q => q = wrap (x.tmod y) := by
  rw [rem, if_neg (not_or.mpr ⟨hy, h⟩)]
  rfl

theorem shl_right {w x n : ℤ} (h : 0 ≤ n ∧ n < w) :
    (shl w x n).Right fun r => r = wrap (x * 2 ^ n.toNat) := by
  rw [shl, if_pos h]
  rfl

theorem shr_right {w x n : ℤ} (h : 0 ≤ n ∧ n < w) :
    (shr w x n).Right fun r => r = wrap (x / 2 ^ n.toNat) := by
  rw [shr, if_pos h]
  rfl

theorem CW_ne_least {v : ℤ} : CW v ≠ -2 ^ 63 := by
  intro h
  have hcw := CW_eq_self.mp (CW_CW v)
  omega

def Wop.value : Wop → ℤ → ℤ → ℤ
  | .addw, m, s => m + s
  | .subw, m, s => m - s
  | .mulw, m, s => m * s
  | .divw, m, s => m.tdiv s
  | .modw, m, s => m.tmod s
  | .andw, m, s => m.land s
  | .orw, m, s => m.lor s
  | .xorw, m, s => m.xor s
  | .shlw, m, s => m * 2 ^ s.toNat
  | .shrw, m, s => m / 2 ^ s.toNat
  | .lsrw, m, s => m % 2 ^ 32 / 2 ^ s.toNat
  | .iexpw, m, s => if 0 ≤ s then m ^ s.natAbs else Int.tdiv 1 (m ^ s.natAbs)

def Wop.Counts : Wop → ℤ → Prop
  | .shlw, s | .shrw, s | .lsrw, s => 0 ≤ s ∧ s < 32
  | _, _ => True

/-- A power with an exponent below 0 is of a base whose power is not 0 in 64 bits. -/
def Powers (m s : ℤ) : Prop := 0 ≤ s ∨ ¬2 ^ 64 ∣ m ^ s.natAbs

def Wop.Spared : Wop → ℤ → ℤ → Prop
  | .iexpw, m, s => Powers m s
  | _, _, _ => True

theorem exploop_power {m s : ℤ} (hs : CW s = s) :
    exploop 64 m (if s < 0 then wrap (-s) else s) 1 = .ok (wrap (m ^ s.natAbs)) := by
  obtain ⟨hlo, hhi⟩ := CW_eq_self.mp hs
  have habs : (if s < 0 then wrap (-s) else s) = (s.natAbs : ℤ) := by
    split_ifs with hneg
    · rw [wrap_eq_self.mpr (by omega)]
      omega
    · omega
  rw [habs, exploop_eq 63 m s.natAbs (by omega) (by decide), one_mul]

theorem iexpl_right {m s : ℤ} (hs : CW s = s) (h : Powers m s) : (iexpl m s).Right fun r =>
    r = if 0 ≤ s then wrap (m ^ s.natAbs) else wrap (Int.tdiv 1 (wrap (m ^ s.natAbs))) := by
  rw [iexpl, exploop_power hs]
  change (if s < 0 then quot 1 (wrap (m ^ s.natAbs)) else .ok (wrap (m ^ s.natAbs))).Right _
  by_cases hneg : s < 0
  · rw [if_pos hneg, if_neg (by omega)]
    refine quot_right (fun hzero => ?_) fun h => absurd h.1 (by decide)
    exact (h.resolve_left (by omega)) (wrap_eq_zero.mp hzero)
  · rw [if_neg hneg, if_pos (by omega)]
    rfl

theorem one_tdiv (r : ℤ) : Int.tdiv 1 r = if r = 1 then 1 else if r = -1 then -1 else 0 := by
  split_ifs with h1 h2
  · rw [h1]; rfl
  · rw [h2]; rfl
  · obtain rfl | hpos | hneg : r = 0 ∨ 1 < r ∨ 1 < -r := by omega
    · rfl
    · exact Int.tdiv_eq_zero_of_lt (by decide) hpos
    · rw [← neg_neg r, Int.tdiv_neg, Int.tdiv_eq_zero_of_lt (by decide) hneg, neg_zero]

theorem iexpw_right {m s : ℤ} (hm : CW m = m) (hs : CW s = s) (h : Powers m s) :
    (iexpw m s).Right fun v => v = CW (Wop.iexpw.value m s) := by
  refine (iexpl_right hs h).bind fun r hr => ?_
  change CW r = _
  rw [hr, Wop.value]
  by_cases hpos : 0 ≤ s
  · rw [if_pos hpos, if_pos hpos, CW_wrap]
  · rw [if_neg hpos, if_neg hpos, CW_wrap]
    obtain ⟨hlo, -⟩ := CW_eq_self.mp hs
    have hunit : ∀ u : ℤ, u = 1 ∨ u = -1 → (wrap (m ^ s.natAbs) = u ↔ m ^ s.natAbs = u) := by
      intro u hu
      have huw : wrap u = u := by rcases hu with rfl | rfl <;> decide
      constructor
      · intro hw
        have hmod : m ^ s.natAbs ≡ u [ZMOD 2 ^ 64] := by
          have h := wrap_modEq (m ^ s.natAbs)
          rw [hw] at h
          exact h.symm
        have hbase : m = 1 ∨ m = -1 := by
          refine pow_unit (n := s.natAbs) hm (by omega) (by omega) ?_
          rcases hu with rfl | rfl
          · exact .inl hmod
          · exact .inr hmod
        have hpow : m ^ s.natAbs = 1 ∨ m ^ s.natAbs = -1 := by
          rcases hbase with rfl | rfl
          · exact .inl (one_pow _)
          · exact neg_one_pow_eq_or ℤ _
        have hself : wrap (m ^ s.natAbs) = m ^ s.natAbs := by
          rcases hpow with h | h <;> rw [h] <;> decide
        rw [← hself, hw]
      · intro hw
        rw [hw, huw]
    rw [one_tdiv, one_tdiv]
    simp only [hunit 1 (.inl rfl), hunit (-1) (.inr rfl)]

theorem Wop.right (op : Wop) {m s : ℤ} (hm : CW m = m) (hs : CW s = s) (hc : op.Counts s)
    (h : op.Spared m s) : (op.run m s).Right fun v => v = CW (op.value m s) := by
  cases op with
  | addw | subw | mulw => exact CW_wrap _
  | andw | orw | xorw => exact rfl
  | divw =>
    rw [Wop.run, Xec.divw]
    split_ifs with hzero
    · trivial
    · rw [hm, hs]
      refine (quot_right hzero fun h => CW_ne_least (hm.trans h.1)).bind fun q hq => ?_
      rw [hq]
      exact CW_wrap _
  | modw =>
    rw [Wop.run, Xec.modw]
    split_ifs with hzero
    · trivial
    · rw [hm, hs]
      refine (rem_right hzero fun h => CW_ne_least (hm.trans h.1)).bind fun q hq => ?_
      rw [hq]
      exact CW_wrap _
  | shlw =>
    have hcount : s % 64 = s := Int.emod_eq_of_lt hc.1 (by linarith [hc.2])
    change CW (wrap (m % 2 ^ 32 * 2 ^ (s % 64).toNat)) = CW (m * 2 ^ s.toNat)
    rw [CW_wrap, hcount]
    exact CW_congr ((Int.mod_modEq m (2 ^ 32)).mul_right _)
  | shrw =>
    have hcount : s % 64 = s := Int.emod_eq_of_lt hc.1 (by linarith [hc.2])
    change CW (CW m / 2 ^ (s % 64).toNat) = CW (m / 2 ^ s.toNat)
    rw [hm, hcount]
  | lsrw =>
    have hcount : s % 64 = s := Int.emod_eq_of_lt hc.1 (by linarith [hc.2])
    change CW (m % 2 ^ 32 / 2 ^ (s % 64).toNat) = CW (m % 2 ^ 32 / 2 ^ s.toNat)
    rw [hcount]
  | iexpw => exact iexpw_right hm hs h

theorem byte_byte (v : ℤ) : byte (byte v) = byte v := Int.emod_emod_of_dvd v (dvd_refl _)

theorem Bop.right (op : Bop) {m s : ℤ} (hm : byte m = m) :
    (op.run m s).Right fun v => byte v = v := by
  have hleast : m ≠ -2 ^ 63 := by
    have hpos : 0 ≤ byte m := Int.emod_nonneg m (by decide)
    omega
  cases op with
  | addb | subb | mulb | andb | orb | xorb => exact byte_byte _
  | divb =>
    rw [Bop.run, Xec.divb]
    split_ifs with hzero
    · trivial
    · exact (quot_right hzero fun h => hleast h.1).bind fun q _ => byte_byte q
  | modb =>
    rw [Bop.run, Xec.modb]
    split_ifs with hzero
    · trivial
    · exact (rem_right hzero fun h => hleast h.1).bind fun q _ => byte_byte q

theorem Bwop.right (op : Bwop) {m s : ℤ} (hs : 0 ≤ s ∧ s < 32) :
    (op.run m s).Right fun v => byte v = v := by
  cases op with
  | shlb => exact (shl_right hs).bind fun r _ => byte_byte r
  | shrb => exact (shr_right hs).bind fun r _ => byte_byte r

theorem Lop.right (op : Lop) (m s : ℤ) : (op.run m s).Right fun v => wrap v = v := by
  cases op with
  | addl | subl | mull | andl | orl | xorl => exact wrap_wrap _
  | divl =>
    rw [Lop.run, Xec.divl]
    split_ifs with hzero hminus
    · trivial
    · exact wrap_wrap _
    · exact (quot_right hzero fun h => hminus h.2).mono fun q hq => hq ▸ wrap_wrap _
  | modl =>
    rw [Lop.run, Xec.modl]
    split_ifs with hzero hminus
    · trivial
    · exact (by decide : wrap 0 = 0)
    · exact (rem_right hzero fun h => hminus h.2).mono fun q hq => hq ▸ wrap_wrap _

def Lwop.Counts : Lwop → ℤ → Prop
  | .iexpl, _ => True
  | _, s => 0 ≤ s ∧ s < 64

def Lwop.Spared : Lwop → ℤ → ℤ → Prop
  | .iexpl, m, s => Powers m s
  | _, _, _ => True

theorem Lwop.right (op : Lwop) {m s : ℤ} (hs : CW s = s) (hc : op.Counts s)
    (h : op.Spared m s) : (op.run m s).Right fun v => wrap v = v := by
  cases op with
  | shll => exact (shl_right hc).mono fun r hr => hr ▸ wrap_wrap _
  | shrl | lsrl => exact (shr_right hc).mono fun r hr => hr ▸ wrap_wrap _
  | iexpl =>
    refine (iexpl_right hs h).mono fun r hr => ?_
    rw [hr]
    split_ifs <;> exact wrap_wrap _

def scaled (r p : ℤ) : ℤ := if 0 ≤ p then r * 2 ^ p.toNat else r / 2 ^ (-p).toNat

def Scale (p : ℤ) : Prop := -64 < p ∧ p < 64

def Divides (x y : ℤ) : Prop := wrap x = x ∧ y ≠ 0 ∧ ¬(x = -2 ^ 63 ∧ y = -1)

theorem scale_right {r p : ℤ} (hp : Scale p) :
    (scale r p).Right fun v => v = wrap (scaled r p) := by
  obtain ⟨hlo, hhi⟩ := hp
  rw [scale, scaled]
  split_ifs with hpos
  · exact shl_right ⟨hpos, hhi⟩
  · have hneg : wrap (-p) = -p := wrap_eq_self.mpr (by omega)
    rw [hneg]
    exact shr_right (by omega)

theorem fixed_right {r p a : ℤ} (hp : Scale p) (hd : Divides (scaled r p) a) :
    (fixed r p a).Right fun v => v = CW ((scaled r p).tdiv a) := by
  refine (scale_right hp).bind fun q hq => ?_
  rw [hq, hd.1]
  refine (quot_right hd.2.1 hd.2.2).bind fun v hv => ?_
  rw [hv]
  exact CW_wrap _

theorem mul_fits {x y : ℤ} (hx : CW x = x) (hy : CW y = y) : wrap (x * y) = x * y := by
  have hx' : |x| ≤ 2 ^ 31 := by
    have h := CW_eq_self.mp hx
    rw [abs_le]
    omega
  have hy' : |y| ≤ 2 ^ 31 := by
    have h := CW_eq_self.mp hy
    rw [abs_le]
    omega
  have habs : |x * y| ≤ 2 ^ 31 * 2 ^ 31 := by
    rw [abs_mul]
    exact mul_le_mul hx' hy' (abs_nonneg y) (by decide)
  rw [abs_le] at habs
  exact wrap_eq_self.mpr (by omega)

def belowvalue (on : Bool) (p : ℤ) : ℤ := if on then 2 ^ (-p).toNat - 1 else 0

theorem below_right {on : Bool} {p : ℤ} (hp : Scale p) (h : on = true → p ≤ 0) :
    (below on p).Right fun w => w = belowvalue on p := by
  obtain ⟨hlo, -⟩ := hp
  rw [below, belowvalue]
  split_ifs with hon
  · have hneg : wrap (-p) = -p := wrap_eq_self.mpr (by have := h hon; omega)
    rw [hneg]
    refine (shl_right ⟨by have := h hon; omega, by omega⟩).bind fun u hu => ?_
    have hle : (2 : ℤ) ^ (-p).toNat ≤ 2 ^ 63 := pow_le_pow_right₀ (by decide) (by omega)
    have hpos : (0 : ℤ) < 2 ^ (-p).toNat := by positivity
    have hmod : wrap (1 * 2 ^ (-p).toNat) - 1 ≡ 2 ^ (-p).toNat - 1 [ZMOD 2 ^ 64] := by
      rw [one_mul]
      exact (wrap_modEq _).sub_right 1
    change wrap (u - 1) = _
    rw [hu, wrap_congr hmod]
    exact wrap_eq_self.mpr (by omega)
  · rfl

def ulp (on neg : Bool) (a : ℤ) : ℤ := if on then (if neg then -(a - 1) else a - 1) else 0

def mulbelow (x y p : ℤ) : Bool :=
  wnz p && ((!vnz p && ((0 < x && y < 0) || (x < 0 && 0 < y))) ||
    (vnz p && ((0 < x && 0 < y) || (x < 0 && y < 0))))

def cvtbelow (x p : ℤ) : Bool := wnz p && ((!vnz p && x < 0) || (vnz p && 0 < x))

def rounded (r w p v : ℤ) : ℤ := scaled (r + w) p + v

structure Rounds (on : Bool) (r p v a : ℤ) : Prop where
  scale : Scale p
  right : on = true → p ≤ 0
  sum : wrap (r + belowvalue on p) = r + belowvalue on p
  scaled : wrap (scaled (r + belowvalue on p) p) = Xec.scaled (r + belowvalue on p) p
  divides : Divides (rounded r (belowvalue on p) p v) a

theorem rounds_scale {on : Bool} {r p v a : ℤ} (h : Rounds on r p v a) {P : ℤ → Prop}
    {f : ℤ → Outcome ℤ} (hf : (f (scaled (r + belowvalue on p) p)).Right P) :
    (below on p >>= fun w => scale (wrap (r + w)) p >>= f).Right P := by
  refine (below_right h.scale h.right).bind fun w hw => ?_
  rw [hw, h.sum]
  refine (scale_right h.scale).bind fun q hq => ?_
  rwa [hq, h.scaled]

theorem rounds_right {on : Bool} {r p v a : ℤ} (h : Rounds on r p v a) :
    (below on p >>= fun w => scale (wrap (r + w)) p >>= fun r => quot (wrap (r + v)) a >>=
      fun q => pure (CW q)).Right
      fun u => u = CW ((rounded r (belowvalue on p) p v).tdiv a) := by
  refine rounds_scale h ?_
  have hnum := h.divides
  rw [show wrap (scaled (r + belowvalue on p) p + v) = _ from hnum.1]
  refine (quot_right hnum.2.1 hnum.2.2).bind fun q hq => ?_
  rw [hq]
  exact CW_wrap _

theorem ulp_eq {on neg : Bool} {a : ℤ} (ha : CW a = a) :
    (if on then (if neg then wrap (-wrap (a - 1)) else wrap (a - 1)) else 0) = ulp on neg a := by
  obtain ⟨hlo, hhi⟩ := CW_eq_self.mp ha
  have hless : wrap (a - 1) = a - 1 := wrap_eq_self.mpr (by omega)
  have hneg : wrap (-(a - 1)) = -(a - 1) := wrap_eq_self.mpr (by omega)
  rw [ulp, hless, hneg]

def Xop.value (m s dtmp stmp : ℤ) : Xop → ℤ
  | .mulx => scaled (m * s) dtmp
  | .divx => (scaled m dtmp).tdiv s
  | .cvtxx => scaled s m
  | .mulx0 => if m = 0 ∨ s = 0 then 0 else (scaled (m * s) dtmp).tdiv stmp
  | .divx0 => if m = 0 then 0 else (scaled (stmp * m) dtmp).tdiv s
  | .cvtxx0 => if s = 0 then 0 else (scaled s m).tdiv stmp
  | .mulx1 =>
    if m = 0 ∨ s = 0 then 0
    else
      (rounded (m * s) (belowvalue (mulbelow m s dtmp) (dtmp / 4)) (dtmp / 4)
        (ulp (vnz dtmp) (differ m s) stmp)).tdiv stmp
  | .divx1 =>
    if m = 0 then 0
    else
      (rounded (stmp * m) (belowvalue (wnz dtmp && m ≤ 0) (dtmp / 4)) (dtmp / 4) 0).tdiv s +
        (if vnz dtmp then (if differ m s then -1 else 1) else 0)
  | .cvtxx1 =>
    if s = 0 then 0
    else
      (rounded s (belowvalue (cvtbelow s m) (m / 4)) (m / 4) (ulp (vnz m) (s < 0) stmp)).tdiv stmp

def Xop.Spared (m s dtmp stmp : ℤ) : Xop → Prop
  | .mulx => Scale dtmp
  | .divx => Scale dtmp ∧ Divides (scaled m dtmp) s
  | .cvtxx => Scale m
  | .mulx0 => m = 0 ∨ s = 0 ∨ (Scale dtmp ∧ Divides (scaled (m * s) dtmp) stmp)
  | .divx0 => m = 0 ∨ (Scale dtmp ∧ Divides (scaled (stmp * m) dtmp) s)
  | .cvtxx0 => s = 0 ∨ (Scale m ∧ Divides (scaled s m) stmp)
  | .mulx1 => m = 0 ∨ s = 0 ∨
    Rounds (mulbelow m s dtmp) (m * s) (dtmp / 4) (ulp (vnz dtmp) (differ m s) stmp) stmp
  | .divx1 => m = 0 ∨ Rounds (wnz dtmp && m ≤ 0) (stmp * m) (dtmp / 4) 0 s
  | .cvtxx1 => s = 0 ∨ Rounds (cvtbelow s m) s (m / 4) (ulp (vnz m) (s < 0) stmp) stmp

theorem Xop.right (op : Xop) {m s dtmp stmp : ℤ} (hm : CW m = m) (hs : CW s = s)
    (hstmp : CW stmp = stmp) (h : op.Spared m s dtmp stmp) :
    (op.run m s dtmp stmp).Right fun v => v = CW (op.value m s dtmp stmp) := by
  cases op with
  | mulx =>
    rw [Xop.run, Xec.mulx, mul_fits hm hs]
    refine (scale_right h).bind fun r hr => ?_
    rw [hr]
    exact CW_wrap _
  | divx => exact fixed_right h.1 h.2
  | cvtxx =>
    refine (scale_right h).bind fun r hr => ?_
    rw [hr]
    exact CW_wrap _
  | mulx0 =>
    rw [Xop.run, Xec.mulx0, Xop.value, mul_fits hm hs]
    split_ifs with hzero
    · exact (by decide : (0 : ℤ) = CW 0)
    · obtain ⟨hp, hd⟩ : Scale dtmp ∧ Divides (scaled (m * s) dtmp) stmp := by
        rcases h with h | h | h
        · exact (hzero (.inl h)).elim
        · exact (hzero (.inr h)).elim
        · exact h
      exact fixed_right hp hd
  | divx0 =>
    rw [Xop.run, Xec.divx0, Xop.value, mul_fits hstmp hm]
    split_ifs with hzero
    · exact (by decide : (0 : ℤ) = CW 0)
    · exact fixed_right (h.resolve_left hzero).1 (h.resolve_left hzero).2
  | cvtxx0 =>
    rw [Xop.run, Xec.cvtxx0, Xop.value]
    split_ifs with hzero
    · exact (by decide : (0 : ℤ) = CW 0)
    · exact fixed_right (h.resolve_left hzero).1 (h.resolve_left hzero).2
  | mulx1 =>
    rw [Xop.run, Xec.mulx1, Xop.value, mul_fits hm hs, ulp_eq hstmp]
    split_ifs with hzero
    · exact (by decide : (0 : ℤ) = CW 0)
    · refine rounds_right ?_
      rcases h with h | h | h
      · exact (hzero (.inl h)).elim
      · exact (hzero (.inr h)).elim
      · exact h
  | divx1 =>
    rw [Xop.run, Xec.divx1, Xop.value, mul_fits hstmp hm]
    by_cases hzero : m = 0
    · rw [if_pos hzero, if_pos hzero]
      exact (by decide : (0 : ℤ) = CW 0)
    · rw [if_neg hzero, if_neg hzero]
      have hr := h.resolve_left hzero
      refine rounds_scale hr ?_
      have hnum := hr.divides
      rw [rounded, add_zero] at hnum
      rw [rounded, add_zero]
      refine (quot_right hnum.2.1 hnum.2.2).bind fun q hq => ?_
      change CW (wrap (q + _)) = _
      rw [hq, CW_wrap]
      refine CW_congr (Int.ModEq.add_right _ ?_)
      exact (wrap_modEq _).of_dvd (by decide)
  | cvtxx1 =>
    rw [Xop.run, Xec.cvtxx1, Xop.value]
    by_cases hzero : s = 0
    · rw [if_pos hzero, if_pos hzero]
      exact (by decide : (0 : ℤ) = CW 0)
    · rw [if_neg hzero, if_neg hzero]
      have hulp := @ulp_eq (vnz m) (decide (s < 0)) stmp hstmp
      simp only [decide_eq_true_eq] at hulp
      rw [hulp]
      exact rounds_right (h.resolve_left hzero)

def textroom : ℕ := Dis.sizeofHeap + (Dis.sizeofString + 16) - Dis.dataoffset

theorem dec_length {v : ℤ} (h : v.natAbs < 10 ^ 19) : (dec v).length + 1 ≤ 21 := by
  have hlen : (decimal v.natAbs).length ≤ 19 := (Limbo.decimal_length_le (by decide)).mpr h
  rw [dec]
  split_ifs
  · rw [List.length_cons]
    omega
  · omega

structure State.Canonical (σ : State) : Prop where
  w : ∀ i, CW (σ.w i) = σ.w i
  l : ∀ i, wrap (σ.l i) = σ.l i
  b : ∀ i, byte (σ.b i) = σ.b i
  sh : ∀ i, (σ.sh i).bmod (2 ^ 16) = σ.sh i
  c : ∀ i, ∀ t ∈ σ.c i, t.length < 2 ^ 31
  alen : ∀ i, σ.alen i < 2 ^ 31

def Inst.value (σ : State) : Inst → Option (ℕ × ℤ)
  | .w op s m d => some (d, op.value (σ.w m) (σ.w s))
  | .x op s m d => some (d, op.value (σ.w m) (σ.w s) (σ.w Dtmp) (σ.w Stmp))
  | .movw s d => some (d, σ.w s)
  | .cvtbw s d => some (d, σ.b s)
  | .cvtsw s d => some (d, σ.sh s)
  | .cvtlw s d => some (d, σ.l s)
  | .cvtfw v d | .cvtfx v d => some (d, v)
  | .cvtcw s d =>
    some (d, ((σ.c s).map fun t => saturate (-2 ^ 31) (2 ^ 31 - 1) (strtol t)).getD 0)
  | .lenc s d => some (d, ((σ.c s).map fun t => (t.length : ℤ)).getD 0)
  | .lena s d => some (d, σ.alen s)
  | .lenl s d => some (d, σ.llen s)
  | .indc s m d =>
    ((σ.c s).bind fun t => t[(σ.w m % 2 ^ 64).toNat]?).map fun ch => (d, (ch.toNat : ℤ))
  | _ => none

def Inst.Counts (σ : State) : Inst → Prop
  | .w op s _ _ => op.Counts (σ.w s)
  | .lw op s _ _ => op.Counts (σ.w s)
  | .bw _ s _ _ => 0 ≤ σ.w s ∧ σ.w s < 32
  | _ => True

/-- No step meets a power or a fixed-point number that the code does not guard, or the length of
a list that is no int. -/
def Inst.Spared (σ : State) : Inst → Prop
  | .w op s m _ => op.Spared (σ.w m) (σ.w s)
  | .lw op s m _ => op.Spared (σ.l m) (σ.w s)
  | .x op s m _ => op.Spared (σ.w m) (σ.w s) (σ.w Dtmp) (σ.w Stmp)
  | .lenl s _ => σ.llen s < 2 ^ 31
  | _ => True

def Inst.Inside (σ : State) : Inst → Prop
  | .cvtwc s _ => (dec (CW (σ.w s))).length + 1 ≤ textroom
  | .cvtlc s _ => (dec (σ.l s)).length + 1 ≤ textroom
  | _ => True

/-- A step keeps the slots canonical, with the mathematical result, and stays inside a text. -/
def Inst.Sound (σ : State) (i : Inst) : Prop :=
  ((step σ i).Right fun σ' =>
    σ'.Canonical ∧ ∀ d v, i.value σ = some (d, v) → σ'.w d = CW v) ∧ i.Inside σ

section
variable {σ : State}

theorem State.Canonical.setw (h : σ.Canonical) (d : ℕ) (v : ℤ) :
    (σ.setw d (CW v)).Canonical where
  w i := by
    by_cases hi : i = d
    · rw [hi]
      change CW (Function.update σ.w d (CW v) d) = Function.update σ.w d (CW v) d
      rw [Function.update_self, CW_CW]
    · change CW (Function.update σ.w d (CW v) i) = Function.update σ.w d (CW v) i
      rw [Function.update_of_ne hi, h.w]
  l := h.l
  b := h.b
  sh := h.sh
  c := h.c
  alen := h.alen

theorem State.Canonical.setl (h : σ.Canonical) (d : ℕ) {v : ℤ} (hv : wrap v = v) :
    (σ.setl d v).Canonical where
  w := h.w
  l i := by
    by_cases hi : i = d
    · rw [hi]
      change wrap (Function.update σ.l d v d) = Function.update σ.l d v d
      rw [Function.update_self, hv]
    · change wrap (Function.update σ.l d v i) = Function.update σ.l d v i
      rw [Function.update_of_ne hi, h.l]
  b := h.b
  sh := h.sh
  c := h.c
  alen := h.alen

theorem State.Canonical.setb (h : σ.Canonical) (d : ℕ) {v : ℤ} (hv : byte v = v) :
    (σ.setb d v).Canonical where
  w := h.w
  l := h.l
  b i := by
    by_cases hi : i = d
    · rw [hi]
      change byte (Function.update σ.b d v d) = Function.update σ.b d v d
      rw [Function.update_self, hv]
    · change byte (Function.update σ.b d v i) = Function.update σ.b d v i
      rw [Function.update_of_ne hi, h.b]
  sh := h.sh
  c := h.c
  alen := h.alen

theorem State.Canonical.setsh (h : σ.Canonical) (d : ℕ) {v : ℤ} (hv : v.bmod (2 ^ 16) = v) :
    (σ.setsh d v).Canonical where
  w := h.w
  l := h.l
  b := h.b
  sh i := by
    by_cases hi : i = d
    · rw [hi]
      change (Function.update σ.sh d v d).bmod (2 ^ 16) = Function.update σ.sh d v d
      rw [Function.update_self, hv]
    · change (Function.update σ.sh d v i).bmod (2 ^ 16) = Function.update σ.sh d v i
      rw [Function.update_of_ne hi, h.sh]
  c := h.c
  alen := h.alen

theorem State.Canonical.print (h : σ.Canonical) (d : ℕ) {v : ℤ} (hv : wrap v = v) :
    (σ.print d v).Canonical where
  w := h.w
  l := h.l
  b := h.b
  sh := h.sh
  c i t ht := by
    by_cases hi : i = d
    · subst hi
      obtain rfl : dec v = t := by
        simpa [State.print] using ht
      have hlen := dec_length (v := v) (by have := wrap_eq_self.mp hv; omega)
      omega
    · refine h.c i t ?_
      simpa [State.print, Function.update_of_ne hi] using ht
  alen := h.alen

theorem sound_setw (h : σ.Canonical) {i : Inst} {d : ℕ} {v v' : ℤ} (hv : v' = CW v)
    (hval : i.value σ = some (d, v)) : (σ.setw d v').Canonical ∧
      ∀ d₁ v₁, i.value σ = some (d₁, v₁) → (σ.setw d v').w d₁ = CW v₁ := by
  subst hv
  refine ⟨h.setw d v, fun d₁ v₁ h₁ => ?_⟩
  obtain ⟨rfl, rfl⟩ := Prod.mk.inj (Option.some.inj (hval.symm.trans h₁))
  exact Function.update_self ..

theorem sound_other {σ' : State} (h : σ'.Canonical) {i : Inst} (hval : i.value σ = none) :
    σ'.Canonical ∧ ∀ d v, i.value σ = some (d, v) → σ'.w d = CW v :=
  ⟨h, fun d v hv => by rw [hval] at hv; cases hv⟩

theorem byte_int {v : ℤ} (h : byte v = v) : v = CW v := by
  have hlo : 0 ≤ byte v := Int.emod_nonneg v (by decide)
  have hhi : byte v < 2 ^ 8 := Int.emod_lt_of_pos v (by decide)
  exact (CW_eq_self.mpr (by omega)).symm

theorem short_int {v : ℤ} (h : v.bmod (2 ^ 16) = v) : v = CW v := by
  have hlo : -(2 ^ 16 / 2 : ℤ) ≤ v.bmod (2 ^ 16) := Int.le_bmod (by decide)
  have hhi : v.bmod (2 ^ 16) < (2 ^ 16 + 1) / 2 := Int.bmod_lt (by decide)
  exact (CW_eq_self.mpr (by omega)).symm

theorem wide_int {v : ℤ} (h : CW v = v) : wrap v = v := by
  have hv := CW_eq_self.mp h
  exact wrap_eq_self.mpr (by omega)

theorem strtoint_eq (t : Str) : strtoint t = CW (saturate (-2 ^ 31) (2 ^ 31 - 1) (strtol t)) := by
  have hint : CW (saturate (-2 ^ 31) (2 ^ 31 - 1) (strtol t)) =
      saturate (-2 ^ 31) (2 ^ 31 - 1) (strtol t) := CW_eq_self.mpr (by rw [saturate]; omega)
  rw [hint]
  simp only [strtoint, saturate]
  omega

theorem step_sound (h : σ.Canonical) (i : Inst) (hc : i.Counts σ) (hs : i.Spared σ) :
    i.Sound σ := by
  refine ⟨?_, ?_⟩
  · cases i with
    | w op s m d =>
      refine (op.right (h.w m) (h.w s) hc hs).bind fun v hv => ?_
      exact sound_setw h hv rfl
    | x op s m d =>
      refine (op.right (h.w m) (h.w s) (h.w Stmp) hs).bind fun v hv => ?_
      exact sound_setw h hv rfl
    | l op s m d =>
      refine (op.right (σ.l m) (σ.l s)).bind fun v hv => ?_
      exact sound_other (h.setl d hv) rfl
    | lw op s m d =>
      refine (op.right (h.w s) hc hs).bind fun v hv => ?_
      exact sound_other (h.setl d hv) rfl
    | b op s m d =>
      refine (op.right (h.b m)).bind fun v hv => ?_
      exact sound_other (h.setb d hv) rfl
    | bw op s m d =>
      refine (op.right hc).bind fun v hv => ?_
      exact sound_other (h.setb d hv) rfl
    | movb s d => exact sound_other (h.setb d (h.b s)) rfl
    | movw s d => exact sound_setw h (h.w s).symm rfl
    | movl s d => exact sound_other (h.setl d (h.l s)) rfl
    | cvtbw s d => exact sound_setw h (byte_int (h.b s)) rfl
    | cvtwb s d => exact sound_other (h.setb d (byte_byte _)) rfl
    | cvtws s d => exact sound_other (h.setsh d (Int.bmod_bmod_of_dvd (dvd_refl _))) rfl
    | cvtsw s d => exact sound_setw h (short_int (h.sh s)) rfl
    | cvtwl s d => exact sound_other (h.setl d (wide_int (h.w s))) rfl
    | cvtlw s d | cvtfw v d | cvtfx v d => exact sound_setw h rfl rfl
    | cvtfl v d => exact sound_other (h.setl d (wrap_wrap v)) rfl
    | cvtcw s d =>
      refine sound_setw h ?_ rfl
      cases σ.c s with
      | none => exact (by decide : (0 : ℤ) = CW 0)
      | some t => exact strtoint_eq t
    | cvtcl s d =>
      refine sound_other (h.setl d ?_) rfl
      cases σ.c s with
      | none => exact (by decide : wrap 0 = 0)
      | some t =>
        simp only [Option.map_some, Option.getD_some, saturate]
        exact wrap_eq_self.mpr (by omega)
    | cvtwc s d => exact sound_other (h.print d (wide_int (CW_CW _))) rfl
    | cvtlc s d => exact sound_other (h.print d (h.l s)) rfl
    | lenc s d =>
      refine sound_setw h ?_ rfl
      cases hcs : σ.c s with
      | none => exact (by decide : (0 : ℤ) = CW 0)
      | some t =>
        have hlen := h.c s t hcs
        simp only [Option.map_some, Option.getD_some]
        exact (CW_eq_self.mpr (by omega)).symm
    | lena s d =>
      have hlen := h.alen s
      exact sound_setw h (CW_eq_self.mpr (by omega)).symm rfl
    | lenl s d =>
      have hlen : σ.llen s < 2 ^ 31 := hs
      exact sound_setw h (CW_eq_self.mpr (by omega)).symm rfl
    | indc s m d =>
      rw [step]
      cases hcs : σ.c s with
      | none => trivial
      | some t =>
        simp only
        cases hch : t[(σ.w m % 2 ^ 64).toNat]? with
        | none => trivial
        | some ch =>
          have hchar : ch.toNat < 0x110000 := by
            have hval := ch.valid
            change ch.val.toNat < _
            rcases hval with hval | hval <;> omega
          refine sound_setw h (CW_eq_self.mpr (by omega)).symm ?_
          rw [Inst.value, hcs, Option.bind_some, hch]
          rfl
  · cases i with
    | cvtwc s d =>
      have hcw := CW_eq_self.mp (CW_CW (σ.w s))
      exact (dec_length (by omega)).trans (by decide)
    | cvtlc s d =>
      have hwrap := wrap_eq_self.mp (h.l s)
      exact (dec_length (by omega)).trans (by decide)
    | _ => trivial

end

def Along (P : State → Inst → Prop) : State → List Inst → Prop
  | _, [] => True
  | σ, i :: rest => P σ i ∧ ∀ σ', step σ i = .ok σ' → Along P σ' rest

def zeros : State where
  w i := if i = 1 then -1 else 0
  l _ := 0
  b _ := 0
  sh _ := 0
  c _ := none
  alen _ := 0
  llen _ := 0

theorem zeros_canonical : zeros.Canonical where
  w i := by
    change CW (if i = 1 then -1 else 0) = if i = 1 then -1 else 0
    split_ifs <;> decide
  l _ := (by decide : wrap 0 = 0)
  b _ := (by decide : byte 0 = 0)
  sh _ := (by decide : (0 : ℤ).bmod (2 ^ 16) = 0)
  c _ _ ht := by cases ht
  alen _ := (by decide : 0 < 2 ^ 31)

end Infernode.Xec
