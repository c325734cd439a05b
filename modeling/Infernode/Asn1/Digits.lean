import Infernode.Asn1.Layout
import Infernode.Lib.BigEndian

/-!
# Numbers in bytes

A number laid in digits of seven bits, or in bytes, is read back.
-/

namespace Infernode.Asn1

open Lib

variable {a rest : List UInt8} {b k v i : ℕ}

theorem rounds_lt (hb : 2 ≤ b) (hv : v < b ^ k) : v < b ^ rounds b k v := by
  induction k generalizing v with
  | zero => exact hv
  | succ k ih =>
    rw [rounds]
    split_ifs with h0
    · rw [h0]
      exact Nat.one_pos
    · have hdiv : v / b < b ^ k := Nat.div_lt_of_lt_mul (by rwa [Nat.mul_comm, ← Nat.pow_succ])
      rw [Nat.pow_succ, Nat.mul_comm]
      exact (Nat.div_lt_iff_lt_mul (by omega)).mp (ih hdiv) |>.trans_eq (Nat.mul_comm _ _)

theorem rounds_le {m : ℕ} (hv : v < b ^ m) : rounds b k v ≤ m := by
  induction k generalizing v m with
  | zero => exact Nat.zero_le _
  | succ k ih =>
    rw [rounds]
    split_ifs with h0
    · exact Nat.zero_le _
    · cases m with
      | zero => exact absurd (Nat.lt_one_iff.mp hv) h0
      | succ m =>
        refine Nat.succ_le_succ (ih ?_)
        exact Nat.div_lt_of_lt_mul (by rwa [Nat.mul_comm, ← Nat.pow_succ])

theorem toNat_byte (x : ℤ) : ((byte x).toNat : ℤ) = x % 256 := by
  rw [byte, Limbo.toNat_ofNat_lt (by omega)]
  omega

theorem drop_cons {x : UInt8} {bs : List UInt8} (h : a.drop i = x :: bs) :
    i < a.length ∧ getb a i = x.toNat ∧ a.drop (i + 1) = bs := by
  have hi : i < a.length := by
    by_contra hle
    rw [List.drop_eq_nil_of_le (not_lt.mp hle)] at h
    exact nomatch h
  have hcons := List.drop_eq_getElem_cons hi
  rw [h] at hcons
  obtain ⟨hx, hbs⟩ := List.cons.inj hcons
  exact ⟨hi, by rw [getb, List.getD_eq_getElem _ _ hi, hx], hbs.symm⟩

theorem drop_append {bs : List UInt8} (h : a.drop i = bs ++ rest) :
    a.drop (i + bs.length) = rest ∧ i + bs.length + rest.length ≤ max i a.length := by
  constructor
  · rw [← List.drop_drop, h, List.drop_left]
  · have hlen := congrArg List.length h
    rw [List.length_drop, List.length_append] at hlen
    omega

theorem uint7loop_put {num m : ℕ} (hnum : num < 2 ^ 31)
    (h : a.drop i =
      (List.range m).reverse.map (fun k => byte (128 + (num : ℤ) / 128 ^ (k + 1) % 128)) ++
        [byte ((num : ℤ) % 128)] ++ rest) (hk : m + 1 ≤ k) :
    uint7loop a k i (num / 128 ^ (m + 1)) = (.ok, i + (m + 1), num) := by
  induction m generalizing i k with
  | zero =>
    obtain ⟨k, rfl⟩ : ∃ j, k = j + 1 := ⟨k - 1, by omega⟩
    obtain ⟨-, hget, -⟩ := drop_cons h
    have hbyte : (getb a i : ℤ) = (num : ℤ) % 128 % 256 := by rw [hget, toNat_byte]
    have hsmall : ¬ 2 ^ 24 ≤ num / 128 ^ (0 + 1) := by omega
    have hlow : ¬ 128 ≤ getb a i := by omega
    have hvalue : num / 128 ^ (0 + 1) * 128 + getb a i % 128 = num := by omega
    simp only [uint7loop, if_neg hsmall, if_neg hlow, hvalue, Nat.zero_add]
  | succ m ih =>
    obtain ⟨k, rfl⟩ : ∃ j, k = j + 1 := ⟨k - 1, by omega⟩
    rw [List.range_succ, List.reverse_append, List.reverse_singleton, List.singleton_append,
      List.map_cons, List.cons_append, List.cons_append] at h
    obtain ⟨-, hget, hrest⟩ := drop_cons h
    have hbyte : (getb a i : ℤ) = (128 + (num : ℤ) / 128 ^ (m + 1) % 128) % 256 := by
      rw [hget, toNat_byte]
    have hdigit : getb a i = 128 + num / 128 ^ (m + 1) % 128 := by
      have hcast : (num : ℤ) / 128 ^ (m + 1) = ((num / 128 ^ (m + 1) : ℕ) : ℤ) := by push_cast; rfl
      rw [hcast] at hbyte
      omega
    have hpow : num / 128 ^ (m + 1 + 1) = num / 128 ^ (m + 1) / 128 := by
      rw [Nat.pow_succ 128 (m + 1), Nat.div_div_eq_div_mul]
    have hle : num / 128 ^ (m + 1) ≤ num := Nat.div_le_self _ _
    have hsmall : ¬ 2 ^ 24 ≤ num / 128 ^ (m + 1 + 1) := by omega
    have hhigh : 128 ≤ getb a i := by omega
    have hvalue : num / 128 ^ (m + 1 + 1) * 128 + getb a i % 128 = num / 128 ^ (m + 1) := by omega
    simp only [uint7loop, if_neg hsmall, if_pos hhigh, hvalue]
    rw [ih hrest (by omega)]
    congr 2
    omega

theorem uint7_decode_put {num : ℕ} (hnum : num < 2 ^ 31) (h : a.drop i = uint7_put num ++ rest) :
    uint7_decode a i a.length = (.ok, i + uint7_len num, num) := by
  have hlen : uint7_len num = rounds 128 31 (num / 128) + 1 := by
    rw [uint7_len]
    congr 2
  have hlt : num < 128 ^ (rounds 128 31 (num / 128) + 1) := by
    have hdiv : num / 128 < 128 ^ 31 := by omega
    have hrounds := rounds_lt (by omega) hdiv
    rw [Nat.pow_succ]
    omega
  have hle : i + uint7_len num ≤ a.length := by
    have hdrop := (drop_append h).2
    have hput := uint7_put_length num
    have hpos : 0 < uint7_len num := by rw [hlen]; omega
    have hi : i < a.length := by
      by_contra hge
      rw [List.drop_eq_nil_of_le (not_lt.mp hge)] at h
      have hnil := congrArg List.length h
      rw [List.length_append] at hnil
      simp only [List.length_nil] at hnil
      omega
    omega
  rw [uint7_put, hlen, Nat.add_sub_cancel] at h
  have hloop := uint7loop_put (k := a.length - i) hnum h (by omega)
  rw [Nat.div_eq_of_lt hlt] at hloop
  rw [uint7_decode, hlen, hloop]

theorem intloop_eq {bs : List UInt8} (hbs : bs ≠ []) (acc : ℤ) :
    intloop acc bs = (acc * 256 ^ bs.length + BigEndian.value bs).bmod (2 ^ 32) := by
  induction bs generalizing acc with
  | nil => exact absurd rfl hbs
  | cons x bs ih =>
    rw [BigEndian.value_cons, List.length_cons, pow_succ]
    cases bs with
    | nil => simp [intloop]
    | cons y bs =>
      have hloop : intloop acc (x :: y :: bs) =
          intloop ((acc * 256 + x.toNat).bmod (2 ^ 32)) (y :: bs) := rfl
      rw [hloop, ih (by simp)]
      have hwrap := Int.bmod_eq_self_sub_mul_bdiv (acc * 256 + x.toNat) (2 ^ 32)
      generalize Int.bdiv (acc * 256 + x.toNat) (2 ^ 32) = q at hwrap
      have hsum : (acc * 256 + x.toNat).bmod (2 ^ 32) * 256 ^ (y :: bs).length +
            BigEndian.value (y :: bs) =
          acc * (256 ^ (y :: bs).length * 256) +
            ((x.toNat * 256 ^ (y :: bs).length + BigEndian.value (y :: bs) : ℕ) : ℤ) -
          ((2 ^ 32 : ℕ) : ℤ) * (q * 256 ^ (y :: bs).length) := by
        rw [hwrap]
        push_cast
        ring
      rw [hsum, Int.sub_mul_bmod_self_left]

theorem value_int_put (num : ℤ) (n : ℕ) :
    (BigEndian.value ((List.range n).reverse.map fun k => byte (num / 256 ^ k)) : ℤ) =
      num % 256 ^ n := by
  induction n with
  | zero => simp
  | succ n ih =>
    rw [List.range_succ, List.reverse_append, List.reverse_singleton, List.singleton_append,
      List.map_cons, BigEndian.value_cons]
    push_cast
    rw [ih, toNat_byte, List.length_map, List.length_reverse, List.length_range, pow_succ]
    rw [Int.emod_def num (256 ^ n * 256), Int.emod_def num, Int.emod_def (num / 256 ^ n),
      Int.ediv_ediv_of_nonneg (by positivity)]
    ring

theorem int_len_bounds {num : ℤ} (hlo : -2 ^ 31 ≤ num) (hhi : num < 2 ^ 31) :
    0 < int_len num false ∧ int_len num false ≤ 4 ∧
      -(128 * 256 ^ (int_len num false - 1)) ≤ num ∧
      num < 128 * 256 ^ (int_len num false - 1) := by
  obtain ⟨v, hv, hvlt⟩ : ∃ v : ℕ, (if num < 0 then -(num + 1) else num) = v ∧ v < 2 ^ 31 := by
    refine ⟨(if num < 0 then -(num + 1) else num).toNat, ?_, ?_⟩ <;> split_ifs <;> omega
  have hnum : -(v + 1 : ℤ) ≤ num ∧ num ≤ v := by
    split_ifs at hv <;> omega
  obtain ⟨m, hm⟩ : ∃ m, rounds 256 31 (v / 256) = m := ⟨_, rfl⟩
  have hlt : v / 256 < 256 ^ m := by
    rw [← hm]
    exact rounds_lt (by omega) (by omega)
  have hle : m ≤ 3 := by
    rw [← hm]
    exact rounds_le (by omega)
  have hlen : int_len num false = if 128 ≤ v / 256 ^ m then m + 2 else m + 1 := by
    simp only [int_len, hv, Int.toNat_natCast, hm, Nat.add_sub_cancel, true_and]
  rw [hlen]
  have hcases : m = 0 ∨ m = 1 ∨ m = 2 ∨ m = 3 := by omega
  rcases hcases with rfl | rfl | rfl | rfl <;> split_ifs <;> norm_num at * <;> omega

theorem int_decode_put {num : ℤ} (hlo : -2 ^ 31 ≤ num) (hhi : num < 2 ^ 31)
    (h : a.drop i = int_put num false ++ rest) :
    int_decode a i (i + int_len num false) (int_len num false) false =
      (.ok, i + int_len num false, num) := by
  obtain ⟨hpos, hle, hlow, hhigh⟩ := int_len_bounds hlo hhi
  have hput := int_put_length num false
  have htake : (a.drop i).take (int_len num false) = int_put num false := by
    rw [h, ← hput, List.take_left]
  have hne : int_put num false ≠ [] := by
    intro hnil
    rw [hnil] at hput
    simp only [List.length_nil] at hput
    omega
  have hvalue := value_int_put num (int_len num false)
  obtain ⟨m, hm⟩ : ∃ m, int_len num false = m + 1 := ⟨int_len num false - 1, by omega⟩
  have hcases : m = 0 ∨ m = 1 ∨ m = 2 ∨ m = 3 := by omega
  have htop : 128 ≤ getb a i ↔ num < 0 := by
    rw [int_put, hm, List.range_succ, List.reverse_append, List.reverse_singleton,
      List.singleton_append, List.map_cons, List.cons_append] at h
    obtain ⟨-, hget, -⟩ := drop_cons h
    have hbyte : (getb a i : ℤ) = num / 256 ^ m % 256 := by rw [hget, toNat_byte]
    rw [hm, Nat.add_sub_cancel] at hlow hhigh
    rcases hcases with rfl | rfl | rfl | rfl <;> norm_num at * <;> omega
  have hloop (s : ℤ) : intloop s (int_put num false) =
      (s * 256 ^ (m + 1) + num % 256 ^ (m + 1)).bmod (2 ^ 32) := by
    rw [intloop_eq hne, hput, ← hm, ← hvalue]
    rfl
  have hnot : ¬ (4 < int_len num false ∨ (false : Bool) = true ∧ int_len num false = 4 ∧
      128 ≤ getb a i) := by
    simp
    omega
  rw [int_decode, if_pos (by omega), if_neg hnot, htake]
  simp only [hloop, hm] at hlow hhigh ⊢
  rw [Nat.add_sub_cancel] at hlow hhigh
  congr 2
  rcases hcases with rfl | rfl | rfl | rfl <;> simp only [htop] <;> split_ifs <;>
    norm_num [Int.bmod_def] at * <;> split_ifs <;> omega

theorem int_decode_length {n : ℕ} (hn : n < 2 ^ 31)
    (h : a.drop i = int_put n true ++ rest) (hle : i + int_len n true ≤ k) :
    int_len n true ≤ 4 ∧
      int_decode a i k (int_len n true) true = (.ok, i + int_len n true, (n : ℤ)) := by
  obtain ⟨m, hm⟩ : ∃ m, rounds 256 31 (n / 256) = m := ⟨_, rfl⟩
  have hlen : int_len n true = m + 1 := by
    simp [int_len, hm, Int.not_lt.mpr (Int.natCast_nonneg n)]
  have hlt : n / 256 < 256 ^ m := by
    rw [← hm]
    exact rounds_lt (by omega) (by omega)
  have hm3 : m ≤ 3 := by
    rw [← hm]
    exact rounds_le (by omega)
  have hput := int_put_length n true
  have hne : int_put n true ≠ [] := by
    intro hnil
    rw [hnil, hlen] at hput
    exact nomatch hput
  have htake : (a.drop i).take (int_len n true) = int_put n true := by
    rw [h, ← hput, List.take_left]
  have hvalue := value_int_put n (m + 1)
  have hcases : m = 0 ∨ m = 1 ∨ m = 2 ∨ m = 3 := by omega
  have htop : m = 3 → ¬ 128 ≤ getb a i := by
    rintro rfl
    rw [int_put, hlen, List.range_succ, List.reverse_append, List.reverse_singleton,
      List.singleton_append, List.map_cons, List.cons_append] at h
    obtain ⟨-, hget, -⟩ := drop_cons h
    have hbyte : (getb a i : ℤ) = n / 256 ^ 3 % 256 := by rw [hget, toNat_byte]
    norm_num at hbyte
    omega
  have hloop : intloop 0 (int_put n true) = (n : ℤ) := by
    have hbytes : int_put n true =
        (List.range (m + 1)).reverse.map fun k => byte ((n : ℤ) / 256 ^ k) := by
      rw [int_put, hlen]
    rw [intloop_eq hne, hbytes, hvalue]
    rcases hcases with rfl | rfl | rfl | rfl <;> norm_num [Int.bmod_def] at * <;> split_ifs <;>
      omega
  have hnot : ¬ (4 < int_len n true ∨ (true : Bool) = true ∧ int_len n true = 4 ∧
      128 ≤ getb a i) := by
    rintro (hlong | ⟨-, hfour, hhigh⟩)
    · omega
    · exact htop (by omega) hhigh
  refine ⟨by omega, ?_⟩
  rw [int_decode, if_pos (by omega), if_neg hnot, htake]
  simp [hloop]

end Infernode.Asn1
