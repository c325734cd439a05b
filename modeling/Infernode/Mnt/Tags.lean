import Mathlib

/-!
# Tags of 9P requests

`alloctag` and `freetag` of `devmnt.c`. A tag is a bit of `mntalloc.tagmask`, an array
of `ulong`s of 64 bits of which 32 are used: `1<<j` is an `int`, so `1<<31` sets the
upper half as well.
-/

namespace Infernode.Mnt

def TAGSHIFT : ℕ := 5
def TAGMASK : ℕ := 2 ^ TAGSHIFT - 1
def NMASK : ℕ := (64 * 1024) >>> TAGSHIFT
def NOTAG : ℕ := 0xFFFF

abbrev Tagmask := ℕ → BitVec 64

def bit (j : ℕ) : BitVec 64 := (1#32 <<< j).signExtend 64

def clearbit (j : ℕ) : BitVec 64 := (~~~(1#32 <<< j)).signExtend 64

def freebit (v : BitVec 64) : ℕ → ℕ → Option ℕ
  | 0, _ => none
  | n + 1, j => if v &&& bit j = 0 then some j else freebit v n (j + 1)

def alloctagfrom (tagmask : Tagmask) : ℕ → ℕ → ℕ × Tagmask
  | 0, _ => (NOTAG, tagmask)
  | n + 1, i =>
    let v := tagmask i
    if v = ~~~0 then alloctagfrom tagmask n (i + 1)
    else
      match freebit v (1 <<< TAGSHIFT) 0 with
      | some j => ((i <<< TAGSHIFT) + j, Function.update tagmask i (tagmask i ||| bit j))
      | none => alloctagfrom tagmask n (i + 1)

def alloctag (tagmask : Tagmask) : ℕ × Tagmask := alloctagfrom tagmask NMASK 0

def freetag (tagmask : Tagmask) (t : ℕ) : Tagmask :=
  Function.update tagmask (t >>> TAGSHIFT)
    (tagmask (t >>> TAGSHIFT) &&& clearbit (t &&& TAGMASK))

def inittags : Tagmask :=
  Function.update (Function.update (fun _ => 0) 0 1) (NMASK - 1) 0x80000000

def held (tagmask : Tagmask) (t : ℕ) : Bool := (tagmask (t / 32)).getLsbD (t % 32)

def Extends (tagmask : Tagmask) : Prop :=
  ∀ i k, 31 ≤ k → (tagmask i).getLsbD 31 = false → (tagmask i).getLsbD k = false

variable {tagmask : Tagmask} {i j k n t t' : ℕ} {v : BitVec 64}

theorem bit_get (hj : j < 32) :
    (bit j).getLsbD k = true ↔ k < 64 ∧ (k = j ∨ j = 31 ∧ 31 ≤ k) := by
  rw [bit, BitVec.getLsbD_signExtend, BitVec.msb_eq_getLsbD_last]
  simp only [BitVec.getLsbD_shiftLeft, BitVec.getLsbD_one]
  split <;> simp <;> omega

theorem clearbit_get (hk : k < 64) : (clearbit j).getLsbD k = !(bit j).getLsbD k := by
  rw [clearbit, bit, BitVec.getLsbD_signExtend, BitVec.getLsbD_signExtend,
    BitVec.msb_eq_getLsbD_last, BitVec.msb_eq_getLsbD_last]
  split <;> simp_all

theorem freebit_some (h : freebit v n j = some k) : k < j + n ∧ v &&& bit k = 0 := by
  induction n generalizing j with
  | zero => cases h
  | succ n ih =>
    rw [freebit] at h
    split at h
    case isTrue hfree =>
      cases h
      exact ⟨by omega, hfree⟩
    case isFalse =>
      obtain ⟨hlt, hfree⟩ := ih h
      exact ⟨by omega, hfree⟩

theorem freebit_none (h : freebit v n j = none) (hk : j ≤ k) (hlt : k < j + n) :
    v &&& bit k ≠ 0 := by
  induction n generalizing j with
  | zero => exact absurd hlt (not_lt.mpr hk)
  | succ n ih =>
    rw [freebit] at h
    split at h
    case isTrue => cases h
    case isFalse htaken =>
      rcases hk.eq_or_lt with rfl | hk
      · exact htaken
      · exact ih h hk (by omega)

theorem and_bit_iff (he : ∀ k, 31 ≤ k → v.getLsbD 31 = false → v.getLsbD k = false)
    (hj : j < 32) : v &&& bit j = 0 ↔ v.getLsbD j = false := by
  constructor
  · intro hzero
    have hget : (v &&& bit j).getLsbD j = false := by rw [hzero]; exact BitVec.getLsbD_zero
    have hbit : (bit j).getLsbD j = true := (bit_get hj).mpr ⟨by omega, .inl rfl⟩
    simpa [BitVec.getLsbD_and, hbit] using hget
  · intro hclear
    refine BitVec.eq_of_getLsbD_eq fun k hk => ?_
    rw [BitVec.getLsbD_and]
    cases hbit : (bit j).getLsbD k with
    | false => simp
    | true =>
      rcases (bit_get hj).mp hbit with ⟨-, rfl | ⟨rfl, hle⟩⟩
      · simp [hclear]
      · simp [he k hle hclear]

theorem or_bit_get (hj : j < 32) (hk : k < 64) :
    (v ||| bit j).getLsbD k = true ↔ v.getLsbD k = true ∨ k = j ∨ j = 31 ∧ 31 ≤ k := by
  rw [BitVec.getLsbD_or, Bool.or_eq_true, bit_get hj]
  simp [hk]

theorem and_clearbit_get (hj : j < 32) (hk : k < 64) :
    (v &&& clearbit j).getLsbD k = true ↔
      v.getLsbD k = true ∧ ¬(k = j ∨ j = 31 ∧ 31 ≤ k) := by
  rw [BitVec.getLsbD_and, Bool.and_eq_true, clearbit_get hk, Bool.not_eq_true',
    ← Bool.not_eq_true, bit_get hj]
  simp [hk]

theorem shift_eq (t : ℕ) : t >>> TAGSHIFT = t / 32 ∧ t &&& TAGMASK = t % 32 :=
  ⟨Nat.shiftRight_eq_div_pow t 5, Nat.and_two_pow_sub_one_eq_mod t 5⟩

theorem freebit_tag (he : Extends tagmask) (h : freebit (tagmask i) (1 <<< TAGSHIFT) 0 = some j) :
    j < 32 ∧ (i <<< TAGSHIFT) + j = 32 * i + j ∧ held tagmask (32 * i + j) = false := by
  obtain ⟨hlt, hfree⟩ := freebit_some h
  have hlt32 : j < 32 := by simpa [TAGSHIFT] using hlt
  refine ⟨hlt32, ?_, ?_⟩
  · rw [Nat.shiftLeft_eq]
    simp only [TAGSHIFT]
    omega
  · have hdiv : (32 * i + j) / 32 = i := by omega
    have hmod : (32 * i + j) % 32 = j := by omega
    rw [held, hdiv, hmod]
    exact (and_bit_iff (he i) hlt32).mp hfree

theorem alloctagfrom_some (he : Extends tagmask) (hi : i + n = NMASK)
    (h : (alloctagfrom tagmask n i).1 = t) (ht : t ≠ NOTAG) :
    held tagmask t = false ∧ t < 65536 ∧
      (alloctagfrom tagmask n i).2 = Function.update tagmask (t / 32)
        (tagmask (t / 32) ||| bit (t % 32)) := by
  induction n generalizing i with
  | zero => exact absurd h.symm ht
  | succ n ih =>
    by_cases hfull : tagmask i = ~~~0
    · simp only [alloctagfrom, if_pos hfull] at h ⊢
      exact ih (by omega) h
    · cases hj : freebit (tagmask i) (1 <<< TAGSHIFT) 0 with
      | none =>
        simp only [alloctagfrom, if_neg hfull, hj] at h ⊢
        exact ih (by omega) h
      | some j =>
        simp only [alloctagfrom, if_neg hfull, hj] at h ⊢
        obtain ⟨hlt, heq, hfree⟩ := freebit_tag he hj
        rw [heq] at h
        subst h
        have hdiv : (32 * i + j) / 32 = i := by omega
        have hmod : (32 * i + j) % 32 = j := by omega
        rw [hdiv, hmod]
        have hmask : NMASK = 2048 := rfl
        exact ⟨hfree, by omega, rfl⟩

theorem alloctagfrom_none (he : Extends tagmask) (hnotag : held tagmask NOTAG = true)
    (h : (alloctagfrom tagmask n i).1 = NOTAG) :
    (alloctagfrom tagmask n i).2 = tagmask ∧
      ∀ t, 32 * i ≤ t → t < 32 * (i + n) → held tagmask t = true := by
  induction n generalizing i with
  | zero => exact ⟨rfl, fun t hge hlt => by omega⟩
  | succ n ih =>
    have hword : (∀ k < 32, (tagmask i).getLsbD k = true) →
        (∀ t, 32 * (i + 1) ≤ t → t < 32 * (i + 1 + n) → held tagmask t = true) →
        ∀ t, 32 * i ≤ t → t < 32 * (i + (n + 1)) → held tagmask t = true := by
      intro hbits hrest t hge hlt
      rcases lt_or_ge t (32 * (i + 1)) with hin | hafter
      · rw [held, show t / 32 = i by omega]
        exact hbits _ (Nat.mod_lt t (by norm_num))
      · exact hrest t hafter (by omega)
    by_cases hfull : tagmask i = ~~~0
    · simp only [alloctagfrom, if_pos hfull] at h ⊢
      obtain ⟨heq, hrest⟩ := ih h
      refine ⟨heq, hword (fun k hk => ?_) hrest⟩
      rw [hfull, BitVec.getLsbD_not]
      exact Bool.and_eq_true_iff.mpr ⟨decide_eq_true (by omega), by simp⟩
    · cases hj : freebit (tagmask i) (1 <<< TAGSHIFT) 0 with
      | none =>
        simp only [alloctagfrom, if_neg hfull, hj] at h ⊢
        obtain ⟨heq, hrest⟩ := ih h
        refine ⟨heq, hword (fun k hk => ?_) hrest⟩
        have htaken := freebit_none hj (Nat.zero_le k) (by simpa [TAGSHIFT] using hk)
        rwa [ne_eq, and_bit_iff (he i) hk, Bool.not_eq_false] at htaken
      | some j =>
        simp only [alloctagfrom, if_neg hfull, hj] at h
        obtain ⟨hlt, heq, hfree⟩ := freebit_tag he hj
        rw [← heq, h, hnotag] at hfree
        cases hfree

theorem alloctag_some (he : Extends tagmask) (ht : (alloctag tagmask).1 ≠ NOTAG) :
    held tagmask (alloctag tagmask).1 = false ∧ (alloctag tagmask).1 < 65536 ∧
      (alloctag tagmask).2 = Function.update tagmask ((alloctag tagmask).1 / 32)
        (tagmask ((alloctag tagmask).1 / 32) ||| bit ((alloctag tagmask).1 % 32)) :=
  alloctagfrom_some he (Nat.zero_add NMASK) rfl ht

theorem alloctag_none (he : Extends tagmask) (hnotag : held tagmask NOTAG = true)
    (h : (alloctag tagmask).1 = NOTAG) :
    (alloctag tagmask).2 = tagmask ∧ ∀ t < 65536, held tagmask t = true := by
  obtain ⟨hsame, hall⟩ := alloctagfrom_none he hnotag h
  exact ⟨hsame, fun t ht => hall t (by omega) (lt_of_lt_of_eq ht (by decide))⟩

theorem held_set (tagmask : Tagmask) (t' : ℕ) (ht : t < 65536) :
    held (Function.update tagmask (t / 32) (tagmask (t / 32) ||| bit (t % 32))) t' = true ↔
      held tagmask t' = true ∨ t' = t := by
  unfold held
  rcases eq_or_ne (t' / 32) (t / 32) with heq | hne
  · rw [heq, Function.update_self, or_bit_get (Nat.mod_lt t (by norm_num)) (by omega)]
    refine or_congr_right ?_
    omega
  · rw [Function.update_of_ne hne]
    refine (or_iff_left ?_).symm
    rintro rfl
    exact hne rfl

theorem held_freetag (tagmask : Tagmask) (t t' : ℕ) :
    held (freetag tagmask t) t' = true ↔ held tagmask t' = true ∧ t' ≠ t := by
  unfold held freetag
  rw [(shift_eq t).1, (shift_eq t).2]
  rcases eq_or_ne (t' / 32) (t / 32) with heq | hne
  · rw [heq, Function.update_self, and_clearbit_get (Nat.mod_lt t (by norm_num)) (by omega)]
    refine and_congr_right fun _ => ?_
    omega
  · rw [Function.update_of_ne hne]
    refine (and_iff_left ?_).symm
    rintro rfl
    exact hne rfl

theorem Extends.set (he : Extends tagmask) :
    Extends (Function.update tagmask (t / 32) (tagmask (t / 32) ||| bit (t % 32))) := by
  intro i k hk hclear
  rcases eq_or_ne i (t / 32) with rfl | hne
  · rw [Function.update_self] at hclear ⊢
    rcases lt_or_ge k 64 with hlt | hge
    · rw [← Bool.not_eq_true, or_bit_get (Nat.mod_lt t (by norm_num)) (by norm_num)] at hclear
      rw [← Bool.not_eq_true, or_bit_get (Nat.mod_lt t (by norm_num)) hlt]
      rw [not_or, Bool.not_eq_true] at hclear
      have hk' := he _ k hk hclear.1
      simp only [hk', Bool.false_eq_true, false_or]
      omega
    · exact BitVec.getLsbD_of_ge _ _ hge
  · rw [Function.update_of_ne hne] at hclear ⊢
    exact he i k hk hclear

theorem Extends.freetag (he : Extends tagmask) : Extends (freetag tagmask t) := by
  intro i k hk hclear
  unfold Mnt.freetag at hclear ⊢
  rw [(shift_eq t).1, (shift_eq t).2] at hclear ⊢
  rcases eq_or_ne i (t / 32) with rfl | hne
  · rw [Function.update_self] at hclear ⊢
    rcases lt_or_ge k 64 with hlt | hge
    · rw [← Bool.not_eq_true, and_clearbit_get (Nat.mod_lt t (by norm_num)) (by norm_num),
        not_and_or, Bool.not_eq_true] at hclear
      rw [← Bool.not_eq_true, and_clearbit_get (Nat.mod_lt t (by norm_num)) hlt, not_and_or,
        Bool.not_eq_true]
      rcases hclear with hclear | hbit
      · exact .inl (he _ k hk hclear)
      · exact .inr (by omega)
    · exact BitVec.getLsbD_of_ge _ _ hge
  · rw [Function.update_of_ne hne] at hclear ⊢
    exact he i k hk hclear

end Infernode.Mnt
