import Infernode.Web.Dialled

/-!
# Literals of IPv4 addresses

`inetaton` is what a literal of one to four parts means, each part decimal, octal or
hexadecimal. `parseipv4any` reads such a literal as it is meant, as long as no part is longer
than eleven characters and a packed value is below `2 ^ 31`.
-/

namespace Infernode.Web

open Dis (int)
open Limbo (Str lit isdigit digitval asciilower asciilowerchar)

variable {base u v n : ℕ} {s t p : Str} {c : Char}

def numeral (s : Str) : Option ℕ :=
  if (s.head?.any isdigit) = true ∧ (radix s).2 = [] then some (radix s).1 else none

def inetaton (s : Str) : Option ℕ :=
  match (s.splitOn '.').mapM numeral with
  | some [a] => if a < 2 ^ 32 then some a else none
  | some [a, b] => if a < 256 ∧ b < 2 ^ 24 then some (a * 2 ^ 24 + b) else none
  | some [a, b, c] =>
    if a < 256 ∧ b < 256 ∧ c < 2 ^ 16 then some (a * 2 ^ 24 + b * 2 ^ 16 + c) else none
  | some [a, b, c, d] =>
    if a < 256 ∧ b < 256 ∧ c < 256 ∧ d < 256 then
      some (a * 2 ^ 24 + b * 2 ^ 16 + c * 2 ^ 8 + d)
    else none
  | _ => none

theorem lowerchar_eq (c : Char) :
    asciilowerchar c = c ∧ ¬('A' ≤ c ∧ c ≤ 'Z') ∨
      ('A' ≤ c ∧ c ≤ 'Z') ∧ (asciilowerchar c).toNat = c.toNat + 32 := by
  unfold asciilowerchar
  split_ifs with h
  · refine .inr ⟨h, ?_⟩
    have hlow : 65 ≤ c.toNat := h.1
    have hhigh : c.toNat ≤ 90 := h.2
    rw [Char.toNat_ofNat, if_pos]
    · rfl
    · left
      simp
      omega
  · exact .inl ⟨rfl, h⟩

def digitcode (n : ℕ) : Option ℕ :=
  if 48 ≤ n ∧ n ≤ 57 then some (n - 48)
  else if 97 ≤ n ∧ n ≤ 122 then some (n - 97 + 10)
  else if 65 ≤ n ∧ n ≤ 90 then some (n - 65 + 10)
  else none

theorem digit_code (base : ℕ) (c : Char) :
    digit base c = (digitcode c.toNat).filter (· < base) :=
  congrArg (Option.filter _)
    (if_congr Iff.rfl rfl (if_congr Iff.rfl rfl (if_congr Iff.rfl rfl rfl)))

theorem digit_some {d : ℕ} (h : digit base c = some d) : digitcode c.toNat = some d ∧ d < base := by
  rw [digit_code] at h
  cases hn : digitcode c.toNat with
  | none => simp [hn] at h
  | some e =>
    simp only [hn, Option.filter_some, decide_eq_true_eq] at h
    split_ifs at h with he
    obtain rfl : e = d := by simpa using h
    exact ⟨rfl, he⟩

theorem digit_lower (base : ℕ) (c : Char) : digit base (asciilowerchar c) = digit base c := by
  rcases lowerchar_eq c with ⟨h, -⟩ | ⟨⟨hA, hZ⟩, h⟩
  · rw [h]
  · have hlow : 65 ≤ c.toNat := hA
    have hhigh : c.toNat ≤ 90 := hZ
    have hcode : digitcode (c.toNat + 32) = digitcode c.toNat := by
      simp only [digitcode]
      split_ifs <;> first | omega | exact congrArg some (by omega)
    rw [digit_code, digit_code, h, hcode]

theorem digits_lower (base v : ℕ) (s : Str) :
    digits base v (asciilower s) = ((digits base v s).1, asciilower (digits base v s).2) := by
  induction s generalizing v with
  | nil => rfl
  | cons c s ih =>
    simp only [asciilower, List.map_cons, digits, digit_lower]
    cases digit base c with
    | none => rfl
    | some d => exact ih _

theorem lowerchar_iff {d : Char} (hd : ¬('A' ≤ d ∧ d ≤ 'Z') ∧ ¬('a' ≤ d ∧ d ≤ 'z')) (c : Char) :
    asciilowerchar c = d ↔ c = d := by
  rcases lowerchar_eq c with ⟨h, -⟩ | ⟨hc, h⟩
  · rw [h]
  · have hlow : 65 ≤ c.toNat := hc.1
    have hhigh : c.toNat ≤ 90 := hc.2
    have hne : asciilowerchar c ≠ d := by
      rintro rfl
      exact hd.2 ⟨show 97 ≤ (asciilowerchar c).toNat by omega,
        show (asciilowerchar c).toNat ≤ 122 by omega⟩
    have hne' : c ≠ d := by
      rintro rfl
      exact hd.1 hc
    simp [hne, hne']

theorem lowerchar_x (c : Char) :
    (asciilowerchar c = 'x' ∨ asciilowerchar c = 'X') ↔ c = 'x' ∨ c = 'X' := by
  rcases lowerchar_eq c with ⟨h, -⟩ | ⟨hc, h⟩
  · rw [h]
  · have hlow : 65 ≤ c.toNat := hc.1
    have hhigh : c.toNat ≤ 90 := hc.2
    constructor
    · intro hx
      right
      rcases hx with hx | hx
      · rw [hx] at h
        have h88 : 120 = c.toNat + 32 := h
        exact Char.toNat_inj.mp (show c.toNat = 88 by omega)
      · rw [hx] at h
        have h88 : 88 = c.toNat + 32 := h
        omega
    · rintro (rfl | rfl)
      · exact absurd hhigh (by decide)
      · exact .inl (by decide)

theorem lowerchar_zero : asciilowerchar '0' = '0' := by decide

theorem radix_lower (s : Str) : radix (asciilower s) = ((radix s).1, asciilower (radix s).2) := by
  by_cases h0 : s.head? = some '0'
  · have hoctal := digits_lower 8 0 s
    obtain ⟨t, rfl⟩ : ∃ t, s = '0' :: t := by
      rcases s with - | ⟨c, t⟩
      · simp at h0
      · exact ⟨t, by simpa using h0⟩
    rcases t with - | ⟨x, - | ⟨d, t⟩⟩
    · exact hoctal
    · simp only [asciilower, List.map_cons, List.map_nil, lowerchar_zero] at hoctal ⊢
      exact hoctal
    · have hhex := digits_lower 16 0 (d :: t)
      simp only [asciilower, List.map_cons, lowerchar_zero] at hoctal hhex ⊢
      simp only [radix, lowerchar_x, digit_lower]
      split_ifs
      · exact hhex
      · exact hoctal
  · have hlow : (asciilower s).head? ≠ some '0' := by
      rcases s with - | ⟨c, s⟩
      · simp [asciilower]
      · simpa [asciilower, lowerchar_iff (d := '0') (by decide)] using h0
    rw [radix_decimal h0, radix_decimal hlow, digits_lower]

theorem isdigit_lower (c : Char) : isdigit (asciilowerchar c) = isdigit c := by
  rcases lowerchar_eq c with ⟨h, -⟩ | ⟨hc, h⟩
  · rw [h]
  · have hlow : 65 ≤ c.toNat := hc.1
    have hnot : ∀ x : Char, 57 < x.toNat → isdigit x = false := by
      intro x hx
      have hle : ¬x ≤ '9' := fun hle => absurd (show x.toNat ≤ 57 from hle) (by omega)
      simp [isdigit, hle]
    rw [hnot _ (by omega), hnot _ (by omega)]

theorem numeral_lower (s : Str) : numeral (asciilower s) = numeral s := by
  have hhead : ((asciilower s).head?.any isdigit) = s.head?.any isdigit := by
    cases s with
    | nil => rfl
    | cons c s => simp [asciilower, isdigit_lower]
  have hnil : asciilower (radix s).2 = [] ↔ (radix s).2 = [] := List.map_eq_nil_iff
  rw [numeral, numeral, hhead, radix_lower]
  simp only [hnil]

theorem splitOn_lower (s : Str) :
    (asciilower s).splitOn '.' = (s.splitOn '.').map asciilower := by
  induction s with
  | nil => rfl
  | cons c s ih =>
    have hdot := lowerchar_iff (d := '.') (by decide) c
    have hcons : asciilower (c :: s) = asciilowerchar c :: asciilower s := rfl
    rw [hcons, List.splitOn_cons_eq_if_modifyHead, List.splitOn_cons_eq_if_modifyHead, ih]
    simp only [beq_iff_eq, hdot]
    split_ifs
    · rfl
    · cases s.splitOn '.' <;> rfl

theorem inetaton_lower (s : Str) : inetaton (asciilower s) = inetaton s := by
  have hparts : ((s.splitOn '.').map asciilower).mapM numeral = (s.splitOn '.').mapM numeral := by
    generalize s.splitOn '.' = l
    induction l with
    | nil => rfl
    | cons p ps ih => simp only [List.map_cons, List.mapM_cons, numeral_lower, ih]
  rw [inetaton, inetaton, splitOn_lower, hparts]

def loopcode (base : ℤ) (n : ℕ) : ℤ :=
  if 48 ≤ n ∧ n ≤ 57 then n - 48
  else if base = 16 ∧ 97 ≤ n ∧ n ≤ 102 then n - 97 + 10
  else if base = 16 ∧ 65 ≤ n ∧ n ≤ 70 then n - 65 + 10
  else -1

theorem loopcode_eq {d : ℕ} (hb : base = 8 ∨ base = 10 ∨ base = 16) (hcode : digitcode n = some d)
    (hd : d < base) : loopcode base n = d := by
  simp only [digitcode] at hcode
  simp only [loopcode]
  split_ifs at hcode ⊢ <;> simp only [Option.some.injEq] at hcode <;> omega

theorem radixloop_cons {d : ℕ} (hb : base = 8 ∨ base = 10 ∨ base = 16)
    (h : digit base c = some d) (v : ℤ) (s : Str) :
    radixloop base v (c :: s) =
      if int (v * base + d) < 0 then none else radixloop base (int (v * base + d)) s := by
  obtain ⟨hcode, hd⟩ := digit_some h
  have hcode := loopcode_eq hb hcode hd
  have hturn : radixloop base v (c :: s) =
      if loopcode base c.toNat < 0 ∨ (base : ℤ) ≤ loopcode base c.toNat then none
      else if int (v * base + loopcode base c.toNat) < 0 then none
      else radixloop base (int (v * base + loopcode base c.toNat)) s := by
    have hcode : (if '0' ≤ c ∧ c ≤ '9' then (c.toNat : ℤ) - 48
        else if (base : ℤ) = 16 ∧ 'a' ≤ c ∧ c ≤ 'f' then (c.toNat : ℤ) - 97 + 10
        else if (base : ℤ) = 16 ∧ 'A' ≤ c ∧ c ≤ 'F' then (c.toNat : ℤ) - 65 + 10
        else -1) = loopcode base c.toNat :=
      if_congr Iff.rfl rfl (if_congr Iff.rfl rfl (if_congr Iff.rfl rfl rfl))
    rw [radixloop]
    simp only [hcode]
  rw [hturn, hcode, if_neg (by omega)]

theorem radixloop_eq (hb : base = 8 ∨ base = 10 ∨ base = 16) (h : digits base u s = (v, []))
    (hu : u < 2 ^ 31) (hv : v < 2 ^ 32) :
    radixloop base u s = if v < 2 ^ 31 then some (v : ℤ) else none := by
  induction s generalizing u with
  | nil =>
    obtain rfl : u = v := by simpa [digits] using h
    rw [if_pos hu]
    rfl
  | cons c s ih =>
    cases hd : digit base c with
    | none => simp [digits, hd] at h
    | some d =>
      replace h : digits base (u * base + d) s = (v, []) := by rwa [digits, hd] at h
      have hle : u * base + d ≤ v := by
        have := le_digits (by omega : 0 < base) (u * base + d) s
        rwa [h] at this
      rw [radixloop_cons hb hd]
      by_cases hneg : u * base + d < 2 ^ 31
      · have hint : int ((u : ℤ) * base + d) = (u * base + d : ℕ) := by
          rw [Dis.int_eq]
          · push_cast
            rfl
          · exact ⟨by omega, by exact_mod_cast hneg⟩
        rw [hint, if_neg (by omega)]
        exact ih h hneg
      · have hint : int ((u : ℤ) * base + d) < 0 := by
          have hcast : (u : ℤ) * base + d = (u * base + d : ℕ) := by push_cast; rfl
          rw [hcast]
          simp only [int, Int.bmod]
          omega
        rw [if_pos hint, if_neg (by omega)]

theorem numeral_some (h : numeral s = some v) :
    (∃ c t, s = c :: t ∧ isdigit c = true) ∧ radix s = (v, []) := by
  rw [numeral] at h
  split_ifs at h with hs
  obtain ⟨hhead, hrest⟩ := hs
  refine ⟨?_, Prod.ext (by simpa using h) hrest⟩
  rcases s with - | ⟨c, t⟩
  · simp at hhead
  · exact ⟨c, t, rfl, by simpa using hhead⟩

theorem parseradix_eq (h : numeral s = some v) (hv : v < 2 ^ 32) :
    parseradix s = if s.length ≤ 11 ∧ v < 2 ^ 31 then some (v : ℤ) else none := by
  obtain ⟨⟨c, t, rfl, hc⟩, hradix⟩ := numeral_some h
  have hloop : ∀ b r, (b = 8 ∨ b = 10 ∨ b = 16) → digits b 0 r = (v, []) →
      radixloop b 0 r = if v < 2 ^ 31 then some (v : ℤ) else none :=
    fun b r hb hr => radixloop_eq (u := 0) hb hr (by norm_num) hv
  by_cases hlen : 11 < (c :: t).length
  · unfold parseradix
    rw [if_pos (.inr hlen), if_neg (by omega)]
  · have hread : parseradix (c :: t) = if v < 2 ^ 31 then some (v : ℤ) else none := by
      unfold parseradix
      rw [if_neg (by simpa using hlen)]
      by_cases h0 : c = '0'
      · subst h0
        have hzero : ∀ r, digits 8 0 ('0' :: r) = digits 8 0 r := fun r => rfl
        rcases t with - | ⟨x, - | ⟨d, t⟩⟩
        · obtain rfl : 0 = v := congrArg Prod.fst hradix
          decide
        · exact hloop 8 [x] (by simp) hradix
        · simp only [radix] at hradix
          by_cases hx : x = 'x' ∨ x = 'X'
          · simp only [if_pos hx]
            split_ifs at hradix with hd
            · exact hloop 16 (d :: t) (by simp) hradix
            · -- an `x` is no octal digit
              have hnone : digit 8 x = none := by rcases hx with rfl | rfl <;> decide
              rw [hzero, digits, hnone] at hradix
              simp at hradix
          · rw [if_neg (by tauto), hzero] at hradix
            simp only [if_neg hx]
            exact hloop 8 (x :: d :: t) (by simp) hradix
      · rw [radix_decimal (by simpa using h0)] at hradix
        split
        · rename_i heq
          exact absurd (List.cons.inj heq).1 h0
        · rename_i heq
          exact absurd (List.cons.inj heq).1 h0
        · exact hloop 10 (c :: t) (by simp) hradix
    have hle : (c :: t).length ≤ 11 := by omega
    rw [hread]
    simp only [hle, true_and]

theorem parseradix_parts {ps : List Str} {vals : List ℕ} (h : ps.mapM numeral = some vals)
    (hvals : ∀ v ∈ vals, v < 2 ^ 32) :
    ps.mapM parseradix =
      if (∀ p ∈ ps, p.length ≤ 11) ∧ ∀ v ∈ vals, v < 2 ^ 31 then some (vals.map (↑)) else none := by
  induction ps generalizing vals with
  | nil =>
    obtain rfl : [] = vals := by simpa using h
    simp
  | cons p ps ih =>
    cases hp : numeral p with
    | none => simp [List.mapM_cons, hp] at h
    | some v =>
      cases hps : ps.mapM numeral with
      | none => simp [List.mapM_cons, hp, hps] at h
      | some vs =>
        obtain rfl : v :: vs = vals := by simpa [List.mapM_cons, hp, hps] using h
        have hrest := ih hps fun x hx => hvals x (by simp [hx])
        rw [List.mapM_cons, parseradix_eq hp (hvals v (by simp)), hrest]
        simp only [List.forall_mem_cons]
        by_cases hhead : p.length ≤ 11 ∧ v < 2 ^ 31
        · by_cases htail : (∀ p ∈ ps, p.length ≤ 11) ∧ ∀ v ∈ vs, v < 2 ^ 31
          · rw [if_pos hhead, if_pos htail, if_pos (by tauto)]
            rfl
          · rw [if_pos hhead, if_neg htail, if_neg (by tauto)]
            rfl
        · have hno : ¬((p.length ≤ 11 ∧ ∀ p ∈ ps, p.length ≤ 11) ∧
              v < 2 ^ 31 ∧ ∀ v ∈ vs, v < 2 ^ 31) := by tauto
          rw [if_neg hhead, if_neg hno]
          rfl

/-- The literals that are read: short parts, and no packed value from `2 ^ 31` on. -/
def Fits (s : Str) (v : ℕ) : Prop :=
  (∀ p ∈ s.splitOn '.', p.length ≤ 11) ∧ ((s.splitOn '.').length = 1 → v < 2 ^ 31)

theorem shift_or {a b i : ℕ} (hb : b < 2 ^ i) : a <<< i ||| b = a * 2 ^ i + b := by
  rw [← Nat.shiftLeft_add_eq_or_of_lt hb, Nat.shiftLeft_eq]

theorem absorbed_one (a : ℕ) : absorbed [(a : ℤ)] = some a := by
  have hneg : ¬(a : ℤ) < 0 := by omega
  simp [absorbed, leading, hneg]

theorem absorbed_two {a b : ℕ} (ha : a < 256) (hb : b < 2 ^ 24) :
    absorbed [(a : ℤ), (b : ℤ)] = some (a * 2 ^ 24 + b) := by
  have h0 : ¬(255 : ℤ) < a := by omega
  have h1 : ¬(b : ℤ) < 0 := by omega
  have h2 : ¬(0xffffff : ℤ) < b := by omega
  simp [absorbed, leading, h0, h1, h2, shift_or hb]

theorem absorbed_three {a b c : ℕ} (ha : a < 256) (hb : b < 256) (hc : c < 2 ^ 16) :
    absorbed [(a : ℤ), (b : ℤ), (c : ℤ)] = some (a * 2 ^ 24 + b * 2 ^ 16 + c) := by
  have h0 : ¬(255 : ℤ) < a := by omega
  have h1 : ¬(255 : ℤ) < b := by omega
  have h2 : ¬(c : ℤ) < 0 := by omega
  have h3 : ¬(0xffff : ℤ) < c := by omega
  have htail : b * 2 ^ 16 + c < 2 ^ 24 := by omega
  have hor : a <<< 24 ||| (b <<< 16 ||| c) = a * 2 ^ 24 + b * 2 ^ 16 + c := by
    rw [shift_or hc, shift_or htail, Nat.add_assoc]
  simp [absorbed, leading, h0, h1, h2, h3, Nat.or_assoc, hor]

theorem absorbed_four {a b c d : ℕ} (ha : a < 256) (hb : b < 256) (hc : c < 256) (hd : d < 256) :
    absorbed [(a : ℤ), (b : ℤ), (c : ℤ), (d : ℤ)] =
      some (a * 2 ^ 24 + b * 2 ^ 16 + c * 2 ^ 8 + d) := by
  have h0 : ¬(255 : ℤ) < a := by omega
  have h1 : ¬(255 : ℤ) < b := by omega
  have h2 : ¬(255 : ℤ) < c := by omega
  have h3 : ¬(d : ℤ) < 0 := by omega
  have h4 : ¬(0xff : ℤ) < d := by omega
  have hlow : c * 2 ^ 8 + d < 2 ^ 16 := show c * 256 + d < 65536 by omega
  have hmid : b * 2 ^ 16 + (c * 2 ^ 8 + d) < 2 ^ 24 :=
    show b * 65536 + (c * 256 + d) < 16777216 by clear hlow; omega
  have hor : a <<< 24 ||| (b <<< 16 ||| (c <<< 8 ||| d)) =
      a * 2 ^ 24 + b * 2 ^ 16 + c * 2 ^ 8 + d := by
    rw [shift_or (show d < 2 ^ 8 from hd), shift_or hlow, shift_or hmid]
    ring
  simp [absorbed, leading, h0, h1, h2, h3, h4, Nat.or_assoc, hor]

theorem inetaton_parts (h : inetaton s = some v) : ∃ vals : List ℕ,
    (s.splitOn '.').mapM numeral = some vals ∧ (∀ x ∈ vals, x < 2 ^ 32) ∧ v < 2 ^ 32 ∧
      ((∀ x ∈ vals, x < 2 ^ 31) ↔ (vals.length = 1 → v < 2 ^ 31)) ∧
      absorbed (vals.map (↑)) = some v := by
  rw [inetaton] at h
  split at h
  · rename_i a heq
    split_ifs at h with ha
    obtain rfl : a = v := by simpa using h
    exact ⟨[a], heq, by simpa using ha, ha, by simp, absorbed_one a⟩
  · rename_i a b heq
    split_ifs at h with hab
    obtain ⟨ha, hb⟩ := hab
    obtain rfl : a * 2 ^ 24 + b = v := by simpa using h
    refine ⟨[a, b], heq, by simp; omega, by omega, by simp; omega, absorbed_two ha hb⟩
  · rename_i a b c heq
    split_ifs at h with habc
    obtain ⟨ha, hb, hc⟩ := habc
    obtain rfl : a * 2 ^ 24 + b * 2 ^ 16 + c = v := by simpa using h
    exact ⟨[a, b, c], heq, by simp; omega, by omega, by simp; omega, absorbed_three ha hb hc⟩
  · rename_i a b c d heq
    split_ifs at h with habcd
    obtain ⟨ha, hb, hc, hd⟩ := habcd
    obtain rfl : a * 2 ^ 24 + b * 2 ^ 16 + c * 2 ^ 8 + d = v := by simpa using h
    exact ⟨[a, b, c, d], heq, by simp; omega, by omega, by simp; omega,
      absorbed_four ha hb hc hd⟩
  · simp at h

theorem parseipv4any_eq [Decidable (Fits s v)] (h : inetaton s = some v) :
    parseipv4any s = if Fits s v then some v else none := by
  obtain ⟨vals, hparts, hvals, -, hfits, habs⟩ := inetaton_parts h
  have hlen := (mapM_isSome hparts).1
  have hne : s ≠ [] := by
    rintro rfl
    simp [inetaton, List.splitOn_nil, numeral] at h
  have hiff : ((∀ p ∈ s.splitOn '.', p.length ≤ 11) ∧ ∀ x ∈ vals, x < 2 ^ 31) ↔ Fits s v := by
    rw [Fits, hfits, hlen]
  rw [parseipv4any, if_neg hne, parseradix_parts hparts hvals]
  by_cases hf : Fits s v
  · rw [if_pos hf, if_pos (hiff.mpr hf)]
    exact habs
  · rw [if_neg hf, if_neg (fun h => hf (hiff.mp h))]

end Infernode.Web
