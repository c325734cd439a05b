import Infernode.Lib.BigEndian

/-!
# Recursive length prefixes

The encoding of a list of byte strings with length prefixes: a string or a list of up to 55
bytes has its length in the first byte, a longer one the length of its length, and a single
byte below 128 is itself. `decode` takes canonical encodings only, and gives back what `encode`
was given.
-/

namespace Infernode.Lib.Rlp

open BigEndian

/-- The prefix of `n` bytes, whose first byte is from `base` on. -/
def head (base n : ℕ) : List UInt8 :=
  if n ≤ 55 then [UInt8.ofNat (base + n)]
  else UInt8.ofNat (base + 55 + (tobytes n).length) :: tobytes n

def str : List UInt8 → List UInt8
  | [b] => if b.toNat < 128 then [b] else head 128 1 ++ [b]
  | s => head 128 s.length ++ s

def encode (items : List (List UInt8)) : List UInt8 :=
  head 192 (items.flatMap str).length ++ items.flatMap str

/-- The length that a prefix tells, which is the shortest for it, and what follows. -/
def readhead (base : ℕ) (b : UInt8) (bs : List UInt8) : Option (ℕ × List UInt8) :=
  if b.toNat ≤ base + 55 then some (b.toNat - base, bs)
  else
    let m := b.toNat - base - 55
    if bs.length < m ∨ bs.head? = some 0 ∨ value (bs.take m) ≤ 55 then none
    else some (value (bs.take m), bs.drop m)

def readstr : List UInt8 → Option (List UInt8 × List UInt8)
  | [] => none
  | b :: bs =>
    if b.toNat < 128 then some ([b], bs)
    else if 192 ≤ b.toNat then none
    else do
      let (n, bs) ← readhead 128 b bs
      if bs.length < n ∨ (n = 1 ∧ ∃ c ∈ bs.head?, c.toNat < 128) then none
      else some (bs.take n, bs.drop n)

def readstrs : ℕ → List UInt8 → Option (List (List UInt8))
  | _, [] => some []
  | 0, _ => none
  | n + 1, bs => do
    let (s, bs) ← readstr bs
    let ss ← readstrs n bs
    return s :: ss

def decode : List UInt8 → Option (List (List UInt8))
  | [] => none
  | b :: bs =>
    if b.toNat < 192 then none
    else do
      let (n, bs) ← readhead 192 b bs
      if bs.length ≠ n then none else readstrs bs.length bs

variable {base n : ℕ} {s rest : List UInt8} {items : List (List UInt8)}

theorem tobytes_stripped (n : ℕ) : Stripped (tobytes n) := by
  simp only [Stripped, tobytes, List.head?_map, List.head?_reverse]
  intro h
  obtain ⟨d, hd, hzero⟩ := Option.map_eq_some_iff.1 h
  have hn : n ≠ 0 := by
    rintro rfl
    simp at hd
  have hne : Nat.digits 256 n ≠ [] := Nat.digits_ne_nil_iff_ne_zero.2 hn
  rw [List.getLast?_eq_getLast_of_ne_nil hne] at hd
  obtain rfl := Option.some.inj hd
  have hlast := Nat.getLast_digit_ne_zero 256 hn
  have hlt := Nat.digits_lt_base (by norm_num : 1 < 256) (List.getLast_mem hne)
  have := congrArg UInt8.toNat hzero
  rw [UInt8.toNat_ofNat', Nat.mod_eq_of_lt hlt] at this
  exact hlast this

theorem eq_of_value {a b : List UInt8} (ha : Stripped a) (hb : Stripped b)
    (h : value a = value b) : a = b := by
  refine value_inj (le_antisymm ?_ ?_) h
  · rw [ha.length_le_iff, h, ← hb.length_le_iff]
  · rw [hb.length_le_iff, ← h, ← ha.length_le_iff]

theorem tobytes_length_le (hn : n < 256 ^ 8) : (tobytes n).length ≤ 8 := by
  rw [(tobytes_stripped n).length_le_iff, value_tobytes]
  exact hn

theorem readhead_head (hbase : base ≤ 192) (hn : n < 256 ^ 8) :
    ∃ b bs, head base n = b :: bs ∧ base ≤ b.toNat ∧ b.toNat ≤ base + 63 ∧
      readhead base b (bs ++ rest) = some (n, rest) := by
  have hbyte : ∀ k, k ≤ 63 → (UInt8.ofNat (base + k)).toNat = base + k := fun k hk => by
    rw [UInt8.toNat_ofNat', Nat.mod_eq_of_lt (by omega)]
  by_cases h : n ≤ 55
  · refine ⟨UInt8.ofNat (base + n), [], if_pos h, ?_⟩
    rw [hbyte n (by omega)]
    refine ⟨by omega, by omega, ?_⟩
    simp only [readhead, hbyte n (by omega)]
    rw [if_pos (by omega)]
    simp
  · have hlen := tobytes_length_le hn
    have hpos : 0 < (tobytes n).length := by
      by_contra h0
      have hnil : tobytes n = [] := List.length_eq_zero_iff.1 (by omega)
      have := value_tobytes n
      rw [hnil] at this
      simp at this
      omega
    refine ⟨UInt8.ofNat (base + 55 + (tobytes n).length), tobytes n, if_neg h, ?_⟩
    have hb : (UInt8.ofNat (base + 55 + (tobytes n).length)).toNat =
        base + 55 + (tobytes n).length := by
      rw [Nat.add_assoc]
      exact hbyte _ (by omega)
    rw [hb]
    refine ⟨by omega, by omega, ?_⟩
    simp only [readhead, hb]
    have hm : base + 55 + (tobytes n).length - base - 55 = (tobytes n).length := by omega
    rw [if_neg (by omega), hm, List.take_left, List.drop_left, value_tobytes, if_neg]
    rintro (h' | h' | h')
    · simp at h'
    · refine tobytes_stripped n ?_
      rwa [List.head?_append_of_ne_nil _ (List.length_pos_iff.1 hpos)] at h'
    · exact h h'

theorem str_ne_nil (s : List UInt8) : str s ≠ [] := by
  have hhead : ∀ n, head 128 n ≠ [] := fun n => by
    simp only [head]
    split_ifs <;> simp
  match s with
  | [] => simp [str, hhead]
  | [b] =>
    simp only [str]
    split_ifs <;> simp [hhead]
  | b :: c :: s => simp [str]

theorem readstr_str (hs : s.length < 256 ^ 8) : readstr (str s ++ rest) = some (s, rest) := by
  have hlong : ∀ s : List UInt8, s.length < 256 ^ 8 → (∀ b, s = [b] → 128 ≤ b.toNat) →
      readstr (head 128 s.length ++ s ++ rest) = some (s, rest) := fun s hs hone => by
    obtain ⟨b, bs, hhead, hge, hle, hread⟩ :=
      @readhead_head 128 _ (s ++ rest) (by norm_num) hs
    rw [hhead, List.append_assoc, List.cons_append, readstr, if_neg (by omega), if_neg (by omega),
      hread]
    simp only [Option.bind_eq_bind, Option.bind_some]
    rw [if_neg, List.take_left, List.drop_left]
    rintro (h | ⟨h1, c, hc, hlt⟩)
    · simp at h
    · obtain ⟨d, rfl⟩ := List.length_eq_one_iff.1 h1
      have := hone d rfl
      simp at hc
      subst hc
      omega
  match s, hs with
  | [], hs => exact hlong [] hs (by simp)
  | [b], hs =>
    by_cases hb : b.toNat < 128
    · simp [str, readstr, hb]
    · rw [str, if_neg hb]
      exact hlong [b] hs fun c hc => by
        cases hc
        omega
  | b :: c :: s, hs => exact hlong (b :: c :: s) hs (by simp)

theorem readstrs_strs (h : ∀ s ∈ items, s.length < 256 ^ 8) {n : ℕ} (hn : items.length ≤ n) :
    readstrs n (items.flatMap str) = some items := by
  induction items generalizing n with
  | nil => cases n <;> rfl
  | cons s items ih =>
    obtain ⟨m, rfl⟩ := Nat.exists_eq_add_one_of_ne_zero (Nat.ne_of_gt (lt_of_lt_of_le
      (Nat.succ_pos _) hn))
    have hs := @readstr_str s (items.flatMap str) (h s (by simp))
    obtain ⟨b, bs, hbs⟩ := List.exists_cons_of_ne_nil (str_ne_nil s)
    rw [hbs, List.cons_append] at hs
    rw [List.flatMap_cons, hbs, List.cons_append]
    simp only [readstrs, hs, Option.bind_eq_bind, Option.bind_some]
    rw [ih (fun s hs => h s (by simp [hs])) (by simpa using hn)]
    rfl

theorem length_le_flatMap (items : List (List UInt8)) :
    items.length ≤ (items.flatMap str).length := by
  induction items with
  | nil => simp
  | cons s items ih =>
    have := List.length_pos_iff.2 (str_ne_nil s)
    rw [List.flatMap_cons, List.length_append, List.length_cons]
    omega

theorem length_le_str (s : List UInt8) : s.length ≤ (str s).length := by
  match s with
  | [] => simp
  | [b] =>
    simp only [str]
    split_ifs <;> simp
  | b :: c :: s => simp [str]

/-- What is encoded is read back. -/
theorem decode_encode (h : (items.flatMap str).length < 256 ^ 8) :
    decode (encode items) = some items := by
  have hitem : ∀ s ∈ items, s.length < 256 ^ 8 := fun s hs => by
    refine lt_of_le_of_lt (length_le_str s) (lt_of_le_of_lt ?_ h)
    obtain ⟨l₁, l₂, rfl⟩ := List.append_of_mem hs
    simp only [List.flatMap_append, List.flatMap_cons, List.length_append]
    omega
  obtain ⟨b, bs, hhead, hge, -, hread⟩ :=
    @readhead_head 192 _ (items.flatMap str) (by norm_num) h
  rw [encode, hhead, List.cons_append, decode, if_neg (by omega), hread]
  simp only [Option.bind_eq_bind, Option.bind_some]
  rw [if_neg (not_not.2 rfl)]
  exact readstrs_strs hitem (length_le_flatMap items)

end Infernode.Lib.Rlp
