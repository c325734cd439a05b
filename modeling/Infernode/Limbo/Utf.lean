import Infernode.Dis.Text
import Infernode.Limbo.Str

/-!
# Bytes of a string

`bytes` is `array of byte s` and `string` is `string b`: the characters that
`chartorune` finds in the bytes, with the error character for what is no character,
and without an incomplete one at the end. A string comes back from its bytes.
-/

namespace Infernode.Limbo

open Dis

def bytes (s : Str) : List UInt8 :=
  s.flatMap String.utf8EncodeChar

def string (b : List UInt8) : Str :=
  (readrunes (countrunes b.length b) b).map Char.ofNat

@[simp] theorem bytes_nil : bytes [] = [] := rfl

@[simp] theorem bytes_append (s t : Str) : bytes (s ++ t) = bytes s ++ bytes t := by
  simp [bytes]

theorem bytes_cons (c : Char) (s : Str) : bytes (c :: s) = String.utf8EncodeChar c ++ bytes s := by
  simp [bytes]

theorem toNat_ofNat_lt {n : ℕ} (hn : n < 256) : (UInt8.ofNat n).toNat = n := by
  rw [UInt8.toNat_ofNat']
  exact Nat.mod_eq_of_lt hn

theorem xor_Tx {x : ℕ} (hx : x < 64) : (x + 0x80) ^^^ Tx = x := by
  revert x
  decide

theorem and_Testx {x : ℕ} (hx : x < 64) : x &&& Testx = 0 := by
  revert x
  decide

theorem shift_or {l x : ℕ} (hx : x < 64) : l <<< Bitx ||| x = l * 64 + x := by
  have hshift := Nat.shiftLeft_add_eq_or_of_lt (b := x) (i := 6) (by simpa using hx) l
  rw [show Bitx = 6 from rfl, ← hshift, Nat.shiftLeft_eq]

theorem chartoruneloop_next {str : List UInt8} {c0 fuel i l x : ℕ}
    (hb : (str.getD i 0).toNat = x + 0x80) (hx : x < 64) (hc : ¬ c0 < T (i + 2)) :
    chartoruneloop str c0 (fuel + 1) i l = chartoruneloop str c0 fuel (i + 1) (l * 64 + x) := by
  simp only [chartoruneloop, hb, xor_Tx hx, and_Testx hx, shift_or hx, if_neg hc]
  simp

theorem chartoruneloop_last {str : List UInt8} {c0 fuel i l x v k : ℕ}
    (hb : (str.getD i 0).toNat = x + 0x80) (hx : x < 64) (hc : c0 < T (i + 2))
    (hk : RuneX (i + 1) = 2 ^ k - 1) (hv : (l * 64 + x) % 2 ^ k = v)
    (h1 : i = 1 → ¬ (c0 < T 2 ∨ v ≤ Rune1)) (h2 : i ≠ 1 → ¬ (v ≤ RuneX i ∨ v > Runemax))
    (h3 : ¬ (SurrogateMin ≤ v ∧ v ≤ SurrogateMax)) :
    chartoruneloop str c0 (fuel + 1) i l = (v, i + 1) := by
  have hmask : (l * 64 + x) &&& RuneX (i + 1) = v := by
    rw [hk, Nat.and_two_pow_sub_one_eq_mod, hv]
  simp only [chartoruneloop, hb, xor_Tx hx, and_Testx hx, shift_or hx, if_pos hc, hmask]
  by_cases hi : i = 1
  · simp [hi, h1 hi]
  · simp [hi, h2 hi, h3]

theorem chartorune_encode (c : Char) (rest : List UInt8) :
    chartorune (String.utf8EncodeChar c ++ rest) =
      (c.toNat, (String.utf8EncodeChar c).length) := by
  have hc : c.val.toNat = c.toNat := rfl
  have hvalid : c.toNat < 0xD800 ∨ 0xDFFF < c.toNat ∧ c.toNat < 0x110000 := c.valid
  have hTx : Tx = 0x80 := by decide
  have hT : T 2 = 0xC0 ∧ T 3 = 0xE0 ∧ T 4 = 0xF0 ∧ T 5 = 0xF8 := by decide
  have hR : Rune1 = 0x7f ∧ RuneX 2 = 0x7ff ∧ RuneX 3 = 0xffff ∧ Runemax = 0x10ffff := by decide
  have hS : SurrogateMin = 0xD800 ∧ SurrogateMax = 0xDFFF := by decide
  obtain ⟨hT2, hT3, hT4, hT5⟩ := hT
  obtain ⟨hR1, hR2, hR3, hRmax⟩ := hR
  have hmod : ∀ n, (UInt8.ofNat (n % 64 + 0x80)).toNat = n % 64 + 0x80 :=
    fun n => toNat_ofNat_lt (by omega)
  simp only [String.utf8EncodeChar, hc]
  generalize c.toNat = v at *
  split_ifs with h1 h2 h3
  · have hb : (UInt8.ofNat v).toNat = v := toNat_ofNat_lt (by omega)
    simp [chartorune, hb, hTx, show v < 0x80 by omega]
  · have hb : (UInt8.ofNat (v / 64 % 32 + 0xc0)).toNat = v / 64 % 32 + 0xc0 :=
      toNat_ofNat_lt (by omega)
    simp only [chartorune, List.cons_append, List.getD_cons_zero, hb, hTx]
    rw [if_neg (by omega)]
    exact chartoruneloop_last (x := v % 64) (k := 11) (hmod v) (by omega)
      (by change _ < T 3; omega) (by decide) (by omega) (by omega) (by simp) (by omega)
  · have hb : (UInt8.ofNat (v / 4096 % 16 + 0xe0)).toNat = v / 4096 % 16 + 0xe0 :=
      toNat_ofNat_lt (by omega)
    simp only [chartorune, List.cons_append, List.getD_cons_zero, hb, hTx]
    rw [if_neg (by omega)]
    refine Eq.trans (chartoruneloop_next (x := v / 64 % 64) ?_ (by omega) ?_) ?_
    · exact hmod _
    · change ¬ _ < T 3
      omega
    refine chartoruneloop_last (x := v % 64) (k := 16) (hmod v) (by omega)
      (by change _ < T 4; omega) (by decide) (by omega) (by simp) ?_ (by omega)
    intro _
    change ¬ (v ≤ RuneX 2 ∨ v > Runemax)
    omega
  · have hb : (UInt8.ofNat (v / 262144 % 8 + 0xf0)).toNat = v / 262144 % 8 + 0xf0 :=
      toNat_ofNat_lt (by omega)
    simp only [chartorune, List.cons_append, List.getD_cons_zero, hb, hTx]
    rw [if_neg (by omega)]
    refine Eq.trans (chartoruneloop_next (x := v / 4096 % 64) ?_ (by omega) ?_) ?_
    · exact hmod _
    · change ¬ _ < T 3
      omega
    refine Eq.trans (chartoruneloop_next (x := v / 64 % 64) ?_ (by omega) ?_) ?_
    · exact hmod _
    · change ¬ _ < T 4
      omega
    refine chartoruneloop_last (x := v % 64) (k := 21) (hmod v) (by omega)
      (by change _ < T 5; omega) (by decide) (by omega) (by simp) ?_ (by omega)
    intro _
    change ¬ (v ≤ RuneX 3 ∨ v > Runemax)
    omega

theorem encode_length_pos (c : Char) : 0 < (String.utf8EncodeChar c).length :=
  List.length_pos_of_ne_nil String.utf8EncodeChar_ne_nil

theorem fullrune_encode (c : Char) (rest : List UInt8) :
    UTFmax ≤ (String.utf8EncodeChar c ++ rest).length ∨
      fullrune (String.utf8EncodeChar c ++ rest) = true := by
  have hc : c.val.toNat = c.toNat := rfl
  have hT : T 3 = 0xE0 ∧ T 4 = 0xF0 ∧ UTFmax = 4 ∧ Tx = 0x80 := by decide
  simp only [String.utf8EncodeChar, hc]
  generalize c.toNat = v at *
  split_ifs with h1 h2 h3
  · have hb : (UInt8.ofNat v).toNat = v := toNat_ofNat_lt (by omega)
    refine .inr ?_
    simp only [fullrune, List.cons_append, hb, hT]
    rw [if_pos (by omega)]
  · have hb : (UInt8.ofNat (v / 64 % 32 + 0xc0)).toNat = v / 64 % 32 + 0xc0 :=
      toNat_ofNat_lt (by omega)
    refine .inr ?_
    simp only [fullrune, List.cons_append, hb, hT]
    rw [if_neg (by omega), if_pos (by omega)]
    simp
  · have hb : (UInt8.ofNat (v / 4096 % 16 + 0xe0)).toNat = v / 4096 % 16 + 0xe0 :=
      toNat_ofNat_lt (by omega)
    refine .inr ?_
    simp only [fullrune, List.cons_append, hb, hT]
    rw [if_neg (by omega), if_neg (by omega), if_pos (by omega)]
    simp
  · simp [hT.2.2.1]

theorem encode_ascii {c : Char} {b : UInt8} {bs : List UInt8}
    (hbs : String.utf8EncodeChar c = b :: bs) (hb : b.toNat < Runeself) : bs = [] := by
  have hrune := chartorune_encode c []
  rw [List.append_nil, hbs] at hrune
  have hTx : b.toNat < Tx := by
    rwa [show Tx = Runeself by decide]
  have hlen := congrArg Prod.snd hrune
  simp only [chartorune, List.getD_cons_zero] at hlen
  rw [if_pos hTx] at hlen
  simpa using hlen

theorem countrunes_cons (c : Char) (rest : List UInt8) (fuel : ℕ) :
    countrunes (fuel + 1) (String.utf8EncodeChar c ++ rest) = countrunes fuel rest + 1 := by
  have hrune := chartorune_encode c rest
  have hfull := fullrune_encode c rest
  obtain ⟨b, bs, hbs⟩ := List.exists_cons_of_ne_nil (String.utf8EncodeChar_ne_nil (c := c))
  by_cases hb : b.toNat < Runeself
  · rw [hbs, encode_ascii hbs hb, List.singleton_append, countrunes, if_pos hb]
  · rw [hbs, List.cons_append] at hrune hfull
    rw [hbs, List.cons_append, countrunes, if_neg hb, if_pos hfull, hrune]
    simp

theorem countrunes_bytes (s : Str) (fuel : ℕ) (hf : s.length ≤ fuel) :
    countrunes fuel (bytes s) = s.length := by
  induction s generalizing fuel with
  | nil => cases fuel <;> rfl
  | cons c s ih =>
    cases fuel with
    | zero => simp at hf
    | succ fuel =>
      rw [bytes_cons, countrunes_cons, ih fuel (by simpa using hf), List.length_cons]

theorem readrunes_bytes (s : Str) (rest : List UInt8) :
    readrunes s.length (bytes s ++ rest) = s.map Char.toNat := by
  induction s with
  | nil => rfl
  | cons c s ih =>
    rw [bytes_cons, List.append_assoc, List.length_cons, readrunes, chartorune_encode,
      List.drop_left, ih, List.map_cons]

theorem bytes_length_le (s : Str) : s.length ≤ (bytes s).length := by
  induction s with
  | nil => simp
  | cons c s ih =>
    have hpos := encode_length_pos c
    rw [bytes_cons, List.length_append, List.length_cons]
    omega

@[simp] theorem string_bytes (s : Str) : string (bytes s) = s := by
  have hread := readrunes_bytes s []
  rw [List.append_nil] at hread
  rw [string, countrunes_bytes s _ (bytes_length_le s), hread, List.map_map]
  simp [Function.comp_def]

theorem bytes_injective : Function.Injective bytes :=
  Function.LeftInverse.injective string_bytes

theorem encode_cut {c : Char} {k : ℕ} (hk : 0 < k) (hlt : k < (String.utf8EncodeChar c).length) :
    ∃ b bs, (String.utf8EncodeChar c).take k = b :: bs ∧ ¬ b.toNat < Runeself ∧
      ¬ (UTFmax ≤ (b :: bs).length ∨ fullrune (b :: bs) = true) := by
  have hc : c.val.toNat = c.toNat := rfl
  have hT : T 3 = 0xE0 ∧ T 4 = 0xF0 ∧ UTFmax = 4 ∧ Tx = 0x80 ∧ Runeself = 0x80 := by decide
  obtain ⟨k, rfl⟩ := Nat.exists_eq_succ_of_ne_zero hk.ne'
  simp only [String.utf8EncodeChar, hc] at hlt ⊢
  generalize c.toNat = v at *
  split_ifs at hlt ⊢ with h1 h2 h3
  · simp at hlt
  · have hb : (UInt8.ofNat (v / 64 % 32 + 0xc0)).toNat = v / 64 % 32 + 0xc0 :=
      toNat_ofNat_lt (by omega)
    simp only [List.length_cons, List.length_nil] at hlt
    refine ⟨_, _, List.take_succ_cons, by rw [hb, hT.2.2.2.2]; omega, ?_⟩
    simp only [fullrune, hb, hT]
    rw [if_neg (by omega), if_pos (by omega)]
    simp
    omega
  · have hb : (UInt8.ofNat (v / 4096 % 16 + 0xe0)).toNat = v / 4096 % 16 + 0xe0 :=
      toNat_ofNat_lt (by omega)
    simp only [List.length_cons, List.length_nil] at hlt
    refine ⟨_, _, List.take_succ_cons, by rw [hb, hT.2.2.2.2]; omega, ?_⟩
    simp only [fullrune, hb, hT]
    rw [if_neg (by omega), if_neg (by omega), if_pos (by omega)]
    simp
    omega
  · have hb : (UInt8.ofNat (v / 262144 % 8 + 0xf0)).toNat = v / 262144 % 8 + 0xf0 :=
      toNat_ofNat_lt (by omega)
    simp only [List.length_cons, List.length_nil] at hlt
    refine ⟨_, _, List.take_succ_cons, by rw [hb, hT.2.2.2.2]; omega, ?_⟩
    simp only [fullrune, hb, hT]
    rw [if_neg (by omega), if_neg (by omega), if_neg (by omega)]
    simp
    omega

theorem runes_take (s : Str) (k fuel : ℕ) (hf : k ≤ fuel) :
    ∃ j, (readrunes (countrunes fuel ((bytes s).take k)) ((bytes s).take k)).map Char.ofNat =
      s.take j := by
  induction s generalizing k fuel with
  | nil => exact ⟨0, by cases fuel <;> simp [countrunes, readrunes]⟩
  | cons c s ih =>
    by_cases hlt : k < (String.utf8EncodeChar c).length
    · refine ⟨0, ?_⟩
      rw [bytes_cons, List.take_append_of_le_length hlt.le]
      by_cases hk : k = 0
      · cases fuel <;> simp [hk, countrunes, readrunes]
      · obtain ⟨b, bs, hbs, hself, hfull⟩ := encode_cut (Nat.pos_of_ne_zero hk) hlt
        obtain ⟨fuel, rfl⟩ := Nat.exists_eq_succ_of_ne_zero (by omega : fuel ≠ 0)
        rw [hbs, countrunes, if_neg hself, if_neg hfull]
        simp [readrunes]
    · have hpos := encode_length_pos c
      obtain ⟨fuel, rfl⟩ := Nat.exists_eq_succ_of_ne_zero (by omega : fuel ≠ 0)
      obtain ⟨j, hj⟩ := ih (k - (String.utf8EncodeChar c).length) fuel (by omega)
      refine ⟨j + 1, ?_⟩
      rw [bytes_cons, List.take_append, List.take_of_length_le (by omega), countrunes_cons,
        readrunes, chartorune_encode, List.drop_left, List.map_cons, hj]
      simp

theorem string_take (s : Str) (k : ℕ) : string ((bytes s).take k) <+: s := by
  by_cases hk : k ≤ (bytes s).length
  · obtain ⟨j, hj⟩ := runes_take s k ((bytes s).take k).length (by simp [hk])
    rw [string, hj]
    exact List.take_prefix j s
  · rw [List.take_of_length_le (by omega), string_bytes]

end Infernode.Limbo
