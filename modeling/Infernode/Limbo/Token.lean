import Infernode.Limbo.Str

/-!
# Decimal strings

`decimal` is what Limbo's `string n` writes for a number that is not negative,
and `strint` the strict parse of the servers: digits only, at most nine of
them, so that the value fits an `int`.
-/

namespace Infernode.Limbo

def isdigit (c : Char) : Bool := '0' ≤ c && c ≤ '9'

def digitval (c : Char) : ℕ := c.toNat - '0'.toNat

def decvalue (s : Str) : ℕ := s.foldl (fun v c => v * 10 + digitval c) 0

def decimal (n : ℕ) : Str :=
  if n = 0 then ['0'] else (Nat.digits 10 n).reverse.map Nat.digitChar

def strint (s : Str) : Option ℕ :=
  if s = [] ∨ 9 < s.length then none
  else if s.all isdigit then some (decvalue s) else none

theorem digitChar_digit {d : ℕ} (h : d < 10) :
    isdigit d.digitChar = true ∧ digitval d.digitChar = d := by
  interval_cases d <;> decide

theorem decvalue_append (s : Str) (c : Char) :
    decvalue (s ++ [c]) = decvalue s * 10 + digitval c := by
  simp [decvalue]

theorem decvalue_digits (l : List ℕ) (h : ∀ d ∈ l, d < 10) :
    decvalue (l.reverse.map Nat.digitChar) = Nat.ofDigits 10 l := by
  induction l with
  | nil => rfl
  | cons d l ih =>
    have hd := (digitChar_digit (h d (by simp))).2
    rw [List.reverse_cons, List.map_append, List.map_singleton, decvalue_append,
      ih fun x hx => h x (by simp [hx]), hd, Nat.ofDigits_cons]
    ring

theorem decvalue_decimal (n : ℕ) : decvalue (decimal n) = n := by
  by_cases hn : n = 0
  · subst hn; decide
  · rw [decimal, if_neg hn, decvalue_digits _ fun d hd => Nat.digits_lt_base (by norm_num) hd,
      Nat.ofDigits_digits]

theorem decimal_isdigit (n : ℕ) : (decimal n).all isdigit = true := by
  by_cases hn : n = 0
  · subst hn; decide
  · rw [decimal, if_neg hn, List.all_map, List.all_eq_true]
    intro d hd
    rw [List.mem_reverse] at hd
    exact (digitChar_digit (Nat.digits_lt_base (by norm_num) hd)).1

theorem decimal_ne_nil (n : ℕ) : decimal n ≠ [] := by
  by_cases hn : n = 0
  · simp [decimal, hn]
  · simp [decimal, hn, Nat.digits_ne_nil_iff_ne_zero]

theorem decimal_length_le {n k : ℕ} (hk : k ≠ 0) :
    (decimal n).length ≤ k ↔ n < 10 ^ k := by
  by_cases hn : n = 0
  · subst hn
    simp [decimal]
    omega
  · rw [decimal, if_neg hn, List.length_map, List.length_reverse]
    exact Nat.digits_length_le_iff (by norm_num) n

theorem strint_value {s : Str} {n : ℕ} (h : strint s = some n) : decvalue s = n := by
  simp only [strint] at h
  split_ifs at h
  exact Option.some.inj h

theorem strint_decimal {n : ℕ} (h : n < 10 ^ 9) : strint (decimal n) = some n := by
  have hlen : ¬(decimal n = [] ∨ 9 < (decimal n).length) := by
    rintro (h0 | h9)
    · exact decimal_ne_nil n h0
    · exact absurd ((decimal_length_le (by norm_num)).mpr h) (not_le.mpr h9)
  rw [strint, if_neg hlen, if_pos (decimal_isdigit n), decvalue_decimal]

theorem strint_decimal_large {n : ℕ} (h : 10 ^ 9 ≤ n) : strint (decimal n) = none := by
  have hlen : 9 < (decimal n).length := by
    by_contra h9
    exact absurd ((decimal_length_le (by norm_num)).mp (not_lt.mp h9)) (not_lt.mpr h)
  rw [strint, if_pos (Or.inr hlen)]

theorem decimal_injective : Function.Injective decimal := by
  intro m n h
  rw [← decvalue_decimal m, h, decvalue_decimal]

/-!
## Tokens

`tokenize` is `sys->tokenize`: what stands between runs of delimiters, none of it
empty. `join` puts the tokens back with one space between two; `tokenize` gives the
same tokens again, but the runs are lost.
-/

def tokens (delim : Char → Bool) (cur : Str) : Str → List Str
  | [] => if cur = [] then [] else [cur]
  | c :: s =>
    if delim c then if cur = [] then tokens delim [] s else cur :: tokens delim [] s
    else tokens delim (cur ++ [c]) s

def tokenize (s delim : Str) : List Str :=
  tokens (fun c => decide (c ∈ delim)) [] s

def joinfrom (s : Str) : List Str → Str
  | [] => s
  | tok :: toks => joinfrom ((if s = [] then s else s ++ [' ']) ++ tok) toks

def join (toks : List Str) : Str :=
  joinfrom [] toks

variable {delim : Char → Bool} {w s : Str}

theorem tokens_nil {cur : Str} : tokens delim cur [] = if cur = [] then [] else [cur] := rfl

theorem tokens_cons {cur : Str} {c : Char} : tokens delim cur (c :: s) =
    if delim c then if cur = [] then tokens delim [] s else cur :: tokens delim [] s
    else tokens delim (cur ++ [c]) s := rfl

def Word (delim : Char → Bool) (w : Str) : Prop :=
  w ≠ [] ∧ ∀ c ∈ w, delim c = false

theorem tokens_word {cur : Str} (hw : ∀ c ∈ w, delim c = false) :
    tokens delim cur (w ++ s) = tokens delim (cur ++ w) s := by
  induction w generalizing cur with
  | nil => simp
  | cons c w ih =>
    rw [List.cons_append, tokens_cons, if_neg (by simp [hw c (by simp)]),
      ih (fun d hd => hw d (by simp [hd])), List.append_assoc, List.singleton_append]

theorem tokens_word_delim {d : Char} (hw : Word delim w) (hd : delim d = true) :
    tokens delim [] (w ++ d :: s) = w :: tokens delim [] s := by
  rw [tokens_word hw.2, List.nil_append, tokens_cons, if_pos hd, if_neg hw.1]

theorem tokens_single (hw : Word delim w) : tokens delim [] w = [w] := by
  have htok : tokens delim [] (w ++ []) = tokens delim ([] ++ w) [] := tokens_word hw.2
  rw [List.append_nil, List.nil_append] at htok
  rw [htok, tokens_nil, if_neg hw.1]

theorem tokens_delim {d : Char} (hd : delim d = true) :
    tokens delim [] (d :: s) = tokens delim [] s := by
  rw [tokens_cons, if_pos hd, if_pos rfl]

theorem tokens_words {cur : Str} (hcur : ∀ c ∈ cur, delim c = false) :
    ∀ w ∈ tokens delim cur s, Word delim w := by
  induction s generalizing cur with
  | nil =>
    rw [tokens_nil]
    split_ifs with hnil
    · simp
    · simpa using ⟨hnil, hcur⟩
  | cons c s ih =>
    rw [tokens_cons]
    split_ifs with hc hnil
    · exact ih (by simp)
    · intro w hw
      rcases List.mem_cons.mp hw with rfl | hw
      · exact ⟨hnil, hcur⟩
      · exact ih (by simp) w hw
    · refine ih ?_
      intro d hd
      rcases List.mem_append.mp hd with hd | hd
      · exact hcur d hd
      · obtain rfl := List.mem_singleton.mp hd
        simpa using hc

theorem tokenize_words (s delim : Str) :
    ∀ w ∈ tokenize s delim, Word (fun c => decide (c ∈ delim)) w :=
  tokens_words (by simp)

theorem tokens_mem {cur : Str} {c : Char}
    (hw : w ∈ tokens delim cur s) (hc : c ∈ w) : c ∈ cur ∨ c ∈ s := by
  induction s generalizing cur with
  | nil =>
    rw [tokens_nil] at hw
    split_ifs at hw
    · simp at hw
    · obtain rfl := List.mem_singleton.mp hw
      exact .inl hc
  | cons d s ih =>
    rw [tokens_cons] at hw
    split_ifs at hw
    · exact (ih hw).elim (fun h => by simp at h) (fun h => .inr (by simp [h]))
    · rcases List.mem_cons.mp hw with rfl | hw
      · exact .inl hc
      · exact (ih hw).elim (fun h => by simp at h) (fun h => .inr (by simp [h]))
    · rcases ih hw with h | h
      · exact (List.mem_append.mp h).imp_right (fun h => by simp [List.mem_singleton.mp h])
      · exact .inr (by simp [h])

theorem tokens_append_delim {d : Char} {cur : Str} (t : Str) (hd : delim d = true) :
    tokens delim cur (s ++ d :: t) = tokens delim cur s ++ tokens delim [] t := by
  induction s generalizing cur with
  | nil =>
    simp only [List.nil_append, tokens_cons, tokens_nil, if_pos hd]
    split_ifs <;> rfl
  | cons c s ih =>
    rw [List.cons_append, tokens_cons, tokens_cons]
    split_ifs
    · exact ih
    · rw [ih, List.cons_append]
    · exact ih

theorem joinfrom_eq {acc : Str} (hacc : acc ≠ []) (toks : List Str) :
    joinfrom acc toks = acc ++ toks.flatMap (' ' :: ·) := by
  induction toks generalizing acc with
  | nil => simp [joinfrom]
  | cons tok toks ih =>
    rw [joinfrom, if_neg hacc, ih (by simp [hacc])]
    simp

theorem join_cons (tok : Str) (toks : List Str) (htok : tok ≠ []) :
    join (tok :: toks) = tok ++ toks.flatMap (' ' :: ·) := by
  rw [join, joinfrom, if_pos rfl, List.nil_append, joinfrom_eq htok]

theorem tokens_spaced {toks : List Str} (hd : delim ' ' = true)
    (htoks : ∀ w ∈ toks, Word delim w) :
    tokens delim [] (toks.flatMap (' ' :: ·)) = toks := by
  induction toks with
  | nil => rfl
  | cons tok toks ih =>
    have htok := htoks tok (by simp)
    have hrest := ih (fun w hw => htoks w (by simp [hw]))
    rw [List.flatMap_cons, List.cons_append, tokens_delim hd]
    cases toks with
    | nil => simpa using tokens_single htok
    | cons tok' toks =>
      rw [List.flatMap_cons, List.cons_append] at hrest ⊢
      rw [tokens_word_delim htok hd]
      rw [tokens_delim hd] at hrest
      rw [hrest]

theorem tokenize_join {toks : List Str} (htoks : ∀ w ∈ toks, Word (fun c => decide (c ∈ [' '])) w) :
    tokenize (join toks) [' '] = toks := by
  cases toks with
  | nil => rfl
  | cons tok toks =>
    rw [join_cons tok toks (htoks tok (by simp)).1]
    have hspaced : tokens (fun c => decide (c ∈ [' '])) [] ((tok :: toks).flatMap (' ' :: ·)) =
        tok :: toks := tokens_spaced (by simp) htoks
    rw [List.flatMap_cons, List.cons_append, tokens_delim (by simp)] at hspaced
    exact hspaced

end Infernode.Limbo
