import Infernode.Web.Request

/-!
# What is dialled

The text that `dialaddr` finds public is dialled as it stands. The dialler reads its parts as
`pieces` does, so the two agree that it is public where its octal reading is.
-/

namespace Infernode.Web

open Limbo (Str lit isdigit digitval)

variable {base u v w n : ℕ} {part tail rest s t p : Str} {c : Char}

theorem digit_ten (h : isdigit c = true) : digit 10 c = some (digitval c) := by
  have hc : '0' ≤ c ∧ c ≤ '9' := by simpa [isdigit] using h
  have hlow : c.toNat ≤ 57 := hc.2
  simp only [digit, if_pos hc, Option.filter_some, digitval]
  rw [if_pos (by simp; omega)]
  rfl

theorem digit_eight (h : isdigit c = true) :
    digit 8 c = if digitval c < 8 then some (digitval c) else none := by
  have hc : '0' ≤ c ∧ c ≤ '9' := by simpa [isdigit] using h
  simp only [digit, if_pos hc, Option.filter_some, digitval, decide_eq_true_eq]
  rfl

theorem digits_append (h : tail = [] ∨ tail.head? = some '.') (a : Str) :
    digits base v (a ++ tail) = ((digits base v a).1, (digits base v a).2 ++ tail) := by
  induction a generalizing v with
  | nil =>
    rcases tail with - | ⟨c, t⟩
    · rfl
    · obtain rfl : c = '.' := by simpa using h
      simp [digits, digit]
  | cons c a ih =>
    rw [List.cons_append, digits, digits]
    cases digit base c with
    | none => rfl
    | some d => exact ih

theorem octet_some (h : octet v s = some w) :
    (s.all isdigit = true) ∧ digits 10 v s = (w, []) ∧ (s ≠ [] → w ≤ 255) := by
  induction s generalizing v with
  | nil =>
    have hw : v = w := by simpa [octet] using h
    simp [digits, hw]
  | cons c s ih =>
    rw [octet] at h
    split_ifs at h with hc hv
    obtain ⟨hall, hval, hle⟩ := ih h
    have hd : isdigit c = true := by
      simp only [not_or, not_lt] at hc
      simp [isdigit, hc]
    refine ⟨by simp [hd, hall], ?_, fun _ => ?_⟩
    · rw [digits, digit_ten hd]
      exact hval
    · by_cases hs : s = []
      · subst hs
        have hw : v * 10 + (c.toNat - 48) = w := by simpa [octet] using h
        omega
      · exact hle hs

theorem le_digits (hb : 0 < base) (v : ℕ) (s : Str) : v ≤ (digits base v s).1 := by
  induction s generalizing v with
  | nil => exact le_rfl
  | cons c s ih =>
    rw [digits]
    cases digit base c with
    | none => exact le_rfl
    | some d => exact le_trans (by nlinarith) (ih (v * base + d))

theorem digits_mono (h : u ≤ v) : (digits base u s).1 ≤ (digits base v s).1 := by
  induction s generalizing u v with
  | nil => exact h
  | cons c s ih =>
    rw [digits, digits]
    cases digit base c with
    | none => exact h
    | some d => exact ih (by gcongr)

theorem digits_eight (hs : s.all isdigit = true) (h : v ≤ u) :
    (digits 8 v s).1 ≤ (digits 10 u s).1 ∧
      (digits 10 0 (digits 8 v s).2).1 ≤ (digits 10 u s).1 := by
  induction s generalizing u v with
  | nil => exact ⟨h, Nat.zero_le u⟩
  | cons c s ih =>
    obtain ⟨hc, hs⟩ : isdigit c = true ∧ s.all isdigit = true := by simpa using hs
    rw [digits, digits, digit_eight hc, digit_ten hc]
    by_cases h8 : digitval c < 8
    · simp only [if_pos h8]
      exact ih hs (by omega)
    · simp only [if_neg h8]
      refine ⟨?_, ?_⟩
      · calc v ≤ u * 10 + digitval c := by omega
          _ ≤ _ := le_digits (by norm_num) _ s
      · rw [digits, digit_ten hc]
        exact digits_mono (by omega)

theorem digits_rest (hs : s.all isdigit = true) :
    (digits 8 v s).2.all isdigit = true ∧ (digits 8 v s).2.head? ≠ some '0' := by
  induction s generalizing v with
  | nil => exact ⟨rfl, by simp [digits]⟩
  | cons c s ih =>
    obtain ⟨hc, hall⟩ : isdigit c = true ∧ s.all isdigit = true := by simpa using hs
    rw [digits, digit_eight hc]
    by_cases h8 : digitval c < 8
    · simp only [if_pos h8]
      exact ih hall
    · simp only [if_neg h8]
      refine ⟨hs, fun h0 => h8 ?_⟩
      obtain rfl : c = '0' := by simpa using h0
      decide

theorem radix_decimal (h0 : s.head? ≠ some '0') : radix s = digits 10 0 s := by
  unfold radix
  split
  · simp at h0
  · simp at h0
  · rfl

theorem radix_octal (h0 : s.head? = some '0') (hx : ∀ c ∈ (s.drop 1).head?, c ≠ 'x' ∧ c ≠ 'X') :
    radix s = digits 8 0 s := by
  unfold radix
  split
  · rename_i x h t
    have hne := hx x (by simp)
    rw [if_neg (by tauto)]
  · rfl
  · rename_i hs hs'
    rcases s with - | ⟨c, s⟩
    · simp at h0
    · obtain rfl : c = '0' := by simpa using h0
      exact absurd rfl (hs' s)

def Ends (tail : Str) : Prop := tail = [] ∨ tail.head? = some '.'

theorem v4loop_radix (hs : s ≠ []) (h : radix s = (w, rest)) (hw : w ≤ 255) :
    v4loop (n + 1) s = w :: v4loop n (if rest.head? = some '.' then rest.drop 1 else rest) := by
  obtain ⟨c, t, rfl⟩ := List.exists_cons_of_ne_nil hs
  have hmin : min w (2 ^ 64 - 1) % 256 = w := by omega
  rw [v4loop, strtoul, h]
  simp only [hmin]

theorem intercalate_split (s : Str) : ['.'].intercalate (s.splitOn '.') = s :=
  List.intercalate_splitOn '.'

theorem v4loop_nil (n : ℕ) : v4loop n [] = [] := by
  cases n <;> rfl

theorem v4loop_length (n : ℕ) (s : Str) : (v4loop n s).length ≤ n := by
  induction n generalizing s with
  | zero => simp [v4loop]
  | succ n ih =>
    cases s with
    | nil => simp [v4loop]
    | cons c s =>
      rw [v4loop, List.length_cons]
      exact Nat.succ_le_succ (ih _)

theorem digits_ten (hs : s.all isdigit = true) : (digits 10 v s).2 = [] := by
  induction s generalizing v with
  | nil => rfl
  | cons c s ih =>
    obtain ⟨hc, hall⟩ : isdigit c = true ∧ s.all isdigit = true := by simpa using hs
    rw [digits, digit_ten hc]
    exact ih hall

theorem v4loop_decimal (hne : s ≠ []) (hs : s.all isdigit = true) (h0 : s.head? ≠ some '0')
    (hv : (digits 10 0 s).1 ≤ 255) (ht : Ends tail) :
    v4loop (n + 1) (s ++ tail) =
      (digits 10 0 s).1 :: v4loop n (if tail.head? = some '.' then tail.drop 1 else tail) := by
  have hhead : (s ++ tail).head? ≠ some '0' := by
    obtain ⟨c, t, rfl⟩ := List.exists_cons_of_ne_nil hne
    simpa using h0
  refine v4loop_radix (by simp [hne]) ?_ hv
  rw [radix_decimal hhead, digits_append ht, digits_ten hs, List.nil_append]

theorem radix_part (hs : s.all isdigit = true) (h0 : s.head? = some '0') (ht : Ends tail) :
    radix (s ++ tail) = ((digits 8 0 s).1, (digits 8 0 s).2 ++ tail) := by
  obtain ⟨t, rfl⟩ : ∃ t, s = '0' :: t := by
    rcases s with - | ⟨c, t⟩
    · simp at h0
    · exact ⟨t, by simpa using h0⟩
  rw [radix_octal (by simp), digits_append ht]
  intro x hx
  have hlet : isdigit x = true ∨ x = '.' := by
    rcases t with - | ⟨c, t⟩
    · rcases ht with rfl | ht
      · simp at hx
      · exact .inr (by simpa [ht, eq_comm] using hx)
    · obtain rfl : c = x := by simpa using hx
      exact .inl (by simp at hs; exact hs.2.1)
  rcases hlet with h | rfl
  · constructor <;> rintro rfl <;> exact absurd h (by decide)
  · decide

theorem v4loop_part (hne : part ≠ []) (ho : octet 0 part = some w) (ht : Ends tail) (n : ℕ) :
    v4loop n (part ++ tail) = (pieces part ++ v4loop (n - (pieces part).length)
      (if tail.head? = some '.' then tail.drop 1 else tail)).take n := by
  obtain ⟨hall, hval, hle⟩ := octet_some ho
  have hbytes := digits_eight hall (le_refl 0)
  rw [hval] at hbytes
  have hw := hle hne
  cases n with
  | zero => rfl
  | succ n =>
    by_cases h0 : part.head? = some '0'
    · rw [v4loop_radix (by simp [hne]) (radix_part hall h0 ht) (by omega), pieces, if_pos h0]
      obtain ⟨hrall, hr0⟩ := digits_rest (v := 0) hall
      by_cases hr : (digits 8 0 part).2 = []
      · simp [hr, List.take_of_length_le (v4loop_length _ _)]
      · have hdot : ((digits 8 0 part).2 ++ tail).head? ≠ some '.' := by
          obtain ⟨d, r, hdr⟩ := List.exists_cons_of_ne_nil hr
          rw [hdr] at hrall ⊢
          rintro h
          obtain rfl : d = '.' := by simpa using h
          simp [isdigit] at hrall
        rw [if_neg hdot]
        simp only [if_neg hr]
        cases n with
        | zero => simp [v4loop]
        | succ n =>
          rw [v4loop_decimal hr hrall hr0 (by omega) ht]
          simp [List.take_of_length_le (v4loop_length _ _)]
    · have hv : (digits 10 0 part).1 = w := by rw [hval]
      rw [v4loop_decimal hne hall h0 (by omega) ht, pieces, if_neg h0]
      simp [List.take_of_length_le (v4loop_length _ _)]

theorem v4loop_parts {parts : List Str} (hne : ∀ p ∈ parts, p ≠ [])
    (ho : ∀ p ∈ parts, ∃ w, octet 0 p = some w) (n : ℕ) :
    v4loop n (['.'].intercalate parts) = (parts.flatMap pieces).take n := by
  induction parts generalizing n with
  | nil => simpa [List.intercalate] using v4loop_nil n
  | cons p ps ih =>
    have hrest := ih (fun q hq => hne q (by simp [hq])) fun q hq => ho q (by simp [hq])
    obtain ⟨w, hw⟩ := ho p (by simp)
    cases ps with
    | nil =>
      have := v4loop_part (hne p (by simp)) hw (.inl rfl) n
      simpa [v4loop_nil] using this
    | cons q qs =>
      have hends : Ends ('.' :: ['.'].intercalate (q :: qs)) := .inr rfl
      have hpart := v4loop_part (hne p (by simp)) hw hends n
      have htext : ['.'].intercalate (p :: q :: qs) = p ++ '.' :: ['.'].intercalate (q :: qs) := by
        simp [List.intercalate]
      rw [htext, hpart, List.flatMap_cons]
      simp only [List.head?_cons, List.drop_succ_cons, List.drop_zero, if_true]
      rw [hrest, List.take_append, List.take_append, List.take_take, Nat.min_self]

theorem mapM_isSome {α β : Type} {f : α → Option β} {l : List α} {r : List β}
    (h : l.mapM f = some r) :
    r.length = l.length ∧ ∀ a ∈ l, ∃ b, f a = some b := by
  induction l generalizing r with
  | nil =>
    obtain rfl : [] = r := by simpa using h
    simp
  | cons a l ih =>
    cases ha : f a with
    | none => simp [List.mapM_cons, ha] at h
    | some b =>
      cases hl : l.mapM f with
      | none => simp [List.mapM_cons, ha, hl] at h
      | some bs =>
        obtain rfl : b :: bs = r := by simpa [List.mapM_cons, ha, hl] using h
        obtain ⟨hlen, hall⟩ := ih hl
        refine ⟨by simp [hlen], fun x hx => ?_⟩
        rcases List.mem_cons.mp hx with rfl | hx
        · exact ⟨b, ha⟩
        · exact hall x hx

theorem octets_some {s : Str} {os : List ℕ} (h : octets s = some os) :
    (s.splitOn '.').length = 4 ∧ (∀ p ∈ s.splitOn '.', p ≠ []) ∧ os.length = 4 ∧
      ∀ p ∈ s.splitOn '.', ∃ w, octet 0 p = some w := by
  rw [octets] at h
  split_ifs at h with hparts
  obtain ⟨hlen, hne⟩ : (s.splitOn '.').length = 4 ∧ [] ∉ s.splitOn '.' := by tauto
  obtain ⟨hos, hall⟩ := mapM_isSome h
  exact ⟨hlen, fun p hp hnil => hne (hnil ▸ hp), by omega, hall⟩

theorem pieces_length_pos (p : Str) : 0 < (pieces p).length := by
  simp only [pieces]
  split_ifs <;> simp

theorem length_le_pieces (parts : List Str) : parts.length ≤ (parts.flatMap pieces).length := by
  induction parts with
  | nil => simp
  | cons p ps ih =>
    have := pieces_length_pos p
    simp only [List.flatMap_cons, List.length_append, List.length_cons]
    omega

theorem v4parseip_eq {s : Str} {os : List ℕ} (h : octets s = some os) :
    v4parseip s = octalread s := by
  obtain ⟨hlen, hne, -, hall⟩ := octets_some h
  have hloop : v4loop 4 s = octalread s := by
    rw [← intercalate_split s, v4loop_parts hne hall, octalread, intercalate_split]
  have hfour : (octalread s).length = 4 := by
    have := length_le_pieces (s.splitOn '.')
    rw [octalread, List.length_take]
    omega
  rw [v4parseip, hloop]
  match octalread s, hfour with
  | [a, b, c, d], _ => simp

theorem mem_intercalate {c d : Char} {parts : List Str} (h : c ∈ [d].intercalate parts) :
    c = d ∨ ∃ p ∈ parts, c ∈ p := by
  induction parts with
  | nil => simp [List.intercalate] at h
  | cons p ps ih =>
    cases ps with
    | nil => exact .inr ⟨p, by simp, by simpa [List.intercalate] using h⟩
    | cons q qs =>
      have htext : [d].intercalate (p :: q :: qs) = p ++ d :: [d].intercalate (q :: qs) := by
        simp [List.intercalate]
      rw [htext, List.mem_append, List.mem_cons] at h
      rcases h with h | h | h
      · exact .inr ⟨p, by simp, h⟩
      · exact .inl h
      · rcases ih h with h | ⟨r, hr, hc⟩
        · exact .inl h
        · exact .inr ⟨r, by simp [hr], hc⟩

theorem octets_chars {s : Str} {os : List ℕ} (h : octets s = some os) (hc : c ∈ s) :
    c = '.' ∨ isdigit c = true := by
  obtain ⟨-, -, -, hall⟩ := octets_some h
  rw [← intercalate_split s] at hc
  refine (mem_intercalate hc).imp_right ?_
  rintro ⟨p, hp, hcp⟩
  obtain ⟨w, hw⟩ := hall p hp
  exact List.all_eq_true.mp (octet_some hw).1 c hcp

def checked (cs : Cs) (host port : Str) : Option Str :=
  match resolveaddr cs host port with
  | none => none
  | some naddr =>
    if naddr = [] then none
    else some (resolved (naddr.dropWhile fun c => c ∈ lit " \t\r\n"))

theorem dialaddr_iff {cs : Cs} {host port addr : Str} :
    dialaddr cs host port = .ok addr ↔ ∃ text, checked cs host port = some text ∧
      publicipv4 text = 1 ∧ addr = lit "tcp!" ++ text ++ lit "!" ++ port := by
  rw [dialaddr, checked]
  cases resolveaddr cs host port with
  | none => simp
  | some naddr =>
    by_cases hn : naddr = []
    · simp [hn]
    · simp only [if_neg hn]
      generalize resolved (naddr.dropWhile fun c => c ∈ lit " \t\r\n") = text
      have hvals : publicipv4 text = -1 ∨ publicipv4 text = 0 ∨ publicipv4 text = 1 := by
        unfold publicipv4
        split
        · split_ifs <;> simp
        · simp
      rcases hvals with h | h | h <;> simp [h, eq_comm]

theorem publicipv4_one {text : Str} (h : publicipv4 text = 1) : ∃ os, octets text = some os := by
  unfold publicipv4 at h
  split at h
  · rename_i hos
    exact ⟨_, hos⟩
  · simp at h

theorem dialhost_addr {text : Str} (h : '!' ∉ text) (port : Str) :
    dialhost (lit "tcp!" ++ text ++ lit "!" ++ port) = text := by
  have hdrop : ((lit "tcp!" ++ text ++ lit "!" ++ port).dropWhile (· ≠ '!')).drop 1 =
      text ++ '!' :: port := by
    simp [lit]
  have hall : ∀ c ∈ text, decide (c ≠ '!') = true := by
    intro c hc
    simpa using fun heq : c = '!' => h (heq ▸ hc)
  rw [dialhost, hdrop, List.takeWhile_append_of_pos hall]
  simp

/-- The address that is checked is public with its octal parts read as octal, if it is at all. -/
def Asked.plain (a : Asked) : Prop :=
  ∀ text, checked a.cs a.host a.port = some text → publicipv4 text = 1 →
    ispublic (octalread text) = true

def denotespublic (addr : Str) : Bool := ispublic (v4parseip (dialhost addr))

theorem dialled_iff (a : Asked) :
    (∀ addr, a.dialled = .ok addr → denotespublic addr = true) ↔ a.plain := by
  have hread : ∀ text, publicipv4 text = 1 →
      v4parseip (dialhost (lit "tcp!" ++ text ++ lit "!" ++ a.port)) = octalread text := by
    intro text h
    obtain ⟨os, hos⟩ := publicipv4_one h
    rw [dialhost_addr, v4parseip_eq hos]
    intro hbang
    rcases octets_chars hos hbang with h | h <;> exact absurd h (by decide)
  constructor
  · intro h text htext hpub
    have := h _ (dialaddr_iff.mpr ⟨text, htext, hpub, rfl⟩)
    rwa [denotespublic, hread text hpub] at this
  · intro h addr haddr
    obtain ⟨text, htext, hpub, rfl⟩ := dialaddr_iff.mp haddr
    rw [denotespublic, hread text hpub]
    exact h text htext hpub

end Infernode.Web
