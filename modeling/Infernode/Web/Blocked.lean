import Infernode.Web.Literal

/-!
# Literals that are blocked

Between the cut of the host out of its URL and the parse of the literal nothing is lost, so a
reserved IPv4 address is blocked where its literal is read. A literal of an IPv6 address is
blocked by how its text begins.
-/

namespace Infernode.Web

open Limbo (Str lit isdigit digitval asciilower asciilowerchar decimal decvalue prefixed)

variable {base u v n : ℕ} {rest s t p host : Str} {c : Char}

def authend (c : Char) : Bool := c == '/' || c == '?' || c == '#'

/-- A URL with a host: a scheme, a user, the host, a port and the rest, where only the host
has to be there. -/
structure Hosted (url host : Str) where
  scheme : Str
  user : Str
  port : Str
  rest : Str
  url_eq : url = scheme ++ lit "//" ++ user ++ host ++ port ++ rest
  scheme_slash : '/' ∉ scheme
  user_end : user = [] ∨ user.getLast? = some '@' ∧ ∀ c ∈ user, authend c = false
  port_colon : port = [] ∨ port.head? = some ':' ∧ ∀ c ∈ port, authend c = false ∧ c ≠ '@'
  rest_end : rest = [] ∨ ∃ c t, rest = c :: t ∧ authend c = true

/-- What may stand for a host: an IPv6 literal in brackets, or a text without a colon. -/
def Hostlike (host : Str) : Prop :=
  (∀ c ∈ host, authend c = false ∧ c ≠ '@') ∧
    ((∃ t, host = '[' :: t ++ [']'] ∧ ']' ∉ t) ∨
      ∃ c t, host = c :: t ∧ c ≠ '[' ∧ ':' ∉ host)

theorem afterslashes_eq (hs : '/' ∉ s) (c : Char) (t : Str) :
    afterslashes (s ++ lit "//" ++ c :: t) = some (c :: t) := by
  induction s with
  | nil => rfl
  | cons d s ih =>
    obtain ⟨hd, hs⟩ : d ≠ '/' ∧ '/' ∉ s := by simpa [eq_comm] using hs
    rw [List.cons_append, List.cons_append, afterslashes]
    · exact ih hs
    · rintro _ _ h
      exact absurd h hd

theorem takeWhile_end {f : Char → Bool} (hs : ∀ c ∈ s, f c = true)
    (ht : t = [] ∨ ∃ c r, t = c :: r ∧ f c = false) : (s ++ t).takeWhile f = s := by
  rw [List.takeWhile_append_of_pos hs]
  rcases ht with rfl | ⟨c, r, rfl, hc⟩
  · simp
  · simp [hc]

theorem after_at (hu : s = [] ∨ s.getLast? = some '@') (ht : '@' ∉ t) :
    (if '@' ∈ s ++ t then ((s ++ t).reverse.takeWhile (· ≠ '@')).reverse else s ++ t) = t := by
  rcases hu with rfl | hu
  · rw [if_neg (by simpa using ht), List.nil_append]
  · obtain ⟨r, rfl⟩ := List.getLast?_eq_some_iff.mp hu
    have hall : ∀ c ∈ t.reverse, decide (c ≠ '@') = true := by
      intro c hc
      simpa using fun heq : c = '@' => ht (heq ▸ List.mem_reverse.mp hc)
    rw [if_pos (by simp), List.reverse_append, takeWhile_end hall (.inr ⟨'@', r.reverse, by simp⟩),
      List.reverse_reverse]

theorem urlhost_eq {url : Str} (h : Hosted url host) (hh : Hostlike host) :
    urlhost url = asciilower host := by
  obtain ⟨hchars, hform⟩ := hh
  have hne : host ≠ [] := by
    rcases hform with ⟨t, rfl, -⟩ | ⟨c, t, rfl, -, -⟩ <;> simp
  have hslash : (afterslashes url).getD url = h.user ++ (host ++ h.port) ++ h.rest := by
    obtain ⟨c, t, ht⟩ := List.exists_cons_of_ne_nil
      (show h.user ++ (host ++ h.port) ++ h.rest ≠ [] by simp [hne])
    have htext : url = h.scheme ++ lit "//" ++ c :: t := by
      rw [← ht]
      simpa using h.url_eq
    have hafter : afterslashes url = some (c :: t) :=
      (congrArg afterslashes htext).trans (afterslashes_eq h.scheme_slash c t)
    rw [hafter]
    exact ht.symm
  have hauth : (h.user ++ (host ++ h.port) ++ h.rest).takeWhile
      (fun c => !(c == '/' || c == '?' || c == '#')) = h.user ++ (host ++ h.port) := by
    refine takeWhile_end (fun c hc => ?_) (h.rest_end.imp_right ?_)
    · have hend : authend c = false := by
        rcases List.mem_append.mp hc with hc | hc
        · rcases h.user_end with hu | hu
          · simp [hu] at hc
          · exact hu.2 c hc
        · rcases List.mem_append.mp hc with hc | hc
          · exact (hchars c hc).1
          · rcases h.port_colon with hp | hp
            · simp [hp] at hc
            · exact (hp.2 c hc).1
      simpa [authend] using hend
    · rintro ⟨c, t, ht, hc⟩
      refine ⟨c, t, ht, ?_⟩
      change (!authend c) = false
      rw [hc]
      rfl
  have hat : '@' ∉ host ++ h.port := by
    intro hmem
    rcases List.mem_append.mp hmem with hm | hm
    · exact (hchars '@' hm).2 rfl
    · rcases h.port_colon with hp | hp
      · simp [hp] at hm
      · exact (hp.2 '@' hm).2 rfl
  have hport : h.port = [] ∨ ∃ c r, h.port = c :: r ∧ decide (c ≠ ':') = false := by
    refine h.port_colon.imp_right fun hp => ?_
    obtain ⟨r, hr⟩ := List.head?_eq_some_iff.mp hp.1
    exact ⟨':', r, hr, by simp⟩
  rw [urlhost]
  simp only [hslash, hauth, after_at (h.user_end.imp_right And.left) hat]
  congr 1
  rcases hform with ⟨t, rfl, ht⟩ | ⟨c, t, rfl, hc, hcolon⟩
  · have hall : ∀ c ∈ '[' :: t, decide (c ≠ ']') = true := by
      intro c hc
      rcases List.mem_cons.mp hc with rfl | hc
      · decide
      · simpa using fun heq : c = ']' => ht (heq ▸ hc)
    rw [if_pos (by simp), if_pos (by simp), List.append_assoc,
      takeWhile_end hall (.inr ⟨']', h.port, by simp⟩)]
  · have hall : ∀ d ∈ c :: t, decide (d ≠ ':') = true := by
      intro d hd
      simpa using fun heq : d = ':' => hcolon (heq ▸ hd)
    rw [if_neg (by simpa using hc), takeWhile_end hall hport]

theorem octet_eq (hs : s.all isdigit = true) (hv : (digits 10 v s).1 ≤ 255) :
    octet v s = some (digits 10 v s).1 := by
  induction s generalizing v with
  | nil => rfl
  | cons c s ih =>
    obtain ⟨hc, hall⟩ : isdigit c = true ∧ s.all isdigit = true := by simpa using hs
    have hturn : digits 10 v (c :: s) = digits 10 (v * 10 + digitval c) s := by
      rw [digits, digit_ten hc]
    rw [hturn] at hv ⊢
    have hle := le_digits (show 0 < 10 by norm_num) (v * 10 + digitval c) s
    have hrange : '0' ≤ c ∧ c ≤ '9' := by simpa [isdigit] using hc
    rw [octet, if_neg (by simp [hrange.1, hrange.2]), if_neg]
    · exact ih hall hv
    · have : v * 10 + (c.toNat - 48) = v * 10 + digitval c := rfl
      omega

theorem digits_decvalue (hs : s.all isdigit = true) :
    (digits 10 v s).1 = s.foldl (fun v c => v * 10 + digitval c) v := by
  induction s generalizing v with
  | nil => rfl
  | cons c s ih =>
    obtain ⟨hc, hall⟩ : isdigit c = true ∧ s.all isdigit = true := by simpa using hs
    rw [digits, digit_ten hc]
    exact ih hall

theorem octet_decimal (hn : n < 256) : octet 0 (decimal n) = some n := by
  have hval : (digits 10 0 (decimal n)).1 = n := by
    rw [digits_decvalue (Limbo.decimal_isdigit n)]
    exact Limbo.decvalue_decimal n
  rw [octet_eq (Limbo.decimal_isdigit n) (by omega), hval]

theorem octets_dotted {a b c d : ℕ} (ha : a < 256) (hb : b < 256) (hc : c < 256) (hd : d < 256) :
    octets (['.'].intercalate [decimal a, decimal b, decimal c, decimal d]) =
      some [a, b, c, d] := by
  have hdot : ∀ n, '.' ∉ decimal n := fun n h =>
    absurd (List.all_eq_true.mp (Limbo.decimal_isdigit n) '.' h) (by decide)
  have hfree : ∀ l ∈ [decimal a, decimal b, decimal c, decimal d], '.' ∉ l := by simp [hdot]
  have hsplit := List.splitOn_intercalate '.' hfree (by simp)
  rw [octets, hsplit]
  simp [octet_decimal, ha, hb, hc, hd, Limbo.decimal_ne_nil, List.mapM_cons]

def addrbytes (v : ℕ) : List ℕ := [v / 2 ^ 24 % 256, v / 2 ^ 16 % 256, v / 2 ^ 8 % 256, v % 256]

theorem publicipv4_dotted (v : ℕ) : (publicipv4 (dotted v) != 1) = !ispublic (addrbytes v) := by
  have hbyte : ∀ i, (v >>> i) &&& 0xff = v / 2 ^ i % 256 := fun i => by
    rw [Nat.shiftRight_eq_div_pow]
    exact Nat.and_two_pow_sub_one_eq_mod (v / 2 ^ i) 8
  have hlast : v &&& 0xff = v % 256 := Nat.and_two_pow_sub_one_eq_mod v 8
  have hoct : octets (dotted v) = some (addrbytes v) := by
    rw [dotted, hbyte, hbyte, hbyte, hlast]
    exact octets_dotted (by omega) (by omega) (by omega) (by omega)
  rw [publicipv4, hoct, addrbytes, ispublic]
  generalize v / 2 ^ 24 % 256 = x0
  generalize v / 2 ^ 16 % 256 = x1
  generalize v / 2 ^ 8 % 256 = x2
  cases h : reserved x0 x1 x2 <;> simp [h]

def alnum (c : Char) : Bool := (digitcode c.toNat).isSome

theorem alnum_of_digit {d : ℕ} (h : digit base c = some d) : alnum c = true := by
  rw [alnum, (digit_some h).1]
  rfl

theorem digits_alnum (h : digits base u s = (v, [])) : ∀ c ∈ s, alnum c = true := by
  induction s generalizing u with
  | nil => simp
  | cons d s ih =>
    cases hd : digit base d with
    | none => simp [digits, hd] at h
    | some e =>
      rw [digits, hd] at h
      intro c hc
      rcases List.mem_cons.mp hc with rfl | hc
      · exact alnum_of_digit hd
      · exact ih h c hc

theorem radix_alnum (h : radix s = (v, [])) : ∀ c ∈ s, alnum c = true := by
  unfold radix at h
  split at h
  · rename_i x d t
    split_ifs at h with hx
    · intro c hc
      rcases List.mem_cons.mp hc with rfl | hc
      · decide
      · rcases List.mem_cons.mp hc with rfl | hc
        · rcases hx.1 with rfl | rfl <;> decide
        · exact digits_alnum h c hc
    · exact digits_alnum h
  · exact digits_alnum h
  · exact digits_alnum h

theorem inetaton_chars (h : inetaton s = some v) :
    (∃ c t, s = c :: t ∧ isdigit c = true) ∧ ∀ c ∈ s, c = '.' ∨ alnum c = true := by
  obtain ⟨vals, hparts, -⟩ := inetaton_parts h
  have hall := (mapM_isSome hparts).2
  constructor
  · obtain ⟨p, ps, hps⟩ := List.exists_cons_of_ne_nil (List.splitOn_ne_nil '.' s)
    obtain ⟨a, ha⟩ := hall p (by simp [hps])
    obtain ⟨⟨c, t, rfl, hc⟩, -⟩ := numeral_some ha
    have htext : s = ['.'].intercalate ((c :: t) :: ps) := by
      rw [← hps]
      exact (intercalate_split s).symm
    rcases ps with - | ⟨q, qs⟩
    · exact ⟨c, t, by simpa [List.intercalate] using htext, hc⟩
    · refine ⟨c, t ++ '.' :: ['.'].intercalate (q :: qs), ?_, hc⟩
      rw [htext]
      simp [List.intercalate]
  · intro c hc
    rw [← intercalate_split s] at hc
    refine (mem_intercalate hc).imp_right ?_
    rintro ⟨p, hp, hcp⟩
    obtain ⟨a, ha⟩ := hall p hp
    exact radix_alnum (numeral_some ha).2 c hcp

theorem hostblocked_digit {t : Str} (hc : isdigit c = true) (hcolon : ':' ∉ c :: t)
    (hlow : asciilower (c :: t) = c :: t) :
    hostblocked (c :: t) = match parseipv4any (c :: t) with
      | some v => publicipv4 (dotted v) != 1
      | none => false := by
  have hhead : ∀ d r, c :: t = d :: r → isdigit d = true := by
    rintro d r h
    obtain ⟨rfl, -⟩ := List.cons.inj h
    exact hc
  have hbracket : unbracketed (c :: t) = c :: t := by
    rw [unbracketed, if_neg]
    rintro ⟨-, h, -⟩
    obtain rfl : c = '[' := by simpa using h
    exact absurd hc (by decide)
  have hname : c :: t ∉ blockednames := by
    intro h
    simp only [blockednames, List.mem_cons, List.not_mem_nil, or_false] at h
    rcases h with h | h | h | h <;> exact absurd (hhead _ _ h) (by decide)
  have hprefix : ∀ d r, isdigit d = false → prefixed (c :: t) (d :: r) = false := by
    intro d r hd
    rw [Bool.eq_false_iff]
    intro h
    obtain ⟨e, he⟩ := (Limbo.prefixed_iff _ _).mp h
    exact absurd (hhead _ _ he) (by simp [hd])
  have hprefixes : blockedprefixes.any (prefixed (c :: t)) = false := by
    simp [blockedprefixes, lit, hprefix, show isdigit ':' = false by decide,
      show isdigit 'f' = false by decide]
  have hloop : c :: t ∉ loopbacktexts := by
    intro h
    simp only [loopbacktexts, List.mem_cons, List.not_mem_nil, or_false] at h
    rcases h with h | h <;> exact hcolon (by rw [h]; decide)
  unfold hostblocked
  rw [if_neg (by simp), hlow]
  simp only [hbracket, if_neg hname, if_neg hloop, hprefixes,
    show prefixed (c :: t) (lit "localhost.") = false from hprefix _ _ (by decide)]
  rfl

theorem inetaton_hostlike (h : inetaton s = some v) : Hostlike s := by
  obtain ⟨⟨c, t, rfl, hc⟩, hchars⟩ := inetaton_chars h
  have hno : ∀ d ∈ c :: t, d ≠ '/' ∧ d ≠ '?' ∧ d ≠ '#' ∧ d ≠ '@' ∧ d ≠ ':' := by
    intro d hd
    rcases hchars d hd with rfl | ha
    · decide
    · refine ⟨?_, ?_, ?_, ?_, ?_⟩ <;> rintro rfl <;> exact absurd ha (by decide)
  refine ⟨fun d hd => ?_, .inr ⟨c, t, rfl, ?_, fun h => (hno _ h).2.2.2.2 rfl⟩⟩
  · obtain ⟨h1, h2, h3, h4, -⟩ := hno d hd
    exact ⟨by simp [authend, h1, h2, h3], h4⟩
  · rintro rfl
    exact absurd hc (by decide)

theorem fits_lower (s : Str) (v : ℕ) : Fits (asciilower s) v ↔ Fits s v := by
  have hlen : ∀ p : Str, (asciilower p).length = p.length := fun p => List.length_map asciilowerchar
  simp only [Fits, splitOn_lower, List.forall_mem_map, List.length_map, hlen]

theorem blocked_iff_fits {url : Str} (hurl : Hosted url host) (h : inetaton host = some v)
    (hv : ispublic (addrbytes v) = false) :
    hostblocked (urlhost url) = true ↔ Fits host v := by
  have hlow : inetaton (asciilower host) = some v := (inetaton_lower host).trans h
  have hidem := Limbo.asciilower_idem host
  rw [urlhost_eq hurl (inetaton_hostlike h), ← fits_lower]
  generalize asciilower host = s at *
  classical
  have hparse := parseipv4any_eq hlow
  obtain ⟨-, hform⟩ := inetaton_hostlike hlow
  obtain ⟨⟨c, t, rfl, hc⟩, hchars⟩ := inetaton_chars hlow
  have hcolon : ':' ∉ c :: t := fun hm => by
    rcases hchars ':' hm with h | h <;> exact absurd h (by decide)
  rw [hostblocked_digit hc hcolon hidem, hparse]
  by_cases hf : Fits (c :: t) v
  · simp [hf, publicipv4_dotted, hv]
  · simp [hf]

end Infernode.Web
