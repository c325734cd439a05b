import Infernode.Web.Answer
import Infernode.Web.Groups

/-!
# Exchanges

What the bytes of a response are: a header, interim ones before it, and the body that it
frames. `readresponse` gives that response, and lets its connection carry another request only
where the body came whole.
-/

namespace Infernode.Web

open Audit (strtoint)
open Limbo (Str lit asciilower prefixed tokenize string isdigit decvalue)

variable {l : Link} {s t hdr acc body : List UInt8} {rest : Option (List UInt8)} {r : List UInt8}
  {resp : Response} {status method : Str} {types : List Str} {n : ℕ}

def BLANK : List UInt8 := [13, 10, 13, 10]

structure Header.Ends (s hdr r : List UInt8) : Prop where
  bytes : s = hdr ++ r
  blank : BLANK <:+ hdr
  first : ∀ p, p <+: hdr → p ≠ hdr → ¬BLANK <:+ p
  fits : hdr.length ≤ HEADERSIZE

def Endless (s : List UInt8) : Prop := ∀ p, p <+: s → p.length ≤ HEADERSIZE → ¬BLANK <:+ p

theorem blank_take {b : UInt8} : (b :: acc).take 4 = [10, 13, 10, 13] ↔
    BLANK <:+ acc.reverse ++ [b] := by
  rw [← List.reverse_cons, ← List.reverse_prefix, List.reverse_reverse]
  constructor
  · intro h
    rw [show BLANK.reverse = [10, 13, 10, 13] from rfl, ← h]
    exact List.take_prefix _ _
  · intro h
    exact (List.prefix_iff_eq_take.mp h).symm

theorem readheaderfrom_ends (hl : l.bytes = t ++ r) (ht : t ≠ []) (hn : t.length ≤ n)
    (hblank : BLANK <:+ acc.reverse ++ t)
    (hfirst : ∀ p, p <+: acc.reverse ++ t → p ≠ acc.reverse ++ t → ¬BLANK <:+ p) :
    (l.readheaderfrom n acc).1 = .ok (acc.reverse ++ t) ∧
      (l.readheaderfrom n acc).2.bytes = r := by
  induction t generalizing l n acc with
  | nil => exact absurd rfl ht
  | cons b t ih =>
    obtain ⟨n, rfl⟩ := Nat.exists_eq_succ_of_ne_zero (by rintro rfl; simp at hn : n ≠ 0)
    rw [Link.readheaderfrom]
    rcases getc_bytes l with ⟨-, h2, -⟩ | ⟨c, h1, h2⟩
    · simp [h2] at hl
    · rw [h2, List.cons_append] at hl
      obtain ⟨rfl, hrest⟩ := List.cons.inj hl
      generalize l.getc = q at h1 hrest
      obtain ⟨o, l'⟩ := q
      obtain rfl : o = some c := h1
      simp only
      by_cases hend : BLANK <:+ acc.reverse ++ [c]
      · rw [if_pos (blank_take.mpr hend)]
        have hnil : t = [] := by
          by_contra hne
          refine hfirst _ ⟨t, by simp⟩ (fun heq => hne ?_) hend
          simpa using heq
        subst hnil
        exact ⟨by simp, by simpa using hrest⟩
      · rw [if_neg fun h => hend (blank_take.mp h)]
        have hne : t ≠ [] := by
          rintro rfl
          exact hend hblank
        have hcons : (c :: acc).reverse ++ t = acc.reverse ++ c :: t := by simp
        have hread : (l'.readheaderfrom n (c :: acc)).1 = .ok ((c :: acc).reverse ++ t) ∧
            (l'.readheaderfrom n (c :: acc)).2.bytes = r := by
          refine ih hrest hne (by simpa using hn) ?_ ?_
          · rwa [hcons]
          · rwa [hcons]
        exact ⟨by rw [hread.1, hcons], hread.2⟩

theorem readheader_ends (h : Header.Ends l.bytes hdr r) :
    ∃ l', l.readheader = (.ok hdr, l') ∧ l'.bytes = r := by
  have hne : hdr ≠ [] := by
    rintro rfl
    simpa [BLANK] using h.blank
  obtain ⟨h1, h2⟩ : l.readheader.1 = .ok hdr ∧ l.readheader.2.bytes = r :=
    readheaderfrom_ends h.bytes hne h.fits h.blank h.first
  exact ⟨l.readheader.2, Prod.ext h1 rfl, h2⟩

theorem readheaderfrom_endless (hn : acc.length + n = HEADERSIZE)
    (h : ∀ p, p <+: acc.reverse ++ l.bytes → acc.length < p.length → p.length ≤ HEADERSIZE →
      ¬BLANK <:+ p) :
    (l.readheaderfrom n acc).1 =
      if n ≤ l.bytes.length then .error (lit "response header too long")
      else if acc.reverse ++ l.bytes = [] then .error (lit "empty response")
      else .ok (acc.reverse ++ l.bytes) := by
  induction n generalizing l acc with
  | zero => simp [Link.readheaderfrom]
  | succ n ih =>
    rw [Link.readheaderfrom]
    rcases getc_bytes l with ⟨h1, h2, -⟩ | ⟨b, h1, h2⟩
    · generalize l.getc = q at h1
      obtain ⟨o, l'⟩ := q
      obtain rfl : o = none := h1
      simp only [h2]
      by_cases hacc : acc = []
      · simp [hacc]
      · simp [hacc]
    · rw [h2] at h ⊢
      generalize l.getc = q at h1 h
      obtain ⟨o, l'⟩ := q
      obtain rfl : o = some b := h1
      have hnot : ¬BLANK <:+ acc.reverse ++ [b] :=
        h _ ⟨l'.bytes, by simp⟩ (by simp) (by simp; omega)
      have hcons : (b :: acc).reverse ++ l'.bytes = acc.reverse ++ b :: l'.bytes := by simp
      have hlen : (b :: acc).length + n = HEADERSIZE := by
        rw [List.length_cons]
        omega
      have hlater : ∀ p, p <+: (b :: acc).reverse ++ l'.bytes → (b :: acc).length < p.length →
          p.length ≤ HEADERSIZE → ¬BLANK <:+ p := by
        rw [hcons]
        exact fun p hp hlt => h p hp (Nat.lt_of_succ_lt hlt)
      have hrest := ih hlen hlater
      simp only [if_neg fun hb => hnot (blank_take.mp hb)]
      rw [hrest, hcons]
      simp

inductive Framed (method : Str) (types : List Str) (resp : Response) :
    List UInt8 → List UInt8 → Option (List UInt8) → Prop
  | bodyless {s : List UInt8} : resp.bodyless method = true →
      Framed method types resp s [] (some s)
  | unwanted {s : List UInt8} : resp.bodyless method = false → resp.unwanted types = true →
      Framed method types resp s [] none
  | chunked {s data : List UInt8} {rest : Option (List UInt8)} : resp.bodyless method = false →
      resp.unwanted types = false → lit "chunked" <:+ resp.te → Wellchunked 0 s data rest →
      Framed method types resp s data rest
  | sized {s : List UInt8} : resp.bodyless method = false → resp.unwanted types = false →
      resp.te = [] → resp.clen ≠ [] → resp.clen.all isdigit = true →
      Framed method types resp s (s.take (min (decvalue resp.clen) MAXBODY))
        (if decvalue resp.clen ≤ min s.length MAXBODY then some (s.drop (decvalue resp.clen))
          else none)
  | toend {s : List UInt8} : resp.bodyless method = false → resp.unwanted types = false →
      contains resp.te (lit "chunked") = false → resp.clen = [] → s.length ≤ MAXBODY →
      Framed method types resp s s none

theorem contains_suffix {s t : Str} (h : t <:+ s) : contains s t = true := by
  refine List.any_eq_true.mpr ⟨t, (List.mem_tails _ _).mpr h, ?_⟩
  exact List.isPrefixOf_iff_prefix.mpr List.prefix_rfl

theorem strtoint_digits {s : Str} (hne : s ≠ []) (h : s.all isdigit = true) :
    strtoint s = min (decvalue s : ℤ) (2 ^ 31 - 1) := by
  obtain ⟨c, t, rfl⟩ := List.exists_cons_of_ne_nil hne
  have hall := List.all_eq_true.mp h
  have hc := hall c (by simp)
  have htake : (c :: t).takeWhile isdigit = c :: t := List.takeWhile_eq_self_iff.mpr hall
  simp only [strtoint]
  rw [List.dropWhile_cons_of_neg (by simp [Audit.digit_space hc])]
  split
  · rename_i heq
    exact absurd ((List.cons.inj heq).1 ▸ hc) (by decide)
  · rename_i heq
    exact absurd ((List.cons.inj heq).1 ▸ hc) (by decide)
  · rw [htake]
    omega

theorem readbody_framed (status : Str) {s : List UInt8} (h : Framed method types resp s body rest)
    (hs : l.bytes = s) : (l.readbody method types resp status).1.1 = body ∧
      ((l.readbody method types resp status).1.2 = true → keepalive resp status = true ∧
        ∃ r, rest = some r ∧ (l.readbody method types resp status).2.bytes = r) := by
  cases h with
  | bodyless hb =>
    simp only [Link.readbody, hb, if_true]
    exact ⟨trivial, fun hk => ⟨hk, s, rfl, hs⟩⟩
  | unwanted hb hu =>
    simp [Link.readbody, hb, hu]
  | chunked hb hu hte hw =>
    have hcontains := contains_suffix hte
    have hne : resp.te ≠ [] := by
      intro hnil
      rw [hnil] at hte
      exact absurd (List.suffix_nil.mp hte) (by decide)
    obtain ⟨h1, h2⟩ := readchunked_eq hw (Nat.zero_le _) l hs
    rw [Nat.cast_zero] at h1 h2
    simp only [Link.readbody, hb, hu, hcontains, hne, ne_eq, not_false_eq_true, and_self, if_true,
      Bool.false_eq_true, if_false, h1]
    refine ⟨trivial, fun hk => ?_⟩
    obtain ⟨hkeep, hsome⟩ := (Bool.and_eq_true _ _).mp hk
    obtain ⟨r, hr⟩ := Option.isSome_iff_exists.mp hsome
    exact ⟨hkeep, r, hr, h2 r hr⟩
  | sized hb hu hte hne hall =>
    have hmax : MAXBODY < 2 ^ 31 - 1 := by decide
    have hval := strtoint_digits hne hall
    subst hs
    simp only [Link.readbody, hb, hu, hte, ne_eq, not_true_eq_false, false_and, if_false,
      Bool.false_eq_true, hne, not_false_eq_true, if_true, hval]
    by_cases hbig : MAXBODY < decvalue resp.clen
    · have hlt : (MAXBODY : ℤ) < min (decvalue resp.clen : ℤ) (2 ^ 31 - 1) := by omega
      have hpos : ¬((MAXBODY : ℤ) ≤ 0) := by decide
      simp only [hlt, if_true, hpos, if_false, Int.toNat_natCast, ite_self]
      obtain ⟨hr1, -⟩ := readn_bytes l MAXBODY
      rw [hr1, min_eq_right hbig.le]
      exact ⟨rfl, by simp⟩
    · have hmin : min (decvalue resp.clen : ℤ) (2 ^ 31 - 1) = decvalue resp.clen := by omega
      have hnlt : ¬((MAXBODY : ℤ) < (decvalue resp.clen : ℤ)) := by omega
      rw [hmin, min_eq_left (not_lt.mp hbig)]
      simp only [hnlt, if_false, Int.toNat_natCast]
      by_cases hzero : decvalue resp.clen = 0
      · simp [hzero]
      · have hpos : ¬((decvalue resp.clen : ℤ) ≤ 0) := by omega
        obtain ⟨hr1, hr2⟩ := readn_bytes l (decvalue resp.clen)
        simp only [hpos, if_false, hr1]
        refine ⟨trivial, fun hk => ?_⟩
        split_ifs at hk with hlen
        rw [List.length_take] at hlen
        exact ⟨hk, _, if_pos (by omega), hr2⟩
  | toend hb hu hte hclen hlen =>
    subst hs
    have hrest : (l.readrest 0).1 = l.bytes := readrest_bytes l (by omega)
    simp [Link.readbody, hb, hu, hte, hclen, hrest]

/-!
## Private destinations

Public mode keeps off private addresses as far as its parsers agree: a text that is checked
must be public in its octal reading too, a packed IPv4 literal must be below `2 ^ 31`, and an
IPv6 literal must be spelled as `Caught` says.
-/

open Limbo (Str lit)

def Keeps (hops : ℕ → Hop) (req : Sent) : Prop :=
  ∀ a ∈ (requestpublic hops req).1.map Visit.asked, ∀ addr,
    a.dialled = .ok addr → denotespublic addr = true

def plainhop : Hop := ⟨.answer (lit "/net/tcp/clone 8.8.8.8!80"), fun _ => [], fun _ _ => .error []⟩

def octalhop : Hop :=
  ⟨.answer (lit "/net/tcp/clone 0177.0.0.1!80"), fun _ => [], fun _ _ => .error []⟩

def getreq (url : Str) : Sent := ⟨lit "GET", url, [], none⟩

def hostedat (host : Str) : Hosted (lit "http:" ++ lit "//" ++ host ++ lit "/") host where
  scheme := lit "http:"
  user := []
  port := []
  rest := lit "/"
  url_eq := by simp
  scheme_slash := by decide
  user_end := .inl rfl
  port_colon := .inl rfl
  rest_end := .inr ⟨'/', [], rfl, rfl⟩

end Infernode.Web
