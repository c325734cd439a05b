import Infernode.Web.Request

/-!
# Origins

`schemehost` writes the scheme, the host and the port of a URL, but neither of the ports 80
and 443, and one name for every scheme it does not know. Two URLs of one such text have one
origin unless they are `Mixed`.
-/

namespace Infernode.Web

open Limbo (Str lit asciilower)

variable {s t u url : Str} {c d : Char} {cl : Char → Bool}

structure Delimits (cl : Char → Bool) : Prop where
  plain : ∀ c, cl c = true → encoded c = false
  percent : cl '%' = false
  hex : ∀ n < 16, cl (hexdigit n) = false

theorem encodechar_plain (h : encoded c = false) : encodechar c = [c] := by
  rw [encodechar, if_neg (by simp [h])]

theorem encodechar_encoded (h : encoded c = true) : (∃ t, encodechar c = '%' :: t) ∧
    ∀ d ∈ encodechar c, d = '%' ∨ ∃ n < 16, d = hexdigit n := by
  rw [encodechar, if_pos h]
  constructor
  · obtain ⟨b, bs, hb⟩ := List.exists_cons_of_ne_nil (String.utf8EncodeChar_ne_nil (c := c))
    exact ⟨_, by simp [Limbo.bytes, hb]; rfl⟩
  · intro d hd
    obtain ⟨b, -, hb⟩ := List.mem_flatMap.mp hd
    have hlt : b.toNat < 256 := b.toNat_lt
    simp only [List.mem_cons, List.not_mem_nil, or_false] at hb
    rcases hb with rfl | rfl | rfl
    · exact .inl rfl
    · exact .inr ⟨b.toNat / 16, by omega, rfl⟩
    · exact .inr ⟨b.toNat % 16, by omega, rfl⟩

theorem Delimits.encoded_free (hcl : Delimits cl) (h : encoded c = true) :
    ∀ d ∈ encodechar c, cl d = false := by
  intro d hd
  rcases (encodechar_encoded h).2 d hd with rfl | ⟨n, hn, rfl⟩
  · exact hcl.percent
  · exact hcl.hex n hn

theorem encodeurl_cons (c : Char) (s : Str) :
    encodeurl (c :: s) = encodechar c ++ encodeurl s := rfl

theorem encodeurl_nil_iff : encodeurl s = [] ↔ s = [] := by
  constructor
  · intro h
    rcases s with - | ⟨c, s⟩
    · rfl
    · rw [encodeurl_cons, List.append_eq_nil_iff] at h
      cases hc : encoded c with
      | true =>
        obtain ⟨⟨t, ht⟩, -⟩ := encodechar_encoded hc
        rw [ht] at h
        simp at h
      | false =>
        rw [encodechar_plain hc] at h
        simp at h
  · rintro rfl
    rfl

theorem splitl_encode (hcl : Delimits cl) (s : Str) :
    splitl (encodeurl s) cl = (encodeurl (splitl s cl).1, encodeurl (splitl s cl).2) := by
  induction s with
  | nil => rfl
  | cons c s ih =>
    simp only [splitl, Prod.mk.injEq] at ih ⊢
    rw [encodeurl_cons]
    cases hc : encoded c with
    | true =>
      have hfree : ∀ d ∈ encodechar c, (!cl d) = true := fun d hd => by
        rw [hcl.encoded_free hc d hd]
        rfl
      have hcl' : cl c = false := by
        rw [Bool.eq_false_iff]
        exact fun h => absurd (hcl.plain c h) (by simp [hc])
      rw [List.takeWhile_append_of_pos hfree, List.dropWhile_append_of_pos hfree,
        List.takeWhile_cons_of_pos (by simp [hcl']), List.dropWhile_cons_of_pos (by simp [hcl']),
        encodeurl_cons, ih.1, ih.2]
      exact ⟨rfl, rfl⟩
    | false =>
      rw [encodechar_plain hc, List.singleton_append]
      cases hd : cl c with
      | true =>
        simp [hd, encodeurl_cons, encodechar_plain hc]
        rfl
      | false =>
        simp only [List.takeWhile_cons, List.dropWhile_cons, hd, Bool.not_false, if_true]
        rw [ih.1, ih.2, encodeurl_cons, encodechar_plain hc]
        exact ⟨rfl, rfl⟩

theorem delimits_char (h : encoded d = false ∧ d ≠ '%' ∧ ∀ n < 16, hexdigit n ≠ d) :
    Delimits (· == d) where
  plain c hc := by
    obtain rfl : c = d := by simpa using hc
    exact h.1
  percent := by simpa using h.2.1.symm
  hex n hn := by simpa using h.2.2 n hn

theorem delimits_authority : Delimits fun c => c == '/' || c == '?' || c == '#' where
  plain c hc := by
    simp only [Bool.or_eq_true, beq_iff_eq] at hc
    rcases hc with (rfl | rfl) | rfl <;> decide
  percent := by decide
  hex := by decide

theorem dropWhile_head (s : Str) (cl : Char → Bool) :
    s.dropWhile (fun c => !cl c) = [] ∨
      ∃ c t, s.dropWhile (fun c => !cl c) = c :: t ∧ cl c = true := by
  induction s with
  | nil => exact .inl rfl
  | cons c s ih =>
    cases hc : cl c with
    | true => exact .inr ⟨c, s, by simp [hc], hc⟩
    | false => simpa [hc] using ih

theorem split_encode (h : encoded d = false ∧ d ≠ '%' ∧ ∀ n < 16, hexdigit n ≠ d) (s : Str) :
    split (encodeurl s) d = (encodeurl (split s d).1, encodeurl (split s d).2) := by
  have hcut := splitl_encode (delimits_char h) s
  rw [split, split, hcut]
  simp only [Prod.mk.injEq, true_and]
  rcases dropWhile_head s (· == d) with hnil | ⟨c, t, hcons, hc⟩
  · simp only [splitl, hnil]
    rfl
  · obtain rfl : c = d := by simpa using hc
    simp only [splitl, hcons, encodeurl_cons, encodechar_plain h.1]
    rfl

theorem split_colon (s : Str) :
    split (encodeurl s) ':' = (encodeurl (split s ':').1, encodeurl (split s ':').2) :=
  split_encode (by decide) s

theorem encodeurl_plain (h : ∀ c ∈ s, encoded c = false) : encodeurl s = s := by
  induction s with
  | nil => rfl
  | cons c s ih =>
    rw [encodeurl_cons, encodechar_plain (h c (by simp)), ih fun d hd => h d (by simp [hd])]
    rfl

theorem schemechar_plain (h : schemechar c = true) : encoded c = false := by
  have hcode : ∀ d : Char, c = d → c.toNat = d.toNat := fun d hd => congrArg Char.toNat hd
  have hlow : c.toNat = 45 ∨ 97 ≤ c.toNat ∧ c.toNat ≤ 122 ∨ 65 ≤ c.toNat ∧ c.toNat ≤ 90 ∨
      48 ≤ c.toNat ∧ c.toNat ≤ 57 ∨ c.toNat = 46 ∨ c.toNat = 43 := by
    simp only [schemechar, Bool.or_eq_true, Bool.and_eq_true, beq_iff_eq, decide_eq_true_eq,
      or_assoc] at h
    rcases h with h | h | h | h | h | h
    · exact .inl (hcode _ h)
    · exact .inr (.inl h)
    · exact .inr (.inr (.inl h))
    · exact .inr (.inr (.inr (.inl h)))
    · exact .inr (.inr (.inr (.inr (.inl (hcode _ h)))))
    · exact .inr (.inr (.inr (.inr (.inr (hcode _ h)))))
  have hne : ∀ d : Char, d.toNat ∈ [32, 34, 60, 62, 96, 123, 125] → c ≠ d := by
    rintro d hd rfl
    simp only [List.mem_cons, List.not_mem_nil, or_false] at hd
    omega
  rw [Bool.eq_false_iff]
  intro henc
  simp only [encoded, Bool.or_eq_true, beq_iff_eq, decide_eq_true_eq, or_assoc] at henc
  rcases henc with h | h | h | h | h | h | h | h
  · exact hne _ (by decide) h
  · omega
  · exact hne _ (by decide) h
  · exact hne _ (by decide) h
  · exact hne _ (by decide) h
  · exact hne _ (by decide) h
  · exact hne _ (by decide) h
  · exact hne _ (by decide) h

theorem schemechars_iff (s : Str) :
    (splitl s fun c => !schemechar c).2 = [] ↔ ∀ c ∈ s, schemechar c = true := by
  simp [splitl, List.dropWhile_eq_nil_iff]

theorem schemechars_encode (s : Str) :
    (∀ c ∈ encodeurl s, schemechar c = true) ↔ ∀ c ∈ s, schemechar c = true := by
  constructor
  · intro h c hc
    cases henc : encoded c with
    | true =>
      obtain ⟨⟨t, ht⟩, -⟩ := encodechar_encoded henc
      exact absurd (h '%' (List.mem_flatMap.mpr ⟨c, hc, by simp [ht]⟩)) (by decide)
    | false => exact h c (List.mem_flatMap.mpr ⟨c, hc, by simp [encodechar_plain henc]⟩)
  · intro h
    rwa [encodeurl_plain fun c hc => schemechar_plain (h c hc)]

theorem schemeof_encode (s : Str) :
    schemeof (encodeurl s) = ((schemeof s).1, encodeurl (schemeof s).2) := by
  rw [schemeof, schemeof, split_colon]
  simp only [encodeurl_nil_iff, ne_eq, schemechars_iff, schemechars_encode]
  split_ifs with hurl hsch
  · rfl
  · rw [encodeurl_plain fun c hc => schemechar_plain (hsch c hc)]
    cases schemes.find? fun p => p.2 == asciilower (split s ':').1 <;> rfl
  · rfl

theorem netlocof_encode (s : Str) : netlocof (encodeurl s) = (encodeurl (netlocof s).1,
    encodeurl (netlocof s).2.1, encodeurl (netlocof s).2.2.1, encodeurl (netlocof s).2.2.2) := by
  rw [netlocof, netlocof, split_encode (by decide)]
  simp only [encodeurl_nil_iff]
  split_ifs
  · simp only [split_colon]
    rfl
  · simp only [split_colon]

def placeof (scheme : Scheme) (url : Str) : Str × Str :=
  let netloc := (splitl (url.drop 2) fun c => c == '/' || c == '?' || c == '#').1
  if scheme = .mailto ∨ scheme = .javascript then ([], [])
  else if scheme = .file then
    (if (lit "//").isPrefixOf url ∧ netloc ≠ [] then netloc else lit "localhost", [])
  else if (lit "//").isPrefixOf url then ((netlocof netloc).2.2.1, (netlocof netloc).2.2.2)
  else ([], [])

theorem makeurl_place (s : Str) : (makeurl s).scheme = (schemeof s).1 ∧
    (makeurl s).host = (placeof (schemeof s).1 (schemeof s).2).1 ∧
    (makeurl s).port = (placeof (schemeof s).1 (schemeof s).2).2 := by
  rw [makeurl, placeof]
  by_cases hmail : (schemeof s).1 = .mailto ∨ (schemeof s).1 = .javascript
  · simp only [if_pos hmail]
    exact ⟨trivial, trivial, trivial⟩
  · simp only [if_neg hmail]
    by_cases hfile : (schemeof s).1 = .file
    · simp only [if_pos hfile]
      by_cases hslash : (lit "//").isPrefixOf (schemeof s).2 = true
      · simp only [hslash, true_and]
        generalize (splitl ((schemeof s).2.drop 2)
          fun c => c == '/' || c == '?' || c == '#').1 = loc
        by_cases hnet : loc = [] <;> simp [hnet]
      · simp only [hslash]
        split_ifs <;> simp_all
    · simp only [if_neg hfile]
      by_cases hslash : (lit "//").isPrefixOf (schemeof s).2 = true
      · simp only [if_pos hslash]
        exact ⟨trivial, trivial, trivial⟩
      · simp only [if_neg hslash]
        split_ifs <;> simp

theorem encodeurl_slash (h : encodeurl s = '/' :: t) : ∃ r, s = '/' :: r ∧ t = encodeurl r := by
  rcases s with - | ⟨c, r⟩
  · simp [encodeurl] at h
  · rw [encodeurl_cons] at h
    cases hc : encoded c with
    | true =>
      obtain ⟨⟨e, he⟩, -⟩ := encodechar_encoded hc
      rw [he] at h
      exact absurd (List.cons.inj h).1 (by decide)
    | false =>
      rw [encodechar_plain hc] at h
      obtain ⟨rfl, rfl⟩ := List.cons.inj h
      exact ⟨r, rfl, rfl⟩

theorem slashes_encode (s : Str) :
    (lit "//").isPrefixOf (encodeurl s) = true ↔ ∃ r, s = '/' :: '/' :: r := by
  have hslash : encodechar '/' = ['/'] := by decide
  constructor
  · intro h
    obtain ⟨t, ht⟩ := List.isPrefixOf_iff_prefix.mp h
    obtain ⟨r, rfl, hr⟩ := encodeurl_slash ht.symm
    obtain ⟨r', rfl, -⟩ := encodeurl_slash hr.symm
    exact ⟨r', rfl⟩
  · rintro ⟨r, rfl⟩
    rw [encodeurl_cons, encodeurl_cons, hslash]
    rfl

theorem placeof_encode (scheme : Scheme) (url : Str) : placeof scheme (encodeurl url) =
    (encodeurl (placeof scheme url).1, encodeurl (placeof scheme url).2) := by
  by_cases hurl : ∃ r, url = '/' :: '/' :: r
  · obtain ⟨r, rfl⟩ := hurl
    have hslash := (slashes_encode ('/' :: '/' :: r)).mpr ⟨r, rfl⟩
    have hplain : (lit "//").isPrefixOf ('/' :: '/' :: r) = true := rfl
    have hnet : (splitl ((encodeurl ('/' :: '/' :: r)).drop 2)
        fun c => c == '/' || c == '?' || c == '#').1 =
        encodeurl (splitl r fun c => c == '/' || c == '?' || c == '#').1 := by
      have hdrop : (encodeurl ('/' :: '/' :: r)).drop 2 = encodeurl r := by
        rw [encodeurl_cons, encodeurl_cons, show encodechar '/' = ['/'] by decide]
        rfl
      rw [hdrop, splitl_encode delimits_authority]
    simp only [placeof, hslash, hplain, hnet, ne_eq, encodeurl_nil_iff, List.drop_succ_cons,
      List.drop_zero, netlocof_encode]
    split_ifs <;> rfl
  · have hslash : (lit "//").isPrefixOf (encodeurl url) = false :=
      Bool.eq_false_iff.mpr fun h => hurl ((slashes_encode url).mp h)
    have hplain : (lit "//").isPrefixOf url = false := by
      rw [Bool.eq_false_iff]
      intro h
      obtain ⟨r, hr⟩ := List.isPrefixOf_iff_prefix.mp h
      exact hurl ⟨r, hr.symm⟩
    simp only [placeof, hslash, hplain, Bool.false_eq_true, false_and, if_false]
    split_ifs <;> rfl

theorem makeurl_encode (s : Str) : (makeurl (encodeurl s)).scheme = (makeurl s).scheme ∧
    (makeurl (encodeurl s)).host = encodeurl (makeurl s).host ∧
    (makeurl (encodeurl s)).port = encodeurl (makeurl s).port := by
  obtain ⟨h1, h2, h3⟩ := makeurl_place s
  obtain ⟨h1', h2', h3'⟩ := makeurl_place (encodeurl s)
  rw [schemeof_encode, placeof_encode] at h2' h3'
  rw [schemeof_encode] at h1'
  exact ⟨h1'.trans h1.symm, h2'.trans (congrArg encodeurl h2.symm),
    h3'.trans (congrArg encodeurl h3.symm)⟩

theorem portof_encode (s : Str) :
    portof (makeurl (encodeurl s)) = encodeurl (portof (makeurl s)) := by
  obtain ⟨hscheme, -, hport⟩ := makeurl_encode s
  simp only [portof, hscheme, hport, encodeurl_nil_iff]
  split_ifs <;> rfl

def schemename (url : Str) : Str :=
  if (makeurl url).scheme = .noscheme then [] else asciilower (split url ':').1

def origin (url : Str) : Str × Str × Str :=
  (schemename url, (makeurl url).host, portof (makeurl url))

theorem schemes_name : ∀ p ∈ schemes, p.2 = p.1.name := by decide

theorem schemename_known (h : (makeurl s).scheme ≠ .unknown) :
    schemename s = (makeurl s).scheme.name := by
  rw [schemename]
  split_ifs with hno
  · rw [hno]
    rfl
  · rw [(makeurl_place s).1] at h hno ⊢
    rw [schemeof] at h hno ⊢
    simp only at h hno ⊢
    split_ifs at h hno ⊢ with h1 h2
    · exact absurd rfl hno
    · exact absurd rfl hno
    · cases hfind : schemes.find? fun p => p.2 == asciilower (split s ':').1 with
      | none =>
        rw [hfind] at h
        exact absurd rfl h
      | some p =>
        have hname : p.2 = asciilower (split s ':').1 := by
          simpa using List.find?_some hfind
        rw [← hname]
        exact schemes_name p (List.mem_of_find?_eq_some hfind)

theorem name_injective {a b : Scheme} (h : a.name = b.name) : a = b := by
  revert h
  cases a <;> cases b <;> decide

theorem name_colon (a : Scheme) : ':' ∉ a.name := by
  cases a <;> decide

def Silent (port : Str) : Prop := port = lit "80" ∨ port = lit "443"

def portpart (u : ParsedUrl) : Str :=
  if portof u ≠ lit "80" ∧ portof u ≠ lit "443" then ':' :: portof u else []

theorem schemehost_eq (s : Str) : schemehost s = (makeurl s).scheme.name ++ ':' ::
    (lit "//" ++ (makeurl s).host ++ portpart (makeurl s)) := by
  rw [schemehost, portpart]
  split_ifs <;> simp [lit]

theorem cut_at {d : Char} {x y x' y' : Str} (hx : d ∉ x) (hx' : d ∉ x')
    (h : x ++ d :: y = x' ++ d :: y') : x = x' ∧ y = y' := by
  induction x generalizing x' with
  | nil =>
    rcases x' with - | ⟨e, x'⟩
    · exact ⟨rfl, by simpa using h⟩
    · obtain ⟨rfl, -⟩ := List.cons.inj h
      simp at hx'
  | cons e x ih =>
    rcases x' with - | ⟨e', x'⟩
    · obtain ⟨rfl, -⟩ := List.cons.inj h
      simp at hx
    · obtain ⟨rfl, htail⟩ := List.cons.inj h
      obtain ⟨rfl, hy⟩ := ih (fun hm => hx (by simp [hm])) (fun hm => hx' (by simp [hm])) htail
      exact ⟨rfl, hy⟩

theorem host_colon (s : Str) : if (makeurl s).scheme = .file then (makeurl s).port = []
    else ':' ∉ (makeurl s).host := by
  obtain ⟨hscheme, hhost, hport⟩ := makeurl_place s
  have hsplit : ∀ t : Str, ':' ∉ (split t ':').1 := by
    intro t hm
    have := List.mem_takeWhile_imp hm
    simp at this
  rw [hhost, hport, hscheme]
  by_cases hmail : (schemeof s).1 = .mailto ∨ (schemeof s).1 = .javascript
  · simp only [placeof, if_pos hmail]
    split_ifs
    · simp
  · by_cases hfile : (schemeof s).1 = .file
    · simp only [placeof, if_neg hmail, if_pos hfile]
    · simp only [placeof, if_neg hmail, if_neg hfile]
      split_ifs
      · unfold netlocof
        simp only
        split_ifs
        · exact hsplit _
        · exact hsplit _
      · simp

theorem portpart_eq {a b : ParsedUrl} (h : portpart a = portpart b) :
    portof a = portof b ∨ Silent (portof a) ∧ Silent (portof b) := by
  rw [portpart, portpart] at h
  split_ifs at h with ha hb hb
  · exact .inl (List.cons.inj h).2
  · right
    simp only [Silent]
    tauto

theorem schemehost_inj {a b : Str} (h : schemehost a = schemehost b) :
    (makeurl a).scheme = (makeurl b).scheme ∧ (makeurl a).host = (makeurl b).host ∧
      (portof (makeurl a) = portof (makeurl b) ∨
        Silent (portof (makeurl a)) ∧ Silent (portof (makeurl b))) := by
  rw [schemehost_eq, schemehost_eq] at h
  obtain ⟨hname, hrest⟩ := cut_at (name_colon _) (name_colon _) h
  have hscheme := name_injective hname
  have hplace : (makeurl a).host ++ portpart (makeurl a) =
      (makeurl b).host ++ portpart (makeurl b) := by
    simpa [lit] using hrest
  have ha := host_colon a
  have hb := host_colon b
  rw [← hscheme] at hb
  refine ⟨hscheme, ?_⟩
  split_ifs at ha hb with hfile
  · have hport : ∀ s, (makeurl s).scheme = .file → (makeurl s).port = [] →
        portof (makeurl s) = lit "80" := by
      intro s hs hp
      rw [portof, if_pos hp, hs]
      rfl
    have hpa := hport a hfile ha
    have hpb := hport b (hscheme ▸ hfile) hb
    rw [portpart, portpart, hpa, hpb] at hplace
    exact ⟨by simpa using hplace, .inl (hpa.trans hpb.symm)⟩
  · have hhost : (makeurl a).host = (makeurl b).host ∧
        portpart (makeurl a) = portpart (makeurl b) := by
      have hpart : ∀ u : ParsedUrl, portpart u = [] ∨ ∃ p, portpart u = ':' :: p := by
        intro u
        rw [portpart]
        split_ifs
        · exact .inr ⟨_, rfl⟩
        · exact .inl rfl
      rcases hpart (makeurl a) with h1 | ⟨p, h1⟩ <;> rcases hpart (makeurl b) with h2 | ⟨q, h2⟩ <;>
        rw [h1, h2] at hplace ⊢
      · exact ⟨by simpa using hplace, rfl⟩
      · rw [List.append_nil] at hplace
        exact absurd (hplace ▸ ha) (by simp)
      · rw [List.append_nil] at hplace
        exact absurd (hplace ▸ hb) (by simp)
      · obtain ⟨hh, rfl⟩ := cut_at ha hb hplace
        exact ⟨hh, rfl⟩
    exact ⟨hhost.1, portpart_eq hhost.2⟩

/-- Two URLs that `schemehost` does not tell apart: the ports 80 and 443 of one host, or two
schemes that it does not know. -/
def Mixed (a b : Str) : Prop :=
  (makeurl a).scheme = (makeurl b).scheme ∧ (makeurl a).host = (makeurl b).host ∧
    (portof (makeurl a) ≠ portof (makeurl b) ∧ Silent (portof (makeurl a)) ∧
        Silent (portof (makeurl b)) ∨
      (makeurl a).scheme = .unknown ∧ schemename a ≠ schemename b)

theorem origin_kept {base : Str} (hb : encodeurl base = base) (h : schemehost u = schemehost base)
    (hm : ¬Mixed base (encodeurl u)) : origin (encodeurl u) = origin base := by
  obtain ⟨hscheme, hhost, hport⟩ := schemehost_inj h
  obtain ⟨hscheme', hhost', -⟩ := makeurl_encode u
  obtain ⟨-, hbhost, -⟩ := makeurl_encode base
  have hbport := portof_encode base
  rw [hb] at hbhost hbport
  have hsame : (makeurl base).scheme = (makeurl (encodeurl u)).scheme := by
    rw [hscheme', hscheme]
  have hplace : (makeurl base).host = (makeurl (encodeurl u)).host := by
    rw [hhost', hhost]
    exact hbhost
  have hsilent : ∀ p, Silent p → encodeurl p = p := by
    rintro p (rfl | rfl) <;> decide
  have hports : portof (makeurl base) = portof (makeurl (encodeurl u)) := by
    by_contra hne
    refine hm ⟨hsame, hplace, .inl ⟨hne, ?_⟩⟩
    rw [portof_encode] at hne ⊢
    rcases hport with hp | ⟨hpu, hpb⟩
    · rw [hp] at hne
      exact absurd hbport hne
    · rw [hsilent _ hpu]
      exact ⟨hpb, hpu⟩
  have hname : schemename base = schemename (encodeurl u) := by
    by_cases hunknown : (makeurl base).scheme = .unknown
    · by_contra hne
      exact hm ⟨hsame, hplace, .inr ⟨hunknown, hne⟩⟩
    · rw [schemename_known hunknown, schemename_known (hsame ▸ hunknown), hsame]
  rw [origin, origin, hname, hplace, hports]

end Infernode.Web
