import Infernode.Web.Blocked

/-!
# Literals of IPv6 addresses

An address is eight groups of sixteen bits. Its text gives each group in hexadecimal; `::`
stands for groups of zeros, and the last two groups may be a dotted IPv4 address.
-/

namespace Infernode.Web

open Limbo (Str lit isdigit digitval asciilower asciilowerchar prefixed)

variable {u v : ℕ} {s t p : Str} {c : Char} {g : List ℕ}

def hexgroup (s : Str) : Option ℕ :=
  if s ≠ [] ∧ s.length ≤ 4 ∧ (digits 16 0 s).2 = [] then some (digits 16 0 s).1 else none

def quad (s : Str) : Option (List ℕ) :=
  match octets s with
  | some [a, b, c, d] => some [a * 256 + b, c * 256 + d]
  | _ => none

def groups (final : Bool) : List Str → Option (List ℕ)
  | [] => some []
  | [p] => if final ∧ '.' ∈ p then quad p else (hexgroup p).map fun v => [v]
  | p :: ps => (hexgroup p).bind fun v => (groups final ps).map (v :: ·)

def colons (ps : List Str) : Str := [':'].intercalate ps

inductive Denotes : Str → List ℕ → Prop
  | full (ps : List Str) (g : List ℕ) (hg : groups true ps = some g) (hlen : g.length = 8) :
      Denotes (colons ps) g
  | elided (ps qs : List Str) (g g' : List ℕ) (hg : groups false ps = some g)
      (hg' : groups true qs = some g') (hlen : g.length + g'.length ≤ 7) :
      Denotes (colons ps ++ lit "::" ++ colons qs)
        (g ++ List.replicate (8 - (g.length + g'.length)) 0 ++ g')

def Unspecified (g : List ℕ) : Prop := g = [0, 0, 0, 0, 0, 0, 0, 0]

def Loopback (g : List ℕ) : Prop := g = [0, 0, 0, 0, 0, 0, 0, 1]

def UniqueLocal (g : List ℕ) : Prop := 0xfc00 ≤ g.headD 0 ∧ g.headD 0 < 0xfe00

def LinkLocal (g : List ℕ) : Prop := 0xfe80 ≤ g.headD 0 ∧ g.headD 0 < 0xfec0

def Internal (g : List ℕ) : Prop := Unspecified g ∨ Loopback g ∨ UniqueLocal g ∨ LinkLocal g

/-- The texts that are blocked: those that begin with `::`, two texts of the loopback address,
the unique-local addresses, and the link-local ones whose first group is `fe80`. -/
def Caught (s : Str) (g : List ℕ) : Prop :=
  prefixed s (lit "::") = true ∨ asciilower s ∈ loopbacktexts ∨ UniqueLocal g ∨
    g.headD 0 = 0xfe80

theorem hexgroup_some (h : hexgroup s = some v) :
    s ≠ [] ∧ s.length ≤ 4 ∧ digits 16 0 s = (v, []) := by
  rw [hexgroup] at h
  split_ifs at h with hs
  obtain ⟨hne, hlen, hrest⟩ := hs
  exact ⟨hne, hlen, Prod.ext (by simpa using h) hrest⟩

def addrchar (c : Char) : Bool := (digit 16 c).isSome || c == '.' || c == ':'

theorem digits_hex (h : digits 16 u s = (v, [])) : ∀ c ∈ s, addrchar c = true := by
  induction s generalizing u with
  | nil => simp
  | cons d s ih =>
    cases hd : digit 16 d with
    | none => simp [digits, hd] at h
    | some e =>
      rw [digits, hd] at h
      intro c hc
      rcases List.mem_cons.mp hc with rfl | hc
      · simp [addrchar, hd]
      · exact ih h c hc

theorem addrchar_digit (h : isdigit c = true) : addrchar c = true := by
  have hc : '0' ≤ c ∧ c ≤ '9' := by simpa [isdigit] using h
  have hhigh : c.toNat ≤ 57 := hc.2
  have hd : digit 16 c = some (c.toNat - 48) := by
    simp only [digit, if_pos hc, Option.filter_some]
    rw [if_pos (by simp; omega)]
  simp [addrchar, hd]

theorem groups_chars {final : Bool} {ps : List Str} (h : groups final ps = some g) :
    ∀ p ∈ ps, ∀ c ∈ p, addrchar c = true := by
  induction ps generalizing g with
  | nil => simp
  | cons p ps ih =>
    have hhex : ∀ {v}, hexgroup p = some v → ∀ c ∈ p, addrchar c = true := fun hv =>
      digits_hex (hexgroup_some hv).2.2
    rcases ps with - | ⟨q, qs⟩
    · intro p' hp
      obtain rfl : p' = p := by simpa using hp
      rw [groups] at h
      split_ifs at h with hdot
      · rw [quad] at h
        split at h
        · rename_i hos
          intro c hc
          rcases octets_chars hos hc with rfl | hd
          · rfl
          · exact addrchar_digit hd
        · simp at h
      · cases hv : hexgroup p' with
        | none => simp [hv] at h
        | some v => exact hhex hv
    · rw [groups] at h
      · cases hv : hexgroup p with
        | none => simp [hv] at h
        | some v =>
          cases hg : groups final (q :: qs) with
          | none => simp [hv, hg] at h
          | some g' =>
            intro p' hp
            rcases List.mem_cons.mp hp with rfl | hp
            · exact hhex hv
            · exact ih hg p' hp
      · simp

theorem Denotes.chars (h : Denotes s g) : ∀ c ∈ s, addrchar c = true := by
  have hpieces : ∀ {final : Bool} {ps : List Str} {g : List ℕ}, groups final ps = some g →
      ∀ c ∈ colons ps, addrchar c = true := by
    intro final ps g hg c hc
    rcases mem_intercalate hc with rfl | ⟨p, hp, hcp⟩
    · decide
    · exact groups_chars hg p hp c hcp
  cases h with
  | full ps g hg hlen => exact hpieces hg
  | elided ps qs g g' hg hg' hlen =>
    intro c hc
    rw [List.mem_append, List.mem_append] at hc
    rcases hc with (hc | hc) | hc
    · exact hpieces hg c hc
    · obtain rfl : c = ':' := by simpa [lit] using hc
      decide
    · exact hpieces hg' c hc

theorem Denotes.first (h : Denotes s g) : prefixed s (lit "::") = true ∨
    ∃ p r v, s = p ++ ':' :: r ∧ hexgroup p = some v ∧ g.headD 0 = v := by
  have hcons : ∀ {final : Bool} {p q : Str} {qs : List Str} {g : List ℕ},
      groups final (p :: q :: qs) = some g → ∃ v g', hexgroup p = some v ∧ g = v :: g' := by
    intro final p q qs g hg
    rw [groups] at hg
    · cases hv : hexgroup p with
      | none => simp [hv] at hg
      | some v =>
        cases hr : groups final (q :: qs) with
        | none => simp [hv, hr] at hg
        | some g' => exact ⟨v, g', rfl, by simpa [hv, hr, eq_comm] using hg⟩
    · simp
  have htext : ∀ (p q : Str) (qs : List Str),
      colons (p :: q :: qs) = p ++ ':' :: colons (q :: qs) := fun p q qs => by
    simp [colons, List.intercalate]
  cases h with
  | full ps g hg hlen =>
    right
    rcases ps with - | ⟨p, - | ⟨q, qs⟩⟩
    · obtain rfl : [] = g := by simpa [groups] using hg
      simp at hlen
    · -- a single piece makes one group or two
      exfalso
      rw [groups] at hg
      split_ifs at hg with hdot
      · rw [quad] at hg
        split at hg
        · obtain rfl := Option.some.inj hg
          simp at hlen
        · simp at hg
      · cases hv : hexgroup p with
        | none => simp [hv] at hg
        | some v =>
          obtain rfl : [v] = g := by simpa [hv] using hg
          simp at hlen
    · obtain ⟨v, g', hv, rfl⟩ := hcons hg
      exact ⟨p, colons (q :: qs), v, htext p q qs, hv, rfl⟩
  | elided ps qs g g' hg hg' hlen =>
    rcases ps with - | ⟨p, - | ⟨q, qs'⟩⟩
    · left
      exact (Limbo.prefixed_iff _ _).mpr ⟨colons qs, by simp [colons, List.intercalate]⟩
    · right
      rw [groups] at hg
      cases hv : hexgroup p with
      | none => simp [hv] at hg
      | some v =>
        obtain rfl : [v] = g := by simpa [hv] using hg
        exact ⟨p, ':' :: colons qs, v, by simp [colons, List.intercalate, lit], hv, rfl⟩
    · right
      obtain ⟨v, g'', hv, rfl⟩ := hcons hg
      exact ⟨p, colons (q :: qs') ++ lit "::" ++ colons qs, v, by simp [htext], hv, rfl⟩

def lowhex (d : ℕ) : Char := (lit "0123456789abcdef").getD d '0'

theorem lowhex_eq {d : ℕ} (h : digit 16 c = some d) : d < 16 ∧ asciilowerchar c = lowhex d := by
  obtain ⟨hcode, hd⟩ := digit_some ((digit_lower 16 c).trans h)
  have hupper : ¬(65 ≤ (asciilowerchar c).toNat ∧ (asciilowerchar c).toNat ≤ 90) :=
    Limbo.asciilowerchar_lower c
  have hnat : (asciilowerchar c).toNat = if d < 10 then 48 + d else 87 + d := by
    rw [digitcode] at hcode
    split_ifs at hcode ⊢ <;> simp only [Option.some.injEq] at hcode <;> omega
  refine ⟨hd, Char.toNat_inj.mp ?_⟩
  rw [hnat]
  interval_cases d <;> rfl

theorem hexgroup_digits (h : digits 16 u s = (v, [])) : ∃ ds : List ℕ, (∀ d ∈ ds, d < 16) ∧
    asciilower s = ds.map lowhex ∧ v = ds.foldl (fun u d => u * 16 + d) u := by
  induction s generalizing u with
  | nil =>
    obtain rfl : u = v := by simpa [digits] using h
    exact ⟨[], by simp, rfl, rfl⟩
  | cons c s ih =>
    cases hc : digit 16 c with
    | none => simp [digits, hc] at h
    | some d =>
      rw [digits, hc] at h
      obtain ⟨ds, hds, hs, hv⟩ := ih h
      obtain ⟨hd, hlow⟩ := lowhex_eq hc
      refine ⟨d :: ds, by simpa using ⟨hd, hds⟩, ?_, hv⟩
      rw [List.map_cons, ← hlow, ← hs]
      rfl

theorem lowhex_iff : ∀ d < 16, ('f' = lowhex d ↔ d = 15) ∧ ('c' = lowhex d ↔ d = 12) ∧
    ('d' = lowhex d ↔ d = 13) ∧ ('e' = lowhex d ↔ d = 14) ∧ ('8' = lowhex d ↔ d = 8) ∧
    ('0' = lowhex d ↔ d = 0) := by decide

theorem first_caught (h : hexgroup p = some v)
    (hv : v = 0 ∨ (0xfc00 ≤ v ∧ v < 0xfe00) ∨ (0xfe80 ≤ v ∧ v < 0xfec0)) (r : Str) :
    (prefixed (asciilower p ++ ':' :: r) (lit "fc") = true ∨
      prefixed (asciilower p ++ ':' :: r) (lit "fd") = true ∨
      prefixed (asciilower p ++ ':' :: r) (lit "fe80") = true) ↔
    (0xfc00 ≤ v ∧ v < 0xfe00) ∨ v = 0xfe80 := by
  obtain ⟨hne, hlen, hdigits⟩ := hexgroup_some h
  obtain ⟨ds, hds, hp, hval⟩ := hexgroup_digits hdigits
  have hlength : ds.length = p.length := by
    have := congrArg List.length hp
    simpa [asciilower] using this.symm
  have hpos : 0 < p.length := List.length_pos_of_ne_nil hne
  rw [hp]
  clear hp h hdigits
  rcases ds with _ | ⟨a, _ | ⟨b, _ | ⟨c, _ | ⟨d, _ | ⟨e, ds⟩⟩⟩⟩⟩
  · simp at hlength
    omega
  · obtain ⟨hf, -⟩ := lowhex_iff a (hds a (by simp))
    have ha := hds a (by simp)
    simp only [List.foldl_cons, List.foldl_nil] at hval
    simp [prefixed, lit]
    omega
  · obtain ⟨hfa, -⟩ := lowhex_iff a (hds a (by simp))
    obtain ⟨-, hcb, hdb, heb, -⟩ := lowhex_iff b (hds b (by simp))
    have ha := hds a (by simp)
    have hb := hds b (by simp)
    simp only [List.foldl_cons, List.foldl_nil] at hval
    simp [prefixed, lit, hfa, hcb, hdb, heb]
    omega
  · obtain ⟨hfa, -⟩ := lowhex_iff a (hds a (by simp))
    obtain ⟨-, hcb, hdb, heb, -⟩ := lowhex_iff b (hds b (by simp))
    have ha := hds a (by simp)
    have hb := hds b (by simp)
    have hc := hds c (by simp)
    simp only [List.foldl_cons, List.foldl_nil] at hval
    simp [prefixed, lit, hfa, hcb, hdb, heb]
    omega
  · obtain ⟨hfa, -⟩ := lowhex_iff a (hds a (by simp))
    obtain ⟨-, hcb, hdb, heb, -⟩ := lowhex_iff b (hds b (by simp))
    obtain ⟨-, -, -, -, h8c, -⟩ := lowhex_iff c (hds c (by simp))
    obtain ⟨-, -, -, -, -, h0d⟩ := lowhex_iff d (hds d (by simp))
    have ha := hds a (by simp)
    have hb := hds b (by simp)
    have hc := hds c (by simp)
    have hd := hds d (by simp)
    simp only [List.foldl_cons, List.foldl_nil] at hval
    simp [prefixed, lit, hfa, hcb, hdb, heb, h8c, h0d]
    omega
  · simp at hlength
    omega

theorem radixloop_colon {b x y : ℤ} (h : radixloop b x s = some y) : ':' ∉ s := by
  induction s generalizing x with
  | nil => simp
  | cons c s ih =>
    rw [radixloop] at h
    by_cases hc : c = ':'
    · subst hc
      simp at h
    · split_ifs at h <;> exact fun hm => (List.mem_cons.mp hm).elim (Ne.symm hc) (ih h)

theorem parseradix_colon {y : ℤ} (h : parseradix s = some y) : ':' ∉ s := by
  unfold parseradix at h
  split_ifs at h
  split at h
  · rename_i x d t _
    split_ifs at h with hx
    · have := radixloop_colon h
      rcases hx with rfl | rfl <;> simpa using this
    · simpa using radixloop_colon h
  · simpa using radixloop_colon h
  · exact radixloop_colon h

theorem parseipv4any_colon (h : ':' ∈ s) : parseipv4any s = none := by
  rw [parseipv4any]
  split_ifs
  · rfl
  · cases hparts : (s.splitOn '.').mapM parseradix with
    | none => rfl
    | some ordered =>
      exfalso
      rw [← intercalate_split s] at h
      rcases mem_intercalate h with h | ⟨p, hp, hcp⟩
      · exact absurd h (by decide)
      · obtain ⟨y, hy⟩ := (mapM_isSome hparts).2 p hp
        exact parseradix_colon hy hcp

theorem addrchar_lower (c : Char) : addrchar (asciilowerchar c) = addrchar c := by
  have hdot := lowerchar_iff (d := '.') (by decide) c
  have hcolon := lowerchar_iff (d := ':') (by decide) c
  rw [Bool.eq_iff_iff, addrchar, addrchar, digit_lower]
  simp [hdot, hcolon]

theorem unbracketed_eq (hs : s ≠ []) : unbracketed ('[' :: s ++ [']']) = s := by
  have hpos := List.length_pos_of_ne_nil hs
  have hlast : ('[' :: s ++ [']']).getLast? = some ']' := List.getLast?_concat
  rw [unbracketed, if_pos ⟨by simp; omega, by simp, hlast⟩]
  simp

theorem hostblocked_bracket (hchars : ∀ c ∈ s, addrchar c = true) (hcolon : ':' ∈ s)
    (hlow : asciilower s = s) :
    hostblocked ('[' :: s ++ [']']) = true ↔
      prefixed s (lit "::") = true ∨ s ∈ loopbacktexts ∨ prefixed s (lit "fc") = true ∨
        prefixed s (lit "fd") = true ∨ prefixed s (lit "fe80") = true := by
  have hne : s ≠ [] := List.ne_nil_of_mem hcolon
  have htext : asciilower ('[' :: s ++ [']']) = '[' :: s ++ [']'] := by
    rw [Limbo.asciilower_append]
    exact congrArg (fun t => '[' :: t ++ [']']) hlow
  have hname : s ∉ blockednames := by
    intro h
    simp only [blockednames, List.mem_cons, List.not_mem_nil, or_false] at h
    rcases h with rfl | rfl | rfl | rfl <;> exact absurd hcolon (by decide)
  have hlocal : prefixed s (lit "localhost.") = false := by
    rw [Bool.eq_false_iff]
    intro h
    obtain ⟨t, rfl⟩ := (Limbo.prefixed_iff _ _).mp h
    exact absurd (hchars 'l' (by simp [lit])) (by decide)
  unfold hostblocked
  rw [if_neg (by simp), htext]
  simp only [unbracketed_eq hne, if_neg hname, hlocal, parseipv4any_colon hcolon]
  by_cases hloop : s ∈ loopbacktexts
  · simp [hloop]
  · simp [blockedprefixes, hloop]

theorem Denotes.hostlike (h : Denotes s g) : Hostlike ('[' :: s ++ [']']) := by
  have hno : ∀ c ∈ s, authend c = false ∧ c ≠ '@' ∧ c ≠ ']' := by
    intro c hc
    have hchar := h.chars c hc
    refine ⟨?_, ?_, ?_⟩
    · rw [Bool.eq_false_iff]
      intro hend
      simp only [authend, Bool.or_eq_true, beq_iff_eq] at hend
      rcases hend with (rfl | rfl) | rfl <;> exact absurd hchar (by decide)
    · rintro rfl
      exact absurd hchar (by decide)
    · rintro rfl
      exact absurd hchar (by decide)
  refine ⟨fun c hc => ?_, .inl ⟨s, rfl, fun hm => (hno _ hm).2.2 rfl⟩⟩
  rcases List.mem_append.mp hc with hc | hc
  · rcases List.mem_cons.mp hc with rfl | hc
    · decide
    · exact ⟨(hno c hc).1, (hno c hc).2.1⟩
  · obtain rfl : c = ']' := by simpa using hc
    decide

theorem Internal.first (h : Internal g) : g.headD 0 = 0 ∨
    (0xfc00 ≤ g.headD 0 ∧ g.headD 0 < 0xfe00) ∨ (0xfe80 ≤ g.headD 0 ∧ g.headD 0 < 0xfec0) := by
  rcases h with h | h | h | h
  · exact .inl (by rw [h]; rfl)
  · exact .inl (by rw [h]; rfl)
  · exact .inr (.inl h)
  · exact .inr (.inr h)

theorem prefixed_double (s : Str) :
    prefixed (asciilower s) (lit "::") = prefixed s (lit "::") := by
  have hcolon := lowerchar_iff (d := ':') (by decide)
  rcases s with - | ⟨c, - | ⟨d, s⟩⟩
  · rfl
  · simp [prefixed, lit, asciilower, List.isPrefixOf]
  · rw [Bool.eq_iff_iff]
    simp [prefixed, lit, asciilower, eq_comm (a := ':'), hcolon]

theorem blocked_iff_caught {url : Str} (hurl : Hosted url ('[' :: s ++ [']']))
    (h : Denotes s g) (hg : Internal g) : hostblocked (urlhost url) = true ↔ Caught s g := by
  have hbr : asciilower ('[' :: s ++ [']']) = '[' :: asciilower s ++ [']'] := by
    rw [Limbo.asciilower_append]
    rfl
  have hchars : ∀ c ∈ asciilower s, addrchar c = true := by
    intro c hc
    obtain ⟨d, hd, rfl⟩ := List.mem_map.mp hc
    rw [addrchar_lower]
    exact h.chars d hd
  have hfirst := h.first
  have hcolon : ':' ∈ asciilower s := by
    have hmem : ':' ∈ s := by
      rcases hfirst with hp | ⟨p, r, v, rfl, -⟩
      · obtain ⟨t, rfl⟩ := (Limbo.prefixed_iff _ _).mp hp
        simp [lit]
      · simp
    exact List.mem_map.mpr ⟨':', hmem, by decide⟩
  rw [urlhost_eq hurl h.hostlike, hbr, hostblocked_bracket hchars hcolon (Limbo.asciilower_idem s),
    prefixed_double, Caught]
  by_cases hdouble : prefixed s (lit "::") = true
  · simp [hdouble]
  · obtain ⟨p, r, v, rfl, hp, hv⟩ := hfirst.resolve_left hdouble
    have hiff := first_caught hp (hv ▸ hg.first) (asciilower r)
    have htext : asciilower (p ++ ':' :: r) = asciilower p ++ ':' :: asciilower r := by
      rw [Limbo.asciilower_append]
      rfl
    rw [← htext] at hiff
    rw [hiff, UniqueLocal, hv]

end Infernode.Web
