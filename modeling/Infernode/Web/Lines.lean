import Infernode.Web.Cookie

/-!
# Cookies as lines

A cookie whose texts have no separator of the line form comes back from its line, and a page
sees of such a jar what it may see. The tests on domains and paths are those of RFC 6265.
-/

namespace Infernode.Web

open Audit (dec printed strtoint IsInt)
open Limbo (Str lit asciilower asciilowerchar tokenize tokens Word isdigit)

variable {c o : Cookie} {jar l : Jar} {host domain rpath cpath s t origin : Str} {d : Char}

def DomainMatch (host domain : Str) : Prop :=
  host = domain ∨ (isip host = false ∧ '.' :: domain <:+ host)

def PathMatch (rpath cpath : Str) : Prop :=
  rpath = cpath ∨ cpath <+: rpath ∧ (cpath.getLast? = some '/' ∨ cpath ++ ['/'] <+: rpath)

theorem domainmatch_iff : domainmatch host domain = true ↔ DomainMatch host domain := by
  rw [domainmatch, DomainMatch, Bool.or_eq_true, beq_iff_eq]
  refine or_congr_right ?_
  simp only [Bool.and_eq_true, decide_eq_true_eq, beq_iff_eq, Bool.not_eq_true']
  constructor
  · rintro ⟨⟨⟨hlen, hdrop⟩, hdot⟩, hip⟩
    refine ⟨hip, host.take (host.length - domain.length - 1), ?_⟩
    obtain ⟨hlt, hget⟩ := List.getElem?_eq_some_iff.mp hdot
    have hcons := List.drop_eq_getElem_cons hlt
    rw [hget, show host.length - domain.length - 1 + 1 = host.length - domain.length by omega,
      hdrop] at hcons
    rw [← hcons, List.take_append_drop]
  · rintro ⟨hip, p, rfl⟩
    have hlen : (p ++ '.' :: domain).length - domain.length = p.length + 1 := by
      simp only [List.length_append, List.length_cons]
      omega
    refine ⟨⟨⟨?_, ?_⟩, ?_⟩, hip⟩
    · simp only [List.length_append, List.length_cons]
      omega
    · rw [hlen, List.append_cons, List.drop_left' (by simp)]
    · rw [hlen]
      simp

theorem pathmatch_iff : pathmatch rpath cpath = true ↔ PathMatch rpath cpath := by
  rw [pathmatch, PathMatch, Bool.or_eq_true, beq_iff_eq]
  by_cases heq : rpath = cpath
  · simp [heq]
  refine or_congr_right ?_
  simp only [Bool.and_eq_true, Bool.or_eq_true, decide_eq_true_eq, beq_iff_eq,
    ← List.getLast?_eq_getElem?]
  constructor
  · rintro ⟨⟨hlen, htake⟩, hslash⟩
    have hpre : cpath <+: rpath := List.prefix_iff_eq_take.mpr htake.symm
    refine ⟨hpre, hslash.imp_right fun hget => ?_⟩
    obtain ⟨r, rfl⟩ := hpre
    rw [List.getElem?_append_right le_rfl, Nat.sub_self] at hget
    cases r with
    | nil => simp at hget
    | cons x r => exact ⟨r, by simpa using hget.symm⟩
  · rintro ⟨⟨r, rfl⟩, hslash⟩
    have hr : r ≠ [] := by
      rintro rfl
      simp at heq
    refine ⟨⟨?_, List.take_left⟩, hslash.imp_right ?_⟩
    · have := List.length_pos_of_ne_nil hr
      rw [List.length_append]
      omega
    · rintro ⟨x, hx⟩
      rw [List.append_assoc, List.append_cancel_left_eq] at hx
      simp [← hx]

def Plain (s : Str) : Prop := ' ' ∉ s ∧ '\t' ∉ s ∧ '\n' ∉ s ∧ '\x00' ∉ s

structure Cookie.Good (c : Cookie) : Prop where
  name : Plain c.name ∧ c.name ≠ [] ∧ '=' ∉ c.name
  value : Plain c.value
  domain : Plain c.domain ∧ c.domain ≠ [] ∧ asciilower c.domain = c.domain
  path : Plain c.path ∧ c.path ≠ []
  ints : IsInt c.expires ∧ IsInt c.secure ∧ IsInt c.httponly ∧ IsInt c.hostonly

def Cookie.fields (c : Cookie) : List Str :=
  [c.domain, c.path, c.name ++ '=' :: c.value, dec c.expires, dec c.secure, dec c.httponly,
    dec c.hostonly]

theorem atequals_eq (h : '=' ∉ s) (t : Str) : atequals (s ++ '=' :: t) = (s, t) := by
  have hall : ∀ x ∈ s, decide (x ≠ '=') = true := fun x hx => by
    simpa using fun heq : x = '=' => h (heq ▸ hx)
  rw [atequals, List.takeWhile_append_of_pos hall, List.dropWhile_append_of_pos hall]
  simp

theorem tokens_joined {delim : Char → Bool} {toks : List Str} {tok : Str} (hd : delim ' ' = true)
    (htoks : ∀ w ∈ tok :: toks, Word delim w) :
    tokens delim [] (tok ++ toks.flatMap (' ' :: ·)) = tok :: toks := by
  have hspaced := Limbo.tokens_spaced hd htoks
  rwa [List.flatMap_cons, List.cons_append, Limbo.tokens_delim hd] at hspaced

theorem dec_plain (n : ℤ) : Plain (dec n) :=
  ⟨Audit.dec_not_mem n (by decide) (by decide), Audit.dec_not_mem n (by decide) (by decide),
    Audit.dec_not_mem n (by decide) (by decide), Audit.dec_not_mem n (by decide) (by decide)⟩

theorem plain_append : Plain (s ++ t) ↔ Plain s ∧ Plain t := by
  simp only [Plain, List.mem_append, not_or]
  tauto

theorem plain_cons : Plain (d :: s) ↔ Plain [d] ∧ Plain s := plain_append (s := [d])

theorem Cookie.Good.fields (h : c.Good) : ∀ w ∈ c.fields, w ≠ [] ∧ Plain w := by
  intro w hw
  simp only [Cookie.fields, List.mem_cons, List.not_mem_nil, or_false] at hw
  rcases hw with rfl | rfl | rfl | rfl | rfl | rfl | rfl
  · exact ⟨h.domain.2.1, h.domain.1⟩
  · exact ⟨h.path.2, h.path.1⟩
  · refine ⟨by simp, plain_append.mpr ⟨h.name.1, plain_cons.mpr ⟨?_, h.value⟩⟩⟩
    simp [Plain]
  · exact ⟨Audit.dec_ne_nil _, dec_plain _⟩
  · exact ⟨Audit.dec_ne_nil _, dec_plain _⟩
  · exact ⟨Audit.dec_ne_nil _, dec_plain _⟩
  · exact ⟨Audit.dec_ne_nil _, dec_plain _⟩

theorem cookieline_fields (h : c.Good) :
    cookieline c = c.domain ++ c.fields.tail.flatMap (' ' :: ·) := by
  have hprinted : ∀ {s}, Plain s → printed s = s := fun hs => Audit.printed_of_nonul hs.2.2.2
  rw [cookieline, hprinted h.domain.1, hprinted h.path.1, hprinted h.name.1, hprinted h.value]
  simp [Cookie.fields]

theorem tokenize_cookieline (h : c.Good) {delim : Str} (hspace : ' ' ∈ delim)
    (hdelim : delim ⊆ [' ', '\t', '\n']) : tokenize (cookieline c) delim = c.fields := by
  rw [cookieline_fields h, tokenize]
  refine tokens_joined (decide_eq_true hspace) fun w hw => ?_
  obtain ⟨hne, hplain⟩ := h.fields w hw
  refine ⟨hne, fun x hx => decide_eq_false fun hin => ?_⟩
  have hsep := hdelim hin
  simp only [List.mem_cons, List.not_mem_nil, or_false] at hsep
  rcases hsep with rfl | rfl | rfl
  · exact hplain.1 hx
  · exact hplain.2.1 hx
  · exact hplain.2.2.1 hx

theorem linecookie_cookieline (h : c.Good) : linecookie (cookieline c) = .ok c := by
  obtain ⟨h1, h2, h3, h4⟩ := h.ints
  have htoks : tokenize (cookieline c) (lit " \t") = c.fields :=
    tokenize_cookieline h (by decide) (by decide)
  rw [linecookie, htoks]
  simp only [Cookie.fields, atequals_eq h.name.2.2, h.domain.2.2]
  rw [if_neg (by simp [h.name.2.1])]
  simp [fieldint, Audit.strtoint_dec h1, Audit.strtoint_dec h2, Audit.strtoint_dec h3,
    Audit.strtoint_dec h4]

theorem cookieline_word (h : c.Good) : Word (fun x => decide (x ∈ ['\n'])) (cookieline c) := by
  rw [cookieline_fields h]
  refine ⟨by simp [h.domain.2.1], fun x hx => decide_eq_false fun hin => ?_⟩
  obtain rfl := List.mem_singleton.mp hin
  rcases List.mem_append.mp hx with hx | hx
  · exact h.domain.1.2.2.1 hx
  · obtain ⟨w, hw, hx⟩ := List.mem_flatMap.mp hx
    rcases List.mem_cons.mp hx with heq | hx
    · exact absurd heq (by decide)
    · exact (h.fields w (List.mem_of_mem_tail hw)).2.2.2.1 hx

theorem tokenize_lines {ls : List Str} (h : ∀ w ∈ ls, Word (fun x => decide (x ∈ ['\n'])) w) :
    tokenize (ls.flatMap (· ++ ['\n'])) ['\n'] = ls := by
  induction ls with
  | nil => rfl
  | cons w ls ih =>
    have hrest := ih fun w hw => h w (by simp [hw])
    rw [tokenize] at hrest ⊢
    rw [List.flatMap_cons, List.append_assoc, List.singleton_append,
      Limbo.tokens_word_delim (h w (by simp)) (by simp), hrest]

theorem tokenize_jartext (h : ∀ c ∈ jar, c.Good) :
    tokenize (jartext jar) ['\n'] = jar.map cookieline := by
  have hwords : ∀ w ∈ jar.map cookieline, Word (fun x => decide (x ∈ ['\n'])) w := by
    intro w hw
    obtain ⟨c, hc, rfl⟩ := List.mem_map.mp hw
    exact cookieline_word (h c hc)
  have hlines := tokenize_lines hwords
  rwa [List.flatMap_map] at hlines

theorem putcookie_new (h : ∀ o ∈ jar, o.key ≠ c.key) : putcookie c jar = jar ++ [c] := by
  rw [putcookie, List.filter_eq_self.mpr fun o ho => decide_eq_true (h o ho)]

theorem restore (h : ∀ c ∈ l, c.Good) (hkeys : ((jar ++ l).map Cookie.key).Nodup) :
    (l.map cookieline).foldlM (fun j line => jaradd line j) jar = .ok (jar ++ l) := by
  induction l generalizing jar with
  | nil => simp; rfl
  | cons c l ih =>
    have hnew : ∀ o ∈ jar, o.key ≠ c.key := by
      rw [List.map_append, List.map_cons, List.nodup_append] at hkeys
      exact fun o ho => hkeys.2.2 _ (List.mem_map_of_mem ho) _ (by simp)
    have hadd : jaradd (cookieline c) jar = .ok (jar ++ [c]) := by
      rw [jaradd, linecookie_cookieline (h c (by simp))]
      exact congrArg Except.ok (putcookie_new hnew)
    have hkeys' : (((jar ++ [c]) ++ l).map Cookie.key).Nodup := by simpa using hkeys
    have hrest := ih (fun c hc => h c (by simp [hc])) hkeys'
    rw [List.append_assoc, List.singleton_append] at hrest
    rw [List.map_cons, List.foldlM_cons, hadd]
    exact hrest

theorem dec_zero {n : ℤ} : dec n = lit "0" ↔ n = 0 := by
  have h0 : dec 0 = lit "0" := by decide
  rw [← h0]
  exact Audit.dec_injective.eq_iff

def Cookie.visible (origin : Str) (c : Cookie) : Bool :=
  c.httponly == 0 && (c.secure == 0 || pagehttps origin) &&
    pagematch (pagehost origin) c.domain (c.hostonly != 0)

theorem pagesees_cookieline (h : c.Good) (origin : Str) :
    pagesees origin (cookieline c) = c.visible origin := by
  have hbeq : ∀ n : ℤ, (some (dec n) == some (lit "0")) = (n == 0) := fun n => by
    rw [Bool.eq_iff_iff, beq_iff_eq, beq_iff_eq, Option.some.injEq, dec_zero]
  rw [pagesees, tokenize_cookieline h (by decide) (by decide)]
  simp [Cookie.fields, Cookie.visible, bne, hbeq]

theorem cookiesread_visible (h : ∀ c ∈ jar, c.Good) (horigin : origin ≠ lit "null") :
    cookiesread origin jar = jartext (jar.filter (Cookie.visible origin)) := by
  have hfilter : (jar.map cookieline).filter (pagesees origin) =
      (jar.filter (Cookie.visible origin)).map cookieline := by
    rw [List.filter_map]
    congr 1
    exact List.filter_congr fun c hc => pagesees_cookieline (h c hc) origin
  rw [cookiesread, if_neg horigin, tokenize_jartext h, hfilter, List.flatMap_map, jartext]

end Infernode.Web
