import Infernode.Lib.Reference
import Infernode.Web.Request

/-!
# The target of a redirect

`resolve` joins texts. It gives the target of a reference where nothing is left to normalise:
the scheme and host of the base come back as they stand in it, and the path that results holds
no dot segments.
-/

namespace Infernode.Web

open Limbo (Str lit)
open Reference (Parts parse recompose target transform removedots directory merge before schemetext
  cutscheme cutauthority cutquery cutfragment ofrest pathend)

variable {base rel s a : Str}

/-- The base is a scheme and an authority that `schemehost` gives back as they stand. -/
def Rooted (base : Str) : Prop :=
  ∃ s a, (parse base).scheme = some s ∧ (parse base).authority = some a ∧
    schemehost base = s ++ lit "://" ++ a

def Resolvable (base rel : Str) : Prop :=
  let b := parse base
  let r := parse rel
  if (rel.dropWhile relchar).head? = some ':' then
    r.scheme.isSome = true ∧ removedots r.path = r.path
  else if r.authority.isSome then b.scheme.isSome = true ∧ removedots r.path = r.path
  else if r.path.head? = some '/' then Rooted base ∧ removedots r.path = r.path
  else if r.path = [] then
    Rooted base ∧ (r.query.isSome = true ∨ b.query = none ∧ directory b.path = b.path)
  else
    Rooted base ∧ b.path ≠ [] ∧
      removedots (directory b.path ++ r.path) = directory b.path ++ r.path

theorem cutscheme_some (h : (cutscheme base).1 = some s) :
    base = s ++ ':' :: (cutscheme base).2 ∧ ':' ∉ s := by
  have htext := Reference.cutscheme_text base
  rw [h] at htext
  refine ⟨by simpa [schemetext] using htext.symm, ?_⟩
  rw [cutscheme] at h
  split_ifs at h
  obtain rfl : base.takeWhile Reference.schemechar = s := by simpa using h
  intro hm
  exact absurd (List.mem_takeWhile_imp hm) (by decide)

theorem cutscheme_none (h : (rel.dropWhile relchar).head? ≠ some ':') :
    cutscheme rel = (none, rel) := by
  rw [cutscheme, if_neg]
  exact fun hs => h hs.2

theorem parse_noscheme (h : (rel.dropWhile relchar).head? ≠ some ':') :
    parse rel = ofrest none (cutauthority rel).1 (cutauthority rel).2 := by
  rw [parse, cutscheme_none h]

theorem path_eq (s : Str) : (parse s).path = (parse s).tail.takeWhile fun c => !pathend c := by
  rw [show (parse s).tail = (cutauthority (cutscheme s).2).2 from Reference.ofrest_text _ _ _]
  rfl

theorem rooted_text (hs : (parse base).scheme = some s) (ha : (parse base).authority = some a) :
    base = s ++ lit "://" ++ a ++ (parse base).tail := by
  have h := Reference.recompose_parse base
  rw [recompose, hs, ha] at h
  simpa [schemetext, before, lit] using h.symm

theorem takeWhile_colon (h : ':' ∉ s) (t : Str) : (s ++ ':' :: t).takeWhile (· ≠ ':') = s := by
  have hall : ∀ c ∈ s, decide (c ≠ ':') = true := fun c hc => by
    simpa using fun heq : c = ':' => h (heq ▸ hc)
  rw [List.takeWhile_append_of_pos hall]
  simp

theorem resolve_authority {t : Str} (hr : rel = '/' :: '/' :: t)
    (hb : (parse base).scheme.isSome = true)
    (hdots : removedots (parse rel).path = (parse rel).path) :
    resolve base rel = some (target base rel) := by
  have hscheme : (rel.dropWhile relchar).head? ≠ some ':' := by
    rw [hr]
    simp [relchar]
  have hnone : (parse rel).scheme = none := congrArg Prod.fst (cutscheme_none hscheme)
  have hauth : (parse rel).authority.isSome = true := by
    rw [parse_noscheme hscheme, hr]
    rfl
  obtain ⟨s, hs⟩ := Option.isSome_iff_exists.mp hb
  obtain ⟨hbase, hcolon⟩ := cutscheme_some hs
  have htext := Reference.recompose_parse rel
  rw [recompose, hnone] at htext
  have hscm : (if ':' ∈ base then base.takeWhile (· ≠ ':') else []) = s := by
    rw [hbase, if_pos (by simp), takeWhile_colon hcolon]
  have hslash : (lit "//").isPrefixOf rel = true := by
    rw [hr]
    rfl
  have hresolve : resolve base rel = some (s ++ ':' :: rel) := by
    simp only [resolve, if_neg hscheme, hslash, if_true, hscm]
  rw [hresolve, target, transform, hnone, if_neg (by simp), if_pos hauth, hdots, hs]
  refine congrArg some ?_
  rw [recompose]
  calc s ++ ':' :: rel
      = s ++ ':' :: (schemetext none ++ before ['/', '/'] (parse rel).authority ++
          (parse rel).tail) := by rw [htext]
    _ = _ := by simp [schemetext, Parts.tail]

theorem parse_plain (hscheme : (rel.dropWhile relchar).head? ≠ some ':')
    (hslash : (lit "//").isPrefixOf rel = false) : parse rel = ofrest none none rel := by
  have hauth : cutauthority rel = (none, rel) := by
    unfold cutauthority
    split
    · simp [lit, List.isPrefixOf] at hslash
    · rfl
  rw [parse_noscheme hscheme, hauth]

theorem recompose_root {p : Str} {q f : Option Str} (hr : schemehost base = s ++ lit "://" ++ a) :
    recompose ⟨some s, some a, p, q, f⟩ =
      schemehost base ++ (p ++ before ['?'] q ++ before ['#'] f) := by
  rw [recompose, hr]
  simp [schemetext, before, lit, Parts.tail]

theorem rooted_slice (h : Rooted base) : ∃ s a, (parse base).scheme = some s ∧
    (parse base).authority = some a ∧ schemehost base = s ++ lit "://" ++ a ∧
    ¬base.length < (schemehost base).length ∧
    (base.drop (schemehost base).length).takeWhile (fun c => !(c == '?' || c == '#')) =
      (parse base).path := by
  obtain ⟨s, a, hs, ha, hsh⟩ := h
  have hbase := rooted_text hs ha
  rw [← hsh] at hbase
  have hlen : base.length = (schemehost base).length + (parse base).tail.length := by
    rw [← List.length_append, ← hbase]
  have hdrop : base.drop (schemehost base).length = (parse base).tail :=
    (congrArg (List.drop (schemehost base).length) hbase).trans List.drop_left
  refine ⟨s, a, hs, ha, hsh, by omega, ?_⟩
  rw [hdrop]
  exact (path_eq base).symm

theorem resolve_rooted (hscheme : (rel.dropWhile relchar).head? ≠ some ':')
    (hslash : (lit "//").isPrefixOf rel = false) (hroot : Rooted base)
    (h : if (parse rel).path.head? = some '/' then removedots (parse rel).path = (parse rel).path
      else if (parse rel).path = [] then (parse rel).query.isSome = true ∨
        (parse base).query = none ∧ directory (parse base).path = (parse base).path
      else (parse base).path ≠ [] ∧ removedots (directory (parse base).path ++ (parse rel).path) =
        directory (parse base).path ++ (parse rel).path) :
    resolve base rel = some (target base rel) := by
  obtain ⟨s, a, hs, ha, hsh, hlen, hpath⟩ := rooted_slice hroot
  have hparse := parse_plain hscheme hslash
  have htail := Reference.ofrest_text none none rel
  rw [← hparse] at htail
  have hnone : (parse rel).scheme = none := by rw [hparse]; rfl
  have hauth : (parse rel).authority = none := by rw [hparse]; rfl
  have hresolve : resolve base rel = if rel.head? = some '/' then some (schemehost base ++ rel)
      else if rel.head? = some '?' then some (schemehost base ++ (parse base).path ++ rel)
      else some (schemehost base ++ directory (parse base).path ++ rel) := by
    simp only [resolve, if_neg hscheme, hslash, if_neg hlen, hpath]
    rfl
  have htarget : transform (parse base) (parse rel) =
      if (parse rel).path = [] then ⟨some s, some a, (parse base).path,
        if (parse rel).query.isSome then (parse rel).query else (parse base).query,
        (parse rel).fragment⟩
      else if (parse rel).path.head? = some '/' then
        ⟨some s, some a, removedots (parse rel).path, (parse rel).query, (parse rel).fragment⟩
      else ⟨some s, some a, removedots (merge (parse base) (parse rel).path), (parse rel).query,
        (parse rel).fragment⟩ := by
    rw [transform, hnone, hauth, hs, ha, if_neg (by simp), if_neg (by simp)]
  rw [hresolve, target, htarget]
  have hpathrel : (parse rel).path = rel.takeWhile fun c => !pathend c := by
    rw [path_eq, htail]
  rw [Parts.tail] at htail
  by_cases hnil : (parse rel).path = []
  · rw [hnil, if_neg (by simp), if_pos rfl] at h
    rw [hnil, List.nil_append] at htail
    have hhead : rel.head? ≠ some '/' := by
      intro hh
      obtain ⟨t, rfl⟩ := List.head?_eq_some_iff.mp hh
      simp [hnil, pathend] at hpathrel
    rw [if_pos hnil, recompose_root hsh, if_neg hhead]
    cases hq : (parse rel).query with
    | some q =>
      rw [hq] at htail
      have hquest : rel.head? = some '?' := by
        rw [← htail]
        rfl
      simp only [Option.isSome_some, if_true, if_pos hquest, List.append_assoc, htail]
    | none =>
      rw [hq] at htail h
      obtain ⟨hbq, hdir⟩ := h.resolve_left (by simp)
      have hquest : rel.head? ≠ some '?' := by
        rw [← htail]
        cases (parse rel).fragment <;> simp [before]
      have hfrag : before ['#'] (parse rel).fragment = rel := htail
      have hnoquery : before ['?'] (none : Option Str) = [] := rfl
      simp only [Option.isSome_none, Bool.false_eq_true, if_false, if_neg hquest, hbq, hdir,
        hnoquery, List.append_nil, List.append_assoc, hfrag]
  · by_cases hhead : (parse rel).path.head? = some '/'
    · rw [if_pos hhead] at h
      have hrel : rel.head? = some '/' := by
        rw [← htail]
        obtain ⟨t, ht⟩ := List.head?_eq_some_iff.mp hhead
        rw [ht]
        rfl
      rw [if_neg hnil, if_pos hhead, if_pos hrel, recompose_root hsh, h, htail]
    · rw [if_neg hhead, if_neg hnil] at h
      obtain ⟨c, t, ht⟩ := List.exists_cons_of_ne_nil hnil
      have hcons : rel.head? = some c := by
        rw [← htail, ht]
        rfl
      have hslash' : rel.head? ≠ some '/' := by
        rw [hcons]
        rw [ht] at hhead
        exact hhead
      have hquest : rel.head? ≠ some '?' := by
        intro hq
        rw [hpathrel] at ht
        obtain ⟨r, rfl⟩ := List.head?_eq_some_iff.mp hq
        simp [pathend] at ht
      have hmerge : merge (parse base) (parse rel).path =
          directory (parse base).path ++ (parse rel).path := by
        rw [merge, if_neg (fun hb => h.1 hb.2)]
      rw [if_neg hnil, if_neg hhead, if_neg hslash', if_neg hquest, recompose_root hsh, hmerge, h.2]
      simp only [List.append_assoc] at htail ⊢
      rw [htail]

theorem resolve_target (h : Resolvable base rel) : resolve base rel = some (target base rel) := by
  rw [Resolvable] at h
  by_cases hscheme : (rel.dropWhile relchar).head? = some ':'
  · rw [if_pos hscheme] at h
    rw [resolve, if_pos hscheme, target, transform, if_pos h.1, h.2]
    exact congrArg some (Reference.recompose_parse rel).symm
  · rw [if_neg hscheme] at h
    cases hslash : (lit "//").isPrefixOf rel with
    | true =>
      obtain ⟨t, ht⟩ := List.isPrefixOf_iff_prefix.mp hslash
      have hauth : (parse rel).authority.isSome = true := by
        rw [parse_noscheme hscheme, ← ht]
        rfl
      rw [if_pos hauth] at h
      exact resolve_authority ht.symm h.1 h.2
    | false =>
      have hauth : (parse rel).authority = none := by
        rw [parse_plain hscheme hslash]
        rfl
      rw [hauth, if_neg (by simp)] at h
      have hroot : Rooted base := by
        split_ifs at h <;> exact h.1
      refine resolve_rooted hscheme hslash hroot ?_
      split_ifs at h ⊢ <;> exact h.2

end Infernode.Web
