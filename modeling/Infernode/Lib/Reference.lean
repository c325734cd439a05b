import Mathlib.Data.List.Basic
import Mathlib.Data.String.Basic

/-!
# References

A reference is a scheme, an authority, a path, a query and a fragment, where all but the path
may be undefined. `parse` takes a text apart, `recompose` puts it together, and `transform`
resolves a reference against a base.
-/

namespace Infernode.Reference

abbrev Text := List Char

structure Parts where
  scheme : Option Text
  authority : Option Text
  path : Text
  query : Option Text
  fragment : Option Text
  deriving DecidableEq

def schemechar (c : Char) : Bool :=
  ('a' ≤ c && c ≤ 'z') || ('A' ≤ c && c ≤ 'Z') || ('0' ≤ c && c ≤ '9') || c == '+' || c == '-' ||
    c == '.'

def letter (c : Char) : Bool := ('a' ≤ c && c ≤ 'z') || ('A' ≤ c && c ≤ 'Z')

/-- A scheme begins with a letter. -/
def isscheme (s : Text) : Bool := s.head?.any letter && s.all schemechar

def pathend (c : Char) : Bool := c == '?' || c == '#'

def authorityend (c : Char) : Bool := c == '/' || pathend c

/-- The scheme of a text, and what follows the colon. -/
def cutscheme (s : Text) : Option Text × Text :=
  let sch := s.takeWhile schemechar
  if isscheme sch ∧ (s.dropWhile schemechar).head? = some ':' then
    (some sch, (s.dropWhile schemechar).drop 1)
  else (none, s)

def cutauthority (s : Text) : Option Text × Text :=
  match s with
  | '/' :: '/' :: t =>
    (some (t.takeWhile fun c => !authorityend c), t.dropWhile fun c => !authorityend c)
  | _ => (none, s)

def cutquery (s : Text) : Option Text × Text :=
  match s with
  | '?' :: t => (some (t.takeWhile (· ≠ '#')), t.dropWhile (· ≠ '#'))
  | _ => (none, s)

def cutfragment (s : Text) : Option Text :=
  match s with
  | '#' :: t => some t
  | _ => none

/-- The path and what follows it. -/
def ofrest (scheme authority : Option Text) (s : Text) : Parts :=
  let q := cutquery (s.dropWhile fun c => !pathend c)
  ⟨scheme, authority, s.takeWhile fun c => !pathend c, q.1, cutfragment q.2⟩

def parse (s : Text) : Parts :=
  let a := cutauthority (cutscheme s).2
  ofrest (cutscheme s).1 a.1 a.2

/-- A component with what stands before it, where it is defined. -/
def before (mark : Text) : Option Text → Text
  | none => []
  | some t => mark ++ t

def schemetext : Option Text → Text
  | none => []
  | some t => t ++ [':']

def Parts.tail (r : Parts) : Text :=
  r.path ++ before ['?'] r.query ++ before ['#'] r.fragment

def recompose (r : Parts) : Text :=
  schemetext r.scheme ++ before ['/', '/'] r.authority ++ r.tail

/-- The directory of a path: all up to its last slash. -/
def directory (p : Text) : Text := (p.reverse.dropWhile (· ≠ '/')).reverse

def merge (b : Parts) (p : Text) : Text :=
  if b.authority.isSome ∧ b.path = [] then '/' :: p else directory b.path ++ p

/-- The first segment of a path, with the slash before it. -/
def segment : Text → Text × Text
  | [] => ([], [])
  | c :: s => (c :: s.takeWhile (· ≠ '/'), s.dropWhile (· ≠ '/'))

/-- One turn of the removal of dot segments: what is left, and what is put out so far. -/
def dotturn (inp out : Text) : Text × Text :=
  match inp with
  | '.' :: '.' :: '/' :: t => (t, out)
  | '.' :: '/' :: t => (t, out)
  | '/' :: '.' :: '/' :: t => ('/' :: t, out)
  | ['/', '.'] => (['/'], out)
  | '/' :: '.' :: '.' :: '/' :: t => ('/' :: t, ((directory out).dropLast))
  | ['/', '.', '.'] => (['/'], (directory out).dropLast)
  | ['.'] => ([], out)
  | ['.', '.'] => ([], out)
  | s => ((segment s).2, out ++ (segment s).1)

def dotloop : ℕ → Text → Text → Text
  | 0, _, out => out
  | _, [], out => out
  | n + 1, inp, out => dotloop n (dotturn inp out).1 (dotturn inp out).2

/-- A path without its dot segments. -/
def removedots (p : Text) : Text := dotloop (p.length + 1) p []

/-- The target of a reference `r` against the base `b`. -/
def transform (b r : Parts) : Parts :=
  if r.scheme.isSome then { r with path := removedots r.path }
  else if r.authority.isSome then { r with scheme := b.scheme, path := removedots r.path }
  else if r.path = [] then
    ⟨b.scheme, b.authority, b.path, if r.query.isSome then r.query else b.query, r.fragment⟩
  else if r.path.head? = some '/' then
    ⟨b.scheme, b.authority, removedots r.path, r.query, r.fragment⟩
  else ⟨b.scheme, b.authority, removedots (merge b r.path), r.query, r.fragment⟩

/-- A text resolved against a base. -/
def target (base rel : Text) : Text := recompose (transform (parse base) (parse rel))

variable {s : Text}

theorem dropWhile_start (f : Char → Bool) (s : Text) :
    s.dropWhile f = [] ∨ ∃ c t, s.dropWhile f = c :: t ∧ f c = false := by
  induction s with
  | nil => exact .inl rfl
  | cons c s ih =>
    by_cases hc : f c = true
    · rw [List.dropWhile_cons_of_pos hc]
      exact ih
    · rw [List.dropWhile_cons_of_neg (by simpa using hc)]
      exact .inr ⟨c, s, rfl, by simpa using hc⟩

theorem cutscheme_text (s : Text) : schemetext (cutscheme s).1 ++ (cutscheme s).2 = s := by
  rw [cutscheme]
  split_ifs with h
  · obtain ⟨t, ht⟩ := List.head?_eq_some_iff.mp h.2
    have hs := List.takeWhile_append_dropWhile (p := schemechar) (l := s)
    rw [ht] at hs ⊢
    simpa [schemetext] using hs
  · rfl

theorem cutauthority_text (s : Text) :
    before ['/', '/'] (cutauthority s).1 ++ (cutauthority s).2 = s := by
  unfold cutauthority
  split
  · simp [before]
  · rfl

theorem cutquery_text (s : Text) : before ['?'] (cutquery s).1 ++ (cutquery s).2 = s := by
  unfold cutquery
  split
  · simp [before]
  · rfl

theorem cutfragment_text (h : s = [] ∨ ∃ t, s = '#' :: t) :
    before ['#'] (cutfragment s) = s := by
  rcases h with rfl | ⟨t, rfl⟩ <;> rfl

/-- What follows a path and a query is nothing or a fragment. -/
theorem cutquery_rest (h : s = [] ∨ ∃ c t, s = c :: t ∧ pathend c = true) :
    (cutquery s).2 = [] ∨ ∃ t, (cutquery s).2 = '#' :: t := by
  rcases h with rfl | ⟨c, t, rfl, hc⟩
  · exact .inl rfl
  · have hc' : c = '?' ∨ c = '#' := by simpa [pathend] using hc
    rcases hc' with rfl | rfl
    · rcases dropWhile_start (· ≠ '#') t with ht | ⟨d, r, ht, hd⟩
      · exact .inl ht
      · obtain rfl : d = '#' := by simpa using hd
        exact .inr ⟨r, ht⟩
    · exact .inr ⟨t, rfl⟩

theorem ofrest_text (scheme authority : Option Text) (s : Text) :
    (ofrest scheme authority s).tail = s := by
  have hpath := List.takeWhile_append_dropWhile (p := fun c => !pathend c) (l := s)
  have hend : s.dropWhile (fun c => !pathend c) = [] ∨
      ∃ c t, s.dropWhile (fun c => !pathend c) = c :: t ∧ pathend c = true :=
    (dropWhile_start _ s).imp_right fun ⟨c, t, h, hc⟩ => ⟨c, t, h, by simpa using hc⟩
  rw [Parts.tail, ofrest, cutfragment_text (cutquery_rest hend), List.append_assoc, cutquery_text,
    hpath]

theorem recompose_parse (s : Text) : recompose (parse s) = s := by
  have hrest := ofrest_text (cutscheme s).1 (cutauthority (cutscheme s).2).1
    (cutauthority (cutscheme s).2).2
  calc recompose (parse s)
      = schemetext (cutscheme s).1 ++ before ['/', '/'] (cutauthority (cutscheme s).2).1 ++
          (cutauthority (cutscheme s).2).2 := by rw [recompose, parse, hrest]; rfl
    _ = s := by rw [List.append_assoc, cutauthority_text, cutscheme_text]

end Infernode.Reference
