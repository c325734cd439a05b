import Mathlib

/-!
# Limbo strings

A Limbo string is a sequence of characters that a program indexes and slices;
it is modelled as the list of its characters. `prefixed` is the test that the
Veltro modules write as `s[0:len p] == p` behind a length check, and `within`
the pair of tests (equal, or below) that their policy predicates are made of.
`components` is the scan over a path that both `pathhascomponent` and
`componentcount` perform: runs of `/` separate, and empty components are
skipped.
-/

namespace Infernode.Limbo

abbrev Str := List Char

def lit (s : String) : Str := s.toList

instance : Coe String Str := ⟨lit⟩

instance : LawfulBEq Str := inferInstance

def prefixed (s p : Str) : Bool := p.isPrefixOf s

def within (root path : Str) : Bool := path == root || prefixed path (root ++ ['/'])

def inlist (s : Str) : List Str → Bool
  | [] => false
  | x :: l => if x == s then true else inlist s l

theorem inlist_iff (s : Str) (l : List Str) : inlist s l = true ↔ s ∈ l := by
  induction l with
  | nil => simp [inlist]
  | cons x l ih =>
    simp only [inlist, List.mem_cons]
    by_cases h : x = s
    · simp [h]
    · simp [h, ih, Ne.symm h]

theorem prefixed_iff (s p : Str) : prefixed s p = true ↔ ∃ t, s = p ++ t := by
  simp only [prefixed, List.isPrefixOf_iff_prefix, List.IsPrefix]
  exact ⟨fun ⟨t, h⟩ => ⟨t, h.symm⟩, fun ⟨t, h⟩ => ⟨t, h.symm⟩⟩

theorem prefixed_append {s p : Str} (t : Str) (h : prefixed s p = true) :
    prefixed (s ++ t) p = true := by
  obtain ⟨u, rfl⟩ := (prefixed_iff s p).1 h
  exact (prefixed_iff _ _).2 ⟨u ++ t, by simp⟩

theorem prefixed_apart {u p : Str} (t : Str) (h : (prefixed u p || prefixed p u) = false) :
    prefixed (u ++ t) p = false := by
  rw [Bool.or_eq_false_iff] at h
  by_contra hp
  rw [Bool.not_eq_false, prefixed, List.isPrefixOf_iff_prefix] at hp
  rcases List.prefix_or_prefix_of_prefix hp (List.prefix_append u t) with h' | h'
  · simp [prefixed, List.isPrefixOf_iff_prefix.mpr h'] at h
  · simp [prefixed, List.isPrefixOf_iff_prefix.mpr h'] at h

theorem within_iff (root path : Str) :
    within root path = true ↔ path = root ∨ ∃ t, path = root ++ '/' :: t := by
  simp only [within, Bool.or_eq_true, beq_iff_eq, prefixed_iff, List.append_assoc,
    List.singleton_append]

theorem prefixed_of_within {root path : Str} (h : within root path = true) :
    prefixed path root = true := by
  rw [prefixed_iff]
  rcases (within_iff root path).1 h with rfl | ⟨t, rfl⟩
  · exact ⟨[], by simp⟩
  · exact ⟨'/' :: t, rfl⟩

theorem within_self (root : Str) : within root root = true := by
  simp [within]

theorem within_below {root path : Str} (t : Str) (h : within root path = true) :
    within root (path ++ '/' :: t) = true := by
  rcases (within_iff root path).1 h with rfl | ⟨u, rfl⟩
  · exact (within_iff _ _).2 (Or.inr ⟨t, rfl⟩)
  · exact (within_iff _ _).2 (Or.inr ⟨u ++ '/' :: t, by simp⟩)

theorem within_iff_isPrefix (root path : Str) :
    within root path = true ↔ root ++ ['/'] <+: path ++ ['/'] := by
  rw [within_iff]
  constructor
  · rintro (rfl | ⟨t, rfl⟩)
    · exact List.prefix_rfl
    · exact ⟨t ++ ['/'], by simp⟩
  · rintro ⟨t, ht⟩
    rcases List.eq_nil_or_concat t with rfl | ⟨u, c, rfl⟩
    · left
      simpa using ht.symm
    · right
      refine ⟨u, ?_⟩
      have hcat : (root ++ '/' :: u) ++ [c] = path ++ ['/'] := by simpa using ht
      exact (List.append_inj' hcat rfl).1.symm

theorem within_comparable {a b path : Str} (ha : within a path = true)
    (hb : within b path = true) : within a b = true ∨ within b a = true := by
  rw [within_iff_isPrefix] at ha hb
  simp only [within_iff_isPrefix]
  exact List.prefix_or_prefix_of_prefix ha hb

theorem within_apart {a b path : Str} (hab : (within a b || within b a) = false)
    (ha : within a path = true) : within b path = false := by
  rw [Bool.or_eq_false_iff] at hab
  by_contra hb
  rw [Bool.not_eq_false] at hb
  rcases within_comparable ha hb with h | h
  · simp [hab.1] at h
  · simp [hab.2] at h

def components (cur : Str) : Str → List Str
  | [] => if cur = [] then [] else [cur]
  | c :: cs =>
    if c = '/' then
      if cur = [] then components [] cs else cur :: components [] cs
    else components (cur ++ [c]) cs

theorem components_append (cur s t : Str) :
    components cur (s ++ '/' :: t) = components cur s ++ components [] t := by
  induction s generalizing cur with
  | nil =>
    by_cases h : cur = []
    · simp [components, h]
    · simp [components, h]
  | cons c s ih =>
    simp only [List.cons_append, components]
    split_ifs with hc hcur
    · exact ih []
    · rw [ih []]; rfl
    · exact ih _

def pathhascomponent (path want : Str) : Bool := inlist want (components [] path)

def componentcount (path : Str) : ℕ := (components [] path).length

def Downward (f : Str → Bool) : Prop := ∀ r s, f r = true → f (r ++ '/' :: s) = true

theorem Downward.or {f g : Str → Bool} (hf : Downward f) (hg : Downward g) :
    Downward fun p => f p || g p := by
  intro r s h
  rcases (Bool.or_eq_true _ _).mp h with h | h
  · simp only [hf r s h, Bool.true_or]
  · simp only [hg r s h, Bool.or_true]

theorem Downward.and {f g : Str → Bool} (hf : Downward f) (hg : Downward g) :
    Downward fun p => f p && g p := by
  intro r s h
  obtain ⟨h1, h2⟩ := (Bool.and_eq_true _ _).mp h
  simp only [hf r s h1, hg r s h2, Bool.and_self]

theorem downward_prefixed (p : Str) : Downward fun path => prefixed path p :=
  fun _ s h => prefixed_append ('/' :: s) h

theorem downward_pathhascomponent (want : Str) : Downward fun p => pathhascomponent p want := by
  intro r s h
  simp only [pathhascomponent, inlist_iff, components_append, List.mem_append] at h ⊢
  exact Or.inl h

theorem downward_componentcount (n : ℕ) : Downward fun p => decide (n ≤ componentcount p) := by
  intro r s h
  have hr : n ≤ (components [] r).length := of_decide_eq_true h
  refine decide_eq_true ?_
  simp only [componentcount, components_append, List.length_append]
  omega

def asciilowerchar (c : Char) : Char :=
  if 'A' ≤ c ∧ c ≤ 'Z' then Char.ofNat (c.toNat + ('a'.toNat - 'A'.toNat)) else c

def asciilower (s : Str) : Str := s.map asciilowerchar

theorem asciilowerchar_lower (c : Char) : ¬('A' ≤ asciilowerchar c ∧ asciilowerchar c ≤ 'Z') := by
  unfold asciilowerchar
  split_ifs with h
  · obtain ⟨h1, h2⟩ := h
    have h1' : 65 ≤ c.toNat := h1
    have h2' : c.toNat ≤ 90 := h2
    generalize c.toNat = n at h1' h2'
    interval_cases n <;> decide
  · exact h

theorem asciilowerchar_idem (c : Char) : asciilowerchar (asciilowerchar c) = asciilowerchar c :=
  if_neg (asciilowerchar_lower c)

theorem asciilower_idem (s : Str) : asciilower (asciilower s) = asciilower s := by
  simp [asciilower, asciilowerchar_idem]

theorem asciilower_append (s t : Str) : asciilower (s ++ t) = asciilower s ++ asciilower t := by
  simp [asciilower]

theorem asciilower_below (s t : Str) :
    asciilower (s ++ '/' :: t) = asciilower s ++ '/' :: asciilower t := by
  have hs : asciilowerchar '/' = '/' := by decide
  simp [asciilower, hs]

/-!
## Command line options

The `Arg` module: `opt` gives the next option letter, `earg` the argument of an option,
which is the rest of its word or the next word.
-/

structure Arg where
  curropt : Str
  args : List Str
  deriving DecidableEq

def noopt : Char := Char.ofNat 0

def Arg.opt (a : Arg) : Char × Arg :=
  match a.curropt with
  | c :: curropt => (c, { a with curropt := curropt })
  | [] =>
    match a.args with
    | [] => (noopt, a)
    | nextarg :: args =>
      match nextarg with
      | '-' :: c :: curropt =>
        if nextarg = ['-', '-'] then (noopt, { a with args := args }) else (c, ⟨curropt, args⟩)
      | _ => (noopt, a)

/-- `none` is the exception of a missing argument. -/
def Arg.earg (a : Arg) : Option (Str × Arg) :=
  if a.curropt ≠ [] then some (a.curropt, { a with curropt := [] })
  else
    match a.args with
    | [] => none
    | ret :: args => some (ret, { a with args := args })

def Arg.size (a : Arg) : ℕ := a.curropt.length + (a.args.map fun w => w.length + 1).sum

theorem Arg.opt_size {a : Arg} (h : a.opt.1 ≠ noopt) : a.opt.2.size < a.size := by
  obtain ⟨curropt, args⟩ := a
  unfold Arg.opt at h ⊢
  cases curropt with
  | cons c curropt => simp [Arg.size]
  | nil =>
    cases args with
    | nil => exact absurd rfl h
    | cons nextarg args =>
      simp only at h ⊢
      split at h
      · split_ifs at h ⊢
        · exact absurd rfl h
        · simp only [Arg.size, List.map_cons, List.sum_cons, List.length_cons, List.length_nil]
          omega
      · exact absurd rfl h

theorem Arg.earg_size {a a' : Arg} {ret : Str} (h : a.earg = some (ret, a')) :
    a'.size ≤ a.size := by
  obtain ⟨curropt, args⟩ := a
  rw [Arg.earg] at h
  split_ifs at h with hcur
  · simp only [Option.some.injEq, Prod.mk.injEq] at h
    obtain ⟨-, rfl⟩ := h
    simp [Arg.size]
  · cases args with
    | nil => simp at h
    | cons w args =>
      simp only [Option.some.injEq, Prod.mk.injEq] at h
      obtain ⟨-, rfl⟩ := h
      simp [Arg.size]

theorem Arg.opt_flag {c : Char} (hc : c ≠ '-') (args : List Str) :
    (Arg.mk [] (['-', c] :: args)).opt = (c, ⟨[], args⟩) := by
  simp [Arg.opt, hc]

theorem Arg.opt_nil : (Arg.mk [] []).opt = (noopt, ⟨[], []⟩) := rfl

theorem Arg.opt_word {w : Str} (hw : w.head? ≠ some '-') (args : List Str) :
    (Arg.mk [] (w :: args)).opt = (noopt, ⟨[], w :: args⟩) := by
  cases w with
  | nil => rfl
  | cons c w =>
    have hc : c ≠ '-' := by simpa using hw
    unfold Arg.opt
    simp only
    split
    · rename_i heq
      exact absurd (List.cons.inj heq).1 hc
    · rfl

end Infernode.Limbo
