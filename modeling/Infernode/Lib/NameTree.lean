import Mathlib

/-!
# Trees of names

A tree of names gives each path (the list of its names, the empty list being
the root) an entry or nothing. `graft` puts one tree over another at a path:
what was below the path is replaced whole, everything else stays. `shown` is
the view that a finite set of paths describes: their ancestors, themselves,
and what lies below those that no other path of the set extends.
-/

namespace Infernode.Lib

variable {α κ : Type*}

abbrev NameTree (α κ : Type*) := List α → Option κ

namespace NameTree

def subtree (t : NameTree α κ) (p : List α) : NameTree α κ := fun q => t (p ++ q)

def graft [DecidableEq α] (t : NameTree α κ) (p : List α) (s : NameTree α κ) : NameTree α κ :=
  fun q => if p <+: q then s (q.drop p.length) else t q

@[simp] theorem subtree_nil (t : NameTree α κ) : t.subtree [] = t := rfl

theorem subtree_apply (t : NameTree α κ) (p q : List α) : t.subtree p q = t (p ++ q) := rfl

theorem subtree_subtree (t : NameTree α κ) (p q : List α) :
    (t.subtree p).subtree q = t.subtree (p ++ q) := by
  funext r
  simp [subtree]

section Graft
variable [DecidableEq α]

@[simp] theorem graft_append (t : NameTree α κ) (p : List α) (s : NameTree α κ) (q : List α) :
    t.graft p s (p ++ q) = s q := by
  simp [graft]

theorem graft_apart (t : NameTree α κ) {p q : List α} (s : NameTree α κ) (h : ¬p <+: q) :
    t.graft p s q = t q :=
  if_neg h

end Graft

/-- Every path with an entry has its parent entered as `dir`. -/
def Closed (dir : κ) (t : NameTree α κ) : Prop :=
  ∀ p a, t (p ++ [a]) ≠ none → t p = some dir

theorem Closed.parent {dir : κ} {t : NameTree α κ} (ht : Closed dir t) {p q : List α}
    (h : p <+: q) (hne : p ≠ q) (hq : t q ≠ none) : t p = some dir := by
  obtain ⟨r, rfl⟩ := h
  induction r using List.reverseRecOn with
  | nil => simp at hne
  | append_singleton r a ih =>
    have hpr : t (p ++ r) = some dir := ht (p ++ r) a (by simpa using hq)
    by_cases hr : r = []
    · simpa [hr] using hpr
    · exact ih (by simpa using hr) (by simp [hpr])

theorem Closed.exists_of_prefix {dir : κ} {t : NameTree α κ} (ht : Closed dir t) {p q : List α}
    (h : p <+: q) (hq : t q ≠ none) : t p ≠ none := by
  by_cases he : p = q
  · rwa [he]
  · simp [ht.parent h he hq]

theorem Closed.subtree {dir : κ} {t : NameTree α κ} (ht : Closed dir t) (p : List α) :
    Closed dir (t.subtree p) := by
  intro q a hq
  exact ht (p ++ q) a (by simpa [NameTree.subtree] using hq)

theorem Closed.none_below {dir : κ} {t : NameTree α κ} (ht : Closed dir t) {p : List α}
    (h : t p ≠ some dir) {a : α} (q : List α) : t (p ++ a :: q) = none := by
  by_contra hne
  exact h (ht.parent (List.prefix_append p (a :: q)) (by simp) hne)

end NameTree

def shown (P : List (List α)) (q : List α) : Prop :=
  ∃ p ∈ P, q <+: p ∨ p <+: q ∧ ∀ r ∈ P, p <+: r → r = p

theorem shown_congr {P Q : List (List α)} (h : ∀ p, p ∈ P ↔ p ∈ Q) (q : List α) :
    shown P q ↔ shown Q q := by
  simp only [shown, h]

variable [DecidableEq α]

instance (P : List (List α)) (q : List α) : Decidable (shown P q) :=
  inferInstanceAs (Decidable (∃ p ∈ P, q <+: p ∨ p <+: q ∧ ∀ r ∈ P, p <+: r → r = p))

/-- The members of `P` that go through `a` and beyond, without their first name. -/
def beyond (a : α) (P : List (List α)) : List (List α) :=
  P.filterMap fun p => match p with
    | b :: c :: rest => if b = a then some (c :: rest) else none
    | _ => none

theorem mem_beyond {a : α} {P : List (List α)} {p : List α} :
    p ∈ beyond a P ↔ p ≠ [] ∧ a :: p ∈ P := by
  simp only [beyond, List.mem_filterMap]
  constructor
  · rintro ⟨q, hq, hm⟩
    match q, hm with
    | b :: c :: rest, hm =>
      simp only [Option.ite_none_right_eq_some, Option.some.injEq] at hm
      obtain ⟨rfl, rfl⟩ := hm
      exact ⟨by simp, hq⟩
  · rintro ⟨hne, hp⟩
    refine ⟨a :: p, hp, ?_⟩
    cases p with
    | nil => simp at hne
    | cons c rest => simp

/-- One level of the view: a first name is shown whole when nothing goes beyond
it, and otherwise by what goes beyond. -/
theorem shown_cons {P : List (List α)} (hP : ∀ p ∈ P, p ≠ []) (a : α) (q : List α) :
    shown P (a :: q) ↔
      (∃ p ∈ P, p.head? = some a) ∧ (beyond a P = [] ∨ q = [] ∨ shown (beyond a P) q) := by
  constructor
  · rintro ⟨p, hp, hpq⟩
    cases p with
    | nil => exact absurd rfl (hP [] hp)
    | cons b p =>
      have hba : b = a := by
        rcases hpq with h | ⟨h, -⟩
        · exact (List.cons_prefix_cons.mp h).1.symm
        · exact (List.cons_prefix_cons.mp h).1
      subst hba
      refine ⟨⟨b :: p, hp, rfl⟩, ?_⟩
      by_cases hbe : beyond b P = []
      · exact Or.inl hbe
      by_cases hq : q = []
      · exact Or.inr (Or.inl hq)
      refine Or.inr (Or.inr ?_)
      rcases hpq with h | ⟨h, hmax⟩
      · have hqp : q <+: p := (List.cons_prefix_cons.mp h).2
        have hp0 : p ≠ [] := by
          rintro rfl
          exact hq (List.prefix_nil.mp hqp)
        exact ⟨p, mem_beyond.mpr ⟨hp0, hp⟩, Or.inl hqp⟩
      · have hpq' : p <+: q := (List.cons_prefix_cons.mp h).2
        have hp0 : p ≠ [] := by
          rintro rfl
          obtain ⟨r, hr⟩ := List.exists_mem_of_ne_nil _ hbe
          obtain ⟨hr0, hrP⟩ := mem_beyond.mp hr
          have := hmax _ hrP (by simp)
          simp at this
          exact hr0 this
        refine ⟨p, mem_beyond.mpr ⟨hp0, hp⟩, Or.inr ⟨hpq', fun r hr hpr => ?_⟩⟩
        have := hmax (b :: r) (mem_beyond.mp hr).2 (List.cons_prefix_cons.mpr ⟨rfl, hpr⟩)
        simpa using this
  · rintro ⟨⟨p, hp, hhead⟩, hcase⟩
    obtain ⟨p', rfl⟩ : ∃ p', p = a :: p' := by
      cases p with
      | nil => simp at hhead
      | cons b p' => exact ⟨p', by simpa using hhead⟩
    rcases hcase with hbe | rfl | ⟨r, hr, hrq⟩
    · have hsingle : ∀ r, a :: r ∈ P → r = [] := by
        intro r hr
        by_contra hne
        have : r ∈ beyond a P := mem_beyond.mpr ⟨hne, hr⟩
        simp [hbe] at this
      have hp' : p' = [] := hsingle p' hp
      subst hp'
      refine ⟨[a], hp, Or.inr ⟨by simp, fun r hr har => ?_⟩⟩
      obtain ⟨r', rfl⟩ : ∃ r', r = a :: r' := ⟨r.tail, by
        obtain ⟨s, rfl⟩ := har
        rfl⟩
      rw [hsingle r' hr]
    · exact ⟨a :: p', hp, Or.inl (by simp)⟩
    · obtain ⟨hr0, hrP⟩ := mem_beyond.mp hr
      refine ⟨a :: r, hrP, ?_⟩
      rcases hrq with h | ⟨h, hmax⟩
      · exact Or.inl (List.cons_prefix_cons.mpr ⟨rfl, h⟩)
      · refine Or.inr ⟨List.cons_prefix_cons.mpr ⟨rfl, h⟩, fun s hs hrs => ?_⟩
        obtain ⟨s', rfl⟩ : ∃ s', s = a :: s' := ⟨s.tail, by
          obtain ⟨u, rfl⟩ := hrs
          rfl⟩
        have hrs' : r <+: s' := (List.cons_prefix_cons.mp hrs).2
        have hs0 : s' ≠ [] := by
          rintro rfl
          exact hr0 (List.prefix_nil.mp hrs')
        rw [hmax s' (mem_beyond.mpr ⟨hs0, hs⟩) hrs']

end Infernode.Lib
