import Mathlib

/-!
# Worklists

A traversal takes the first item of a queue. It drops the item if it was seen or is to be
skipped; else it puts items that follow it before the rest. When the queue is empty what was
seen is what is reached from the start past no skipped item. Where only finitely many items
are followed by others the traversal ends.
-/

namespace Infernode.Lib

variable {α : Type*}

/-- What is left to do, and what was seen. -/
structure Work (α : Type*) where
  queue : List α
  seen : List α

namespace Work

variable (next : α → List α) (skip : α → Prop)

/-- One turn of the traversal. -/
inductive Step : Work α → Work α → Prop
  | drop {x : α} {queue seen : List α} (h : x ∈ seen ∨ skip x) :
      Step ⟨x :: queue, seen⟩ ⟨queue, seen⟩
  | visit {x : α} {queue seen new : List α} (hseen : x ∉ seen) (hskip : ¬skip x)
      (hnew : ∀ y ∈ new, y ∈ next x)
      (hall : ∀ y ∈ next x, y ∈ new ∨ y ∈ queue ∨ y ∈ x :: seen ∨ skip y) :
      Step ⟨x :: queue, seen⟩ ⟨new ++ queue, x :: seen⟩

/-- Reached from the start past no skipped item. -/
def Reached (start : List α) (y : α) : Prop :=
  ∃ x ∈ start, ¬skip x ∧ Relation.ReflTransGen (fun a b => b ∈ next a ∧ ¬skip b) x y

variable {next skip} {start : List α}

theorem Reached.follow {x y : α} (h : Reached next skip start x) (hy : y ∈ next x)
    (hskip : ¬skip y) : Reached next skip start y := by
  obtain ⟨s, hs, hnot, hpath⟩ := h
  exact ⟨s, hs, hnot, hpath.tail ⟨hy, hskip⟩⟩

/-- A property of the start that goes from an item to those that follow it. -/
theorem Reached.induction {P : α → Prop} (hstart : ∀ x ∈ start, ¬skip x → P x)
    (hstep : ∀ x y, Reached next skip start x → P x → y ∈ next x → ¬skip y → P y) {y : α}
    (h : Reached next skip start y) : P y := by
  obtain ⟨s, hs, hnot, hpath⟩ := h
  induction hpath with
  | refl => exact hstart s hs hnot
  | tail hpre hlast ih => exact hstep _ _ ⟨s, hs, hnot, hpre⟩ ih hlast.1 hlast.2

variable (next skip start) in
/-- What every turn keeps. -/
structure Inv (w : Work α) : Prop where
  nodup : w.seen.Nodup
  sound : ∀ x ∈ w.seen, Reached next skip start x
  ahead : ∀ x ∈ w.queue, skip x ∨ Reached next skip start x
  begun : ∀ x ∈ start, x ∈ w.seen ∨ x ∈ w.queue ∨ skip x
  closed : ∀ x ∈ w.seen, ∀ y ∈ next x, y ∈ w.seen ∨ y ∈ w.queue ∨ skip y

theorem inv_start : Inv next skip start ⟨start, []⟩ where
  nodup := List.nodup_nil
  sound := by simp
  ahead := fun x hx => (em (skip x)).imp id fun h => ⟨x, hx, h, .refl⟩
  begun := fun x hx => .inr (.inl hx)
  closed := by simp

theorem Step.inv {w w' : Work α} (h : Step next skip w w') (hw : Inv next skip start w) :
    Inv next skip start w' := by
  obtain ⟨hnodup, hsound, hahead, hbegun, hclosed⟩ := hw
  cases h with
  | @drop x queue seen h =>
    have hgone {y : α} (hy : y ∈ seen ∨ y ∈ x :: queue ∨ skip y) :
        y ∈ seen ∨ y ∈ queue ∨ skip y := by
      rcases hy with hy | hy | hy
      · exact .inl hy
      · rcases List.mem_cons.mp hy with rfl | hy
        · exact h.imp id .inr
        · exact .inr (.inl hy)
      · exact .inr (.inr hy)
    exact ⟨hnodup, hsound, fun y hy => hahead y (List.mem_cons_of_mem _ hy),
      fun y hy => hgone (hbegun y hy), fun y hy z hz => hgone (hclosed y hy z hz)⟩
  | @visit x queue seen new hseen hskip hnew hall =>
    have hx : Reached next skip start x := (hahead x List.mem_cons_self).resolve_left hskip
    have hmoved {y : α} (hy : y ∈ seen ∨ y ∈ x :: queue ∨ skip y) :
        y ∈ x :: seen ∨ y ∈ new ++ queue ∨ skip y := by
      rcases hy with hy | hy | hy
      · exact .inl (List.mem_cons_of_mem _ hy)
      · rcases List.mem_cons.mp hy with rfl | hy
        · exact .inl List.mem_cons_self
        · exact .inr (.inl (List.mem_append_right _ hy))
      · exact .inr (.inr hy)
    refine ⟨List.nodup_cons.mpr ⟨hseen, hnodup⟩, ?_, ?_, fun y hy => hmoved (hbegun y hy), ?_⟩
    · intro y hy
      rcases List.mem_cons.mp hy with rfl | hy
      · exact hx
      · exact hsound y hy
    · intro y hy
      rcases List.mem_append.mp hy with hy | hy
      · exact (em (skip y)).imp id fun h => hx.follow (hnew y hy) h
      · exact hahead y (List.mem_cons_of_mem _ hy)
    · intro y hy z hz
      rcases List.mem_cons.mp hy with rfl | hy
      · rcases hall z hz with h | h | h | h
        · exact .inr (.inl (List.mem_append_left _ h))
        · exact .inr (.inl (List.mem_append_right _ h))
        · exact .inl h
        · exact .inr (.inr h)
      · exact hmoved (hclosed y hy z hz)

/-- With nothing left to do, what was seen is what is reached. -/
theorem Inv.seen_iff {seen : List α} (h : Inv next skip start ⟨[], seen⟩) {y : α} :
    y ∈ seen ↔ Reached next skip start y := by
  refine ⟨h.sound y, Reached.induction ?_ ?_⟩
  · intro x hx hskip
    rcases h.begun x hx with hseen | hqueue | hs
    · exact hseen
    · cases hqueue
    · exact absurd hs hskip
  · intro x y _ hx hy hskip
    rcases h.closed x hx y hy with hseen | hqueue | hs
    · exact hseen
    · cases hqueue
    · exact absurd hs hskip

variable (skip) in
/-- Where only finitely many items are followed by others every traversal ends. -/
theorem step_wellFounded (hfinite : {x | next x ≠ []}.Finite) :
    WellFounded fun w' w : Work α => Step next skip w w' := by
  classical
  let left (w : Work α) : ℕ := (hfinite.toFinset.filter (· ∉ w.seen)).card
  refine Subrelation.wf ?_ (InvImage.wf (fun w : Work α => (left w, w.queue.length))
    (Prod.lex Nat.lt_wfRel Nat.lt_wfRel).wf)
  intro w' w h
  change Prod.Lex (· < ·) (· < ·) (left w', w'.queue.length) (left w, w.queue.length)
  rw [Prod.lex_def]
  cases h with
  | drop h => exact .inr ⟨rfl, by simp⟩
  | @visit x queue seen new hseen hskip hnew hall =>
    by_cases hx : next x = []
    · refine .inr ⟨?_, ?_⟩
      · refine congrArg Finset.card (Finset.filter_congr fun y hy => ?_)
        have hne : y ≠ x := by
          rintro rfl
          exact (hfinite.mem_toFinset.mp hy) hx
        simp [hne]
      · have hnil : new = [] := by
          rw [hx] at hnew
          exact List.eq_nil_iff_forall_not_mem.mpr fun y hy => by simpa using hnew y hy
        simp [hnil]
    · refine .inl (Finset.card_lt_card ⟨fun y hy => ?_, fun hsub => ?_⟩)
      · rw [Finset.mem_filter, List.mem_cons, not_or] at hy
        exact Finset.mem_filter.mpr ⟨hy.1, hy.2.2⟩
      · have hmem := hsub (Finset.mem_filter.mpr ⟨hfinite.mem_toFinset.mpr hx, hseen⟩)
        rw [Finset.mem_filter] at hmem
        exact hmem.2 List.mem_cons_self

end Work

end Infernode.Lib
