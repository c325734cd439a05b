import Mathlib

/-!
# Reference counts

Objects refer to one another, and each has a count of at least the references to it. One
reference is taken away. What dies of this is what loses all of its references, when those
of the dead are taken away too. A state of taking them away has counts, and references still
to be taken; it is balanced if these account for each other. However the references are
taken, in the end those whose count is zero are the dead.
-/

namespace Infernode.Lib

variable {α : Type*} [DecidableEq α]

/-- `objs` are the objects, `count` their counts before the reference to `start` goes. -/
structure Counted (objs : List α) (refs : α → List α) (count : α → ℕ) (start : α) : Prop where
  nodup : objs.Nodup
  pos : ∀ x ∈ objs, 0 < count x
  start_mem : start ∈ objs
  refs_mem : ∀ x ∈ objs, ∀ y ∈ refs x, y ∈ objs
  enough : ∀ x, (start :: objs.flatMap refs).count x ≤ count x

/-- An object dies if all that its count stands for are the reference that goes and those of
objects that die. -/
inductive Dies (refs : α → List α) (count : α → ℕ) (start : α) : α → Prop
  | intro {x : α} (l : List α) (hnodup : l.Nodup) (hdies : ∀ y ∈ l, Dies refs count start y)
      (hpos : 0 < count x) (hall : count x ≤ (start :: l.flatMap refs).count x) :
      Dies refs count start x

variable {objs : List α} {refs : α → List α} {count c : α → ℕ} {start x : α} {P P' : List α}

variable (objs) in
/-- The objects whose count is zero. -/
def dead (c : α → ℕ) : List α := objs.filter (c · = 0)

variable (objs refs count start) in
/-- The counts with the references to be taken away account for those that were. -/
structure Balanced (c : α → ℕ) (P : List α) : Prop where
  sum : ∀ x, c x + (start :: (dead objs c).flatMap refs).count x = count x + P.count x
  mem : ∀ x ∈ P, x ∈ objs
  dies : ∀ x ∈ dead objs c, Dies refs count start x

theorem Balanced.perm (h : Balanced objs refs count start c P) (hp : P.Perm P') :
    Balanced objs refs count start c P' where
  sum x := by rw [h.sum, hp.count_eq]
  mem x hx := h.mem x (hp.mem_iff.mpr hx)
  dies := h.dies

theorem flatMap_count_le {l l' : List α} (h : l.Subperm l') (refs : α → List α) (x : α) :
    (l.flatMap refs).count x ≤ (l'.flatMap refs).count x := by
  obtain ⟨l₁, hperm, hsub⟩ := h
  rw [← (hperm.flatMap_right refs).count_eq]
  exact (hsub.flatMap refs).count_le x

omit [DecidableEq α] in
theorem dead_subperm (objs : List α) (c : α → ℕ) : (dead objs c).Subperm objs :=
  List.filter_sublist.subperm

/-- What is still referred to has a count. -/
theorem Balanced.pos (h : Balanced objs refs count start c P)
    (hc : Counted objs refs count start) (hx : x ∈ P) : 0 < c x := by
  have hsum := h.sum x
  have henough := hc.enough x
  have hle := flatMap_count_le (dead_subperm objs c) refs x
  have hpos := List.count_pos_iff.mpr hx
  rw [List.count_cons] at hsum henough
  omega

theorem Counted.balanced (hc : Counted objs refs count start) :
    Balanced objs refs count start count [start] := by
  have hnone : dead objs count = [] :=
    List.filter_eq_nil_iff.mpr fun x hx => by simp [(hc.pos x hx).ne']
  exact ⟨fun x => by rw [hnone]; rfl,
    fun x hx => by simpa [List.mem_singleton.mp hx] using hc.start_mem, by simp [hnone]⟩

/-- One reference fewer. -/
def less (c : α → ℕ) (x : α) : α → ℕ := Function.update c x (c x - 1)

/-- A reference is taken that is not the last. -/
theorem Balanced.keep (h : Balanced objs refs count start c (x :: P)) (hpos : 0 < c x)
    (hleft : 0 < less c x x) :
    dead objs (less c x) = dead objs c ∧ Balanced objs refs count start (less c x) P := by
  have hdead : dead objs (less c x) = dead objs c := by
    refine List.filter_congr fun y _ => ?_
    rcases eq_or_ne y x with rfl | hne
    · simp [hpos.ne', hleft.ne']
    · simp [less, hne]
  refine ⟨hdead, fun y => ?_, fun y hy => h.mem y (List.mem_cons_of_mem _ hy), hdead ▸ h.dies⟩
  have hsum := h.sum y
  rw [List.count_cons (l := P)] at hsum
  rw [hdead]
  rcases eq_or_ne y x with rfl | hne
  · simp only [less, Function.update_self] at hleft ⊢
    simp only [BEq.rfl, if_true] at hsum
    omega
  · simp only [less, Function.update_of_ne hne]
    simp only [beq_iff_eq, hne.symm, if_false] at hsum
    omega

/-- The last reference is taken: the object dies, and its references are to be taken. -/
theorem Balanced.die (h : Balanced objs refs count start c (x :: P))
    (hc : Counted objs refs count start) (hpos : 0 < c x) (hleft : less c x x = 0) :
    (dead objs (less c x)).Perm (x :: dead objs c) ∧
      Balanced objs refs count start (less c x) (refs x ++ P) := by
  have hx : x ∈ objs := h.mem x (List.mem_cons_self ..)
  have hone : c x = 1 := by
    simp only [less, Function.update_self] at hleft
    omega
  have hmem (y : α) : y ∈ dead objs (less c x) ↔ y ∈ x :: dead objs c := by
    simp only [dead, List.mem_filter, List.mem_cons, decide_eq_true_eq]
    rcases eq_or_ne y x with rfl | hne
    · simp [hx, hleft]
    · simp [less, hne]
  have hnot : x ∉ dead objs c := by
    simp [dead, hone]
  have hperm : (dead objs (less c x)).Perm (x :: dead objs c) :=
    (List.perm_ext_iff_of_nodup (hc.nodup.filter _)
      (List.nodup_cons.mpr ⟨hnot, hc.nodup.filter _⟩)).mpr hmem
  have hdies : Dies refs count start x := by
    refine .intro (dead objs c) (hc.nodup.filter _) h.dies (hc.pos x hx) ?_
    have hsum := h.sum x
    rw [hone, List.count_cons_self (l := P)] at hsum
    omega
  refine ⟨hperm, fun y => ?_, fun y hy => ?_, fun y hy => ?_⟩
  · have hsum := h.sum y
    have hflat := (hperm.flatMap_right refs).count_eq y
    rw [List.flatMap_cons, List.count_append] at hflat
    rw [List.count_cons] at hsum ⊢
    rw [hflat, List.count_append]
    rw [List.count_cons (l := P)] at hsum
    rcases eq_or_ne y x with rfl | hne
    · simp only [BEq.rfl, if_true] at hsum ⊢
      omega
    · simp only [less, Function.update_of_ne hne]
      simp only [beq_iff_eq, hne.symm, if_false] at hsum ⊢
      omega
  · rcases List.mem_append.mp hy with hy | hy
    · exact hc.refs_mem x hx y hy
    · exact h.mem y (List.mem_cons_of_mem _ hy)
  · rcases List.mem_cons.mp (hperm.mem_iff.mp hy) with rfl | hy
    · exact hdies
    · exact h.dies y hy

/-- With nothing left to take, the dead are those that die. -/
theorem Balanced.dead_iff (h : Balanced objs refs count start c [])
    (hc : Counted objs refs count start) : x ∈ dead objs c ↔ Dies refs count start x := by
  refine ⟨h.dies x, fun hx => ?_⟩
  induction hx with
  | @intro y l hnodup _ hpos hall ih =>
    have hsub : l.Subperm (dead objs c) := List.subperm_of_subset hnodup fun z hz => ih z hz
    have hle := flatMap_count_le hsub refs y
    have hsum := h.sum y
    have hmem : y ∈ objs := by
      have hcount := hall.trans_lt' hpos
      rcases List.mem_cons.mp (List.count_pos_iff.mp hcount) with rfl | hmem
      · exact hc.start_mem
      · obtain ⟨z, hz, hyz⟩ := List.mem_flatMap.mp hmem
        exact hc.refs_mem z (List.mem_of_mem_filter (ih z hz)) y hyz
    rw [List.count_nil, List.count_cons] at hsum
    rw [List.count_cons] at hall
    exact List.mem_filter.mpr ⟨hmem, decide_eq_true (by omega)⟩

/-- Each object has lost the references of the dead and the one that went. -/
theorem Balanced.count_eq (h : Balanced objs refs count start c []) (x : α) :
    c x + (start :: (dead objs c).flatMap refs).count x = count x := by
  rw [h.sum, List.count_nil, Nat.add_zero]

end Infernode.Lib
