import Infernode.Lib.Fifo

/-!
# The run queue

The Progs that are ready, linked from `runhd` to `runtl`, and what is done to the links. A link
of a Prog that is off the queue is stale.
-/

namespace Infernode.Isched

open Lib (Fifo Linked before)

structure Runq (α : Type*) where
  runhd : Option α
  runtl : Option α
  link : α → Option α

variable {α : Type*} [DecidableEq α] {q : Runq α} {p r : α} {l : List α}

def Runq.addrun (q : Runq α) (p : α) : Runq α :=
  let link := Function.update q.link p none
  match q.runhd with
  | none => ⟨some p, some p, link⟩
  | some _ => ⟨q.runhd, some p, match q.runtl with
    | none => link
    | some t => Function.update link t (some p)⟩

omit [DecidableEq α] in
def Runq.delrun (q : Runq α) : Runq α :=
  match q.runhd with
  | none => q
  | some p => ⟨q.link p, if (q.link p).isNone then none else q.runtl, q.link⟩

def Runq.delrunq (k : ℕ) (q : Runq α) (p : α) : Runq α :=
  match before q.link p k none q.runhd with
  | none => q
  | some prev =>
    { runhd := if prev.isNone then q.link p else q.runhd
      runtl := if q.runtl = some p then prev else q.runtl
      link := match prev with
        | none => q.link
        | some b => Function.update q.link b (q.link p) }

def Runq.push (q : Runq α) (p : α) : Runq α :=
  ⟨some p, if q.runhd.isNone then some p else q.runtl, Function.update q.link p q.runhd⟩

def Runq.rotate (q : Runq α) : Runq α :=
  if q.runhd = q.runtl then q
  else
    match q.runhd, q.runtl with
    | some r, some t =>
      ⟨q.link r, some r, Function.update (Function.update q.link r none) t (some r)⟩
    | _, _ => q

def Runq.Is (q : Runq α) (l : List α) : Prop := Fifo q.link q.runhd q.runtl l

omit [DecidableEq α] in
theorem Runq.Is.runhd_eq (h : q.Is l) : q.runhd = l.head? := by
  cases l with
  | nil => exact h.linked
  | cons a as => exact h.linked.1

theorem Runq.Is.addrun (h : q.Is l) (hp : p ∉ l) : (q.addrun p).Is (l ++ [p]) := by
  have hpush := Fifo.push h hp
  rw [Runq.addrun]
  cases l with
  | nil =>
    have hhd : q.runhd = none := h.runhd_eq
    have htl : q.runtl = none := h.tail_eq
    rw [hhd]
    rw [htl] at hpush
    exact hpush
  | cons a as =>
    have hhd : q.runhd = some a := h.runhd_eq
    obtain ⟨t, ht⟩ : ∃ t, q.runtl = some t := by
      rw [h.tail_eq]
      simp [List.getLast?_cons]
    have htp : t ≠ p := by
      rintro rfl
      exact hp (List.mem_of_getLast? (h.tail_eq.symm.trans ht))
    rw [hhd, ht]
    rw [hhd, ht] at hpush
    simp only [Lib.pushnext, Lib.pushhead] at hpush
    rw [Function.update_comm htp] at hpush
    exact hpush

omit [DecidableEq α] in
theorem Runq.Is.delrun (h : q.Is (p :: l)) : q.delrun.Is l := by
  have hhd : q.runhd = some p := h.runhd_eq
  rw [Runq.Is, hhd] at h
  obtain ⟨bs, hbs, hpop⟩ := h.pop
  obtain ⟨-, rfl⟩ := List.cons.inj hbs
  rw [Runq.delrun, hhd]
  simp only [Option.isNone_iff_eq_none]
  exact hpop

theorem Runq.Is.delrunq {k : ℕ} (h : q.Is l) (hk : l.length ≤ k) :
    (q.delrunq k p).Is (l.erase p) := by
  by_cases hp : p ∈ l
  · obtain ⟨xs, ys, rfl⟩ := List.append_of_mem hp
    have hxs : p ∉ xs := fun hm =>
      (List.nodup_append.mp h.nodup).2.2 p hm p List.mem_cons_self rfl
    have hlen : xs.length < k := by
      rw [List.length_append, List.length_cons] at hk
      omega
    have hremove := Fifo.remove h
    rw [Runq.delrunq, Lib.before_split hxs hlen h.linked, Option.or_none,
      List.erase_append_right _ hxs, List.erase_cons_head]
    simp only [Option.isNone_iff_eq_none, List.getLast?_eq_none_iff]
    exact hremove
  · rw [Runq.delrunq, Lib.before_none hp k h.linked, List.erase_of_not_mem hp]
    exact h

theorem Runq.Is.push (h : q.Is l) (hp : p ∉ l) : (q.push p).Is (p :: l) := by
  have hcons := Fifo.cons h hp
  simp only [Runq.push, Option.isNone_iff_eq_none]
  exact hcons

theorem Runq.Is.rotate (h : q.Is (r :: l)) : q.rotate.Is (l ++ [r]) := by
  have hhd : q.runhd = some r := h.runhd_eq
  have hnodup := List.nodup_cons.mp h.nodup
  cases l with
  | nil =>
    have htl : q.runtl = some r := h.tail_eq
    rw [Runq.rotate, if_pos (hhd.trans htl.symm)]
    exact h
  | cons a as =>
    obtain ⟨t, ht⟩ : ∃ t, (a :: as).getLast? = some t := by
      simp [List.getLast?_cons]
    have htl : q.runtl = some t := by
      rw [h.tail_eq, List.getLast?_cons_cons, ht]
    have htr : t ≠ r := by
      rintro rfl
      exact hnodup.1 (List.mem_of_getLast? ht)
    have hpop : q.delrun.Is (a :: as) := h.delrun
    have hnext : q.link r = some a := h.linked.2.1
    have hpush := Fifo.push hpop hnodup.1
    have hdel : q.delrun = ⟨some a, some t, q.link⟩ := by
      rw [Runq.delrun, hhd]
      simp [hnext, htl]
    rw [hdel] at hpush
    simp only [Lib.pushnext, Lib.pushhead] at hpush
    rw [Runq.rotate, if_neg (by rw [hhd, htl]; exact fun heq => htr (Option.some.inj heq).symm),
      hhd, htl]
    simp only [hnext]
    rw [Function.update_comm htr] at hpush
    exact hpush

end Infernode.Isched
