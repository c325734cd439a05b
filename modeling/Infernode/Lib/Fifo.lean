import Mathlib

/-!
# Queues linked through their items

A queue keeps a head and a tail; each item holds the next one. `Fifo` says
which list of items that is. An item is on one queue at most, so that queues can
share the links.
-/

namespace Infernode.Lib

variable {α : Type*} [DecidableEq α]

/-- The items met from `h` on along `next`. -/
def Linked (next : α → Option α) : Option α → List α → Prop
  | h, [] => h = none
  | h, a :: as => h = some a ∧ Linked next (next a) as

structure Fifo (next : α → Option α) (head tail : Option α) (as : List α) : Prop where
  linked : Linked next head as
  tail_eq : tail = as.getLast?
  nodup : as.Nodup

/-- The links once `a` is put behind `tail`. -/
def pushnext (next : α → Option α) (tail : Option α) (a : α) : α → Option α :=
  Function.update (match tail with
    | none => next
    | some t => Function.update next t (some a)) a none

def pushhead (head tail : Option α) (a : α) : Option α :=
  match tail with
  | none => some a
  | some _ => head

omit [DecidableEq α] in
theorem Linked.congr {next next' : α → Option α} {h : Option α} {as : List α}
    (heq : ∀ a ∈ as, next a = next' a) (hl : Linked next h as) : Linked next' h as := by
  induction as generalizing h with
  | nil => exact hl
  | cons a as ih =>
    refine ⟨hl.1, ?_⟩
    rw [← heq a (by simp)]
    exact ih (fun b hb => heq b (by simp [hb])) hl.2

omit [DecidableEq α] in
theorem Linked.exists_cons {next : α → Option α} {a : α} {as : List α}
    (hl : Linked next (some a) as) : ∃ bs, as = a :: bs ∧ Linked next (next a) bs := by
  cases as with
  | nil => exact nomatch hl
  | cons b bs =>
    obtain ⟨hab, hl⟩ := hl
    obtain rfl := Option.some.inj hab
    exact ⟨bs, rfl, hl⟩

omit [DecidableEq α] in
theorem Fifo.empty (next : α → Option α) : Fifo next none none [] :=
  ⟨rfl, rfl, List.nodup_nil⟩

omit [DecidableEq α] in
theorem Fifo.head_none {next : α → Option α} {tail : Option α} {as : List α}
    (h : Fifo next none tail as) : as = [] := by
  cases as with
  | nil => rfl
  | cons a as => exact absurd h.linked.1 (by simp)

omit [DecidableEq α] in
theorem Fifo.pop {next : α → Option α} {tail : Option α} {a : α} {as : List α}
    (h : Fifo next (some a) tail as) :
    ∃ bs, as = a :: bs ∧
      Fifo next (next a) (if next a = none then none else tail) bs := by
  obtain ⟨bs, rfl, hl⟩ := h.linked.exists_cons
  refine ⟨bs, rfl, hl, ?_, h.nodup.of_cons⟩
  cases bs with
  | nil =>
    have hnext : next a = none := hl
    simp [hnext]
  | cons c cs =>
    have hnext : next a = some c := hl.1
    rw [hnext, h.tail_eq]
    simp

theorem linked_push {next : α → Option α} {h : Option α} {as : List α} {a t : α}
    (hl : Linked next h as) (hlast : as.getLast? = some t) (hnodup : as.Nodup) (ha : a ∉ as) :
    Linked (Function.update (Function.update next t (some a)) a none) h (as ++ [a]) := by
  induction as generalizing h with
  | nil => simp at hlast
  | cons b bs ih =>
    have hba : b ≠ a := by rintro rfl; simp at ha
    refine ⟨hl.1, ?_⟩
    rw [Function.update_of_ne hba]
    cases bs with
    | nil =>
      obtain rfl : b = t := by simpa using hlast
      rw [Function.update_self]
      exact ⟨rfl, Function.update_self _ _ _⟩
    | cons c cs =>
      have hlast' : (c :: cs).getLast? = some t := by rw [← hlast]; simp
      have hbt : b ≠ t := by
        rintro rfl
        exact (List.nodup_cons.mp hnodup).1 (List.mem_of_getLast? hlast')
      rw [Function.update_of_ne hbt]
      exact ih hl.2 hlast' hnodup.of_cons (fun hmem => ha (List.mem_cons_of_mem b hmem))

theorem Fifo.push {next : α → Option α} {head tail : Option α} {as : List α} {a : α}
    (h : Fifo next head tail as) (ha : a ∉ as) :
    Fifo (pushnext next tail a) (pushhead head tail a) (some a) (as ++ [a]) := by
  refine ⟨?_, by simp, ?_⟩
  · rw [h.tail_eq]
    cases hlast : as.getLast? with
    | none =>
      obtain rfl := List.getLast?_eq_none_iff.mp hlast
      exact ⟨rfl, Function.update_self _ _ _⟩
    | some t => exact linked_push h.linked hlast h.nodup ha
  · rw [List.nodup_append]
    refine ⟨h.nodup, List.nodup_singleton a, ?_⟩
    rintro b hb c hc rfl
    exact ha (List.mem_singleton.mp hc ▸ hb)

/-- A push behind a tail that is not among the items of another queue leaves that
queue as it was. -/
theorem Fifo.frame {next : α → Option α} {head tail tail' : Option α} {as : List α} {a : α}
    (h : Fifo next head tail as) (ha : a ∉ as) (ht : ∀ t ∈ tail', t ∉ as) :
    Fifo (pushnext next tail' a) head tail as := by
  refine ⟨h.linked.congr ?_, h.tail_eq, h.nodup⟩
  intro b hb
  have hba : b ≠ a := by rintro rfl; exact ha hb
  unfold pushnext
  rw [Function.update_of_ne hba]
  cases tail' with
  | none => rfl
  | some t =>
    have hbt : b ≠ t := by rintro rfl; exact ht b rfl hb
    exact (Function.update_of_ne hbt _ _).symm

/-- The link of an item that is not among them is changed. -/
theorem Linked.update {next : α → Option α} {h b : Option α} {as : List α} {a : α}
    (hl : Linked next h as) (ha : a ∉ as) : Linked (Function.update next a b) h as := by
  refine hl.congr fun c hc => ?_
  have hca : c ≠ a := by rintro rfl; exact ha hc
  exact (Function.update_of_ne hca _ _).symm

theorem Fifo.update {next : α → Option α} {head tail b : Option α} {as : List α} {a : α}
    (h : Fifo next head tail as) (ha : a ∉ as) : Fifo (Function.update next a b) head tail as :=
  ⟨h.linked.update ha, h.tail_eq, h.nodup⟩

theorem Linked.cons {next : α → Option α} {h : Option α} {as : List α} {a : α}
    (hl : Linked next h as) (ha : a ∉ as) :
    Linked (Function.update next a h) (some a) (a :: as) := by
  refine ⟨rfl, ?_⟩
  rw [Function.update_self]
  exact hl.update ha

/-- An item is put before the others. -/
theorem Fifo.cons {next : α → Option α} {head tail : Option α} {as : List α} {a : α}
    (h : Fifo next head tail as) (ha : a ∉ as) :
    Fifo (Function.update next a head) (some a) (if head = none then some a else tail)
      (a :: as) := by
  refine ⟨h.linked.cons ha, ?_, List.nodup_cons.mpr ⟨ha, h.nodup⟩⟩
  cases as with
  | nil =>
    have hnil : head = none := h.linked
    rw [if_pos hnil]
    rfl
  | cons b bs =>
    rw [if_neg (by rw [h.linked.1]; exact nofun), h.tail_eq, List.getLast?_cons_cons]

/-- The item met before `a` from `h` on; `some none` where `a` is met first. -/
def before (next : α → Option α) (a : α) : ℕ → Option α → Option α → Option (Option α)
  | 0, _, _ => none
  | _ + 1, _, none => none
  | k + 1, prev, some b => if b = a then some prev else before next a k (some b) (next b)

theorem before_none {next : α → Option α} {a : α} {as : List α} (ha : a ∉ as) (k : ℕ)
    {h prev : Option α} (hl : Linked next h as) : before next a k prev h = none := by
  induction as generalizing k h prev with
  | nil =>
    have hnil : h = none := hl
    cases k <;> simp [before, hnil]
  | cons b bs ih =>
    obtain ⟨rfl, hl⟩ := hl
    have hba : b ≠ a := by rintro rfl; exact ha List.mem_cons_self
    cases k with
    | zero => rfl
    | succ k =>
      rw [before, if_neg hba]
      exact ih (fun hm => ha (List.mem_cons_of_mem b hm)) k hl

theorem before_split {next : α → Option α} {a : α} {xs ys : List α} (ha : a ∉ xs) {k : ℕ}
    (hk : xs.length < k) {h prev : Option α} (hl : Linked next h (xs ++ a :: ys)) :
    before next a k prev h = some (xs.getLast?.or prev) := by
  induction xs generalizing k h prev with
  | nil =>
    obtain ⟨rfl, -⟩ := hl
    cases k with
    | zero => exact absurd hk (Nat.not_lt_zero _)
    | succ k => simp [before]
  | cons b bs ih =>
    obtain ⟨rfl, hl⟩ := hl
    have hba : b ≠ a := by rintro rfl; exact ha List.mem_cons_self
    cases k with
    | zero => exact absurd hk (Nat.not_lt_zero _)
    | succ k =>
      rw [before, if_neg hba,
        ih (fun hm => ha (List.mem_cons_of_mem b hm)) (Nat.lt_of_succ_lt_succ hk) hl]
      cases bs with
      | nil => rfl
      | cons c cs => rw [List.getLast?_cons_cons]; simp [List.getLast?_cons]

theorem linked_skip {next : α → Option α} {a b : α} {xs ys : List α}
    (hnodup : (xs ++ b :: a :: ys).Nodup) {h : Option α}
    (hl : Linked next h (xs ++ b :: a :: ys)) :
    Linked (Function.update next b (next a)) h (xs ++ b :: ys) := by
  induction xs generalizing h with
  | nil =>
    obtain ⟨rfl, -, hl⟩ := hl
    refine ⟨rfl, ?_⟩
    rw [Function.update_self]
    refine hl.congr fun c hc => ?_
    have hcb : c ≠ b := by
      rintro rfl
      exact (List.nodup_cons.mp hnodup).1 (List.mem_cons_of_mem a hc)
    exact (Function.update_of_ne hcb _ _).symm
  | cons c cs ih =>
    obtain ⟨rfl, hl⟩ := hl
    have hcb : c ≠ b := by
      rintro rfl
      exact (List.nodup_cons.mp hnodup).1 (by simp)
    refine ⟨rfl, ?_⟩
    rw [Function.update_of_ne hcb]
    exact ih hnodup.of_cons hl

/-- An item is taken out, the one before it linked to the one behind. -/
theorem Fifo.remove {next : α → Option α} {head tail : Option α} {a : α} {xs ys : List α}
    (h : Fifo next head tail (xs ++ a :: ys)) :
    Fifo (match xs.getLast? with
        | none => next
        | some b => Function.update next b (next a))
      (if xs = [] then next a else head) (if tail = some a then xs.getLast? else tail)
      (xs ++ ys) := by
  have hnodup : (xs ++ ys).Nodup :=
    h.nodup.sublist (List.Sublist.append_left (List.sublist_cons_self a ys) xs)
  have htail : (if tail = some a then xs.getLast? else tail) = (xs ++ ys).getLast? := by
    rw [h.tail_eq, List.getLast?_append, List.getLast?_append]
    cases ys with
    | nil => simp
    | cons c cs =>
      have hlast : (a :: c :: cs).getLast? = (c :: cs).getLast? := List.getLast?_cons_cons
      obtain ⟨d, hd⟩ : ∃ d, (c :: cs).getLast? = some d := by
        simp [List.getLast?_cons]
      have hda : d ≠ a := by
        rintro rfl
        have hmem := List.mem_of_getLast? hd
        exact (List.nodup_cons.mp h.nodup.of_append_right).1 hmem
      rw [hlast, hd, Option.some_or, if_neg]
      exact fun heq => hda (Option.some.inj heq)
  refine ⟨?_, htail, hnodup⟩
  rcases List.eq_nil_or_concat xs with rfl | ⟨zs, b, rfl⟩
  · exact h.linked.2
  · have hne : zs.concat b ≠ [] := by simp
    rw [if_neg hne]
    simp only [List.concat_eq_append, List.getLast?_append, List.getLast?_singleton,
      Option.some_or]
    have hlinked := h.linked
    have hnd := h.nodup
    rw [List.concat_eq_append, List.append_assoc] at hlinked hnd
    rw [List.append_assoc]
    exact linked_skip hnd hlinked

end Infernode.Lib
