import Infernode.Js.Object

/-!
# Keys, attributes and slots

What `slotof` finds, after each change of the keys, the attributes and the slots.
-/

namespace Infernode.Js

variable {P : Type} {ps : List (Key × Attr)} {vs : List (Slot P)} {k k' : Key} {a : Attr}
  {v : Slot P} {i : ℕ}

def look : List (Key × Attr) → List (Slot P) → Key → Option (Slot P × Attr)
  | p :: ps, v :: vs, k => if p.1 = k then some (v, p.2) else look ps vs k
  | _, _, _ => none

theorem slotof_nil : slotof [] k = none := rfl

theorem slotof_cons (p : Key × Attr) (ps : List (Key × Attr)) (k : Key) :
    slotof (p :: ps) k = if p.1 = k then some 0 else (slotof ps k).map (· + 1) := rfl

theorem look_nil (vs : List (Slot P)) (k : Key) : look [] vs k = none := by cases vs <;> rfl

theorem look_cons (p : Key × Attr) (v : Slot P) (ps : List (Key × Attr)) (vs : List (Slot P))
    (k : Key) : look (p :: ps) (v :: vs) k = if p.1 = k then some (v, p.2) else look ps vs k := rfl

theorem slotof_eq_none : slotof ps k = none ↔ k ∉ ps.map Prod.fst := by
  induction ps with
  | nil => simp [slotof_nil]
  | cons p ps ih =>
    rw [slotof_cons, List.map_cons, List.mem_cons, not_or, ← ih]
    by_cases hp : p.1 = k
    · simp [hp]
    · simp [hp, Ne.symm hp]

theorem look_eq (hlen : ps.length = vs.length) : look ps vs k = (slotof ps k).bind fun i =>
    match vs[i]?, ps[i]? with
    | some v, some (_, a) => some (v, a)
    | _, _ => none := by
  induction ps generalizing vs with
  | nil => rfl
  | cons p ps ih =>
    cases vs with
    | nil => exact nomatch hlen
    | cons v vs =>
      rw [look_cons, slotof_cons]
      by_cases hp : p.1 = k
      · simp [hp]
      · rw [if_neg hp, if_neg hp, ih (by simpa using hlen), Option.bind_map]
        simp

theorem look_eq_none (hlen : ps.length = vs.length) :
    look ps vs k = none ↔ slotof ps k = none := by
  induction ps generalizing vs with
  | nil => simp [look_nil, slotof_nil]
  | cons p ps ih =>
    cases vs with
    | nil => exact nomatch hlen
    | cons v vs =>
      rw [look_cons, slotof_cons]
      by_cases hp : p.1 = k
      · simp [hp]
      · simpa [hp] using ih (by simpa using hlen)

theorem look_append (hlen : ps.length = vs.length) :
    look (ps ++ [(k, a)]) (vs ++ [v]) k' =
      (look ps vs k').or (if k' = k then some (v, a) else none) := by
  induction ps generalizing vs with
  | nil =>
    obtain rfl := List.length_eq_zero_iff.mp hlen.symm
    by_cases hk : k' = k
    · simp [look_cons, look_nil, hk]
    · simp [look_cons, look_nil, hk, Ne.symm hk]
  | cons p ps ih =>
    cases vs with
    | nil => exact nomatch hlen
    | cons w vs =>
      rw [List.cons_append, List.cons_append, look_cons, look_cons, ih (by simpa using hlen)]
      by_cases hp : p.1 = k'
      · simp [hp]
      · simp [hp]

theorem look_edit (f : Attr → Attr) (g : Slot P → Slot P) (hlen : ps.length = vs.length)
    (h : slotof ps k = some i) :
    look (ps.modify i fun p => (p.1, f p.2)) (vs.modify i g) k' =
      if k' = k then (look ps vs k).map fun p => (g p.1, f p.2) else look ps vs k' := by
  induction ps generalizing vs i with
  | nil => cases h
  | cons p ps ih =>
    cases vs with
    | nil => simp at hlen
    | cons w vs =>
      rw [slotof_cons] at h
      by_cases hp : p.1 = k
      · rw [if_pos hp] at h
        obtain rfl := Option.some.inj h
        by_cases hk : k' = k
        · simp [look_cons, hk, hp]
        · simp [look_cons, hk, hp, Ne.symm hk]
      · rw [if_neg hp] at h
        obtain ⟨j, hj, rfl⟩ := Option.map_eq_some_iff.mp h
        rw [List.modify_succ_cons, List.modify_succ_cons, look_cons, ih (by simpa using hlen) hj,
          look_cons, if_neg hp, look_cons]
        by_cases hk : k' = k
        · simp [hk, hp]
        · simp [hk]

theorem look_set (hlen : ps.length = vs.length) (h : slotof ps k = some i) :
    look ps (vs.set i v) k' =
      if k' = k then (look ps vs k).map fun p => (v, p.2) else look ps vs k' := by
  have hedit : look _ _ k' = _ := look_edit id (fun _ => v) hlen h
  rwa [← List.set_eq_modify, show (fun p : Key × Attr => (p.1, id p.2)) = id from rfl,
    List.modify_id] at hedit

theorem look_modify (hlen : ps.length = vs.length) (h : slotof ps k = some i) :
    look (ps.modify i fun p => (p.1, a)) vs k' =
      if k' = k then (look ps vs k).map fun p => (p.1, a) else look ps vs k' := by
  have hedit : look _ _ k' = _ := look_edit (fun _ => a) id hlen h
  rwa [List.modify_id] at hedit

theorem look_erase (hlen : ps.length = vs.length) (hnodup : (ps.map Prod.fst).Nodup)
    (h : slotof ps k = some i) :
    look (ps.eraseIdx i) (vs.eraseIdx i) k' = if k' = k then none else look ps vs k' := by
  induction ps generalizing vs i with
  | nil => exact nomatch h
  | cons p ps ih =>
    cases vs with
    | nil => exact nomatch hlen
    | cons w vs =>
      rw [List.map_cons, List.nodup_cons] at hnodup
      rw [slotof_cons] at h
      by_cases hp : p.1 = k
      · rw [if_pos hp] at h
        obtain rfl := Option.some.inj h
        rw [List.eraseIdx_cons_zero, List.eraseIdx_cons_zero, look_cons]
        by_cases hk : k' = k
        · rw [if_pos hk, look_eq_none (by simpa using hlen), slotof_eq_none, hk, ← hp]
          exact hnodup.1
        · rw [if_neg hk, if_neg fun h => hk (h.symm.trans hp)]
      · rw [if_neg hp] at h
        obtain ⟨j, hj, rfl⟩ := Option.map_eq_some_iff.mp h
        rw [List.eraseIdx_cons_succ, List.eraseIdx_cons_succ, look_cons, ih (by simpa using hlen) hnodup.2 hj, look_cons]
        by_cases hk : k' = k
        · simp [hk, hp]
        · simp [hk]

theorem slotof_append_of_none (h : slotof ps k = none) : ((ps ++ [(k, a)]).map Prod.fst).Nodup ↔
    (ps.map Prod.fst).Nodup := by
  rw [slotof_eq_none] at h
  rw [List.map_append, List.nodup_append]
  constructor
  · exact fun h => h.1
  · intro hnodup
    refine ⟨hnodup, by simp, fun x hx y hy => ?_⟩
    rintro rfl
    obtain rfl := List.mem_singleton.mp hy
    exact h hx

theorem map_fst_modify : (ps.modify i fun p => (p.1, a)).map Prod.fst = ps.map Prod.fst := by
  induction ps generalizing i with
  | nil => cases i <;> rfl
  | cons p ps ih =>
    cases i with
    | zero => rfl
    | succ i => simp [ih]

theorem slotof_modify {j : ℕ} : slotof (ps.modify j fun p => (p.1, a)) k = slotof ps k := by
  induction ps generalizing j with
  | nil => cases j <;> rfl
  | cons p ps ih =>
    cases j with
    | zero => rfl
    | succ j => rw [List.modify_succ_cons, slotof_cons, slotof_cons, ih]

theorem look_of_slotof (hlen : ps.length = vs.length) (h : slotof ps k = some i) :
    ∃ v a, vs[i]? = some v ∧ ps[i]? = some (k, a) ∧ look ps vs k = some (v, a) := by
  induction ps generalizing vs i with
  | nil => exact nomatch h
  | cons p ps ih =>
    cases vs with
    | nil => exact nomatch hlen
    | cons w vs =>
      rw [slotof_cons] at h
      by_cases hp : p.1 = k
      · rw [if_pos hp] at h
        obtain rfl := Option.some.inj h
        exact ⟨w, p.2, rfl, by rw [← hp]; rfl, by rw [look_cons, if_pos hp]⟩
      · rw [if_neg hp] at h
        obtain ⟨j, hj, rfl⟩ := Option.map_eq_some_iff.mp h
        obtain ⟨v, a, hv, ha, hlook⟩ := ih (by simpa using hlen) hj
        exact ⟨v, a, hv, ha, by rw [look_cons, if_neg hp, hlook]⟩

end Infernode.Js
