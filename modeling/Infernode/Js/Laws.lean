import Infernode.Js.Truncate

/-!
# The essential invariants

What the operations of the language keep, of any objects.
-/

namespace Infernode.Js.Ecma

variable {P : Type} {A A' : Heap P} {o o' : Object P} {k : Key} {d : Desc P}
  {len : Tolen P} {h l n : ℕ} {w : Bool}

inductive Ends (A : Heap P) : Option ℕ → Prop
  | none : Ends A none
  | some {q : ℕ} : Ends A (A q).proto → Ends A (some q)

theorem Ends.acyclic {q : Option ℕ} (hends : Ends A q) :
    ∀ h, Reaches A h q → ¬ Reaches A h (A h).proto := by
  induction hends with
  | none => exact fun h hreach => nomatch hreach
  | some _ ih =>
    intro h hreach hcycle
    cases hreach with
    | here => exact ih _ hcycle hcycle
    | next hreach => exact ih h hreach hcycle

theorem Ends.setproto {p q : Option ℕ} (hp : ¬ Reaches A h p) (hendp : Ends A p)
    (hends : Ends A q) : Ends (Function.update A h { A h with proto := p }) q := by
  have hsame : ∀ {q : Option ℕ}, Ends A q → ¬ Reaches A h q →
      Ends (Function.update A h { A h with proto := p }) q := by
    intro q hends
    induction hends with
    | none => exact fun _ => .none
    | @some q _ ih =>
      intro hreach
      have hne : q ≠ h := by
        rintro rfl
        exact hreach .here
      refine .some ?_
      rw [Function.update_of_ne hne]
      exact ih fun hnext => hreach (.next hnext)
  induction hends with
  | none => exact .none
  | @some q _ ih =>
    refine .some ?_
    by_cases hq : q = h
    · rw [hq, Function.update_self]
      exact hsame hendp hp
    · rw [Function.update_of_ne hq]
      exact ih

theorem Ends.congr {q : Option ℕ} (hproto : ∀ h, (A' h).proto = (A h).proto)
    (hends : Ends A q) : Ends A' q := by
  induction hends with
  | none => exact .none
  | some _ ih => exact .some (by rwa [hproto])

/-- What may become of a property that is not configurable: of data that may be written, another
value, or that it may not be written. -/
def Only (p p' : Property P) : Prop :=
  p' = p ∨ ∃ x x' w e, p = .data x true e false ∧ p' = .data x' w e false

structure Object.Keeps (o o' : Object P) : Prop where
  fixed : ∀ k p, o.props k = some p → p.conf = false →
    ∃ p', o'.props k = some p' ∧ Only p p'
  closed : o.ext = false → o'.ext = false ∧ o'.proto = o.proto ∧
    ∀ k, o.props k = none → o'.props k = none

theorem Object.Keeps.refl (o : Object P) : o.Keeps o :=
  ⟨fun _ p hp _ => ⟨p, hp, .inl rfl⟩, fun hext => ⟨hext, rfl, fun _ hk => hk⟩⟩

theorem Only.conf {p p' : Property P} (h : Only p p') (hp : p.conf = false) : p'.conf = false := by
  rcases h with rfl | ⟨_, _, _, _, rfl, rfl⟩
  · exact hp
  · rfl

theorem Only.trans {p p' p'' : Property P} (h : Only p p') (h' : Only p' p'') : Only p p'' := by
  rcases h with rfl | ⟨x, x', w, e, rfl, rfl⟩
  · exact h'
  rcases h' with rfl | ⟨y, y', w', e', hp', rfl⟩
  · exact .inr ⟨x, x', w, e, rfl, rfl⟩
  · injection hp' with _ _ he
    exact .inr ⟨x, y', w', e, rfl, by rw [he]⟩

theorem Object.Keeps.trans {o'' : Object P} (h : o.Keeps o') (h' : o'.Keeps o'') :
    o.Keeps o'' := by
  constructor
  · intro k p hp hconf
    obtain ⟨p', hp', honly⟩ := h.fixed k p hp hconf
    obtain ⟨p'', hp'', honly'⟩ := h'.fixed k p' hp' (honly.conf hconf)
    exact ⟨p'', hp'', honly.trans honly'⟩
  · intro hext
    obtain ⟨hext', hproto, hnone⟩ := h.closed hext
    obtain ⟨hext'', hproto', hnone'⟩ := h'.closed hext'
    exact ⟨hext'', hproto'.trans hproto, fun k hk => hnone' k (hnone k hk)⟩

structure Object.Edits (o o' : Object P) : Prop extends Object.Keeps o o' where
  proto : o'.proto = o.proto

theorem Object.Edits.refl (o : Object P) : o.Edits o := ⟨.refl o, rfl⟩

theorem Object.Edits.trans {o'' : Object P} (h : o.Edits o') (h' : o'.Edits o'') :
    o.Edits o'' :=
  ⟨h.toKeeps.trans h'.toKeeps, h'.proto.trans h.proto⟩

theorem exists_stop {f : Key → Option (Property P)} (hn : n ≤ l) : ∃ m, n ≤ m ∧ m ≤ l ∧
    (∀ i, m ≤ i → i < l → (f (.index i)).any (!·.conf) = false) ∧
    (n < m → (f (.index (m - 1))).any (!·.conf) = true) := by
  induction l, hn using Nat.le_induction with
  | base => exact ⟨n, Nat.le_refl n, Nat.le_refl n, fun i hi hlt => by omega, fun h => by omega⟩
  | succ l hn ih =>
    cases hl : (f (.index l)).any (!·.conf) with
    | true => exact ⟨l + 1, by omega, Nat.le_refl _, fun i hi hlt => by omega, fun _ => hl⟩
    | false =>
      obtain ⟨m, hnm, hml, hconf, hstop⟩ := ih
      refine ⟨m, hnm, by omega, fun i hi hlt => ?_, hstop⟩
      rcases Nat.lt_succ_iff_lt_or_eq.mp hlt with hlt | rfl
      · exact hconf i hi hlt
      · exact hl

/-- `o'` is array `o` shortened to `n`, or to just after the last property that stays. -/
structure Object.Shortened (o o' : Object P) (n : ℕ) : Prop where
  le : n ≤ o'.length.1
  stops : n < o'.length.1 → ∃ p, o.props (.index (o'.length.1 - 1)) = some p ∧ p.conf = false
  conf : ∀ i p, o'.length.1 ≤ i → o.props (.index i) = some p → p.conf = true
  props : ∀ k ≠ alength, o'.props k = cut o'.length.1 o.props k

structure Object.Array (o : Object P) (l : ℕ) (w : Bool) : Prop where
  length : o.props alength = some (.data (.num l) w false false)
  lt : ∀ i p, o.props (.index i) = some p → i < l

variable [DecidableEq P]

theorem getD_all {α : Type} [DecidableEq α] {x : Option α} {a : α}
    (h : (x.all fun b => decide (b = a)) = true) : x.getD a = a := by
  cases x with
  | none => rfl
  | some b => simpa using h

theorem apply_only {p : Property P} {ext : Bool} (hvalid : validate ext d (some p) = true)
    (hp : p.conf = false) : Only p (apply d (some p)) := by
  simp only [validate, hp, Bool.false_or, Bool.and_eq_true, decide_eq_true_eq,
    Bool.or_eq_true] at hvalid
  obtain ⟨⟨⟨hconf, henum⟩, hkind⟩, hvalue⟩ := hvalid
  have hconf' : d.conf.getD false = false := by
    rcases hd : d.conf with _ | _ | _
    · rfl
    · rfl
    · exact absurd hd hconf
  have henum' := getD_all henum
  cases p with
  | data x w e c =>
    obtain rfl : c = false := hp
    have hacc : d.isacc = false := by
      rcases hkind with hgeneric | hacc
      · simp only [Desc.isgeneric, Bool.and_eq_true, Bool.not_eq_true'] at hgeneric
        exact hgeneric.1
      · exact hacc
    simp only [Property.enum] at henum'
    have happly : apply d (some (.data x w e false)) =
        .data (d.value.getD x) (d.write.getD w) e false := by
      simp [apply, hacc, henum', hconf']
    rw [happly]
    cases w with
    | true => exact .inr ⟨x, _, _, e, rfl, rfl⟩
    | false =>
      obtain ⟨hwrite, hsame⟩ : d.write ≠ some true ∧ _ := by simpa using hvalue
      have hwrite' : d.write.getD false = false := by
        rcases hd : d.write with _ | _ | _
        · rfl
        · rfl
        · exact absurd hd hwrite
      rw [hwrite', getD_all hsame]
      exact .inl rfl
  | accessor g t e c =>
    obtain rfl : c = false := hp
    have hdata : d.isdata = false := by
      rcases hkind with hgeneric | hacc
      · simp only [Desc.isgeneric, Bool.and_eq_true, Bool.not_eq_true'] at hgeneric
        exact hgeneric.2
      · rcases d.one with ⟨hv, hw⟩ | ⟨hg, ht⟩
        · simp [Desc.isdata, hv, hw]
        · simp [Desc.isacc, hg, ht, Property.isacc] at hacc
    obtain ⟨hget, hset⟩ := Bool.and_eq_true_iff.mp hvalue
    simp only [Property.enum] at henum'
    rw [apply, hdata, getD_all hget, getD_all hset, henum', hconf']
    exact .inl rfl

theorem ordinaryDefine_edits : o.Edits (ordinaryDefine o k d).2 := by
  rw [ordinaryDefine]
  split_ifs with hvalid
  swap
  · exact .refl o
  refine ⟨⟨?_, ?_⟩, rfl⟩
  · intro k' p hp hconf
    by_cases hk : k' = k
    · subst hk
      rw [hp] at hvalid
      exact ⟨apply d (some p), by simp [hp], apply_only hvalid hconf⟩
    · exact ⟨p, by simp [hk, hp], .inl rfl⟩
  · intro hext
    refine ⟨hext, rfl, fun k' hnone => ?_⟩
    by_cases hk : k' = k
    · subst hk
      rw [hnone, validate, hext] at hvalid
      cases hvalid
    · simp [hk, hnone]

omit [DecidableEq P] in
theorem shrink_edits {props : Key → Option (Property P)} : Object.Edits { o with props := props }
    { o with props := (shrink n l props).2 } := by
  induction l generalizing props with
  | zero => exact .refl _
  | succ l ih =>
    rw [shrink]
    split_ifs with hlt hany
    · exact .refl _
    · exact .refl _
    · suffices hstep : Object.Edits { o with props := props }
          { o with props := Function.update props (.index l) none } from hstep.trans ih
      refine ⟨⟨fun k p hp hconf => ?_, fun hext => ⟨hext, rfl, fun k hk => ?_⟩⟩, rfl⟩
      · refine ⟨p, ?_, .inl rfl⟩
        by_cases hk : k = .index l
        · have hl : props (.index l) = some p := hk ▸ hp
          exact absurd (by rw [hl]; simp [hconf]) hany
        · simpa [hk] using hp
      · by_cases hk' : k = .index l
        · simp [hk']
        · simpa [hk'] using hk

theorem arraySetLength_edits : o.Edits (arraySetLength len o d).2 := by
  unfold arraySetLength
  cases d.value with
  | none => exact ordinaryDefine_edits
  | some v =>
    dsimp only
    cases len.val v with
    | none => exact .refl o
    | some newlen =>
      dsimp only
      generalize o.length = length
      obtain ⟨oldlen, write⟩ := length
      dsimp only
      split_ifs with hle hw hwrite
      · exact ordinaryDefine_edits
      · exact .refl o
      all_goals
        generalize hfirst : ordinaryDefine o alength _ = r
        have hedits : o.Edits r.2 := hfirst ▸ ordinaryDefine_edits
        obtain ⟨ok, o₁⟩ := r
        cases ok with
        | false => exact hedits
        | true =>
          have hshrink : o.Edits { o₁ with props := (shrink newlen oldlen o₁.props).2 } :=
            hedits.trans shrink_edits
          dsimp only
          split_ifs
          · exact hshrink.trans ordinaryDefine_edits
          · first
            | exact hshrink
            | exact hshrink.trans ordinaryDefine_edits

theorem defineOwn_edits : o.Edits (defineOwn len o k d).2 := by
  unfold defineOwn
  by_cases hlength : o.isarray = true ∧ k = alength
  · rw [if_pos hlength]
    exact arraySetLength_edits
  · rw [if_neg hlength]
    generalize (if o.isarray then keyindex k else none) = key
    cases key with
    | none => exact ordinaryDefine_edits
    | some i =>
      dsimp only
      by_cases hro : o.length.1 ≤ i ∧ o.length.2 = false
      · rw [if_pos hro]
        exact .refl o
      · rw [if_neg hro]
        generalize hfirst : ordinaryDefine o k d = r
        have hedits : o.Edits r.2 := hfirst ▸ ordinaryDefine_edits
        obtain ⟨ok, o₁⟩ := r
        cases ok with
        | false => exact hedits
        | true =>
          dsimp only
          split_ifs
          · exact hedits.trans ordinaryDefine_edits
          · exact hedits

omit [DecidableEq P] in
theorem delete_edits : o.Edits (delete o k).2 := by
  unfold delete
  cases hp : o.props k with
  | none => exact .refl o
  | some p =>
    dsimp only
    split_ifs with hconf
    · refine ⟨⟨fun k' p' hp' hconf' => ⟨p', ?_, .inl rfl⟩,
        fun hext => ⟨hext, rfl, fun k' hk => ?_⟩⟩, rfl⟩
      · by_cases hk : k' = k
        · rw [hk, hp] at hp'
          obtain rfl := Option.some.inj hp'
          exact absurd hconf (by simp [hconf'])
        · simpa [hk] using hp'
      · by_cases hk' : k' = k
        · simp [hk']
        · simpa [hk'] using hk
    · exact .refl o

end Infernode.Js.Ecma
