import Infernode.Js.Ecma
import Infernode.Js.Mutate

/-!
# Objects as ECMAScript has them

What an object is to the language: a map from keys to properties, of which an array's length is
one.
-/

namespace Infernode.Js

open Ecma

variable {P : Type} {s s' : State P} {h : ℕ} {k : Key}

def toProperty : Slot P × Attr → Property P
  | (v, a) =>
    if a.acc then .accessor v.get v.set a.enum a.conf else .data v.value a.write a.enum a.conf

theorem toProperty_conf {p : Slot P × Attr} : (toProperty p).conf = p.2.conf := by
  obtain ⟨v, a⟩ := p
  rw [toProperty]
  split_ifs <;> rfl

def State.abs (s : State P) : Heap P := fun h =>
  { isarray := (s.objs h).kind = .array
    ext := (s.objs h).ext
    proto := (s.objs h).proto
    props := fun k => (getownprop s h k).map toProperty }

theorem Wf.fits (hs : Wf s) {p : Slot P × Attr} (hp : getownprop s h k = some p) :
    Fits p.1 p.2 := by
  rw [hs.getownprop_eq, State.prop] at hp
  cases helem : (s.objs h).elem k with
  | some x =>
    rw [helem] at hp
    obtain rfl := Option.some.inj hp
    exact ⟨rfl, fun h => by cases h⟩
  | none =>
    rw [helem] at hp
    cases hlook : s.look h k with
    | some q =>
      rw [hlook] at hp
      obtain rfl := Option.some.inj hp
      exact (hs.props h).fits k _ hlook
    | none =>
      rw [hlook, Option.none_or, lengthprop] at hp
      split_ifs at hp
      obtain rfl := Option.some.inj hp
      exact ⟨rfl, fun h => by cases h⟩

theorem lengthprop_none {o : Obj P} (hlength : o.kind = .array → k ≠ alength) :
    lengthprop o k = none :=
  if_neg fun h => hlength h.1 h.2

theorem Wf.getownprop_prop (hs : Wf s) (hlength : (s.objs h).kind = .array → k ≠ alength) :
    getownprop s h k = s.prop h k := by
  rw [hs.getownprop_eq, lengthprop_none hlength, Option.or_none]

theorem abs_others (hs : Wf s) (hs' : Wf s') {h' : ℕ} (hobj : s'.objs h' = s.objs h')
    (hlook : ∀ k, s'.look h' k = s.look h' k) : s'.abs h' = s.abs h' := by
  have hprop (k : Key) : getownprop s' h' k = getownprop s h' k := by
    rw [hs.getownprop_eq, hs'.getownprop_eq, State.prop, State.prop, hobj, hlook]
  simp only [State.abs, hobj, hprop]

theorem Puts.abs_eq {f : Key → Option (Slot P × Attr)} (hs : Wf s) (hp : Puts s s' h f) :
    s'.abs = Function.update s.abs h { s.abs h with
      props := fun k => ((f k).or (lengthprop (s.objs h) k)).map toProperty } := by
  funext h'
  by_cases hh : h' = h
  · obtain ⟨_, _, _, _, hobj⟩ := hp.obj
    subst hh
    rw [Function.update_self]
    have hprops (k' : Key) : (getownprop s' h' k').map toProperty =
        ((f k').or (lengthprop (s.objs h') k')).map toProperty := by
      rw [hp.wf.getownprop_eq, hp.prop, hobj]
      rfl
    simp only [State.abs, hobj]
    exact congrArg _ (funext hprops)
  · obtain ⟨hobj, hlook⟩ := hp.others h' hh
    rw [Function.update_of_ne hh]
    exact abs_others hs hp.wf hobj hlook

theorem Wf.abs_props (hs : Wf s) : (s.abs h).props k =
    ((s.prop h k).or (lengthprop (s.objs h) k)).map toProperty := by
  change (getownprop s h k).map toProperty = _
  rw [hs.getownprop_eq]

theorem Puts.abs {p : Option (Slot P × Attr)} (hs : Wf s)
    (hp : Puts s s' h fun k' => if k' = k then p else s.prop h k')
    (hlength : (s.objs h).kind = .array → k ≠ alength) :
    s'.abs = Function.update s.abs h
      { s.abs h with props := Function.update (s.abs h).props k (p.map toProperty) } := by
  rw [hp.abs_eq hs]
  refine congrArg (fun f => Function.update s.abs h { s.abs h with props := f })
    (funext fun k' => ?_)
  by_cases hk : k' = k
  · rw [if_pos hk, hk, Function.update_self, lengthprop_none hlength, Option.or_none]
  · rw [if_neg hk, Function.update_of_ne hk, hs.abs_props]

theorem Wf.setalen (hs : Wf s) {n : ℕ} {b : Bool} (hkind : (s.objs h).kind = .array) :
    Wf (s.setobj h { s.objs h with alen := n, lenro := b }) ∧
      (∀ h' k, (s.setobj h { s.objs h with alen := n, lenro := b }).prop h' k = s.prop h' k) ∧
      (s.setobj h { s.objs h with alen := n, lenro := b }).abs = Function.update s.abs h
        { s.abs h with
          props := Function.update (s.abs h).props alength
            (some (.data (.num n) (!b) false false)) } := by
  have hlook (h' : ℕ) (k : Key) :
      (s.setobj h { s.objs h with alen := n, lenro := b }).look h' k = s.look h' k := by
    by_cases hh : h' = h <;> simp [State.look, hh]
  have hprop (h' : ℕ) (k : Key) :
      (s.setobj h { s.objs h with alen := n, lenro := b }).prop h' k = s.prop h' k := by
    rw [State.prop, State.prop, hlook]
    by_cases hh : h' = h
    · rw [hh]
      simp [Obj.elem]
    · simp [hh]
  have hwf : Wf (s.setobj h { s.objs h with alen := n, lenro := b }) := by
    obtain ⟨hfits, hidx, hstale, hlength, hsize⟩ := hs.props h
    refine Wf.of_others (h := h) hs (hs.shapes.setobj rfl rfl) ⟨fun k p hp => ?_, fun i hi => ?_,
      fun k v p hv hp => ?_, fun _ => ?_, ?_⟩ fun h' hh => ⟨by simp [hh], hlook h'⟩
    · exact hfits k p (hlook h k ▸ hp)
    · rw [hlook]
      exact hidx i (by simpa using hi)
    · refine hstale k v p ?_ (hlook h k ▸ hp)
      simpa [Obj.elem] using hv
    · rw [hlook]
      exact hlength hkind
    · simpa using hsize
  refine ⟨hwf, hprop, ?_⟩
  funext h'
  by_cases hh : h' = h
  · subst hh
    rw [Function.update_self]
    have hprops (k : Key) :
        (getownprop (s.setobj h' { s.objs h' with alen := n, lenro := b }) h' k).map toProperty =
        Function.update (s.abs h').props alength (some (.data (.num n) (!b) false false)) k := by
      rw [hwf.getownprop_eq, hprop]
      by_cases hk : k = alength
      · have hnone : s.prop h' alength = none := by
          rw [State.prop_eq_none]
          exact ⟨Obj.elem_none _ rfl, (hs.props h').length hkind⟩
        rw [hk, Function.update_self, hnone]
        simp [lengthprop, hkind, toProperty, Slot.value]
      · rw [Function.update_of_ne hk]
        change _ = (getownprop s h' k).map toProperty
        rw [hs.getownprop_eq]
        simp [lengthprop, hk]
    simp only [State.abs, State.setobj_objs, if_true]
    exact congrArg _ (funext hprops)
  · rw [Function.update_of_ne hh]
    exact abs_others hs hwf (by simp [hh]) (hlook h')

def Lens (s : State P) : Prop :=
  ∀ h, (s.objs h).kind = .array → ∀ i p, s.prop h (.index i) = some p → i < (s.objs h).alen

theorem Puts.lens {p : Option (Slot P × Attr)} (hl : Lens s)
    (hp : Puts s s' h fun k' => if k' = k then p else s.prop h k')
    (hlt : (s.objs h).kind = .array → ∀ i, k = .index i → p ≠ none → i < (s.objs h).alen) :
    Lens s' := by
  intro h' hkind i q hq
  by_cases hh : h' = h
  · subst hh
    obtain ⟨_, _, _, _, hobj⟩ := hp.obj
    rw [hobj] at hkind ⊢
    rw [hp.prop] at hq
    split_ifs at hq with hk
    · exact hlt hkind i hk.symm (by simp [hq])
    · exact hl h' hkind i q hq
  · obtain ⟨hobj, hlook⟩ := hp.others h' hh
    rw [hobj] at hkind ⊢
    rw [State.prop, hobj, hlook] at hq
    exact hl h' hkind i q hq

theorem abs_length (hs : Wf s) (hkind : (s.objs h).kind = .array) :
    (s.abs h).props alength =
      some (.data (.num (s.objs h).alen) (!(s.objs h).lenro) false false) := by
  have hnone : s.prop h alength = none := by
    rw [State.prop_eq_none]
    exact ⟨Obj.elem_none _ rfl, (hs.props h).length hkind⟩
  change (getownprop s h alength).map toProperty = _
  rw [hs.getownprop_eq, hnone]
  simp [lengthprop, hkind, toProperty, Slot.value]

/-!
## Properties defined as ECMAScript has it

`ordinarydefine` does what ValidateAndApplyPropertyDescriptor does.
-/

variable {P : Type} [DecidableEq P] {s : State P} {h : ℕ} {k : Key} {a : Attr} {v : Slot P}
  {d : Desc P} {ext : Bool}

def Desc.plain (d : Desc P) : Bool :=
  !d.isacc && d.write.getD true && d.enum.getD true && d.conf.getD true

theorem isSome_and_ne {α : Type} [DecidableEq α] {o : Option α} {x : α} :
    (o.isSome && decide (o ≠ some x)) = !o.all (· = x) := by
  cases o <;> simp

theorem validate_empty {cur : Property P} (hempty : d.isempty) :
    validate ext d (some cur) = true := by
  simp only [Desc.isempty, Desc.isgeneric, Desc.isacc, Desc.isdata, Bool.and_eq_true,
    Bool.not_eq_true', Bool.or_eq_false_iff, Option.isSome_eq_false_iff, Option.isNone_iff_eq_none]
    at hempty
  obtain ⟨⟨⟨⟨hget, hset⟩, hvalue, hwrite⟩, henum⟩, hconf⟩ := hempty
  have hgeneric : d.isgeneric = true := by simp [Desc.isgeneric, Desc.isacc, Desc.isdata, *]
  cases cur <;> simp [validate, hget, hset, hvalue, hwrite, henum, hconf, hgeneric]

theorem compatible_eq {p : Slot P × Attr} :
    compatible ext d (some (todesc p)) = validate ext d (some (toProperty p)) := by
  obtain ⟨v, a⟩ := p
  by_cases hempty : d.isempty
  · rw [validate_empty hempty, compatible, if_pos hempty]
  rw [compatible, if_neg hempty]
  have hdenum (e : Bool) : (d.enum.isSome ∧ d.enum ≠ some e) ↔ d.enum.all (· = e) = false := by
    cases d.enum <;> simp
  cases hacc : a.acc with
  | true =>
    simp only [todesc, toProperty, hacc, if_true, accdesc_conf, accdesc_enum, accdesc_isacc,
      accdesc_get, accdesc_set, isSome_and_ne, Bool.not_not, validate, Property.conf,
      Property.enum, Property.isacc, hdenum, Option.some.injEq]
    cases a.conf <;> cases d.isgeneric <;> cases d.isacc <;> simp <;> grind
  | false =>
    simp only [todesc, toProperty, hacc, if_false, Bool.false_eq_true, datadesc_conf, datadesc_enum,
      datadesc_isacc, datadesc_write, datadesc_value, isSome_and_ne, Bool.not_not, validate,
      Property.conf, Property.enum, Property.isacc, hdenum, Option.some.injEq]
    cases a.conf <;> cases d.isgeneric <;> cases d.isacc <;> cases a.write <;> simp <;> grind

theorem ordinarydefine_eq (hfits : ∀ p, getownprop s h k = some p → Fits p.1 p.2) :
    validate (s.objs h).ext d ((getownprop s h k).map toProperty) = false ∧
      ordinarydefine s h k d = (false, s) ∨
    validate (s.objs h).ext d ((getownprop s h k).map toProperty) = true ∧
      ∃ v a, ordinarydefine s h k d = (true, defown s h k a v) ∧ Fits v a ∧
        toProperty (v, a) = apply d ((getownprop s h k).map toProperty) ∧
        (∀ p, getownprop s h k = some p → p.2.conf = false → a.conf = false) ∧
        ∀ x, getownprop s h k = some (.val x, Adefault) → d.plain = true → a = Adefault := by
  have hone := d.one
  unfold ordinarydefine
  rw [getown]
  cases hp : getownprop s h k with
  | none =>
    simp only [Option.map_none, validate]
    cases hext : (s.objs h).ext with
    | false => exact .inl ⟨rfl, rfl⟩
    | true =>
      refine .inr ⟨rfl, ?_⟩
      cases hacc : d.isacc with
      | true => exact ⟨_, _, rfl, ⟨rfl, fun _ => rfl⟩, by simp [toProperty, apply, hacc, Slot.get,
          Slot.set], (by simp), (by simp)⟩
      | false => exact ⟨_, _, rfl, ⟨rfl, (by simp)⟩, by simp [toProperty, apply, hacc, Slot.value],
          (by simp), (by simp)⟩
  | some p =>
    have hfit := hfits p hp
    simp only [Option.map_some, ← compatible_eq]
    cases hok : compatible (s.objs h).ext d (some (todesc p)) with
    | false => exact .inl ⟨rfl, by simp⟩
    | true =>
      refine .inr ⟨rfl, ?_⟩
      have hvalid : compatible (s.objs h).ext d (some (todesc p)) =
          validate (s.objs h).ext d (some (toProperty p)) := compatible_eq
      rw [hok] at hvalid
      have hconf : p.2.conf = false → d.conf.getD p.2.conf = false := by
        intro hc
        have hcur : (toProperty p).conf = false := by
          rw [toProperty]
          split_ifs <;> exact hc
        simp only [validate, hcur, Bool.false_or] at hvalid
        have hd : d.conf ≠ some true := by
          intro hd
          simp [hd] at hvalid
        rw [hc]
        cases hdc : d.conf with
        | none => rfl
        | some c =>
          cases c with
          | true => exact absurd hdc hd
          | false => rfl
      have hkeep (q : Slot P × Attr) (hq : some p = some q) (hc : q.2.conf = false) :
          d.conf.getD p.2.conf = false := by
        obtain rfl := Option.some.inj hq
        exact hconf hc
      obtain ⟨v, w, e, c, acc⟩ := p
      cases acc with
      | true =>
        have hplain (x : V P) (hx : some (v, (⟨w, e, c, true⟩ : Attr)) =
            some (.val x, Adefault)) : False := by
          obtain ⟨-, hx⟩ := Prod.mk.inj (Option.some.inj hx)
          exact absurd (congrArg Attr.acc hx) (by simp [Adefault])
        cases hdata : d.isdata with
        | true =>
          have hacc : d.isacc = false := by
            rcases hone with ⟨hv, hw⟩ | ⟨hg, ht⟩
            · simp [Desc.isdata, hv, hw] at hdata
            · simp [Desc.isacc, hg, ht]
          refine ⟨.val (d.value.getD .undef), ⟨d.write.getD false, d.enum.getD e, d.conf.getD c,
            false⟩, ?_, ⟨rfl, (by simp)⟩, ?_, hkeep, fun x hx => (hplain x hx).elim⟩
          · simp [todesc, hacc]
          · simp [toProperty, apply, hdata, Slot.value]
        | false =>
          refine ⟨.acc (d.get.getD v.get) (d.set.getD v.set), ⟨false, d.enum.getD e, d.conf.getD c,
            true⟩, ?_, ⟨rfl, fun _ => rfl⟩, ?_, hkeep, fun x hx => (hplain x hx).elim⟩
          · simp [todesc]
          · simp [toProperty, apply, hdata, Slot.get, Slot.set]
      | false =>
        cases hacc : d.isacc with
        | true =>
          refine ⟨.acc (d.get.getD none) (d.set.getD none), ⟨false, d.enum.getD e, d.conf.getD c,
            true⟩, ?_, ⟨rfl, fun _ => rfl⟩, ?_, hkeep, fun x hx hp => ?_⟩
          · simp [todesc]
          · simp [toProperty, apply, hacc, Slot.get, Slot.set]
          · simp [Desc.plain, hacc] at hp
        | false =>
          refine ⟨.val (d.value.getD v.value), ⟨d.write.getD w, d.enum.getD e, d.conf.getD c,
            false⟩, ?_, ⟨rfl, (by simp)⟩, ?_, hkeep, fun x hx hplain => ?_⟩
          · simp [todesc]
          · simp [toProperty, apply, hacc, Slot.value]
          · obtain ⟨-, hx⟩ := Prod.mk.inj (Option.some.inj hx)
            injection hx with hw he hc
            subst hw he hc
            simpa [Desc.plain, hacc, Adefault, and_assoc] using hplain

def Shadowed (s : State P) (h : ℕ) (k : Key) (d : Desc P) : Prop :=
  (s.objs h).elem k ≠ none ∧ (s.objs h).idxprops = true ∧ d.plain = false

theorem ordinarydefine_puts (hs : Wf s) (hlength : (s.objs h).kind = .array → k ≠ alength)
    (hshadow : ¬ Shadowed s h k d) :
    (ordinaryDefine (s.abs h) k d).1 = false ∧ ordinarydefine s h k d = (false, s) ∨
      (ordinaryDefine (s.abs h) k d).1 = true ∧ ∃ s₁ s₂ p, ordinarydefine s h k d = (true, s₂) ∧
        Puts s s₁ h (fun k' => if k' = k then some p else s.prop h k') ∧
        (ordinaryDefine (s.abs h) k d).2 = { s.abs h with
          props := Function.update (s.abs h).props k (some (toProperty p)) } ∧
        (s₂ = grewarray s₁ h k ∨ s.prop h k ≠ none ∧ s₂ = s₁) := by
  have hprop := hs.getownprop_prop hlength
  have hcur : (s.abs h).props k = (getownprop s h k).map toProperty := rfl
  rw [ordinaryDefine, hcur]
  rcases ordinarydefine_eq (d := d) fun p hp => hs.fits hp with
    ⟨hvalid, heq⟩ | ⟨hvalid, v, a, heq, hfits, hprop', hconf, hplain⟩
  · refine .inl ⟨?_, heq⟩
    change validate (s.abs h).ext d _ = false at hvalid
    simp [hvalid]
  · have hdense : (s.objs h).elem k ≠ none → (s.objs h).idxprops = true → a = Adefault := by
      intro helem hidx
      obtain ⟨x, hx⟩ := Option.ne_none_iff_exists'.mp helem
      refine hplain x ?_ ?_
      · rw [hprop, State.prop, hx]
      · by_contra hnot
        exact hshadow ⟨helem, hidx, by simpa using hnot⟩
    obtain ⟨s₁, hputs, hs₁⟩ := defown_puts hs hfits hlength hdense fun p hp =>
      hconf p (hprop.trans hp)
    refine .inr ⟨?_, s₁, _, (v, a), heq, hputs, ?_, hs₁⟩
    · change validate (s.abs h).ext d _ = true at hvalid
      simp [hvalid]
    · change validate (s.abs h).ext d _ = true at hvalid
      simp [hvalid, hprop']

end Infernode.Js
