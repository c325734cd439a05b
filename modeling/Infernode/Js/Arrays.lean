import Infernode.Js.Refine

/-!
# Arrays

An array's length grows with its indices; made shorter, it deletes from the end.
-/

namespace Infernode.Js

open Ecma

variable {P : Type} {s s' : State P} {h n i : ℕ} {k : Key} {d : Desc P} {len : Tolen P}

structure Made (s' : State P) (A : Heap P) : Prop where
  wf : Wf s'
  lens : Lens s'
  abs : s'.abs = A

theorem setalen_lens {b : Bool} (hs : Wf s) (hkind : (s.objs h).kind = .array)
    (hothers : ∀ h' ≠ h, (s.objs h').kind = .array → ∀ i p, s.prop h' (.index i) = some p →
      i < (s.objs h').alen)
    (hlt : ∀ i p, s.prop h (.index i) = some p → i < n) :
    Lens (s.setobj h { s.objs h with alen := n, lenro := b }) := by
  intro h' hkind' i p hp
  rw [(hs.setalen hkind).2.1] at hp
  by_cases hh : h' = h
  · subst hh
    simpa using hlt i p hp
  · simp only [State.setobj_objs, hh, if_false] at hkind' ⊢
    exact hothers h' hh hkind' i p hp

theorem setfields_made {e : Bool} {q : Option ℕ} (hs : Wf s) (hl : Lens s) :
    Made (s.setobj h { s.objs h with ext := e, proto := q })
      (Function.update s.abs h { s.abs h with ext := e, proto := q }) := by
  have hlook (h' : ℕ) (k : Key) :
      (s.setobj h { s.objs h with ext := e, proto := q }).look h' k = s.look h' k := by
    by_cases hh : h' = h <;> simp [State.look, hh]
  have hprop (h' : ℕ) (k : Key) :
      (s.setobj h { s.objs h with ext := e, proto := q }).prop h' k = s.prop h' k := by
    rw [State.prop, State.prop, hlook]
    by_cases hh : h' = h
    · rw [hh]
      simp [Obj.elem]
    · simp [hh]
  have hwf : Wf (s.setobj h { s.objs h with ext := e, proto := q }) := by
    obtain ⟨hfits, hidx, hstale, hlength, hsize⟩ := hs.props h
    refine Wf.of_others (h := h) hs (hs.shapes.setobj rfl rfl) ⟨fun k p hp => ?_, fun i hi => ?_,
      fun k v p hv hp => ?_, fun hkind => ?_, ?_⟩ fun h' hh => ⟨by simp [hh], hlook h'⟩
    · exact hfits k p (hlook h k ▸ hp)
    · rw [hlook]
      exact hidx i (by simpa using hi)
    · refine hstale k v p ?_ (hlook h k ▸ hp)
      simpa [Obj.elem] using hv
    · rw [hlook]
      exact hlength (by simpa using hkind)
    · simpa using hsize
  refine ⟨hwf, fun h' hkind i p hp => ?_, ?_⟩
  · rw [hprop] at hp
    by_cases hh : h' = h
    · subst hh
      simp only [State.setobj_objs, if_true] at hkind ⊢
      exact hl h' hkind i p hp
    · simp only [State.setobj_objs, hh, if_false] at hkind ⊢
      exact hl h' hkind i p hp
  · funext h'
    by_cases hh : h' = h
    · subst hh
      rw [Function.update_self]
      have hprops (k : Key) :
          (getownprop (s.setobj h' { s.objs h' with ext := e, proto := q }) h' k).map toProperty =
          (s.abs h').props k := by
        rw [hwf.getownprop_eq, hprop, hs.abs_props]
        simp [lengthprop]
      simp only [State.abs, State.setobj_objs, if_true]
      exact congrArg _ (funext hprops)
    · rw [Function.update_of_ne hh]
      exact abs_others hs hwf (by simp [hh]) (hlook h')

variable [DecidableEq P]

def Allows (n : ℕ) (w : Bool) (d : Desc P) : Prop :=
  d.conf ≠ some true ∧ d.enum ≠ some true ∧ d.isacc = false ∧
    (w = true ∨ d.write ≠ some true ∧ ∀ v, d.value = some v → v = .num n)

theorem validate_length {n : ℕ} {w ext : Bool} :
    validate ext d (some (.data (.num n) w false false)) = true ↔ Allows n w d := by
  have henum : d.enum.all (· = false) = true ↔ d.enum ≠ some true := by
    rcases d.enum with _ | _ | _ <;> simp
  have hvalue : d.value.all (· = .num n) = true ↔ ∀ v, d.value = some v → v = .num n := by
    simp [Option.all_eq_true]
  have hacc : (d.isgeneric || decide (d.isacc = false)) = true ↔ d.isacc = false := by
    rw [Desc.isgeneric]
    cases d.isacc <;> simp
  have hvalid : validate ext d (some (.data (.num n) w false false)) =
      (d.conf ≠ some true && d.enum.all (· = false) && (d.isgeneric || d.isacc = false) &&
        (w || d.write ≠ some true && d.value.all (· = .num n))) := rfl
  rw [hvalid, Allows, Bool.and_eq_true, Bool.and_eq_true, Bool.and_eq_true, henum, hacc,
    Bool.or_eq_true, Bool.and_eq_true, hvalue, decide_eq_true_eq, decide_eq_true_eq, and_assoc,
    and_assoc]

theorem define_length {o : Object P} {w : Bool}
    (ho : o.props alength = some (.data (.num n) w false false)) :
    (Allows n w d → ordinaryDefine o alength d = (true, { o with
      props := Function.update o.props alength
        (some (.data (d.value.getD (.num n)) (d.write.getD w) false false)) })) ∧
    (¬ Allows n w d → ordinaryDefine o alength d = (false, o)) := by
  have hvalid : validate o.ext d (o.props alength) = true ↔ Allows n w d := by
    rw [ho, validate_length]
  constructor
  · intro hallows
    rw [ordinaryDefine, if_pos (hvalid.mpr hallows), ho]
    obtain ⟨hconf, henum, hacc, -⟩ := hallows
    have hconf' : d.conf.getD false = false := by
      rcases hd : d.conf with _ | _ | _
      · rfl
      · rfl
      · exact absurd hd hconf
    have henum' : d.enum.getD false = false := by
      rcases hd : d.enum with _ | _ | _
      · rfl
      · rfl
      · exact absurd hd henum
    simp [apply, hacc, hconf', henum']
  · intro hnot
    rw [ordinaryDefine, if_neg fun h => hnot (hvalid.mp h)]

def Matches (r : Ans P × State P) (A : Ans P × Heap P) : Prop := r.1 = A.1 ∧ Made r.2 A.2

omit [DecidableEq P] in
theorem Made.refl (hs : Wf s) (hl : Lens s) : Made s (Function.update s.abs h (s.abs h)) :=
  ⟨hs, hl, (Function.update_eq_self h s.abs).symm⟩

theorem ordinaryDefine_false {o : Object P} (h : (ordinaryDefine o k d).1 = false) :
    ordinaryDefine o k d = (false, o) := by
  rw [ordinaryDefine] at h ⊢
  split_ifs at h ⊢
  rfl

theorem defineplain_made (hs : Wf s) (hl : Lens s)
    (hlength : (s.objs h).kind = .array → k ≠ alength ∧ keyindex k = none)
    (hshadow : ¬ Shadowed s h k d) :
    (ordinarydefine s h k d).1 = (ordinaryDefine (s.abs h) k d).1 ∧
      Made (ordinarydefine s h k d).2
        (Function.update s.abs h (ordinaryDefine (s.abs h) k d).2) := by
  rcases ordinarydefine_puts hs (fun hkind => (hlength hkind).1) hshadow with
    ⟨hfalse, heq⟩ | ⟨htrue, s₁, s₂, p, heq, hputs, hobj, hgrew⟩
  · rw [heq, ordinaryDefine_false hfalse]
    exact ⟨rfl, Made.refl hs hl⟩
  · have hs₂ : s₂ = s₁ := by
      rcases hgrew with hgrew | ⟨-, hgrew⟩
      · obtain ⟨_, _, _, _, hobj₁⟩ := hputs.obj
        rw [hgrew, grewarray]
        split_ifs with hkind
        · rw [hobj₁] at hkind
          rw [arraygrew, (hlength hkind).2]
        · rfl
      · exact hgrew
    rw [heq, htrue, hobj, hs₂]
    refine ⟨rfl, hputs.wf, hputs.lens hl fun hkind i hi => ?_,
      hputs.abs hs fun hkind => (hlength hkind).1⟩
    rw [hi] at hlength
    exact nomatch (hlength hkind).2

theorem defineindex_made (hs : Wf s) (hl : Lens s) (hkind : (s.objs h).kind = .array)
    (hshadow : ¬ Shadowed s h (.index i) d) :
    Matches (defineown len s h (.index i) d)
      (after s.abs h (defineOwn len (s.abs h) (.index i) d)) := by
  have hlen : (s.abs h).length = ((s.objs h).alen, !(s.objs h).lenro) := by
    rw [Object.length, abs_length hs hkind]
  have harray : (s.abs h).isarray = true := by simp [State.abs, hkind]
  have hne : Key.index i ≠ alength := by simp [alength]
  unfold defineown defineOwn
  simp only [hkind, harray, hne, and_false, if_false, if_true, keyindex, hlen,
    Bool.not_eq_eq_eq_not, Bool.not_false]
  by_cases hro : (s.objs h).alen ≤ i ∧ (s.objs h).lenro = true
  · rw [if_pos hro, if_pos hro]
    exact ⟨rfl, Made.refl hs hl⟩
  rw [if_neg hro, if_neg hro]
  rcases ordinarydefine_puts hs (fun _ => hne) hshadow with
    ⟨hfalse, heq⟩ | ⟨htrue, s₁, s₂, p, heq, hputs, hobj, hgrew⟩
  · rw [heq, ordinaryDefine_false hfalse]
    exact ⟨rfl, Made.refl hs hl⟩
  have hpair : ordinaryDefine (s.abs h) (.index i) d = (true, { s.abs h with
      props := Function.update (s.abs h).props (.index i) (some (toProperty p)) }) :=
    Prod.ext htrue hobj
  rw [heq, hpair]
  simp only [if_true]
  obtain ⟨_, _, _, _, hobj₁⟩ := hputs.obj
  have hkind₁ : (s₁.objs h).kind = .array := by rw [hobj₁, hkind]
  have halen : (s₁.objs h).alen = (s.objs h).alen := by rw [hobj₁]
  have hlenro : (s₁.objs h).lenro = (s.objs h).lenro := by rw [hobj₁]
  have habs := hputs.abs hs fun _ => hne
  have hgrow : grewarray s₁ h (.index i) =
      if (s.objs h).alen ≤ i then s₁.setobj h { s₁.objs h with alen := i + 1 } else s₁ := by
    rw [grewarray, if_pos hkind₁]
    simp only [arraygrew, keyindex, halen]
  by_cases hlong : (s.objs h).alen ≤ i
  swap
  · rw [if_neg hlong, if_neg hlong]
    have hs₂ : s₂ = s₁ := by
      rcases hgrew with hgrew | ⟨-, hgrew⟩
      · rw [hgrew, hgrow, if_neg hlong]
      · exact hgrew
    rw [hs₂]
    refine ⟨rfl, hputs.wf, hputs.lens hl fun _ j hj _ => ?_, habs⟩
    injection hj with hj
    omega
  · have hro' : (s.objs h).lenro = false := by simpa [hlong] using hro
    have hs₂ : s₂ = s₁.setobj h { s₁.objs h with alen := i + 1 } := by
      rcases hgrew with hgrew | ⟨hsome, -⟩
      · rw [hgrew, hgrow, if_pos hlong]
      · obtain ⟨q, hq⟩ := Option.ne_none_iff_exists'.mp hsome
        have hlt := hl h hkind i q hq
        omega
    have htwice : s₂.setobj h { s₂.objs h with alen := i + 1 } =
        s₁.setobj h { s₁.objs h with alen := i + 1 } := by
      rw [hs₂]
      simp [State.setobj]
    rw [if_pos hlong, if_pos hlong, htwice]
    obtain ⟨hwf, -, habs'⟩ := hputs.wf.setalen (n := i + 1) (b := (s₁.objs h).lenro) hkind₁
    refine ⟨rfl, hwf, ?_, ?_⟩
    · refine setalen_lens hputs.wf hkind₁ (fun h' hh hk j q hq => ?_) fun j q hq => ?_
      · obtain ⟨hobj', hlook'⟩ := hputs.others h' hh
        rw [State.prop, hobj', hlook'] at hq
        rw [hobj'] at hk ⊢
        exact hl h' hk j q hq
      · rw [hputs.prop] at hq
        split_ifs at hq with hj
        · injection hj with hj
          omega
        · have hlt := hl h hkind j q hq
          omega
    · rw [after, habs', habs]
      simp only [Function.update_idem, Function.update_self]
      have ho : (Function.update (s.abs h).props (.index i) (some (toProperty p))) alength =
          some (.data (.num (s.objs h).alen) true false false) := by
        rw [Function.update_of_ne hne.symm, abs_length hs hkind, hro']
        rfl
      have hallows : Allows (s.objs h).alen true (valuedesc (.num (i + 1)) : Desc P) :=
        ⟨(fun h => by cases h), (fun h => by cases h), rfl, .inl rfl⟩
      rw [(define_length (o := { s.abs h with
        props := Function.update (s.abs h).props (.index i) (some (toProperty p)) }) ho).1 hallows]
      simp [valuedesc, hlenro, hro']

end Infernode.Js
