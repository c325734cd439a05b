import Infernode.Js.Truncate

/-!
# Every operation

An operation answers and does what ECMAScript has it, unless it meets what the elements and the
shape do not have of each other.
-/

namespace Infernode.Js

open Ecma

variable {P : Type} [DecidableEq P] {s s' : State P} {h n : ℕ} {k : Key} {d : Desc P}
  {len : Tolen P} {v recv : V P}

/-- No element is given other attributes while index keys are in the shape, and none is deleted
that is to stay. -/
def Definable (len : Tolen P) (s : State P) (h : ℕ) (k : Key) (d : Desc P) : Prop :=
  if (s.objs h).kind = .array ∧ k = alength then ∀ n, Shortens len s h n d → Cuts s h n
  else ¬ Shadowed s h k d

theorem defineown_made (hs : Wf s) (hl : Lens s) (hok : Definable len s h k d) :
    Matches (defineown len s h k d) (after s.abs h (defineOwn len (s.abs h) k d)) := by
  rw [Definable] at hok
  by_cases hlength : (s.objs h).kind = .array ∧ k = alength
  · rw [if_pos hlength] at hok
    have harray : (s.abs h).isarray = true ∧ k = alength :=
      ⟨by simp [State.abs, hlength.1], hlength.2⟩
    rw [defineown, if_pos hlength, defineOwn, if_pos harray]
    exact arraysetlength_made hs hl hlength.1 hok
  rw [if_neg hlength] at hok
  by_cases hindex : (s.objs h).kind = .array ∧ ∃ i, k = .index i
  · obtain ⟨hkind, i, rfl⟩ := hindex
    exact defineindex_made hs hl hkind hok
  have hplain (hkind : (s.objs h).kind = .array) : k ≠ alength ∧ keyindex k = none := by
    refine ⟨fun hk => hlength ⟨hkind, hk⟩, ?_⟩
    cases k with
    | name a => rfl
    | index i => exact absurd ⟨hkind, i, rfl⟩ hindex
  obtain ⟨hans, hmade⟩ := defineplain_made hs hl hplain hok
  have hnot : ¬ ((s.abs h).isarray = true ∧ k = alength) := by simpa [State.abs] using hlength
  have hkey : (if (s.objs h).kind = .array then keyindex k else none) = none := by
    split_ifs with hkind
    · exact (hplain hkind).2
    · rfl
  have hkey' : (if (s.abs h).isarray then keyindex k else none) = none := by
    simpa [State.abs] using hkey
  unfold defineown defineOwn
  dsimp only
  rw [if_neg hlength, if_neg hnot, hkey, hkey']
  dsimp only
  exact ⟨congrArg Ans.ret hans, hmade⟩

theorem create_none {o : Object P} (hext : o.ext = true) (hnone : o.props k = none) :
    ordinaryDefine o k (datadesc v Adefault) =
      (true, { o with props := Function.update o.props k (some (.data v true true true)) }) := by
  rw [ordinaryDefine, hnone, validate, if_pos hext]
  rfl

theorem addprop_made (hs : Wf s) (hl : Lens s) (hkind : (s.objs h).kind = .ord)
    (hext : (s.objs h).ext = true) (hnone : getownprop s h k = none) :
    Matches (.ret true, addprop s h k Adefault (.val v))
      (after s.abs h (createData len (s.abs h) k v)) := by
  have hord (hk : (s.objs h).kind = .array) : False := by
    rw [hkind] at hk
    exact nomatch hk
  have hprop : s.prop h k = none := by
    rw [← hs.getownprop_prop fun hk => (hord hk).elim, hnone]
  have hputs := addprop_puts (v := .val v) (a := Adefault) hs hprop ⟨rfl, nofun⟩
    fun hk => (hord hk).elim
  have hisarray : (s.abs h).isarray = false := by simp [State.abs, hkind]
  have hcreate : createData len (s.abs h) k v = (.ret true, { s.abs h with
      props := Function.update (s.abs h).props k (some (.data v true true true)) }) := by
    have hprops : (s.abs h).props k = none := by
      change (getownprop s h k).map toProperty = none
      rw [hnone]
      rfl
    unfold createData defineOwn
    rw [if_neg (by simp [hisarray]), hisarray]
    simp only [Bool.false_eq_true, if_false]
    rw [create_none hext hprops]
  rw [hcreate]
  exact ⟨rfl, hputs.wf, hputs.lens hl fun hk => (hord hk).elim,
    hputs.abs hs fun hk => (hord hk).elim⟩

theorem createdata_made (hs : Wf s) (hl : Lens s) :
    Matches (createdata len s h k v) (after s.abs h (createData len (s.abs h) k v)) := by
  have hdefinable : Definable len s h k (datadesc v Adefault) := by
    rw [Definable]
    split_ifs with hlength
    · rintro n ⟨w, -, -, -, -, hconf, -⟩
      exact absurd rfl hconf
    · rintro ⟨-, -, hplain⟩
      exact nomatch hplain
  rw [createdata]
  split_ifs with hquick
  · exact addprop_made hs hl hquick.1 hquick.2.1 hquick.2.2
  · exact defineown_made hs hl hdefinable

def Buried (s : State P) (h : ℕ) (k : Key) : Prop :=
  (∃ i, keyidx k = some i ∧ i < (s.objs h).elems.length) ∧ s.look h k ≠ none ∧
    ∀ p, getownprop s h k = some p → p.2.conf = true

omit [DecidableEq P] in
theorem delete_made (hs : Wf s) (hl : Lens s) (hburied : ¬ Buried s h k) :
    Matches (ret (Js.delete s h k)) (after s.abs h (boolret (Ecma.delete (s.abs h) k))) := by
  have hprops : (s.abs h).props k = (getownprop s h k).map toProperty := rfl
  unfold Js.delete Ecma.delete
  rw [getown, hprops]
  cases hp : getownprop s h k with
  | none => exact ⟨rfl, Made.refl hs hl⟩
  | some p =>
    simp only [Option.map_some, todesc_conf, toProperty_conf]
    cases hconf : p.2.conf with
    | false => exact ⟨rfl, Made.refl hs hl⟩
    | true =>
      have hlength (hkind : (s.objs h).kind = .array) : k ≠ alength := by
        rintro rfl
        have hlen := abs_length hs hkind
        rw [hprops, hp, Option.map_some] at hlen
        rw [← toProperty_conf, Option.some.inj hlen] at hconf
        cases hconf
      rw [if_neg (by simp), if_neg fun hk => hlength hk.1 hk.2]
      have hputs := removeown_puts (h := h) (k := k) hs fun i hi hlt => by
        by_contra hlook
        exact hburied ⟨⟨i, hi, hlt⟩, hlook, fun q hq => by
          obtain rfl := Option.some.inj (hp.symm.trans hq)
          exact hconf⟩
      exact ⟨rfl, hputs.wf, hputs.lens hl fun _ _ _ hne => absurd rfl hne, hputs.abs hs hlength⟩

omit [DecidableEq P] in
theorem preventext_made (hs : Wf s) (hl : Lens s) :
    Made (preventext s h).2 (Function.update s.abs h { s.abs h with ext := false }) :=
  setfields_made (e := false) (q := (s.objs h).proto) hs hl

/-!
## Values set and appended

The quick paths of `set` and `arrpush` do what the general ones would.
-/

variable {P : Type} [DecidableEq P] {s s' : State P} {h : ℕ} {k : Key} {d : Desc P}
  {len : Tolen P} {v recv : V P} {a : Attr} {w : Slot P}

theorem value_made (hs : Wf s) (hl : Lens s) (hprop : getownprop s h k = some (w, a))
    (hacc : a.acc = false) (hwrite : a.write = true)
    (hlength : (s.objs h).kind = .array → k ≠ alength)
    (hputs : Puts s s' h fun k' => if k' = k then some (.val v, a) else s.prop h k') :
    Matches (.ret true, s') (after s.abs h (defineOwn len (s.abs h) k (valuedesc v))) := by
  have hprops : (s.abs h).props k = some (.data w.value true a.enum a.conf) := by
    change (getownprop s h k).map toProperty = _
    rw [hprop]
    simp [toProperty, hacc, hwrite]
  have hord : ordinaryDefine (s.abs h) k (valuedesc v) = (true, { s.abs h with
      props := Function.update (s.abs h).props k (some (.data v true a.enum a.conf)) }) := by
    rw [ordinaryDefine, hprops]
    simp [validate, valuedesc, apply, Desc.isgeneric, Desc.isacc, Property.isacc]
  have hlt (hkind : (s.objs h).kind = .array) (i : ℕ) (hi : k = .index i) :
      i < (s.objs h).alen := by
    refine hl h hkind i (w, a) ?_
    rw [← hi, ← hs.getownprop_prop hlength, hprop]
  have hresult : defineOwn len (s.abs h) k (valuedesc v) = (.ret true, { s.abs h with
      props := Function.update (s.abs h).props k (some (.data v true a.enum a.conf)) }) := by
    have hnot : ¬ ((s.abs h).isarray = true ∧ k = alength) := fun hboth =>
      hlength (by simpa [State.abs] using hboth.1) hboth.2
    unfold defineOwn
    rw [if_neg hnot]
    cases hkind : (s.objs h).kind with
    | ord =>
      have harray : (s.abs h).isarray = false := by simp [State.abs, hkind]
      simp [harray, hord]
    | array =>
      have harray : (s.abs h).isarray = true := by simp [State.abs, hkind]
      rw [if_pos harray]
      cases hk : keyindex k with
      | none => simp [hord]
      | some i =>
        have hlong : ¬ (s.objs h).alen ≤ i := Nat.not_le_of_lt (hlt hkind i (keyindex_eq.mp hk))
        simp [Object.length, abs_length hs hkind, hlong, hord]
  rw [hresult]
  refine ⟨rfl, hputs.wf, hputs.lens hl fun hkind i hi _ => hlt hkind i hi, ?_⟩
  rw [hputs.abs hs hlength]
  simp [after, toProperty, hacc, hwrite, Slot.value]

def Writable (p : Option (Property P)) : Prop := p = none ∨ ∃ x e c, p = some (.data x true e c)

theorem received_made {p : Option (Property P)} (hs : Wf s) (hl : Lens s)
    (hdata : d.isdata = true) (hwrite : d.write = some true) (hp : Writable p)
    (hok : ∀ r, recv = .obj r → Definable len s r k (valuedesc v)) :
    Matches (setfound len s d k v recv) (setWith len s.abs k v recv p) := by
  have hset : setWith len s.abs k v recv p = setWith len s.abs k v recv none := by
    rcases hp with rfl | ⟨x, e, c, rfl⟩ <;> rfl
  rw [hset]
  unfold setfound
  rw [if_pos hdata, if_neg (by simp [hwrite])]
  cases recv with
  | undef | num x | prim x => exact ⟨rfl, hs, hl, rfl⟩
  | obj r =>
    have hprops : (s.abs r).props k = (getownprop s r k).map toProperty := rfl
    simp only [setWith]
    rw [getown, hprops]
    cases hr : getownprop s r k with
    | none => exact createdata_made hs hl
    | some q =>
      obtain ⟨w, a⟩ := q
      simp only [Option.map_some]
      cases hacc : a.acc with
      | true => simpa [todesc, toProperty, hacc] using ⟨rfl, hs, hl, rfl⟩
      | false =>
        cases hw : a.write with
        | false => simpa [todesc, toProperty, hacc, hw] using ⟨rfl, hs, hl, rfl⟩
        | true =>
          simp only [todesc, toProperty, hacc, hw, Bool.false_eq_true, if_false, datadesc_isacc,
            datadesc_write, ne_eq, not_true_eq_false, or_false]
          split_ifs with hkind
          · have hord (hk : (s.objs r).kind = .array) : k ≠ alength := by
              rw [hkind] at hk
              cases hk
            have hprop : s.prop r k = some (w, a) := by rw [← hs.getownprop_prop hord, hr]
            exact value_made hs hl hr hacc hw hord (putown_puts hs hprop hacc)
          · exact defineown_made hs hl (hok r rfl)

omit [DecidableEq P] in
theorem newpropok_finds (hs : Wf s) (hk : keyidx k = none) (hlength : k ≠ alength) {n : ℕ} :
    ∀ {h : ℕ}, (s.abs h).props k = none → newpropok s k n (s.objs h).proto = true →
      Finds s.abs k h none := by
  induction n with
  | zero =>
    intro h hnone hok
    cases hproto : (s.objs h).proto with
    | none => exact .none hnone hproto
    | some p =>
      rw [hproto] at hok
      exact nomatch hok
  | succ n ih =>
    intro h hnone hok
    cases hproto : (s.objs h).proto with
    | none => exact .none hnone hproto
    | some p =>
      rw [hproto, newpropok] at hok
      split_ifs at hok with hhas
      obtain ⟨-, hslot⟩ := not_or.mp hhas
      have hlook : s.look p k = none := (slotof_look hs).mp (by simpa using hslot)
      have hprop : s.prop p k = none := State.prop_eq_none.mpr ⟨Obj.elem_none _ hk, hlook⟩
      have hprops : (s.abs p).props k = none := by
        rw [hs.abs_props, hprop, lengthprop_none fun _ => hlength]
        rfl
      exact .up hnone hproto (ih hprops hok)

theorem setquick_made (hs : Wf s) (hl : Lens s) (hquick : setquick s h k v = some s') :
    ∃ p, Finds s.abs k h p ∧ Matches (.ret true, s') (setWith len s.abs k v (.obj h) p) := by
  -- the own property is of data and may be written
  have hown {w : Slot P} {a : Attr} (hprop : getownprop s h k = some (w, a))
      (hacc : a.acc = false) (hwrite : a.write = true)
      (hlength : (s.objs h).kind = .array → k ≠ alength)
      (hputs : Puts s s' h fun k' => if k' = k then some (.val v, a) else s.prop h k') :
      ∃ p, Finds s.abs k h p ∧ Matches (.ret true, s') (setWith len s.abs k v (.obj h) p) := by
    have hprops : (s.abs h).props k = some (.data w.value true a.enum a.conf) := by
      change (getownprop s h k).map toProperty = _
      rw [hprop]
      simp [toProperty, hacc, hwrite]
    refine ⟨_, .own hprops, ?_⟩
    simp only [setWith, hprops]
    exact value_made hs hl hprop hacc hwrite hlength hputs
  unfold setquick at hquick
  dsimp only at hquick
  cases hk : keyidx k with
  | some i =>
    rw [hk] at hquick
    obtain ⟨y, helem, rfl⟩ := Option.map_eq_some_iff.mp hquick
    obtain ⟨j, hj, hlt⟩ := Obj.elem_lt (o := s.objs h) (k := k) (by simp [helem])
    obtain rfl := Option.some.inj (hk.symm.trans hj)
    have hprop : getownprop s h k = some (.val y, Adefault) := by rw [getownprop, helem]
    refine hown hprop rfl rfl (fun _ hlength => ?_)
      (setelem_puts hs hk hlt fun p hp => (hs.props h).stale k y p helem hp)
    rw [hlength] at hk
    cases hk
  | none =>
    rw [hk] at hquick
    have helem : (s.objs h).elem k = none := Obj.elem_none _ hk
    cases hslot : slotof (s.shapes (s.objs h).shape).props k with
    | some slot =>
      simp only [hslot] at hquick
      split_ifs at hquick with hwrite
      obtain rfl := Option.some.inj hquick
      obtain ⟨w, a, -, ha, hlook⟩ := look_of_slotof (hs.shapes.slots h) hslot
      rw [ha] at hwrite
      obtain ⟨hw, hacc⟩ : a.write = true ∧ a.acc = false := by simpa using hwrite
      have hprop : s.prop h k = some (w, a) := by
        rw [State.prop, helem]
        exact hlook
      have hlength (hkind : (s.objs h).kind = .array) : k ≠ alength := by
        rintro rfl
        have hnone : s.look h alength = none := (hs.props h).length hkind
        cases hnone.symm.trans hlook
      exact hown (by rw [hs.getownprop_prop hlength, hprop]) hacc hw hlength
        (setslot_puts hs hslot helem hprop hacc)
    | none =>
      simp only [hslot] at hquick
      split_ifs at hquick with hnew
      obtain rfl := Option.some.inj hquick
      obtain ⟨hkind, hext, hlength, hok⟩ := hnew
      have hprop : s.prop h k = none :=
        State.prop_eq_none.mpr ⟨helem, (slotof_look hs).mp hslot⟩
      have hnone : getownprop s h k = none := by
        rw [hs.getownprop_prop fun _ => hlength, hprop]
      have hprops : (s.abs h).props k = none := by
        change (getownprop s h k).map toProperty = none
        rw [hnone]
        rfl
      refine ⟨none, newpropok_finds hs hk hlength hprops hok, ?_⟩
      simp only [setWith, hprops]
      exact addprop_made hs hl hkind hext hnone

/-- If the receiver is an array and the property its length, making it shorter deletes nothing that
is to stay. -/
def Settable (len : Tolen P) (s : State P) (h : ℕ) (k : Key) (v recv : V P) : Prop :=
  ∀ p, Finds s.abs k h p → Writable p → ∀ r, recv = .obj r → Definable len s r k (valuedesc v)

theorem setfound_made {p : Option (Property P)} (hs : Wf s) (hl : Lens s)
    (hd : p = none ∧ d = datadesc .undef Adefault ∨
      ∃ q, Fits q.1 q.2 ∧ d = todesc q ∧ p = some (toProperty q))
    (hok : Writable p → ∀ r, recv = .obj r → Definable len s r k (valuedesc v)) :
    Matches (setfound len s d k v recv) (setWith len s.abs k v recv p) := by
  rcases hd with ⟨hp, rfl⟩ | ⟨⟨w, a⟩, hfits, rfl, hp⟩
  · exact received_made hs hl rfl rfl (.inl hp) (hok (.inl hp))
  cases hacc : a.acc with
  | true =>
    have hacc' : w.isacc = true := hfits.1.symm.trans hacc
    cases w with
    | val x => exact nomatch hacc'
    | acc g t =>
      cases t <;> simpa [hp, setfound, setWith, todesc, toProperty, hacc, Slot.set] using
        ⟨rfl, hs, hl, rfl⟩
  | false =>
    cases hw : a.write with
    | false => simpa [hp, setfound, setWith, todesc, toProperty, hacc, hw] using ⟨rfl, hs, hl, rfl⟩
    | true =>
      have hwritable : Writable p := .inr ⟨w.value, a.enum, a.conf, by
        rw [hp, toProperty]
        simp [hacc, hw]⟩
      refine received_made hs hl ?_ ?_ hwritable (hok hwritable)
      · simp [todesc, hacc]
      · simp [todesc, hacc, hw]

theorem set_made {fuel : ℕ} {r : Ans P × State P} (hs : Wf s) (hl : Lens s) :
    ∀ {h : ℕ}, Settable len s h k v recv → set len s k v recv fuel h = some r →
      ∃ p, Finds s.abs k h p ∧ Matches r (setWith len s.abs k v recv p) := by
  induction fuel with
  | zero => exact fun _ hset => nomatch hset
  | succ fuel ih =>
    intro h hok hset
    rw [set] at hset
    have hprops : (s.abs h).props k = (getownprop s h k).map toProperty := rfl
    cases hquick : if recv = .obj h then setquick s h k v else none with
    | some s' =>
      rw [hquick] at hset
      obtain rfl := Option.some.inj hset
      split_ifs at hquick with hrecv
      rw [hrecv]
      exact setquick_made hs hl hquick
    | none =>
      rw [hquick, getown] at hset
      cases hown : getownprop s h k with
      | some q =>
        rw [hown] at hset hprops
        obtain rfl := Option.some.inj hset
        exact ⟨_, .own hprops, setfound_made hs hl (.inr ⟨q, hs.fits hown, rfl, rfl⟩)
          (hok _ (.own hprops))⟩
      | none =>
        rw [hown] at hset hprops
        dsimp only [Option.map_none] at hset
        cases hproto : (s.objs h).proto with
        | some q =>
          rw [hproto] at hset
          obtain ⟨p, hfinds, hmatches⟩ :=
            ih (fun p hfinds => hok p (.up hprops hproto hfinds)) hset
          exact ⟨p, .up hprops hproto hfinds, hmatches⟩
        | none =>
          rw [hproto] at hset
          obtain rfl := Option.some.inj hset
          have hnone : Finds s.abs k h none := .none hprops hproto
          exact ⟨none, hnone, setfound_made hs hl (.inl ⟨rfl, rfl⟩) (hok none hnone)⟩

def Pushable (s : State P) (h : ℕ) : Prop :=
  (s.objs h).alen = (s.objs h).elems.length → (s.objs h).idxprops = false →
    (s.objs h).ext = true ∧ (s.objs h).lenro = false ∧ (s.objs h).alen ≤ Idxmax

theorem arrpush_eq (hs : Wf s) (hl : Lens s) (hkind : (s.objs h).kind = .array)
    (hok : Pushable s h) : arrpush len s h v =
      match createdata len s h (numkey (s.objs h).alen) v with
      | (.ret false, s) => (.typeerr, s)
      | r => r := by
  unfold arrpush
  dsimp only
  split_ifs with hquick
  swap
  · rfl
  obtain ⟨hlen, -, hidx⟩ := hquick
  obtain ⟨hext, hlenro, hmax⟩ := hok hlen hidx
  have hkey : numkey (s.objs h).alen = .index (s.objs h).alen := by
    rw [numkey, if_pos]
    exact Nat.lt_of_le_of_lt hmax (by decide)
  have hne : Key.index (s.objs h).alen ≠ alength := nofun
  have hprop : s.prop h (.index (s.objs h).alen) = none := by
    by_contra hsome
    obtain ⟨p, hp⟩ := Option.ne_none_iff_exists'.mp hsome
    exact Nat.lt_irrefl _ (hl h hkind _ p hp)
  have hnone : getownprop s h (.index (s.objs h).alen) = none := by
    rw [hs.getownprop_prop fun _ => hne, hprop]
  have hslot := (slotof_look hs).mpr (State.prop_eq_none.mp hprop).2
  have hadd : addelem (s.objs h) (s.objs h).alen v = some ((s.objs h).elems ++ [some v]) := by
    rw [addelem, hlen]
    simp [hidx]
  have hdefown : defown s h (.index (s.objs h).alen) Adefault (.val v) = s.setobj h
      { s.objs h with
        elems := (s.objs h).elems ++ [some v]
        alen := (s.objs h).alen + 1 } := by
    have hprop' : addprop s h (.index (s.objs h).alen) Adefault (.val v) =
        s.setobj h { s.objs h with elems := (s.objs h).elems ++ [some v] } := by
      simp only [addprop, keyindex, keyidx_index hmax, if_true, hadd]
    unfold defown
    rw [keyidx_index hmax]
    dsimp only
    rw [if_neg (by omega)]
    simp [defslot, hslot, hprop', grewarray, arraygrew, keyindex, hkind, State.setobj]
  rw [hkey, createdata, if_neg (by simp [hkind]), defineown, if_neg fun h => hne h.2]
  have hdefine : ordinarydefine s h (.index (s.objs h).alen) (datadesc v Adefault) =
      (true, defown s h (.index (s.objs h).alen) Adefault (.val v)) := by
    simp [ordinarydefine, getown, hnone, hext, Adefault]
  simp [hkind, keyindex, hlenro, hdefine, hdefown, State.setobj]

theorem arrpush_made (hs : Wf s) (hl : Lens s) (hkind : (s.objs h).kind = .array)
    (hok : Pushable s h) : Matches (arrpush len s h v)
      (match after s.abs h (createData len (s.abs h) (numkey (s.abs h).length.1) v) with
      | (.ret false, A) => (.typeerr, A)
      | r => r) := by
  have hlen : (s.abs h).length.1 = (s.objs h).alen := by
    rw [Object.length, abs_length hs hkind]
  rw [arrpush_eq hs hl hkind hok, hlen]
  have hmatches : Matches (createdata len s h (numkey (s.objs h).alen) v)
      (after s.abs h (createData len (s.abs h) (numkey (s.objs h).alen) v)) :=
    createdata_made hs hl
  obtain ⟨hans, hmade⟩ := hmatches
  revert hans hmade
  generalize createdata len s h (numkey (s.objs h).alen) v = r
  generalize after s.abs h (createData len (s.abs h) (numkey (s.objs h).alen) v) = r'
  obtain ⟨ans, s'⟩ := r
  obtain ⟨ans', A⟩ := r'
  rintro rfl hmade
  cases ans with
  | ret ok => cases ok <;> exact ⟨rfl, hmade⟩
  | rangeerr | typeerr | call f recv v => exact ⟨rfl, hmade⟩

end Infernode.Js
