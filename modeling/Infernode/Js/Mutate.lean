import Infernode.Js.Props

/-!
# Properties defined and removed

What `defown`, `putown` and `removeown` make of an object's own properties.
-/

namespace Infernode.Js

variable {P : Type} {s s' : State P} {h : ℕ} {k : Key} {a : Attr} {v : Slot P} {i : ℕ} {x : V P}

theorem setelem_puts (hs : Wf s) (hk : keyidx k = some i) (hi : i < (s.objs h).elems.length)
    (hconf : ∀ p, s.look h k = some p → p.2.conf = true) :
    Puts s (setelem s h i (some x)) h fun k' =>
      if k' = k then some (.val x, Adefault) else s.prop h k' := by
  obtain ⟨rfl, hmax⟩ := keyidx_eq hk
  have helem := Obj.elem_update (o := s.objs h) (e := (s.objs h).elems.set i (some x)) hmax
    (join_set hi)
  have hset := hs.setelems (h := h) (e := (s.objs h).elems.set i (some x))
    (b := (s.objs h).idxprops) (by simpa using (hs.props h).size) id ?_
  · refine hset.congr fun k' => ?_
    rw [State.prop]
    rw [helem]
    by_cases hk' : k' = .index i
    · rw [if_pos hk', if_pos hk']
    · rw [if_neg hk']
      exact (if_neg hk').symm
  · intro k' w p hw hp
    rw [helem k'] at hw
    split_ifs at hw with hk'
    · exact hconf p (hk' ▸ hp)
    · exact (hs.props h).stale k' w p hw hp

theorem Wf.reslot (hs : Wf s) (hr : Reshaped s s' h fun k' =>
      if k' = k then some (v, a) else s.look h k') (hsome : s.look h k ≠ none)
    (helem : (s.objs h).elem k = none) (hfits : Fits v a) :
    Puts s s' h fun k' => if k' = k then some (v, a) else s.prop h k' := by
  have hprops := hs.props h
  refine (hs.reshaped hr (fun k' p hp => ?_) (fun i hi => ?_) (fun k' w p hw hp => ?_)
    (fun hkind => ?_)).congr fun k' => ?_
  · split_ifs at hp with hk
    · obtain rfl := Option.some.inj hp
      exact hfits
    · exact hprops.fits k' p hp
  · rw [if_neg, hprops.idx i hi]
    rintro rfl
    exact hsome (hprops.idx i hi)
  · split_ifs at hp with hk
    · rw [hk, helem] at hw
      exact nomatch hw
    · exact hprops.stale k' w p hw hp
  · rw [if_neg, hprops.length hkind]
    rintro rfl
    exact hsome (hprops.length hkind)
  · rw [State.prop]
    by_cases hk : k' = k
    · rw [hk, helem]
    · rw [if_neg hk, if_neg hk]

def spilled (e : List (Option (V P))) (i : ℕ) : Key → Option (Slot P × Attr)
  | .index j => if i ≤ j then ((e[j - i]?).join).map fun v => (.val v, Adefault) else none
  | .name _ => none

theorem spillloop_puts (hs : Wf s) {e : List (Option (V P))} (helems : (s.objs h).elems = [])
    (hidx : (s.objs h).idxprops = true) (hnone : ∀ j, i ≤ j → s.look h (.index j) = none) :
    Puts s (spillloop h e i s) h (fun k => (spilled e i k).or (s.look h k)) ∧
      ((spillloop h e i s).objs h).elems = [] ∧
      ((spillloop h e i s).objs h).idxprops = true := by
  have helem (k : Key) : (s.objs h).elem k = none := by
    rw [Obj.elem, helems]
    cases keyidx k <;> rfl
  induction e generalizing i s with
  | nil =>
    refine ⟨⟨hs, fun k => ?_, ⟨_, _, _, _, rfl⟩, fun _ _ => ⟨rfl, fun _ => rfl⟩⟩, helems, hidx⟩
    rw [spillloop, State.prop, helem]
    cases k <;> simp [spilled]
  | cons w e ih =>
    have hnext (k : Key) (hk : k ≠ .index i) : spilled (w :: e) i k = spilled e (i + 1) k := by
      cases k with
      | name b => rfl
      | index j =>
        rw [spilled, spilled]
        rcases Nat.lt_trichotomy j i with hj | rfl | hj
        · rw [if_neg (by omega), if_neg (by omega)]
        · exact absurd rfl hk
        · rw [if_pos (by omega), if_pos (by omega), show j - i = j - (i + 1) + 1 by omega]
          rfl
    cases w with
    | none =>
      obtain ⟨hrest, hobj⟩ := ih (i := i + 1) hs helems hidx (fun j hj => hnone j (by omega)) helem
      rw [spillloop]
      refine ⟨hrest.congr fun k => ?_, hobj⟩
      by_cases hk : k = .index i
      · have hhere : spilled (none :: e) i (.index i) = none := by simp [spilled]
        have hthere : spilled e (i + 1) (.index i) = none := if_neg (by omega)
        rw [hk, hhere, hthere]
      · rw [hnext k hk]
    | some w =>
      have hadd := addslot_puts (a := Adefault) (v := .val w) hs (hnone i (Nat.le_refl i))
        ⟨rfl, fun h => by cases h⟩ (fun j _ => hidx) (fun hne => rfl) (fun hkind => by simp [alength])
      obtain ⟨sh, vs, hobj⟩ := (addslot_reshaped (a := Adefault) (v := .val w) hs.shapes
        (hnone i (Nat.le_refl i))).obj
      have hlook (k : Key) : (addslot s h (.index i) Adefault (.val w)).look h k =
          if k = .index i then some (.val w, Adefault) else s.look h k :=
        (addslot_reshaped hs.shapes (hnone i (Nat.le_refl i))).look k
      obtain ⟨hrest, hobj'⟩ := ih (i := i + 1) hadd.wf (by rw [hobj]; exact helems)
        (by rw [hobj]; exact hidx) (fun j hj => by
          rw [hlook, if_neg (by simp; omega)]
          exact hnone j (by omega))
        (fun k => by rw [hobj]; exact helem k)
      refine ⟨(hadd.trans hrest).congr fun k => ?_, hobj'⟩
      rw [hlook]
      by_cases hk : k = .index i
      · have hhere : spilled (some w :: e) i (.index i) = some (.val w, Adefault) := by
          simp [spilled]
        have hthere : spilled e (i + 1) (.index i) = none := if_neg (by omega)
        rw [hk, hhere, hthere, if_pos rfl]
        rfl
      · rw [hnext k hk, if_neg hk]

theorem spill_puts (hs : Wf s) (hidx : (s.objs h).idxprops = false) :
    Puts s (spill s h) h (s.prop h) ∧ ((spill s h).objs h).elems = [] ∧
      ((spill s h).objs h).idxprops = true := by
  have hclear := hs.setelems (h := h) (e := []) (b := true) (Nat.zero_le _) nofun
    (fun k w p hw => by
      rw [Obj.elem] at hw
      cases hk : keyidx k <;> simp [hk] at hw)
  have hlook (k : Key) : (s.setobj h { s.objs h with elems := [], idxprops := true }).look h k =
      s.look h k := by
    simp [State.look]
  obtain ⟨hloop, hobj⟩ := spillloop_puts (h := h) (i := 0) (e := (s.objs h).elems) hclear.wf
    (by simp) (by simp) (fun j _ => by rw [hlook]; exact (hs.props h).idx j hidx)
  refine ⟨(hclear.trans hloop).congr fun k => ?_, hobj⟩
  rw [hlook, State.prop]
  cases k with
  | name b => rfl
  | index j =>
    have helem : (s.objs h).elem (.index j) = ((s.objs h).elems[j]?).join := by
      by_cases hj : j ≤ Idxmax
      · exact Obj.elem_eq _ (keyidx_index hj)
      · have hsize := (hs.props h).size
        rw [Obj.elem_none (k := .index j) _ (if_neg hj), List.getElem?_eq_none (by omega)]
        rfl
    rw [helem, spilled, if_pos (Nat.zero_le j), Nat.sub_zero]
    cases ((s.objs h).elems[j]?).join <;> rfl

theorem Obj.elem_lt {o : Obj P} (h : o.elem k ≠ none) :
    ∃ i, keyidx k = some i ∧ i < o.elems.length := by
  cases hk : keyidx k with
  | none => exact absurd (o.elem_none hk) h
  | some i =>
    rw [o.elem_eq hk] at h
    refine ⟨i, rfl, ?_⟩
    by_contra hi
    rw [List.getElem?_eq_none (by omega)] at h
    exact h rfl

theorem slotof_look (hs : Wf s) :
    slotof (s.shapes (s.objs h).shape).props k = none ↔ s.look h k = none :=
  (look_eq_none (hs.shapes.slots h)).symm

theorem defslot_puts (hs : Wf s) (hfits : Fits v a)
    (hlength : (s.objs h).kind = .array → k ≠ alength)
    (hdense : (s.objs h).elem k ≠ none → (s.objs h).idxprops = false ∧ a ≠ Adefault) :
    ∃ s', Puts s s' h (fun k' => if k' = k then some (v, a) else s.prop h k') ∧
      (defslot s h k a v = grewarray s' h k ∨ s.prop h k ≠ none ∧ defslot s h k a v = s') := by
  unfold defslot
  dsimp only
  cases hslot : slotof (s.shapes (s.objs h).shape).props k with
  | some slot =>
    have hlook : s.look h k ≠ none := by
      rw [Ne, ← slotof_look hs, hslot]
      exact nofun
    have helem : (s.objs h).elem k = none := by
      by_contra helem
      obtain ⟨i, hi, -⟩ := Obj.elem_lt helem
      obtain ⟨rfl, -⟩ := keyidx_eq hi
      exact hlook ((hs.props h).idx i (hdense helem).1)
    refine ⟨_, hs.reslot (redefine_reshaped hs.shapes hslot) hlook helem hfits, .inr ⟨?_, rfl⟩⟩
    exact fun hnone => hlook (State.prop_eq_none.mp hnone).2
  | none =>
    have hlook := (slotof_look hs).mp hslot
    dsimp only
    by_cases hspill : a ≠ Adefault ∧ (∃ i, keyidx k = some i ∧ i < (s.objs h).elems.length + 1) ∧
        (s.objs h).idxprops = false
    · rw [if_pos hspill]
      obtain ⟨hputs, helems, hidx⟩ := spill_puts hs hspill.2.2
      have helem : ((spill s h).objs h).elem k = none := by
        rw [Obj.elem, helems]
        cases keyidx k <;> rfl
      obtain ⟨_, _, _, _, hobj⟩ := hputs.obj
      cases hslot' : slotof ((spill s h).shapes ((spill s h).objs h).shape).props k with
      | some slot =>
        have hlook' : (spill s h).look h k ≠ none := by
          rw [Ne, ← slotof_look hputs.wf, hslot']
          exact nofun
        have hre := hputs.wf.reslot (redefine_reshaped (v := v) (a := a) hputs.wf.shapes hslot')
          hlook' helem hfits
        refine ⟨_, (hputs.trans hre).congr fun k' => by rw [hputs.prop], .inr ⟨?_, rfl⟩⟩
        rw [← hputs.prop]
        exact fun hnone => hlook' (State.prop_eq_none.mp hnone).2
      | none =>
        have hlook' := (slotof_look hputs.wf).mp hslot'
        have hadd := addprop_puts hputs.wf (State.prop_eq_none.mpr ⟨helem, hlook'⟩) hfits
          (by rw [hobj]; exact hlength)
        exact ⟨_, (hputs.trans hadd).congr fun k' => by rw [hputs.prop], .inl rfl⟩
    · rw [if_neg hspill]
      have helem : (s.objs h).elem k = none := by
        by_contra helem
        obtain ⟨i, hi, hlt⟩ := Obj.elem_lt helem
        exact hspill ⟨(hdense helem).2, ⟨i, hi, by omega⟩, (hdense helem).1⟩
      exact ⟨_, addprop_puts hs (State.prop_eq_none.mpr ⟨helem, hlook⟩) hfits hlength, .inl rfl⟩

theorem defown_puts (hs : Wf s) (hfits : Fits v a)
    (hlength : (s.objs h).kind = .array → k ≠ alength)
    (hdense : (s.objs h).elem k ≠ none → (s.objs h).idxprops = true → a = Adefault)
    (hconf : ∀ p, s.prop h k = some p → p.2.conf = false → a.conf = false) :
    ∃ s', Puts s s' h (fun k' => if k' = k then some (v, a) else s.prop h k') ∧
      (defown s h k a v = grewarray s' h k ∨ s.prop h k ≠ none ∧ defown s h k a v = s') := by
  have hslot (hnot : (s.objs h).elem k ≠ none → a ≠ Adefault) :=
    defslot_puts hs hfits hlength fun helem => ⟨by
      by_contra hidx
      exact hnot helem (hdense helem (by simpa using hidx)), hnot helem⟩
  unfold defown
  cases hk : keyidx k with
  | none => exact hslot fun helem => absurd (Obj.elem_none _ hk) helem
  | some i =>
    cases v with
    | acc g t =>
      refine hslot fun helem ha => ?_
      rw [ha] at hfits
      exact absurd hfits.1 (by simp [Adefault, Slot.isacc])
    | val x =>
      dsimp only
      split_ifs with hdef
      · obtain ⟨rfl, hlt⟩ := hdef
        refine ⟨_, setelem_puts hs hk hlt fun p hp => ?_, .inl rfl⟩
        by_contra hnot
        cases helem : (s.objs h).elem k with
        | some w => exact hnot ((hs.props h).stale k w p helem hp)
        | none =>
          have hprop : s.prop h k = some p := by rw [State.prop, helem, hp]
          cases hconf p hprop (by simpa using hnot)
      · refine hslot fun helem ha => hdef ⟨ha, ?_⟩
        obtain ⟨j, hj, hlt⟩ := Obj.elem_lt helem
        obtain rfl := Option.some.inj (hk.symm.trans hj)
        exact hlt

theorem trim_length (e : List (Option (V P))) : (trim e).length ≤ e.length := by
  induction e with
  | nil => exact Nat.le_refl _
  | cons w e ih =>
    cases w with
    | none =>
      rw [trim]
      split_ifs <;> simp [ih]
    | some w => simpa [trim] using ih

theorem trim_join (e : List (Option (V P))) (j : ℕ) : ((trim e)[j]?).join = (e[j]?).join := by
  induction e generalizing j with
  | nil => rfl
  | cons w e ih =>
    cases w with
    | none =>
      rw [trim]
      split_ifs with hnil
      · cases j with
        | zero => rfl
        | succ j =>
          rw [List.getElem?_cons_succ, ← ih, hnil]
          rfl
      · cases j with
        | zero => rfl
        | succ j => exact ih j
    | some w =>
      cases j with
      | zero => rfl
      | succ j => exact ih j

theorem removeown_puts (hs : Wf s)
    (hboth : ∀ i, keyidx k = some i → i < (s.objs h).elems.length → s.look h k = none) :
    Puts s (removeown s h k) h fun k' => if k' = k then none else s.prop h k' := by
  have hprops := hs.props h
  unfold removeown
  dsimp only
  cases hdense : (keyidx k).filter (· < (s.objs h).elems.length) with
  | some i =>
    obtain ⟨hk, hlt⟩ := Option.filter_eq_some_iff.mp hdense
    have hlt : i < (s.objs h).elems.length := by simpa using hlt
    obtain ⟨rfl, hmax⟩ := keyidx_eq hk
    dsimp only
    generalize he : (if i + 1 = (s.objs h).elems.length then trim ((s.objs h).elems.set i none)
      else (s.objs h).elems.set i none) = e
    have hjoin (j : ℕ) : (e[j]?).join = if j = i then none else ((s.objs h).elems[j]?).join := by
      rw [← join_set hlt, ← he]
      split_ifs
      · exact trim_join _ j
      · rfl
    have helem := Obj.elem_update (o := s.objs h) (e := e) hmax hjoin
    have hsize : e.length ≤ Idxmax + 1 := by
      have hset : e.length ≤ (s.objs h).elems.length := by
        rw [← he]
        split_ifs
        · simpa using trim_length ((s.objs h).elems.set i none)
        · simp
      exact Nat.le_trans hset hprops.size
    have hset := hs.setelems (h := h) (e := e) (b := (s.objs h).idxprops) hsize id ?_
    · refine hset.congr fun k' => ?_
      rw [State.prop]
      rw [helem]
      by_cases hk' : k' = .index i
      · rw [if_pos hk', if_pos hk', hk']
        exact hboth i hk hlt
      · rw [if_neg hk']
        exact (if_neg hk').symm
    · intro k' w p hw hp
      rw [helem k'] at hw
      split_ifs at hw with hk'
      exact hprops.stale k' w p hw hp
  | none =>
    have helem : (s.objs h).elem k = none := by
      by_contra helem
      obtain ⟨i, hi, hlt⟩ := Obj.elem_lt helem
      rw [hi] at hdense
      have hge : (s.objs h).elems.length ≤ i := by simpa using hdense
      omega
    cases hslot : slotof (s.shapes (s.objs h).shape).props k with
    | none =>
      refine ⟨hs, fun k' => ?_, ⟨_, _, _, _, rfl⟩, fun _ _ => ⟨rfl, fun _ => rfl⟩⟩
      by_cases hk' : k' = k
      · rw [if_pos hk', hk', State.prop_eq_none]
        exact ⟨helem, (slotof_look hs).mp hslot⟩
      · rw [if_neg hk']
    | some slot =>
      refine (hs.reshaped (removeslot_reshaped hs.shapes hslot) (fun k' p hp => ?_) (fun i hi => ?_)
        (fun k' w p hw hp => ?_) (fun hkind => ?_)).congr fun k' => ?_
      · split_ifs at hp
        exact hprops.fits k' p hp
      · rw [hprops.idx i hi, ite_self]
      · split_ifs at hp
        exact hprops.stale k' w p hw hp
      · rw [hprops.length hkind, ite_self]
      · rw [State.prop]
        by_cases hk' : k' = k
        · rw [hk', helem]
        · rw [if_neg hk', if_neg hk']

theorem setslot_puts (hs : Wf s) {slot : ℕ} {w : Slot P}
    (hslot : slotof (s.shapes (s.objs h).shape).props k = some slot)
    (helem : (s.objs h).elem k = none) (hprop : s.prop h k = some (w, a)) (ha : a.acc = false) :
    Puts s (setslot s h slot (.val x)) h fun k' =>
      if k' = k then some (.val x, a) else s.prop h k' := by
  have hlook : s.look h k = some (w, a) := by
    rw [State.prop, helem] at hprop
    exact hprop
  refine hs.reslot ((setslot_reshaped hs.shapes hslot).congr fun k' => ?_) (by simp [hlook]) helem
    ⟨ha, fun h => absurd h (by simp [ha])⟩
  rw [hlook]
  rfl

theorem putown_puts (hs : Wf s) {w : Slot P} (hprop : s.prop h k = some (w, a))
    (ha : a.acc = false) :
    Puts s (putown s h k x) h fun k' => if k' = k then some (.val x, a) else s.prop h k' := by
  unfold putown
  cases helem : (s.objs h).elem k with
  | some y =>
    obtain ⟨i, hi, hlt⟩ := Obj.elem_lt (o := s.objs h) (k := k) (by simp [helem])
    rw [hi]
    rw [State.prop, helem] at hprop
    obtain ⟨-, rfl⟩ := Prod.mk.inj (Option.some.inj hprop)
    exact setelem_puts hs hi hlt fun p hp => (hs.props h).stale k y p helem hp
  | none =>
    have hlook : s.look h k ≠ none := by
      rw [State.prop, helem] at hprop
      simp [hprop]
    cases hslot : slotof (s.shapes (s.objs h).shape).props k with
    | none => exact absurd ((slotof_look hs).mp hslot) hlook
    | some slot =>
      have hset := setslot_puts (x := x) hs hslot helem hprop ha
      cases hk : keyidx k <;> exact hset

end Infernode.Js
