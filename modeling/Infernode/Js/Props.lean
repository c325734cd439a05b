import Infernode.Js.Shapes

/-!
# An object's own properties

The property of a key is its element, or else what its shape and slots have; what `defown`,
`removeown` and the others do to an object is what they do to these.
-/

namespace Infernode.Js

variable {P : Type} {s s' s'' : State P} {h : ℕ} {k k' : Key} {a : Attr} {v : Slot P} {i : ℕ}
  {x : V P}

def Slot.isacc : Slot P → Bool
  | .acc _ _ => true
  | .val _ => false

def State.prop (s : State P) (h : ℕ) (k : Key) : Option (Slot P × Attr) :=
  match (s.objs h).elem k with
  | some v => some (.val v, Adefault)
  | none => s.look h k

def Fits (v : Slot P) (a : Attr) : Prop := a.acc = v.isacc ∧ (a.acc = true → a.write = false)

/-- A key may have an element and a slot, of which the element is the later one. -/
structure Props (s : State P) (h : ℕ) : Prop where
  fits : ∀ k p, s.look h k = some p → Fits p.1 p.2
  idx : ∀ i, (s.objs h).idxprops = false → s.look h (.index i) = none
  stale : ∀ k v p, (s.objs h).elem k = some v → s.look h k = some p → p.2.conf = true
  length : (s.objs h).kind = .array → s.look h alength = none
  size : (s.objs h).elems.length ≤ Idxmax + 1

structure Wf (s : State P) : Prop where
  shapes : Shapes s
  props : ∀ h, Props s h

structure Puts (s s' : State P) (h : ℕ) (f : Key → Option (Slot P × Attr)) : Prop where
  wf : Wf s'
  prop : ∀ k, s'.prop h k = f k
  obj : ∃ i vs e b, s'.objs h = { s.objs h with shape := i, slots := vs, elems := e, idxprops := b }
  others : ∀ h' ≠ h, s'.objs h' = s.objs h' ∧ ∀ k, s'.look h' k = s.look h' k

theorem Puts.congr {f g : Key → Option (Slot P × Attr)} (hs : Puts s s' h f)
    (hfg : ∀ k, f k = g k) : Puts s s' h g :=
  ⟨hs.wf, fun k => (hs.prop k).trans (hfg k), hs.obj, hs.others⟩

theorem keyidx_eq (hk : keyidx k = some i) : k = .index i ∧ i ≤ Idxmax := by
  cases k with
  | index j =>
    rw [keyidx] at hk
    split_ifs at hk with hj
    obtain rfl := Option.some.inj hk
    exact ⟨rfl, hj⟩
  | name a => exact nomatch hk

theorem Obj.elem_eq (o : Obj P) (hk : keyidx k = some i) : o.elem k = (o.elems[i]?).join := by
  rw [Obj.elem, hk, Option.bind_some]

theorem Obj.elem_none (o : Obj P) (hk : keyidx k = none) : o.elem k = none := by
  rw [Obj.elem, hk, Option.bind_none]

theorem Wf.getownprop_eq (hs : Wf s) :
    getownprop s h k = (s.prop h k).or (lengthprop (s.objs h) k) := by
  rw [getownprop, State.prop, hs.shapes.slotprop_eq]
  cases (s.objs h).elem k with
  | some v => rfl
  | none =>
    dsimp only
    split_ifs with hidx
    · obtain ⟨i, hi⟩ := Option.isSome_iff_exists.mp hidx.1
      obtain ⟨rfl, -⟩ := keyidx_eq hi
      rw [(hs.props h).idx i hidx.2, lengthprop, if_neg fun h => nomatch h.2]
      rfl
    · rfl

theorem Wf.of_others (hs : Wf s) (hshapes : Shapes s')
    (hprops : Props s' h)
    (hothers : ∀ h' ≠ h, s'.objs h' = s.objs h' ∧ ∀ k, s'.look h' k = s.look h' k) : Wf s' := by
  refine ⟨hshapes, fun h' => ?_⟩
  by_cases hh : h' = h
  · exact hh ▸ hprops
  · obtain ⟨hobj, hlook⟩ := hothers h' hh
    obtain ⟨hfits, hidx, hstale, hlength, hsize⟩ := hs.props h'
    refine ⟨fun k p hp => hfits k p (hlook k ▸ hp), fun i hi => ?_, fun k v p hv hp => ?_,
      fun hkind => ?_, hobj ▸ hsize⟩
    · rw [hlook]
      exact hidx i (hobj ▸ hi)
    · exact hstale k v p (hobj ▸ hv) (hlook k ▸ hp)
    · rw [hlook]
      exact hlength (hobj ▸ hkind)

theorem Wf.setelems (hs : Wf s) {e : List (Option (V P))} {b : Bool}
    (hsize : e.length ≤ Idxmax + 1) (hb : b = false → (s.objs h).idxprops = false)
    (hstale : ∀ k v p, ({ s.objs h with elems := e, idxprops := b } : Obj P).elem k = some v →
      s.look h k = some p → p.2.conf = true) :
    Puts s (s.setobj h { s.objs h with elems := e, idxprops := b }) h fun k =>
      match ({ s.objs h with elems := e, idxprops := b } : Obj P).elem k with
      | some v => some (.val v, Adefault)
      | none => s.look h k := by
  have hlook (h' : ℕ) (k : Key) :
      (s.setobj h { s.objs h with elems := e, idxprops := b }).look h' k = s.look h' k := by
    by_cases hh : h' = h
    · simp [State.look, hh]
    · simp [State.look, hh]
  have hothers : ∀ h' ≠ h, (s.setobj h { s.objs h with elems := e, idxprops := b }).objs h' =
      s.objs h' ∧ ∀ k, (s.setobj h { s.objs h with elems := e, idxprops := b }).look h' k =
        s.look h' k := fun h' hh => ⟨by simp [hh], hlook h'⟩
  obtain ⟨hfits, hidx, -, hlength, -⟩ := hs.props h
  refine ⟨Wf.of_others hs (hs.shapes.setobj rfl rfl) ⟨fun k p hp => ?_, fun i hi => ?_,
    fun k v p hv hp => ?_, fun hkind => ?_, by simpa using hsize⟩ hothers, fun k => ?_,
    ⟨(s.objs h).shape, (s.objs h).slots, e, b, by simp⟩, hothers⟩
  · exact hfits k p (hlook h k ▸ hp)
  · rw [hlook]
    exact hidx i (hb (by simpa using hi))
  · exact hstale k v p (by simpa using hv) (hlook h k ▸ hp)
  · rw [hlook]
    exact hlength (by simpa using hkind)
  · rw [State.prop, hlook]
    simp

theorem Wf.reshaped {f : Key → Option (Slot P × Attr)} (hs : Wf s) (hr : Reshaped s s' h f)
    (hfits : ∀ k p, f k = some p → Fits p.1 p.2)
    (hidx : ∀ i, (s.objs h).idxprops = false → f (.index i) = none)
    (hstale : ∀ k v p, (s.objs h).elem k = some v → f k = some p → p.2.conf = true)
    (hlength : (s.objs h).kind = .array → f alength = none) :
    Puts s s' h fun k =>
      match (s.objs h).elem k with
      | some v => some (.val v, Adefault)
      | none => f k := by
  obtain ⟨i, vs, hobj⟩ := hr.obj
  have helem (k : Key) : (s'.objs h).elem k = (s.objs h).elem k := by rw [hobj]; rfl
  refine ⟨Wf.of_others hs hr.shapes ⟨fun k p hp => ?_, fun j hj => ?_, fun k v p hv hp => ?_,
    fun hkind => ?_, by simpa [hobj] using (hs.props h).size⟩ hr.others, fun k => ?_,
    ⟨i, vs, _, _, hobj⟩, hr.others⟩
  · exact hfits k p (hr.look k ▸ hp)
  · rw [hr.look]
    exact hidx j (by simpa [hobj] using hj)
  · exact hstale k v p (helem k ▸ hv) (hr.look k ▸ hp)
  · rw [hr.look]
    exact hlength (by simpa [hobj] using hkind)
  · rw [State.prop, helem, hr.look]

theorem Puts.trans {f g : Key → Option (Slot P × Attr)} (hs : Puts s s' h f)
    (hs' : Puts s' s'' h g) : Puts s s'' h g := by
  refine ⟨hs'.wf, hs'.prop, ?_, fun h' hne => ?_⟩
  · obtain ⟨i, vs, e, b, hobj⟩ := hs.obj
    obtain ⟨i', vs', e', b', hobj'⟩ := hs'.obj
    exact ⟨i', vs', e', b', by rw [hobj', hobj]⟩
  · obtain ⟨hobj, hlook⟩ := hs.others h' hne
    obtain ⟨hobj', hlook'⟩ := hs'.others h' hne
    exact ⟨hobj'.trans hobj, fun k => (hlook' k).trans (hlook k)⟩

theorem State.prop_eq_none : s.prop h k = none ↔ (s.objs h).elem k = none ∧ s.look h k = none := by
  rw [State.prop]
  cases (s.objs h).elem k <;> simp

theorem addslot_puts (hs : Wf s) (hnone : s.look h k = none) (hfits : Fits v a)
    (hidx : ∀ i, k = .index i → (s.objs h).idxprops = true)
    (hstale : (s.objs h).elem k ≠ none → a.conf = true)
    (hlength : (s.objs h).kind = .array → k ≠ alength) :
    Puts s (addslot s h k a v) h fun k' =>
      match (s.objs h).elem k' with
      | some v => some (.val v, Adefault)
      | none => if k' = k then some (v, a) else s.look h k' := by
  have hprops := hs.props h
  refine hs.reshaped (addslot_reshaped hs.shapes hnone) (fun k' p hp => ?_) (fun i hi => ?_)
    (fun k' w p hw hp => ?_) (fun hkind => ?_)
  · split_ifs at hp with hk
    · obtain rfl := Option.some.inj hp
      exact hfits
    · exact hprops.fits k' p hp
  · rw [if_neg fun hk => ?_]
    · exact hprops.idx i hi
    · exact absurd (hidx i hk.symm) (by simp [hi])
  · split_ifs at hp with hk
    · obtain rfl := Option.some.inj hp
      exact hstale (by rw [← hk, hw]; simp)
    · exact hprops.stale k' w p hw hp
  · rw [if_neg (hlength hkind).symm]
    exact hprops.length hkind

theorem keyidx_index (hi : i ≤ Idxmax) : keyidx (.index i) = some i := if_pos hi

theorem Obj.elem_update {o : Obj P} {e : List (Option (V P))} {w : Option (V P)} (hi : i ≤ Idxmax)
    (helems : ∀ j, (e[j]?).join = if j = i then w else (o.elems[j]?).join) (k : Key) :
    ({ o with elems := e } : Obj P).elem k = if k = .index i then w else o.elem k := by
  cases hk : keyidx k with
  | none =>
    rw [Obj.elem_none _ hk, o.elem_none hk, if_neg]
    rintro rfl
    exact nomatch hk.symm.trans (keyidx_index hi)
  | some j =>
    obtain ⟨rfl, -⟩ := keyidx_eq hk
    rw [Obj.elem_eq _ hk, o.elem_eq hk, helems]
    simp only [Key.index.injEq]

theorem join_set {e : List (Option (V P))} {w : Option (V P)} (hi : i < e.length) (j : ℕ) :
    ((e.set i w)[j]?).join = if j = i then w else (e[j]?).join := by
  by_cases hj : j = i
  · rw [hj, List.getElem?_set_self hi, if_pos rfl]
    rfl
  · rw [List.getElem?_set_ne (Ne.symm hj), if_neg hj]

theorem addelem_length {o : Obj P} {e : List (Option (V P))} (h : addelem o i x = some e)
    (hi : i ≤ Idxmax) (hsize : o.elems.length ≤ Idxmax + 1) : e.length ≤ Idxmax + 1 := by
  rw [addelem] at h
  split_ifs at h with hidx hlt hfar
  · obtain rfl := Option.some.inj h
    simpa using hsize
  · obtain rfl := Option.some.inj h
    simp
    omega

theorem addelem_join {o : Obj P} {e : List (Option (V P))} (h : addelem o i x = some e) (j : ℕ) :
    o.idxprops = false ∧ (e[j]?).join = if j = i then some x else (o.elems[j]?).join := by
  rw [addelem] at h
  split_ifs at h with hidx hlt hfar
  · obtain rfl := Option.some.inj h
    exact ⟨by simpa using hidx, join_set hlt j⟩
  · obtain rfl := Option.some.inj h
    refine ⟨by simpa using hidx, ?_⟩
    rcases Nat.lt_trichotomy j i with hj | rfl | hj
    · rw [if_neg (Nat.ne_of_lt hj), List.append_assoc]
      by_cases hold : j < o.elems.length
      · rw [List.getElem?_append_left hold]
      · have hnone : o.elems[j]? = none := List.getElem?_eq_none (by omega)
        rw [List.getElem?_append_right (by omega), List.getElem?_append_left (by simp; omega),
          List.getElem?_replicate_of_lt (by omega), hnone]
        rfl
    · have hlen : (o.elems ++ List.replicate (j - o.elems.length) none).length = j := by
        simp
        omega
      rw [if_pos rfl, List.getElem?_append_right (Nat.le_of_eq hlen), hlen, Nat.sub_self]
      rfl
    · have hnone : o.elems[j]? = none := List.getElem?_eq_none (by omega)
      rw [if_neg (Nat.ne_of_gt hj), hnone, List.getElem?_eq_none]
      simp
      omega

theorem addprop_puts (hs : Wf s) (hnone : s.prop h k = none) (hfits : Fits v a)
    (hlength : (s.objs h).kind = .array → k ≠ alength) :
    Puts s (addprop s h k a v) h fun k' => if k' = k then some (v, a) else s.prop h k' := by
  obtain ⟨helem, hlook⟩ := State.prop_eq_none.mp hnone
  have hslot {s' : State P} (hs' : Wf s') (hobj : s'.objs h = { s.objs h with idxprops := true })
      (hlook' : ∀ k, s'.look h k = s.look h k) :
      Puts s' (addslot s' h k a v) h fun k' => if k' = k then some (v, a) else s.prop h k' := by
    refine (addslot_puts hs' (by rw [hlook', hlook]) hfits (fun i _ => by rw [hobj])
      (fun hne => ?_) (fun hkind => hlength (by simpa [hobj] using hkind))).congr fun k' => ?_
    · rw [hobj] at hne
      exact absurd helem hne
    · have helems : (s'.objs h).elem k' = (s.objs h).elem k' := by
        rw [hobj]
        rfl
      rw [helems, State.prop, hlook']
      by_cases hk : k' = k
      · rw [hk, helem, if_pos rfl]
      · rw [if_neg hk, if_neg hk]
  have hspilled : Puts s (addslot (s.setobj h { s.objs h with idxprops := true }) h k a v) h
      fun k' => if k' = k then some (v, a) else s.prop h k' := by
    have hset := hs.setelems (h := h) (e := (s.objs h).elems) (b := true) (hs.props h).size
      (by simp) (hs.props h).stale
    have hputs := hslot hset.wf (by simp) fun k => by simp [State.look]
    exact hset.trans hputs
  unfold addprop
  cases k with
  | name b =>
    have hputs := addslot_puts hs hlook hfits (fun i hi => by cases hi)
      (fun hne => absurd helem hne) hlength
    refine hputs.congr fun k' => ?_
    rw [State.prop]
    by_cases hk : k' = .name b
    · rw [hk, helem, if_pos rfl]
    · rw [if_neg hk, if_neg hk]
  | index i =>
    dsimp only [keyindex]
    cases hidx : keyidx (.index i) with
    | none => exact hspilled
    | some j =>
      obtain ⟨hj, hmax⟩ := keyidx_eq hidx
      injection hj with hj
      subst hj
      cases v with
      | acc g t => exact hspilled
      | val x =>
        dsimp only
        split_ifs with ha
        swap
        · exact hspilled
        cases hadd : addelem (s.objs h) i x with
        | none => exact hspilled
        | some e =>
          have hjoin := addelem_join hadd
          have hshape := (hjoin 0).1
          have helem' := Obj.elem_update (o := s.objs h) (e := e) hmax fun j => (hjoin j).2
          have hset := hs.setelems (h := h) (e := e) (b := (s.objs h).idxprops)
            (addelem_length hadd hmax (hs.props h).size) id ?_
          · refine hset.congr fun k' => ?_
            rw [State.prop]
            rw [helem']
            by_cases hk : k' = .index i
            · rw [if_pos hk, if_pos hk, ha]
            · rw [if_neg hk, if_neg hk]
          · intro k' w p hw hp
            rw [helem' k'] at hw
            split_ifs at hw with hk
            · rw [hk, hlook] at hp
              cases hp
            · exact (hs.props h).stale k' w p hw hp

end Infernode.Js
