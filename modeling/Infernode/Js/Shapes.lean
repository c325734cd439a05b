import Infernode.Js.Slots

/-!
# Shared shapes

Shapes that an object does not own stay as they are, so that a change of one object's shape is seen
by no other object.
-/

namespace Infernode.Js

variable {P : Type} {s s' s'' : State P} {h : ℕ} {k : Key} {a : Attr} {v : Slot P} {i : ℕ}

def State.look (s : State P) (h : ℕ) (k : Key) : Option (Slot P × Attr) :=
  Js.look (s.shapes (s.objs h).shape).props (s.objs h).slots k

structure Shapes (s : State P) : Prop where
  made : ∀ h, (s.objs h).shape < s.nshape
  slots : ∀ h, (s.shapes (s.objs h).shape).props.length = (s.objs h).slots.length
  nodup : ∀ i < s.nshape, ((s.shapes i).props.map Prod.fst).Nodup
  owner : ∀ h h', (s.shapes (s.objs h).shape).owned = true → (s.objs h').shape = (s.objs h).shape →
    h' = h
  trans : ∀ i < s.nshape, ∀ k a t, (k, a, t) ∈ (s.shapes i).trans →
    (s.shapes i).owned = false ∧ t < s.nshape ∧ (s.shapes t).owned = false ∧
      (s.shapes t).props = (s.shapes i).props ++ [(k, a)]

/-- The properties of `h` in its shape become those of `f`; nothing else changes. -/
structure Reshaped (s s' : State P) (h : ℕ) (f : Key → Option (Slot P × Attr)) : Prop where
  shapes : Shapes s'
  obj : ∃ i vs, s'.objs h = { s.objs h with shape := i, slots := vs }
  look : ∀ k, s'.look h k = f k
  others : ∀ h' ≠ h, s'.objs h' = s.objs h' ∧ ∀ k, s'.look h' k = s.look h' k

theorem Reshaped.trans {f g : Key → Option (Slot P × Attr)} (hs : Reshaped s s' h f)
    (hs' : Reshaped s' s'' h g) : Reshaped s s'' h g := by
  refine ⟨hs'.shapes, ?_, hs'.look, fun h' hne => ?_⟩
  · obtain ⟨i, vs, hobj⟩ := hs.obj
    obtain ⟨i', vs', hobj'⟩ := hs'.obj
    exact ⟨i', vs', by rw [hobj', hobj]⟩
  · obtain ⟨hobj, hlook⟩ := hs.others h' hne
    obtain ⟨hobj', hlook'⟩ := hs'.others h' hne
    exact ⟨hobj'.trans hobj, fun k => (hlook' k).trans (hlook k)⟩

theorem Reshaped.congr {f g : Key → Option (Slot P × Attr)} (hs : Reshaped s s' h f)
    (hfg : ∀ k, f k = g k) : Reshaped s s' h g :=
  ⟨hs.shapes, hs.obj, fun k => (hs.look k).trans (hfg k), hs.others⟩

theorem Shapes.slotprop_eq (hs : Shapes s) : slotprop s h k = s.look h k :=
  (look_eq (hs.slots h)).symm

@[simp] theorem State.setobj_objs {o : Obj P} {h' : ℕ} :
    (s.setobj h o).objs h' = if h' = h then o else s.objs h' :=
  Function.update_apply _ _ _ _

@[simp] theorem State.setobj_shapes {o : Obj P} : (s.setobj h o).shapes = s.shapes := rfl

@[simp] theorem State.setobj_nshape {o : Obj P} : (s.setobj h o).nshape = s.nshape := rfl

@[simp] theorem State.setshape_shapes {sh : Shape} {j : ℕ} :
    (s.setshape i sh).shapes j = if j = i then sh else s.shapes j :=
  Function.update_apply _ _ _ _

@[simp] theorem State.setshape_objs {sh : Shape} : (s.setshape i sh).objs = s.objs := rfl

theorem Shapes.setobj (hs : Shapes s) {o : Obj P} (hshape : o.shape = (s.objs h).shape)
    (hslots : o.slots.length = (s.objs h).slots.length) : Shapes (s.setobj h o) := by
  have hsame (h' : ℕ) : ((s.setobj h o).objs h').shape = (s.objs h').shape := by
    rw [State.setobj_objs]
    split_ifs with hh
    · rw [hshape, hh]
    · rfl
  refine ⟨fun h' => ?_, fun h' => ?_, hs.nodup, fun h' h'' => ?_, hs.trans⟩
  · rw [hsame]
    exact hs.made h'
  · rw [hsame, State.setobj_shapes, hs.slots h', State.setobj_objs]
    split_ifs with hh
    · rw [hh, hslots]
    · rfl
  · rw [hsame, hsame]
    exact hs.owner h' h''

theorem setslot_reshaped {slot : ℕ} (hs : Shapes s)
    (hslot : slotof (s.shapes (s.objs h).shape).props k = some slot) :
    Reshaped s (setslot s h slot v) h fun k' =>
      if k' = k then (s.look h k).map fun p => (v, p.2) else s.look h k' := by
  refine ⟨hs.setobj rfl (by simp),
    ⟨(s.objs h).shape, (s.objs h).slots.set slot v, by simp [setslot]⟩, fun k' => ?_,
    fun h' hne => ?_⟩
  · rw [State.look, setslot]
    simp only [State.setobj_objs, if_true, State.setobj_shapes]
    exact look_set (hs.slots h) hslot
  · have hobj : (setslot s h slot v).objs h' = s.objs h' := by simp [setslot, hne]
    refine ⟨hobj, fun k' => ?_⟩
    rw [State.look, hobj]
    rfl

theorem Shapes.owned (hs : Shapes s) (ps : List (Key × Attr)) (vs : List (Slot P))
    (howned : (s.shapes (s.objs h).shape).owned = true) (hlen : ps.length = vs.length)
    (hnodup : (ps.map Prod.fst).Nodup) :
    Reshaped s ((s.setshape (s.objs h).shape
      { s.shapes (s.objs h).shape with props := ps }).setobj h { s.objs h with slots := vs }) h
      (Js.look ps vs) := by
  have hne {h' : ℕ} (hh : h' ≠ h) : (s.objs h').shape ≠ (s.objs h).shape :=
    fun heq => hh (hs.owner h h' howned heq)
  have hsame (h' : ℕ) :
      (if h' = h then { s.objs h with slots := vs } else s.objs h').shape = (s.objs h').shape := by
    split_ifs with hh
    · rw [hh]
    · rfl
  refine ⟨⟨fun h' => ?_, fun h' => ?_, fun i hi => ?_, fun h' h'' => ?_, fun i hi k a t ht => ?_⟩,
    ⟨(s.objs h).shape, vs, by simp⟩, fun k => ?_, fun h' hh => ⟨by simp [hh], fun k => ?_⟩⟩
  · simp only [State.setobj_objs, State.setshape_objs, hsame]
    exact hs.made h'
  · by_cases hh : h' = h
    · simp [hh, hlen]
    · simpa [hh, hne hh] using hs.slots h'
  · simp only [State.setobj_shapes, State.setshape_shapes]
    split_ifs with heq
    · exact hnodup
    · exact hs.nodup i hi
  · simp only [State.setobj_objs, State.setshape_objs, hsame, State.setobj_shapes,
      State.setshape_shapes]
    intro howned' heq
    refine hs.owner h' h'' ?_ heq
    split_ifs at howned' with hh
    · rw [hh]
      exact howned
    · exact howned'
  · simp only [State.setobj_shapes, State.setshape_shapes] at ht
    have hio : i ≠ (s.objs h).shape := by
      rintro rfl
      rw [if_pos rfl] at ht
      exact absurd howned (by simp [(hs.trans _ hi k a t ht).1])
    rw [if_neg hio] at ht
    obtain ⟨hifree, htn, hto, htp⟩ := hs.trans i hi k a t ht
    have hto' : t ≠ (s.objs h).shape := by
      rintro rfl
      exact absurd howned (by simp [hto])
    simpa [hio, hto'] using ⟨hifree, htn, hto, htp⟩
  · simp [State.look]
  · simp [State.look, hh, hne hh]

theorem Shapes.new (hs : Shapes s) (sh : Shape) (vs : List (Slot P))
    (hlen : sh.props.length = vs.length) (hnodup : (sh.props.map Prod.fst).Nodup)
    (htrans : sh.trans = []) :
    Reshaped s ({ (s.setshape s.nshape sh).setobj h
      { s.objs h with shape := s.nshape, slots := vs } with nshape := s.nshape + 1 }) h
      (Js.look sh.props vs) := by
  have hold (h' : ℕ) : (s.objs h').shape ≠ s.nshape := Nat.ne_of_lt (hs.made h')
  refine ⟨⟨fun h' => ?_, fun h' => ?_, fun i hi => ?_, fun h' h'' => ?_, fun i hi k a t ht => ?_⟩,
    ⟨s.nshape, vs, by simp⟩, fun k => ?_, fun h' hh => ⟨by simp [hh], fun k => ?_⟩⟩
  · by_cases hh : h' = h
    · simp [hh]
    · simpa [hh] using Nat.lt_succ_of_lt (hs.made h')
  · by_cases hh : h' = h
    · simp [hh, hlen]
    · simpa [hh, hold] using hs.slots h'
  · by_cases hin : i = s.nshape
    · simpa [hin] using hnodup
    · have hi' : i < s.nshape := Nat.lt_of_le_of_ne (Nat.le_of_lt_succ hi) hin
      simpa [hin] using hs.nodup i hi'
  · by_cases hh : h' = h <;> by_cases hh' : h'' = h
    · simp [hh, hh']
    · simp [hh, hh', hold]
    · simp [hh, hh', Ne.symm (hold _), hold]
    · simpa [hh, hh', hold] using hs.owner h' h''
  · by_cases hin : i = s.nshape
    · simp [hin, htrans] at ht
    · have hi' : i < s.nshape := Nat.lt_of_le_of_ne (Nat.le_of_lt_succ hi) hin
      obtain ⟨hifree, htn, hto, htp⟩ := hs.trans i hi' k a t (by simpa [hin] using ht)
      simpa [hin, Nat.ne_of_lt htn, Nat.lt_add_one_iff] using
        ⟨hifree, Nat.le_of_lt htn, hto, htp⟩
  · simp [State.look]
  · simp [State.look, hh, hold]

theorem Shapes.move (hs : Shapes s) {t : ℕ} {vs : List (Slot P)} (ht : t < s.nshape)
    (hfree : (s.shapes t).owned = false) (hlen : (s.shapes t).props.length = vs.length) :
    Reshaped s (s.setobj h { s.objs h with shape := t, slots := vs }) h
      (Js.look (s.shapes t).props vs) := by
  refine ⟨⟨fun h' => ?_, fun h' => ?_, hs.nodup, fun h' h'' => ?_, hs.trans⟩, ⟨t, vs, by simp⟩,
    fun k => by simp [State.look], fun h' hh => ⟨by simp [hh], fun k => by simp [State.look, hh]⟩⟩
  · by_cases hh : h' = h
    · simpa [hh] using ht
    · simpa [hh] using hs.made h'
  · by_cases hh : h' = h
    · simpa [hh] using hlen
    · simpa [hh] using hs.slots h'
  · by_cases hh : h' = h <;> by_cases hh' : h'' = h
    · simp [hh, hh']
    · simp [hh, hfree]
    · simp only [State.setobj_objs, hh, hh', if_false, if_true, State.setobj_shapes]
      intro howned heq
      rw [← heq, hfree] at howned
      exact nomatch howned
    · simpa [hh, hh'] using hs.owner h' h''

theorem Shapes.addtrans (hs : Shapes s) {t : ℕ} (hi : i < s.nshape)
    (hfree : (s.shapes i).owned = false) (ht : t < s.nshape) (htfree : (s.shapes t).owned = false)
    (hprops : (s.shapes t).props = (s.shapes i).props ++ [(k, a)]) :
    Reshaped s (s.setshape i { s.shapes i with trans := (k, a, t) :: (s.shapes i).trans }) h
      (s.look h) := by
  have hsame (j : ℕ) : (if j = i then { s.shapes i with trans := (k, a, t) :: (s.shapes i).trans }
        else s.shapes j).props = (s.shapes j).props ∧
      (if j = i then { s.shapes i with trans := (k, a, t) :: (s.shapes i).trans }
        else s.shapes j).owned = (s.shapes j).owned := by
    split_ifs with hj
    · rw [hj]
      exact ⟨rfl, rfl⟩
    · exact ⟨rfl, rfl⟩
  have hlook (h' : ℕ) (k' : Key) :
      (s.setshape i { s.shapes i with trans := (k, a, t) :: (s.shapes i).trans }).look h' k' =
        s.look h' k' := by
    simp [State.look, hsame]
  refine ⟨⟨hs.made, fun h' => ?_, fun j hj => ?_, fun h' h'' => ?_, fun j hj k' a' t' ht' => ?_⟩,
    ⟨_, _, rfl⟩, hlook h, fun h' _ => ⟨rfl, hlook h'⟩⟩
  · simpa [hsame] using hs.slots h'
  · simpa [hsame] using hs.nodup j hj
  · simpa [hsame] using hs.owner h' h''
  · simp only [State.setshape_shapes, hsame] at ht' ⊢
    split_ifs at ht' with hji
    · rcases List.mem_cons.mp ht' with heq | hold
      · obtain ⟨rfl, rfl, rfl⟩ := heq
        rw [hji]
        exact ⟨hfree, ht, htfree, hprops⟩
      · rw [hji]
        exact hs.trans i hi k' a' t' hold
    · exact hs.trans j hj k' a' t' ht'

theorem addslot_reshaped (hs : Shapes s) (hnone : s.look h k = none) :
    Reshaped s (addslot s h k a v) h fun k' => if k' = k then some (v, a) else s.look h k' := by
  have hlen := hs.slots h
  have hslot := (look_eq_none hlen).mp hnone
  have hnodup := (slotof_append_of_none (a := a) hslot).mpr (hs.nodup _ (hs.made h))
  have hlook : Js.look ((s.shapes (s.objs h).shape).props ++ [(k, a)]) ((s.objs h).slots ++ [v]) =
      fun k' => if k' = k then some (v, a) else s.look h k' := by
    funext k'
    rw [look_append hlen]
    change (s.look h k').or _ = _
    by_cases hk : k' = k
    · simp [hk, hnone]
    · simp [hk]
  have hlen' : ((s.shapes (s.objs h).shape).props ++ [(k, a)]).length =
      ((s.objs h).slots ++ [v]).length := by
    simp [hlen]
  rw [← hlook, addslot, addkey]
  by_cases howned : (s.shapes (s.objs h).shape).owned = true
  · rw [if_pos howned]
    exact hs.owned _ _ howned hlen' hnodup
  rw [if_neg howned]
  have hfree : (s.shapes (s.objs h).shape).owned = false := by simpa using howned
  cases hfind : (s.shapes (s.objs h).shape).trans.find? fun t => t.1 = k ∧ t.2.1 = a with
  | some t =>
    obtain ⟨k', a', t⟩ := t
    have hmem := List.mem_of_find?_eq_some hfind
    have hkey := List.find?_some hfind
    simp only [decide_eq_true_eq] at hkey
    obtain ⟨rfl, rfl⟩ := hkey
    obtain ⟨-, ht, htfree, hprops⟩ := hs.trans _ (hs.made h) _ _ _ hmem
    rw [← hprops]
    exact hs.move ht htfree (by rw [hprops, hlen'])
  | none =>
    have hnew (owned : Bool) :=
      hs.new (h := h) ⟨(s.shapes (s.objs h).shape).props ++ [(k, a)], owned, []⟩ _ hlen' hnodup rfl
    by_cases hbig : Dictmin ≤ (s.shapes (s.objs h).shape).props.length + 1
    · simp only [hbig, decide_true, if_true]
      exact hnew true
    · have hne : (s.objs h).shape ≠ s.nshape := Nat.ne_of_lt (hs.made h)
      simp only [hbig, decide_false, Bool.false_eq_true, if_false]
      have htrans := (hnew false).shapes.addtrans (h := h) (i := (s.objs h).shape) (k := k) (a := a)
        (t := s.nshape) (Nat.lt_succ_of_lt (hs.made h)) (by simpa [hne] using hfree)
        (Nat.lt_succ_self _) (by simp) (by simp [hne])
      convert ((hnew false).trans htrans).congr (hnew false).look using 1
      simp only [State.setobj, State.setshape, Function.update_of_ne hne]
      rw [Function.update_comm hne]

theorem ownshape_reshaped (hs : Shapes s) :
    Reshaped s (ownshape s h) h (s.look h) ∧
      ((ownshape s h).shapes ((ownshape s h).objs h).shape).owned = true ∧
      ((ownshape s h).shapes ((ownshape s h).objs h).shape).props =
        (s.shapes (s.objs h).shape).props ∧
      ((ownshape s h).objs h).slots = (s.objs h).slots := by
  rw [ownshape]
  by_cases howned : (s.shapes (s.objs h).shape).owned = true
  · rw [if_pos howned]
    exact ⟨⟨hs, ⟨_, _, rfl⟩, fun _ => rfl, fun _ _ => ⟨rfl, fun _ => rfl⟩⟩, howned, rfl, rfl⟩
  · rw [if_neg howned]
    refine ⟨hs.new ⟨(s.shapes (s.objs h).shape).props, true, []⟩ _ (hs.slots h)
      (hs.nodup _ (hs.made h)) rfl, ?_, ?_, ?_⟩ <;> simp

theorem setattr_reshaped {slot : ℕ} (hs : Shapes s)
    (hslot : slotof (s.shapes (s.objs h).shape).props k = some slot) :
    Reshaped s (setattr s h slot a) h fun k' =>
      if k' = k then (s.look h k).map fun p => (p.1, a) else s.look h k' := by
  obtain ⟨hown, howned, hprops, hslots⟩ := ownshape_reshaped (h := h) hs
  have hlen := hs.slots h
  have hnodup := hs.nodup _ (hs.made h)
  rw [← map_fst_modify (i := slot) (a := a), ← hprops] at hnodup
  have hset := hown.shapes.owned _ ((ownshape s h).objs h).slots howned
    (by rw [List.length_modify, hprops, hslots, hlen]) hnodup
  convert (hown.trans hset).congr fun k' => ?_ using 1
  · rw [setattr, State.setobj]
    exact congrArg _ (Function.update_eq_self h _).symm
  · rw [hprops, hslots]
    exact look_modify hlen hslot

theorem redefine_reshaped {slot : ℕ} (hs : Shapes s)
    (hslot : slotof (s.shapes (s.objs h).shape).props k = some slot) :
    Reshaped s (redefine s h slot a v) h fun k' =>
      if k' = k then some (v, a) else s.look h k' := by
  obtain ⟨w, b, -, hb, hlook⟩ := look_of_slotof (hs.slots h) hslot
  have hlook : s.look h k = some (w, b) := hlook
  rw [redefine, hb]
  simp only [Option.map_some, Option.some.injEq]
  by_cases hba : b = a
  · rw [if_pos hba]
    refine (setslot_reshaped hs hslot).congr fun k' => ?_
    rw [hlook, hba]
    rfl
  · rw [if_neg hba]
    have hset := setattr_reshaped (a := a) hs hslot
    have hslot' : slotof ((setattr s h slot a).shapes ((setattr s h slot a).objs h).shape).props k =
        some slot := by
      rw [← hslot, ← (ownshape_reshaped (h := h) hs).2.2.1]
      simp [setattr, slotof_modify]
    refine (hset.trans (setslot_reshaped hset.shapes hslot')).congr fun k' => ?_
    rw [hset.look, hset.look, hlook]
    by_cases hk : k' = k <;> simp [hk]

theorem removeslot_reshaped {slot : ℕ} (hs : Shapes s)
    (hslot : slotof (s.shapes (s.objs h).shape).props k = some slot) :
    Reshaped s (((ownshape s h).setshape ((ownshape s h).objs h).shape
      { (ownshape s h).shapes ((ownshape s h).objs h).shape with
        props :=
          ((ownshape s h).shapes ((ownshape s h).objs h).shape).props.eraseIdx slot }).setobj h
      { (ownshape s h).objs h with slots := ((ownshape s h).objs h).slots.eraseIdx slot }) h
      fun k' => if k' = k then none else s.look h k' := by
  obtain ⟨hown, howned, hprops, hslots⟩ := ownshape_reshaped (h := h) hs
  have hlen := hs.slots h
  have hnodup := hs.nodup _ (hs.made h)
  have hset := hown.shapes.owned
    (((ownshape s h).shapes ((ownshape s h).objs h).shape).props.eraseIdx slot)
    (((ownshape s h).objs h).slots.eraseIdx slot) howned ?_ ?_
  · refine (hown.trans hset).congr fun k' => ?_
    rw [hprops, hslots]
    exact look_erase hlen hnodup hslot
  · rw [hprops, hslots, List.length_eraseIdx, List.length_eraseIdx, hlen]
  · rw [hprops]
    exact hnodup.sublist ((List.eraseIdx_sublist _ _).map _)

end Infernode.Js
