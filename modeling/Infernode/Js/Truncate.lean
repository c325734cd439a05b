import Infernode.Js.Arrays

/-!
# Arrays made shorter

From the end down to the new length, or to the last property that may not be deleted.
-/

namespace Infernode.Js

open Ecma

variable {P : Type} {s s' : State P} {h n i : ℕ} {k : Key}

/-- No element lies below an index in the shape that may not be deleted, from `n` on. -/
def Cuts (s : State P) (h n : ℕ) : Prop :=
  ∀ b p, s.prop h (.index b) = some p → p.2.conf = false → ∀ i, n ≤ i → i < b →
    (s.objs h).elem (.index i) = none

theorem removeown_elems : ((removeown s h k).objs h).elems.length ≤ (s.objs h).elems.length := by
  unfold removeown
  dsimp only
  split
  · next i hi =>
    simp only [State.setobj_objs, if_true]
    split_ifs
    · simpa using trim_length ((s.objs h).elems.set i none)
    · simp
  · split
    · exact Nat.le_refl _
    · simp only [State.setobj_objs, if_true]
      rw [ownshape]
      split_ifs <;> simp

theorem elem_past (hi : (s.objs h).elems.length ≤ i) : (s.objs h).elem (.index i) = none := by
  by_contra helem
  obtain ⟨j, hj, hlt⟩ := Obj.elem_lt helem
  obtain ⟨hij, -⟩ := keyidx_eq hj
  injection hij with hij
  omega

theorem prop_past (hi : (s.objs h).elems.length ≤ i) :
    s.prop h (.index i) = s.look h (.index i) := by
  rw [State.prop, elem_past hi]

theorem slotof_conf (hs : Wf s) : ((slotof (s.shapes (s.objs h).shape).props k).bind
    ((s.shapes (s.objs h).shape).props[·]?)).any (!·.2.conf) =
    (s.look h k).any (!·.2.conf) := by
  have hlen := hs.shapes.slots h
  cases hslot : slotof (s.shapes (s.objs h).shape).props k with
  | none =>
    rw [(slotof_look hs).mp hslot]
    rfl
  | some slot =>
    obtain ⟨v, a, -, ha, hlook⟩ := look_of_slotof hlen hslot
    have hlook : s.look h k = some (v, a) := hlook
    rw [hlook, Option.bind_some, ha]
    rfl

theorem truncloop_puts {idx : List ℕ} (hs : Wf s) (helems : (s.objs h).elems.length ≤ n)
    (hidx : ∀ i ∈ idx, n ≤ i) (hnodup : idx.Nodup) :
    ∃ pre post s', idx = pre ++ post ∧
      (∀ i ∈ pre, ∀ p, s.look h (.index i) = some p → p.2.conf = true) ∧
      Puts s s' h (fun k => if k ∈ pre.map Key.index then none else s.prop h k) ∧
      (post = [] ∧ truncloop h idx s = (true, s') ∨
        ∃ b rest p, post = b :: rest ∧ s.look h (.index b) = some p ∧ p.2.conf = false ∧
          truncloop h idx s = (false, s'.setobj h { s'.objs h with alen := b + 1 })) := by
  induction idx generalizing s with
  | nil =>
    refine ⟨[], [], s, rfl, nofun, ?_, .inl ⟨rfl, rfl⟩⟩
    exact ⟨hs, fun k => by simp, ⟨_, _, _, _, rfl⟩, fun _ _ => ⟨rfl, fun _ => rfl⟩⟩
  | cons ix idx ih =>
    have hix := hidx ix (by simp)
    rw [truncloop]
    dsimp only
    rw [slotof_conf hs]
    by_cases hstop : (s.look h (.index ix)).any (!·.2.conf) = true
    · obtain ⟨p, hp, hconf⟩ : ∃ p, s.look h (.index ix) = some p ∧ p.2.conf = false := by
        cases hlook : s.look h (.index ix) with
        | none => simp [hlook] at hstop
        | some p => exact ⟨p, rfl, by simpa [hlook] using hstop⟩
      rw [if_pos hstop]
      refine ⟨[], ix :: idx, s, rfl, nofun, ?_, .inr ⟨ix, idx, p, rfl, hp, hconf, rfl⟩⟩
      exact ⟨hs, fun k => by simp, ⟨_, _, _, _, rfl⟩, fun _ _ => ⟨rfl, fun _ => rfl⟩⟩
    · have hconf (p : Slot P × Attr) (hp : s.look h (.index ix) = some p) : p.2.conf = true := by
        simpa [hp] using hstop
      rw [if_neg hstop]
      have hremove := removeown_puts (h := h) (k := .index ix) hs fun i hi hlt => by
        obtain ⟨hij, -⟩ := keyidx_eq hi
        injection hij with hij
        omega
      have helems' := Nat.le_trans (removeown_elems (s := s) (h := h) (k := .index ix)) helems
      have hlook (i : ℕ) (hi : n ≤ i) : (removeown s h (.index ix)).look h (.index i) =
          if i = ix then none else s.look h (.index i) := by
        rw [← prop_past (Nat.le_trans helems' hi), hremove.prop,
          prop_past (Nat.le_trans helems hi)]
        simp only [Key.index.injEq]
      have hnot : ix ∉ idx := (List.nodup_cons.mp hnodup).1
      obtain ⟨pre, post, s', rfl, hpre, hputs, hend⟩ := ih hremove.wf helems'
        (fun i hi => hidx i (by simp [hi])) (List.nodup_cons.mp hnodup).2
      refine ⟨ix :: pre, post, s', rfl, fun i hi p hp => ?_, ?_, ?_⟩
      · by_cases hii : i = ix
        · exact hconf p (hii ▸ hp)
        · have hi' : i ∈ pre := by simpa [hii] using hi
          refine hpre i hi' p ?_
          rw [hlook i (hidx i (by simp [hi'])), if_neg hii, hp]
      · refine (hremove.trans hputs).congr fun k => ?_
        rw [hremove.prop]
        by_cases hk : k = .index ix
        · simp [hk]
        · simp [hk]
      · rcases hend with ⟨hpost, htrunc⟩ | ⟨b, rest, p, rfl, hp, hpconf, htrunc⟩
        · exact .inl ⟨hpost, htrunc⟩
        · refine .inr ⟨b, rest, p, rfl, ?_, hpconf, htrunc⟩
          have hb : n ≤ b := hidx b (by simp)
          have hne : b ≠ ix := by
            rintro rfl
            exact hnot (by simp)
          rw [hlook b hb, if_neg hne] at hp
          exact hp

def cut {α : Type} (m : ℕ) (f : Key → Option α) : Key → Option α
  | .index i => if m ≤ i then none else f (.index i)
  | .name a => f (.name a)

theorem shrink_eq {n m : ℕ} {props : Key → Option (Property P)} {l : ℕ} (hn : n ≤ m) (hm : m ≤ l)
    (hconf : ∀ i, m ≤ i → i < l → (props (.index i)).any (!·.conf) = false)
    (hstop : n < m → (props (.index (m - 1))).any (!·.conf) = true)
    (hlt : ∀ i p, props (.index i) = some p → i < l) :
    shrink n l props = (m, cut m props) := by
  have hdone {f : Key → Option (Property P)} (hf : ∀ i, m ≤ i → f (.index i) = none) :
      cut m f = f := by
    funext k
    cases k with
    | name a => rfl
    | index i =>
      rw [cut]
      split_ifs with hi
      · exact (hf i hi).symm
      · rfl
  induction l generalizing props with
  | zero =>
    obtain rfl : m = 0 := by omega
    rw [shrink, hdone]
    intro i _
    cases hp : props (.index i) with
    | none => rfl
    | some p => exact absurd (hlt i p hp) (by omega)
  | succ l ih =>
    have hnone (hml : m = l + 1) (i : ℕ) (hi : m ≤ i) : props (.index i) = none := by
      cases hp : props (.index i) with
      | none => rfl
      | some p => exact absurd (hlt i p hp) (by omega)
    rw [shrink]
    by_cases hl : l < n
    · have hml : m = l + 1 := by omega
      rw [if_pos hl, hdone (hnone hml), hml]
    rw [if_neg hl]
    by_cases hml : m = l + 1
    · have hlast := hstop (by omega)
      rw [hml, Nat.add_sub_cancel] at hlast
      rw [if_pos hlast, hdone (hnone hml), hml]
    · have hlast := hconf l (by omega) (by omega)
      rw [if_neg (by simp [hlast]), ih (by omega) (fun i hi hil => ?_) (fun hnm => ?_)
        (fun i p hp => ?_)]
      · refine congrArg _ (funext fun k => ?_)
        cases k with
        | name a => rfl
        | index i =>
          rw [cut, cut]
          by_cases hi : m ≤ i
          · rw [if_pos hi, if_pos hi]
          · rw [if_neg hi, if_neg hi, Function.update_of_ne]
            intro hil
            injection hil with hil
            omega
      · rw [Function.update_of_ne (by simp; omega)]
        exact hconf i hi (by omega)
      · rw [Function.update_of_ne (by simp; omega)]
        exact hstop hnm
      · by_cases hil : i = l
        · rw [hil, Function.update_self] at hp
          exact nomatch hp
        · rw [Function.update_of_ne (by simpa using hil)] at hp
          have hil' := hlt i p hp
          omega

def State.taken (s : State P) (h n : ℕ) : Key → Option (Slot P × Attr)
  | .index i => if i < n then s.prop h (.index i) else s.look h (.index i)
  | .name a => s.prop h (.name a)

theorem take_puts (hs : Wf s) :
    Puts s (s.setobj h { s.objs h with elems := (s.objs h).elems.take n }) h (s.taken h n) := by
  have helem (i : ℕ) : ({ s.objs h with elems := (s.objs h).elems.take n } : Obj P).elem
      (.index i) = if i < n then (s.objs h).elem (.index i) else none := by
    cases hk : keyidx (.index i) with
    | none => rw [Obj.elem_none _ hk, Obj.elem_none _ hk, ite_self]
    | some j =>
      obtain ⟨hij, -⟩ := keyidx_eq hk
      injection hij with hij
      subst hij
      rw [Obj.elem_eq _ hk, Obj.elem_eq _ hk]
      split_ifs with hi
      · rw [List.getElem?_take_of_lt hi]
      · rw [List.getElem?_eq_none (by simp; omega)]
        rfl
  have hset := hs.setelems (h := h) (e := (s.objs h).elems.take n) (b := (s.objs h).idxprops)
    (Nat.le_trans (by simp) (hs.props h).size) id fun k w p hw hp => by
      cases k with
      | name a => cases (Obj.elem_none _ rfl).symm.trans hw
      | index i =>
        rw [helem i] at hw
        split_ifs at hw
        exact (hs.props h).stale _ w p hw hp
  refine hset.congr fun k => ?_
  cases k with
  | name a => rfl
  | index i =>
    rw [helem]
    by_cases hi : i < n
    · rw [if_pos hi]
      exact (if_pos hi).symm
    · rw [if_neg hi]
      exact (if_neg hi).symm

theorem keyindex_eq : keyindex k = some i ↔ k = .index i := by
  cases k <;> simp [keyindex]

def indices (ps : List (Key × Attr)) (n : ℕ) : List ℕ :=
  ((ps.filterMap fun p => keyindex p.1).filter (n ≤ ·)).insertionSort (· ≥ ·)

theorem mem_indices {ps : List (Key × Attr)} :
    i ∈ indices ps n ↔ n ≤ i ∧ .index i ∈ ps.map Prod.fst := by
  rw [indices, List.mem_insertionSort, List.mem_filter, List.mem_filterMap, List.mem_map, and_comm]
  simp only [keyindex_eq, decide_eq_true_eq]

theorem indices_nodup {ps : List (Key × Attr)} (hnodup : (ps.map Prod.fst).Nodup) :
    (indices ps n).Nodup := by
  rw [indices, (List.perm_insertionSort _ _).nodup_iff]
  refine List.Nodup.filter _ ?_
  have hmap : ps.filterMap (fun p => keyindex p.1) = (ps.map Prod.fst).filterMap keyindex := by
    rw [List.filterMap_map]
    rfl
  rw [hmap]
  refine hnodup.filterMap fun x y i hx hy => ?_
  rw [Option.mem_def, keyindex_eq] at hx hy
  rw [hx, hy]

theorem prop_conf {p : Slot P × Attr} (hp : s.prop h (.index i) = some p)
    (hlook : ∀ q, s.look h (.index i) = some q → q.2.conf = true) : p.2.conf = true := by
  rw [State.prop] at hp
  cases helem : (s.objs h).elem (.index i) with
  | some v =>
    rw [helem] at hp
    obtain rfl := Option.some.inj hp
    rfl
  | none =>
    rw [helem] at hp
    exact hlook p hp

theorem taken_cut {s₁ s₂ : State P} {m : ℕ} {pre : List ℕ} (htake : Puts s s₁ h (s.taken h n))
    (hputs : Puts s₁ s₂ h fun k => if k ∈ pre.map Key.index then none else s₁.prop h k)
    (hm : n ≤ m) (hmem : ∀ i ∈ pre, n ≤ i)
    (hup : ∀ i, m ≤ i → s.look h (.index i) ≠ none → i ∈ pre) (hdown : ∀ i ∈ pre, m ≤ i)
    (helem : ∀ i, n ≤ i → i < m → (s.objs h).elem (.index i) = none) :
    Puts s s₂ h (cut m (s.prop h)) := by
  refine (htake.trans hputs).congr fun k => ?_
  rw [htake.prop]
  cases k with
  | name a => simp [cut, State.taken]
  | index i =>
    rw [cut, State.taken]
    have hmap : Key.index i ∈ pre.map Key.index ↔ i ∈ pre := by simp
    simp only [hmap]
    by_cases hi : i < n
    · rw [if_neg (fun h => by have hni := hmem i h; omega), if_pos hi, if_neg (by omega)]
    rw [if_neg hi]
    by_cases him : m ≤ i
    · rw [if_pos him]
      split_ifs with hpi
      · rfl
      · by_contra hne
        exact hpi (hup i him hne)
    · rw [if_neg him, if_neg fun h => him (hdown i h), State.prop, helem i (by omega) (by omega)]

theorem truncate_puts (hs : Wf s) (hcuts : Cuts s h n) (hlt : n < (s.objs h).alen) :
    ∃ m s', Puts s s' h (cut m (s.prop h)) ∧
      truncate s h n = (decide (m = n), s'.setobj h { s'.objs h with alen := m }) ∧ n ≤ m ∧
      (∀ i p, m ≤ i → s.prop h (.index i) = some p → p.2.conf = true) ∧
      (n < m → ∃ p, s.prop h (.index (m - 1)) = some p ∧ p.2.conf = false) := by
  have hprops := hs.props h
  have htake := take_puts (h := h) (n := n) hs
  have hlook (k : Key) : (s.setobj h { s.objs h with elems := (s.objs h).elems.take n }).look h k =
      s.look h k := by
    simp [State.look]
  unfold truncate
  dsimp only
  rw [if_pos hlt]
  by_cases hidx : (s.objs h).idxprops = true
  swap
  · rw [if_neg hidx]
    have hidx : (s.objs h).idxprops = false := by simpa using hidx
    refine ⟨n, _, htake.congr fun k => ?_, by rw [decide_eq_true rfl], Nat.le_refl n,
      fun i p _ hp => ?_, fun hlt => absurd hlt (Nat.lt_irrefl n)⟩
    · cases k with
      | name a => rfl
      | index i =>
        rw [cut, State.taken]
        by_cases hi : i < n
        · rw [if_pos hi, if_neg (by omega)]
        · rw [if_neg hi, if_pos (by omega)]
          exact hprops.idx i hidx
    · exact prop_conf hp fun q hq => by rw [hprops.idx i hidx] at hq; cases hq
  rw [if_pos hidx]
  simp only [← indices.eq_1]
  have hshape : ((s.setobj h { s.objs h with elems := (s.objs h).elems.take n }).objs h).shape =
      (s.objs h).shape := by simp
  have helems : ((s.setobj h
      { s.objs h with elems := (s.objs h).elems.take n }).objs h).elems.length ≤ n := by simp
  generalize s.setobj h { s.objs h with elems := (s.objs h).elems.take n } = s₁ at *
  have hmem (i : ℕ) : i ∈ indices (s₁.shapes (s.objs h).shape).props n ↔
      n ≤ i ∧ s.look h (.index i) ≠ none := by
    rw [mem_indices, ← hlook, ← hshape, Ne, ← slotof_look htake.wf, slotof_eq_none, not_not]
  have hnodup := indices_nodup (n := n) (htake.wf.shapes.nodup _ (htake.wf.shapes.made h))
  rw [hshape] at hnodup
  have hsorted : (indices (s₁.shapes (s.objs h).shape).props n).Pairwise (· ≥ ·) :=
    List.pairwise_insertionSort _ _
  generalize indices (s₁.shapes (s.objs h).shape).props n = idx at *
  obtain ⟨pre, post, s₂, rfl, hpre, hputs, hend⟩ := truncloop_puts htake.wf helems
    (fun i hi => ((hmem i).mp hi).1) hnodup
  simp only [hlook] at hpre hend
  have hmemp (i : ℕ) (hi : i ∈ pre) : n ≤ i := ((hmem i).mp (by simp [hi])).1
  have hconf (m : ℕ) (hup : ∀ i, m ≤ i → s.look h (.index i) ≠ none → i ∈ pre) (i : ℕ)
      (p : Slot P × Attr) (hi : m ≤ i) (hp : s.prop h (.index i) = some p) : p.2.conf = true :=
    prop_conf hp fun q hq => hpre i (hup i hi (by simp [hq])) q hq
  rcases hend with ⟨rfl, htrunc⟩ | ⟨b, rest, p, rfl, hp, hpconf, htrunc⟩
  · have hup (i : ℕ) (hi : n ≤ i) (hne : s.look h (.index i) ≠ none) : i ∈ pre := by
      simpa using (hmem i).mpr ⟨hi, hne⟩
    refine ⟨n, s₂, taken_cut htake hputs (Nat.le_refl n) hmemp hup hmemp
      (fun i hi hin => by omega), ?_, Nat.le_refl n, hconf n hup,
      fun hlt => absurd hlt (Nat.lt_irrefl n)⟩
    rw [htrunc, decide_eq_true rfl]
  · have hnb : n ≤ b := ((hmem b).mp (by simp)).1
    obtain ⟨-, hrest, habove⟩ := List.pairwise_append.mp hsorted
    obtain ⟨-, -, hdisjoint⟩ := List.nodup_append.mp hnodup
    have hup (i : ℕ) (hi : b + 1 ≤ i) (hne : s.look h (.index i) ≠ none) : i ∈ pre := by
      have hi' := (hmem i).mpr ⟨by omega, hne⟩
      rcases List.mem_append.mp hi' with hpi | hpost
      · exact hpi
      · rcases List.mem_cons.mp hpost with rfl | hr
        · omega
        · have hbi := (List.pairwise_cons.mp hrest).1 i hr
          omega
    have hdown (i : ℕ) (hi : i ∈ pre) : b + 1 ≤ i := by
      have hge := habove i hi b (by simp)
      have hne := hdisjoint i hi b (by simp)
      omega
    have helemb : (s.objs h).elem (.index b) = none := by
      by_contra hne
      obtain ⟨v, hv⟩ := Option.ne_none_iff_exists'.mp hne
      rw [hprops.stale _ v p hv hp] at hpconf
      cases hpconf
    have hpropb : s.prop h (.index b) = some p := by rw [State.prop, helemb, hp]
    refine ⟨b + 1, s₂, taken_cut htake hputs (by omega) hmemp hup hdown (fun i hi hib => ?_), ?_,
      by omega, hconf (b + 1) hup, fun _ => ⟨p, hpropb, hpconf⟩⟩
    · by_cases hieq : i = b
      · rw [hieq, helemb]
      · exact hcuts b p hpropb hpconf i hi (by omega)
    · rw [htrunc, decide_eq_false (by omega)]

theorem cut_abs {m : ℕ} (hs : Wf s) (hp : Puts s s' h (cut m (s.prop h))) :
    s'.abs = Function.update s.abs h { s.abs h with props := cut m (s.abs h).props } := by
  rw [hp.abs_eq hs]
  refine congrArg (fun f => Function.update s.abs h { s.abs h with props := f })
    (funext fun k => ?_)
  cases k with
  | name a => rw [cut, cut, hs.abs_props]
  | index i =>
    rw [cut, cut, lengthprop_none (k := .index i) fun _ => nofun, Option.or_none]
    split_ifs
    · rfl
    · rw [hs.abs_props, lengthprop_none (k := .index i) fun _ => nofun, Option.or_none]

theorem cut_update {α : Type} {m : ℕ} {f : Key → Option α} {x : Option α} :
    cut m (Function.update f alength x) = Function.update (cut m f) alength x := by
  funext k
  by_cases hk : k = alength
  · rw [hk, Function.update_self]
    exact Function.update_self alength x f
  · rw [Function.update_of_ne hk]
    cases k with
    | name a => exact Function.update_of_ne hk x f
    | index i => rw [cut, cut, Function.update_of_ne hk]

theorem shrink_abs {m : ℕ} {x : Option (Property P)} (hs : Wf s) (hl : Lens s)
    (hkind : (s.objs h).kind = .array) (hlt : n < (s.objs h).alen) (hm : n ≤ m)
    (hconf : ∀ i p, m ≤ i → s.prop h (.index i) = some p → p.2.conf = true)
    (hstop : n < m → ∃ p, s.prop h (.index (m - 1)) = some p ∧ p.2.conf = false) :
    shrink n (s.objs h).alen (Function.update (s.abs h).props alength x) =
      (m, Function.update (cut m (s.abs h).props) alength x) := by
  have hprops (i : ℕ) : Function.update (s.abs h).props alength x (.index i) =
      (s.prop h (.index i)).map toProperty := by
    have hne : Key.index i ≠ alength := nofun
    rw [Function.update_of_ne hne, hs.abs_props, lengthprop_none (k := .index i) fun _ => nofun,
      Option.or_none]
  have hle : m ≤ (s.objs h).alen := by
    by_cases hnm : n < m
    · obtain ⟨p, hp, -⟩ := hstop hnm
      have hlast := hl h hkind _ p hp
      omega
    · omega
  rw [shrink_eq hm hle (fun i hi _ => ?_) (fun hnm => ?_) (fun i p hp => ?_), cut_update]
  · rw [hprops]
    cases hp : s.prop h (.index i) with
    | none => rfl
    | some p => simp [toProperty_conf, hconf i p hi hp]
  · obtain ⟨p, hp, hc⟩ := hstop hnm
    rw [hprops, hp]
    simp [toProperty_conf, hc]
  · rw [hprops] at hp
    obtain ⟨q, hq, -⟩ := Option.map_eq_some_iff.mp hp
    exact hl h hkind i q hq

variable [DecidableEq P] {d : Desc P} {len : Tolen P}

theorem getD_and {x : Option Bool} {w : Bool} (h : w = true ∨ x ≠ some true) :
    x.getD w = (x.getD true && w) := by
  rcases x with _ | _ | _ <;> cases w <;> simp at h ⊢

omit [DecidableEq P] in
theorem setlenro_made (hs : Wf s) (hl : Lens s) (hkind : (s.objs h).kind = .array) :
    Made (setlenro s h d) (Function.update s.abs h { s.abs h with
      props := Function.update (s.abs h).props alength (some (.data (.num (s.objs h).alen)
        (d.write.getD true && !(s.objs h).lenro) false false)) }) := by
  rw [setlenro]
  by_cases hw : d.write = some false
  · rw [if_pos hw, hw]
    obtain ⟨hwf, -, habs⟩ := hs.setalen (n := (s.objs h).alen) (b := true) hkind
    exact ⟨hwf, setalen_lens hs hkind (fun h' _ hk => hl h' hk) (hl h hkind), habs⟩
  · have hw' : d.write.getD true = true := by
      rcases hd : d.write with _ | _ | _
      · rfl
      · exact absurd hd hw
      · rfl
    rw [if_neg hw, hw', Bool.true_and, ← abs_length hs hkind, Function.update_eq_self]
    exact Made.refl hs hl

omit [DecidableEq P] in
theorem setlen_made (hs : Wf s) (hl : ∀ h' ≠ h, (s.objs h').kind = .array → ∀ i p,
      s.prop h' (.index i) = some p → i < (s.objs h').alen)
    (hkind : (s.objs h).kind = .array) (hlt : ∀ i p, s.prop h (.index i) = some p → i < n) :
    Made (setlenro (s.setobj h { s.objs h with alen := n }) h d)
      (Function.update s.abs h { s.abs h with
        props := Function.update (s.abs h).props alength (some (.data (.num n)
          (d.write.getD true && !(s.objs h).lenro) false false)) }) := by
  obtain ⟨hwf, -, habs⟩ := hs.setalen (n := n) (b := (s.objs h).lenro) hkind
  have hlens := setalen_lens (b := (s.objs h).lenro) hs hkind hl hlt
  have hmade := setlenro_made (d := d) hwf hlens (h := h) (by simpa using hkind)
  refine ⟨hmade.wf, hmade.lens, hmade.abs.trans ?_⟩
  rw [habs]
  simp

def Shortens (len : Tolen P) (s : State P) (h n : ℕ) (d : Desc P) : Prop :=
  ∃ v, d.value = some v ∧ len.val v = some n ∧ n < (s.objs h).alen ∧ (s.objs h).lenro = false ∧
    d.conf ≠ some true ∧ d.enum ≠ some true

section

variable {x : V P}

omit [DecidableEq P] in
theorem allows_iff (w : Bool) : Allows n w d ↔
    ¬ (d.conf = some true ∨ d.enum = some true ∨ d.isacc = true) ∧
      (w = true ∨ d.write ≠ some true ∧ ∀ v, d.value = some v → v = .num n) := by
  rw [Allows]
  simp [and_assoc]

omit [DecidableEq P] in
theorem allows_lendesc (hvalue : d.value = some x) (m : ℕ) (b : Option Bool) (w : Bool) :
    Allows m w (lendesc d n b) ↔
      ¬ (d.conf = some true ∨ d.enum = some true ∨ d.isacc = true) ∧
        (w = true ∨ b ≠ some true ∧ n = m) := by
  have hacc : d.isacc = false := by
    rcases d.one with ⟨hv, -⟩ | ⟨hg, ht⟩
    · rw [hv] at hvalue
      exact nomatch hvalue
    · simp [Desc.isacc, hg, ht]
  rw [allows_iff, hacc]
  simp [lendesc, Desc.isacc]

variable (hs : Wf s) (hl : Lens s) (hkind : (s.objs h).kind = .array)

include hs hl hkind

theorem arraysetlength_none (hvalue : d.value = none) :
    Matches (arraysetlength len s h d) (after s.abs h (arraySetLength len (s.abs h) d)) := by
  have hdefine := define_length (d := d) (abs_length hs hkind)
  unfold arraysetlength arraySetLength
  simp only [hvalue]
  by_cases hrefused : d.conf = some true ∨ d.enum = some true ∨ d.isacc = true
  · rw [if_pos hrefused, hdefine.2 fun h => ((allows_iff _).mp h).1 hrefused]
    exact ⟨rfl, Made.refl hs hl⟩
  rw [if_neg hrefused]
  by_cases hro : d.write = some true ∧ (s.objs h).lenro = true
  · have hnot : ¬ Allows (s.objs h).alen (!(s.objs h).lenro) d := by
      rintro ⟨-, -, -, hw | hw⟩
      · simp [hro.2] at hw
      · exact hw.1 hro.1
    rw [if_pos hro, hdefine.2 hnot]
    exact ⟨rfl, Made.refl hs hl⟩
  · have hw : (!(s.objs h).lenro) = true ∨ d.write ≠ some true := by
      by_cases hw : d.write = some true
      · exact .inl (by simpa [hw] using hro)
      · exact .inr hw
    have hallows : Allows (s.objs h).alen (!(s.objs h).lenro) d :=
      (allows_iff _).mpr ⟨hrefused, hw.imp_right fun hw => ⟨hw, by simp [hvalue]⟩⟩
    rw [if_neg hro, hdefine.1 hallows, hvalue, getD_and hw]
    exact ⟨rfl, setlenro_made (d := d) hs hl hkind⟩

theorem arraysetlength_refused (hvalue : d.value = some x) (hval : len.val x = some n)
    (hrefused : d.conf = some true ∨ d.enum = some true ∨ d.isacc = true) :
    Matches (arraysetlength len s h d) (after s.abs h (arraySetLength len (s.abs h) d)) := by
  have hnot (b : Option Bool) := (define_length (d := lendesc d n b) (abs_length hs hkind)).2
    fun h => ((allows_lendesc hvalue _ b _).mp h).1 hrefused
  unfold arraysetlength arraySetLength
  simp only [hvalue, hval]
  rw [if_pos hrefused, Object.length, abs_length hs hkind]
  dsimp only
  split_ifs with hle hw hwrite
  · rw [hnot]
    exact ⟨rfl, Made.refl hs hl⟩
  · exact ⟨rfl, Made.refl hs hl⟩
  · rw [hnot]
    exact ⟨rfl, Made.refl hs hl⟩
  · rw [hnot]
    exact ⟨rfl, Made.refl hs hl⟩

theorem arraysetlength_longer (hvalue : d.value = some x) (hval : len.val x = some n)
    (hrefused : ¬ (d.conf = some true ∨ d.enum = some true ∨ d.isacc = true))
    (hle : (s.objs h).alen ≤ n) :
    Matches (arraysetlength len s h d) (after s.abs h (arraySetLength len (s.abs h) d)) := by
  have hdefine := define_length (d := lendesc d n d.write) (abs_length hs hkind)
  have hallow := allows_lendesc (n := n) hvalue (s.objs h).alen d.write (!(s.objs h).lenro)
  unfold arraysetlength arraySetLength
  simp only [hvalue, hval]
  rw [if_neg hrefused, Object.length, abs_length hs hkind]
  dsimp only
  rw [if_pos hle]
  have hdone (hw : (!(s.objs h).lenro) = true ∨ d.write ≠ some true ∧ n = (s.objs h).alen) :
      ordinaryDefine (s.abs h) alength (lendesc d n d.write) = (true, { s.abs h with
        props := Function.update (s.abs h).props alength (some (.data (.num n)
          (d.write.getD true && !(s.objs h).lenro) false false)) }) := by
    rw [hdefine.1 (hallow.mpr ⟨hrefused, hw⟩), ← getD_and (hw.imp_right And.left)]
    rfl
  have hnot (hw : ¬ ((!(s.objs h).lenro) = true ∨
      d.write ≠ some true ∧ n = (s.objs h).alen)) :
      ordinaryDefine (s.abs h) alength (lendesc d n d.write) = (false, s.abs h) :=
    hdefine.2 fun h => hw (hallow.mp h).2
  by_cases heq : n = (s.objs h).alen
  · rw [if_pos heq]
    by_cases hro : (s.objs h).lenro = true ∧ d.write = some true
    · rw [if_pos hro, hnot (by simp [hro])]
      exact ⟨rfl, Made.refl hs hl⟩
    · rw [if_neg hro, hdone (by simpa [heq, imp_iff_not_or] using hro), heq]
      exact ⟨rfl, setlenro_made (d := d) hs hl hkind⟩
  · rw [if_neg heq]
    by_cases hro : (s.objs h).lenro = true
    · rw [if_pos hro, hnot (by simp [hro, heq])]
      exact ⟨rfl, Made.refl hs hl⟩
    · have htrunc : truncate s h n = (true, s.setobj h { s.objs h with alen := n }) := by
        rw [truncate, if_neg (by omega)]
      rw [if_neg hro, hdone (by simp [hro]), htrunc]
      refine ⟨rfl, setlen_made hs (fun h' _ hk => hl h' hk) hkind fun i p hp => ?_⟩
      have hlt := hl h hkind i p hp
      omega

theorem arraysetlength_shorter (hvalue : d.value = some x) (hval : len.val x = some n)
    (hrefused : ¬ (d.conf = some true ∨ d.enum = some true ∨ d.isacc = true))
    (hlt : n < (s.objs h).alen) (hro : (s.objs h).lenro = false) (hcuts : Cuts s h n) :
    Matches (arraysetlength len s h d) (after s.abs h (arraySetLength len (s.abs h) d)) := by
  obtain ⟨m, s₂, hp, htrunc, hm, hconf, hstop⟩ := truncate_puts hs hcuts hlt
  unfold arraysetlength arraySetLength
  simp only [hvalue, hval]
  rw [if_neg hrefused, Object.length, abs_length hs hkind]
  dsimp only
  rw [if_neg (by omega : ¬ n = (s.objs h).alen), if_neg (by omega : ¬ (s.objs h).alen ≤ n),
    if_neg (by simp [hro]), if_neg (by simp [hro])]
  have hfree (o : Object P) (n' : ℕ) (w : Option Bool)
      (ho : o.props alength = some (.data (.num n) true false false)) :
      ordinaryDefine o alength (lendesc d n' w) = (true, { o with
        props := Function.update o.props alength
          (some (.data (.num n') (w.getD true) false false)) }) := by
    simp only [not_or] at hrefused
    exact (define_length ho).1 ⟨hrefused.1, hrefused.2.1, rfl, .inl rfl⟩
  -- writable until the elements are deleted
  have hfirst : ordinaryDefine (s.abs h) alength
      (lendesc d n (if d.write = some false then some true else d.write)) =
      (true, { s.abs h with
        props := Function.update (s.abs h).props alength
          (some (.data (.num n) true false false)) }) := by
    have hw : (if d.write = some false then some true else d.write).getD
        (!(s.objs h).lenro) = true := by
      rw [hro]
      rcases d.write with _ | _ | _ <;> rfl
    rw [(define_length (abs_length hs hkind)).1
      ((allows_lendesc hvalue _ _ _).mpr ⟨hrefused, .inl (by simp [hro])⟩)]
    simp only [lendesc, Option.getD_some, hw]
  rw [hfirst, htrunc]
  dsimp only
  rw [shrink_abs hs hl hkind hlt hm hconf hstop]
  dsimp only
  have hresult : Made (setlenro (s₂.setobj h { s₂.objs h with alen := m }) h d)
      (Function.update s.abs h { s.abs h with
        props := Function.update (cut m (s.abs h).props) alength
          (some (.data (.num m) (d.write.getD true) false false)) }) := by
    obtain ⟨_, _, _, _, hobj⟩ := hp.obj
    have hmade := setlen_made (n := m) (d := d) hp.wf (h := h)
      (fun h' hh hk i q hq => ?_) (by rw [hobj, hkind]) fun i q hq => ?_
    · refine ⟨hmade.wf, hmade.lens, hmade.abs.trans ?_⟩
      rw [cut_abs hs hp, hobj, hro]
      simp
    · obtain ⟨hobj', hlook'⟩ := hp.others h' hh
      rw [State.prop, hobj', hlook'] at hq
      rw [hobj'] at hk ⊢
      exact hl h' hk i q hq
    · rw [hp.prop, cut] at hq
      split_ifs at hq with hi
      omega
  have hans : ∀ {r : Ans P × Object P}, r = (.ret (decide (m = n)), { s.abs h with
      props := Function.update (cut m (s.abs h).props) alength
        (some (.data (.num m) (d.write.getD true) false false)) }) →
      Matches (.ret (decide (m = n)), setlenro
        (s₂.setobj h { s₂.objs h with alen := m }) h d) (after s.abs h r) := by
    rintro r rfl
    exact ⟨rfl, hresult⟩
  refine hans ?_
  have ho : Function.update (cut m (s.abs h).props) alength
      (some (.data (.num n) true false false)) alength =
      some (.data (.num n) true false false : Property P) := Function.update_self _ _ _
  by_cases hnm : n < m
  · rw [if_pos hnm, hfree _ m d.write ho, decide_eq_false (by omega)]
    simp only [Function.update_idem]
  · have hmn : m = n := by omega
    rw [hmn] at ho
    rw [if_neg hnm, decide_eq_true hmn, hmn]
    by_cases hw : d.write = some false
    · rw [if_pos hw, hfree _ n (some false) ho, hw]
      simp only [Function.update_idem, Option.getD_some]
    · have hw' : d.write.getD true = true := by
        rcases hd : d.write with _ | _ | _
        · rfl
        · exact absurd hd hw
        · rfl
      rw [if_neg hw, hw']

theorem arraysetlength_made (hcuts : ∀ n, Shortens len s h n d → Cuts s h n) :
    Matches (arraysetlength len s h d) (after s.abs h (arraySetLength len (s.abs h) d)) := by
  cases hvalue : d.value with
  | none => exact arraysetlength_none hs hl hkind hvalue
  | some v =>
    cases hval : len.val v with
    | none =>
      unfold arraysetlength arraySetLength
      simp only [hvalue, hval]
      exact ⟨rfl, Made.refl hs hl⟩
    | some n =>
      by_cases hrefused : d.conf = some true ∨ d.enum = some true ∨ d.isacc = true
      · exact arraysetlength_refused hs hl hkind hvalue hval hrefused
      by_cases hle : (s.objs h).alen ≤ n
      · exact arraysetlength_longer hs hl hkind hvalue hval hrefused hle
      cases hro : (s.objs h).lenro with
      | true =>
        unfold arraysetlength arraySetLength
        simp only [hvalue, hval]
        rw [if_neg hrefused, if_neg (by omega : ¬ n = (s.objs h).alen), if_pos hro, Object.length,
          abs_length hs hkind]
        dsimp only
        rw [if_neg hle, if_pos (by simp [hro])]
        exact ⟨rfl, Made.refl hs hl⟩
      | false =>
        have hshort : Shortens len s h n d := by
          simp only [not_or] at hrefused
          exact ⟨v, hvalue, hval, by omega, hro, hrefused.1, hrefused.2.1⟩
        exact arraysetlength_shorter hs hl hkind hvalue hval hrefused (by omega) hro
          (hcuts n hshort)

end

end Infernode.Js
