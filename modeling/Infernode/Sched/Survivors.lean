import Infernode.Sched.Kept

/-!
# Who survives a kill

The kills of groups in a run: which Progs each has yet to see to, and what the others may do
meanwhile. A target that has left the groups of its kill is not flagged, and what it makes then
is not in the list.
-/

namespace Infernode.Sched

variable {vm vm' : Vm} {s s' : State} {T : Task} {p i : ℕ} {P P' : Prog}

instance : Decidable (vm.gone p) :=
  decidable_of_iff ((vm.prog p).all fun P => P.killed || P.state.isExiting)
    (by simp [Vm.gone, Option.all_eq_true])

def Task.waits (T : Task) (vm : Vm) (t : ℕ) : Prop :=
  t ∈ T.targets ∧ T.self ≠ some t ∧ ¬ vm.gone t

instance : DecidablePred (T.waits vm) := fun _ => inferInstanceAs (Decidable (_ ∧ _ ∧ _))

def Task.waiting (T : Task) (vm : Vm) : Finset ℕ := T.targets.toFinset.filter (T.waits vm)

/-- A list still has them; the loop with no memory has rounds for them, and finds them in the
group, where one that waits leaves them. -/
def Task.Sound (T : Task) (vm : Vm) : Prop :=
  match T.kind with
  | .low n => (T.waiting vm).card ≤ n ∧ T.gids.headD 0 ∈ T.gids ∧ ∀ t, T.waits vm t →
      ∃ P, vm.prog t = some P ∧ P.group = T.gids.headD 0 ∧ P.state ≠ .broken
  | .wait _ gid _ => T.gids = [] ∧ T.rest = [] ∧ ∀ t, T.waits vm t →
      ∃ P, vm.prog t = some P ∧ P.group = gid
  | _ => ∀ t, T.waits vm t → t ∈ T.rest

structure State.Kills (s : State) : Prop where
  once : s.Stacks
  flagged : ∀ i T g G, s.task i = some T → g ∈ T.gids → s.vm.grp g = some G → G.killed = true
  flags : ∀ g G, s.vm.grp g = some G → G.killed = true → ∃ i T, s.task i = some T ∧ g ∈ T.gids
  alone : ∀ i j T U g, s.task i = some T → s.task j = some U → g ∈ T.gids → g ∈ U.gids → i = j
  known : ∀ i T g, s.task i = some T → g ∈ T.gids → s.vm.known g
  among : ∀ i T q Q, s.task i = some T → s.vm.prog q = some Q → Q.group ∈ T.gids → q ∈ T.pids
  bound : ∀ i T t, s.task i = some T → t ∈ T.targets → t ≤ s.vm.pidnum
  sound : ∀ i T, s.task i = some T → T.Sound s.vm

theorem not_gone : ¬ vm.gone p ↔
    ∃ P, vm.prog p = some P ∧ P.killed = false ∧ P.state.isExiting = false := by
  simp [Vm.gone]

def Vm.Keeps (R : Prog → Prog → Prop) (vm vm' : Vm) (t : ℕ) : Prop :=
  ∀ P P', vm.prog t = some P → vm'.prog t = some P' → vm'.gone t ∨ R P P'

def Prog.Remains (P P' : Prog) : Prop := P'.group = P.group

def Prog.Unbroken (P P' : Prog) : Prop := P'.state = .broken → P.state = .broken

def Prog.Stays (P P' : Prog) : Prop := P.Remains P' ∧ P.Unbroken P'

theorem Vm.Keeps.mono {R R' : Prog → Prog → Prop} {t : ℕ} (h : Vm.Keeps R vm vm' t)
    (hR : ∀ P P', R P P' → R' P P') : Vm.Keeps R' vm vm' t :=
  fun P P' hP hP' => (h P P' hP hP').imp_right (hR P P')

theorem Vm.Keeps.same {R : Prog → Prog → Prop} {t : ℕ} (h : vm'.prog t = vm.prog t)
    (hR : ∀ P, R P P) : Vm.Keeps R vm vm' t := by
  intro P P' hP hP'
  obtain rfl := Option.some.inj (hP.symm.trans (h.symm.trans hP'))
  exact .inr (hR P)

theorem Prog.Stays.refl (P : Prog) : P.Stays P := ⟨rfl, id⟩

theorem Vm.Keeps.put {R : Prog → Prog → Prop} {t : ℕ} (hP : vm.prog p = some P)
    (hR : ∀ P, R P P) (h : t = p → P'.killed = true ∨ P'.state.isExiting = true ∨ R P P') :
    Vm.Keeps R vm (vm.put p P') t := by
  by_cases ht : t = p
  · intro Q Q' hQ hQ'
    subst ht
    obtain rfl := Option.some.inj (hP.symm.trans hQ)
    obtain rfl := Option.some.inj (put_self.symm.trans hQ')
    rcases h rfl with hk | hx | hstay
    · refine .inl fun S hS => ?_
      obtain rfl := Option.some.inj (put_self.symm.trans hS)
      exact .inl hk
    · refine .inl fun S hS => ?_
      obtain rfl := Option.some.inj (put_self.symm.trans hS)
      exact .inr hx
    · exact .inr hstay
  · exact .same (put_other ht) hR

theorem Task.waits.kept {t : ℕ} (hk : vm.Kept vm') (hb : ∀ t ∈ T.targets, t ≤ vm.pidnum)
    (h : T.waits vm' t) : T.waits vm t :=
  ⟨h.1, h.2.1, fun hgone => h.2.2 (hk.gone t (hb t h.1) hgone)⟩

theorem mem_waiting {t : ℕ} : t ∈ T.waiting vm ↔ T.waits vm t := by
  rw [Task.waiting, Finset.mem_filter, List.mem_toFinset, and_iff_right_iff_imp]
  exact fun ht => ht.1

theorem Task.waiting_kept (hk : vm.Kept vm') (hb : ∀ t ∈ T.targets, t ≤ vm.pidnum) :
    T.waiting vm' ⊆ T.waiting vm :=
  fun _ ht => mem_waiting.mpr ((mem_waiting.mp ht).kept hk hb)

def Kind.pins : Kind → Bool
  | .low _ | .wait .. => true
  | _ => false

theorem Task.Sound.kept (h : T.Sound vm) (hk : vm.Kept vm')
    (hb : ∀ t ∈ T.targets, t ≤ vm.pidnum)
    (hremain : T.kind.pins = true → ∀ t ∈ T.targets, T.self ≠ some t →
      Vm.Keeps Prog.Remains vm vm' t)
    (hunbroken : ∀ n, T.kind = .low n → ∀ t ∈ T.targets, T.self ≠ some t →
      Vm.Keeps Prog.Unbroken vm vm' t) :
    T.Sound vm' := by
  rw [Task.Sound] at h ⊢
  split at h
  next n hkind =>
    obtain ⟨hcard, hgid, hfind⟩ := h
    refine ⟨(Finset.card_le_card (Task.waiting_kept hk hb)).trans hcard, hgid, fun t ht => ?_⟩
    obtain ⟨P, hP, hg, hb⟩ := hfind t (ht.kept hk hb)
    obtain ⟨P', hP', -⟩ := not_gone.mp ht.2.2
    have hpins : T.kind.pins = true := by rw [hkind]; rfl
    have hsame := (hremain hpins t ht.1 ht.2.1 P P' hP hP').resolve_left ht.2.2
    have hstay := (hunbroken n hkind t ht.1 ht.2.1 P P' hP hP').resolve_left ht.2.2
    exact ⟨P', hP', hsame.trans hg, fun hb' => hb (hstay hb')⟩
  next hkind =>
    obtain ⟨hgids, hrest, hfind⟩ := h
    refine ⟨hgids, hrest, fun t ht => ?_⟩
    obtain ⟨P, hP, hg⟩ := hfind t (ht.kept hk hb)
    obtain ⟨P', hP', -⟩ := not_gone.mp ht.2.2
    have hpins : T.kind.pins = true := by rw [hkind]; rfl
    have hsame := (hremain hpins t ht.1 ht.2.1 P P' hP hP').resolve_left ht.2.2
    exact ⟨P', hP', hsame.trans hg⟩
  next => exact fun t ht => h t (ht.kept hk hb)

theorem Task.Sound.finished (h : T.Sound vm) (hfin : T.finished = true) (t : ℕ) :
    ¬ T.waits vm t := by
  intro ht
  simp only [Task.finished, Bool.and_eq_true, decide_eq_true_eq] at hfin
  obtain ⟨-, hfin⟩ := hfin
  rw [Task.Sound] at h
  split at h
  next n hkind =>
    simp only [hkind, decide_eq_true_eq] at hfin
    have hnil := Finset.card_eq_zero.mp (Nat.le_zero.mp (hfin ▸ h.1))
    have hmem := mem_waiting.mpr ht
    rw [hnil] at hmem
    exact absurd hmem (Finset.notMem_empty t)
  next hkind => simp [hkind] at hfin
  next hlow hwait =>
    have hrest : T.rest = [] := by
      cases hk : T.kind <;> simp_all
    have hmem := h t ht
    rw [hrest] at hmem
    cases hmem

/-- The threads are in the kills that they were in, or in none of a group. -/
structure State.From (s s' : State) : Prop where
  back : ∀ i T', s'.task i = some T' → (T'.gids = [] ∧ T'.pids = []) ∨
    ∃ T, s.task i = some T ∧ T'.gids = T.gids ∧ T'.pids = T.pids
  forth : ∀ i T, s.task i = some T → ∃ T', s'.task i = some T' ∧ T'.gids = T.gids

theorem State.Kills.kept (h : s.Kills) (hstacks : s'.Stacks) (hk : s.vm.Kept s'.vm)
    (hfrom : s.From s')
    (hbound : ∀ i T' t, s'.task i = some T' → t ∈ T'.targets → t ≤ s'.vm.pidnum)
    (hsound : ∀ i T', s'.task i = some T' → T'.Sound s'.vm) : s'.Kills where
  once := hstacks
  flagged i T' g G' hT' hg hG' := by
    rcases hfrom.back i T' hT' with ⟨hnil, -⟩ | ⟨T, hT, hgids, -⟩
    · rw [hnil] at hg
      cases hg
    · rw [hgids] at hg
      obtain ⟨G, hG, heq⟩ := hk.flags g G' hG' (h.known i T g hT hg)
      exact heq.trans (h.flagged i T g G hT hg hG)
  flags g G' hG' hkilled := by
    by_cases hknown : s.vm.known g
    · obtain ⟨G, hG, heq⟩ := hk.flags g G' hG' hknown
      obtain ⟨i, T, hT, hg⟩ := h.flags g G hG (heq.symm.trans hkilled)
      obtain ⟨T', hT', hgids⟩ := hfrom.forth i T hT
      exact ⟨i, T', hT', hgids ▸ hg⟩
    · rw [hk.fresh g G' hG' hknown] at hkilled
      cases hkilled
  alone i j T' U' g hT' hU' hg hg' := by
    rcases hfrom.back i T' hT' with ⟨hnil, -⟩ | ⟨T, hT, hgids, -⟩
    · rw [hnil] at hg
      cases hg
    · rcases hfrom.back j U' hU' with ⟨hnil, -⟩ | ⟨U, hU, hgids', -⟩
      · rw [hnil] at hg'
        cases hg'
      · exact h.alone i j T U g hT hU (hgids ▸ hg) (hgids' ▸ hg')
  known i T' g hT' hg := by
    rcases hfrom.back i T' hT' with ⟨hnil, -⟩ | ⟨T, hT, hgids, -⟩
    · rw [hnil] at hg
      cases hg
    · exact hk.known g (h.known i T g hT (hgids ▸ hg))
  among i T' q Q' hT' hQ' hg := by
    rcases hfrom.back i T' hT' with ⟨hnil, -⟩ | ⟨T, hT, hgids, hpids⟩
    · rw [hnil] at hg
      cases hg
    · rw [hgids] at hg
      have hknown := h.known i T Q'.group hT hg
      rw [hpids]
      rcases hk.member q Q' hQ' hknown with ⟨Q, hQ, heq⟩ | hclear
      · exact h.among i T q Q hT hQ (heq ▸ hg)
      · -- the group has `q`, so it is there, and flagged
        obtain ⟨G', hG'⟩ := hstacks.whole.grpof hQ'
        obtain ⟨G, hG, -⟩ := hk.flags Q'.group G' hG' hknown
        have hflag := h.flagged i T Q'.group G hT hg hG
        rw [hclear G hG] at hflag
        cases hflag
  bound := hbound
  sound := hsound

end Infernode.Sched
