import Infernode.Sched.Survivors

/-!
# Kills that leave no survivor

The events that a kill of a group withstands, and what holds in every state of a run of them.
-/

namespace Infernode.Sched

variable {vm vm' : Vm} {s s' : State} {T : Task} {p f i t : ℕ} {P P' : Prog}

def State.lowtarget (s : State) (p : ℕ) : Prop :=
  ∃ i T n, s.task i = some T ∧ T.kind = .low n ∧ p ∈ T.targets ∧ T.self ≠ some p

def State.pinned (s : State) (p : ℕ) : Prop :=
  ∃ i T, s.task i = some T ∧ T.kind.pins = true ∧ p ∈ T.targets ∧ T.self ≠ some p

def State.taken (s : State) (T : Task) : Option ℕ :=
  match T.kind with
  | .low 0 => none
  | .low _ => s.vm.first T
  | _ => T.rest.head?.filter (T.self ≠ some ·)

def State.unbroken (s : State) (gid : ℕ) (mem : Bool) : Prop :=
  (s.vm.grp gid).any (·.killed) = true ∨ mem = true ∨
    ∀ p P, s.vm.prog p = some P → P.group = gid → P.state = .broken → P.killed = true

/-- What a Prog that is to be killed, and is not yet, must not do meanwhile: leave its groups and
then make another, leave a group that it is looked for in, or be left broken. A kill of a tree
does not begin while another is on in it, and one that waited finds its `p`. -/
def State.Ok (s : State) : Event → Prop
  | .newprog p => s.vm.runs p = true → ∀ i T P, s.task i = some T → p ∈ T.targets →
      s.vm.prog p = some P → P.group ∈ T.gids ∨ P.kill = true ∨ P.killed = true ∨
        ∃ q gid mem, T.kind = .wait q gid mem ∧ P.group = gid
  | .newgrp p => s.vm.runs p = true → ∀ P, s.vm.prog p = some P → s.pinned p →
      P.group = p ∨ P.killed = true
  | .exit _ p broken => ∀ P, s.vm.prog p = some P → s.lowtarget p →
      P.killed = true ∨ (P.debug || broken) = false
  | .killgrp _ _ _ gid mem => s.unbroken gid mem
  | .retry i => ∀ T p gid mem, s.task i = some T → T.kind = .wait p gid mem →
      if s.vm.within gid p then s.unbroken gid mem
      else ∀ q, s.vm.within gid q = true → T.self = some q ∨ s.vm.gone q
  | .killgrptree _ _ p _ => ∀ f F G, f ∈ s.vm.tree p → s.vm.prog f = some F →
      s.vm.grp F.group = some G → G.killed = false
  | .next i runhd => ∀ T f P, s.task i = some T → s.taken T = some f → s.vm.prog f = some P →
      P.breaks runhd = true → P.killed = true ∨ (f ∉ T.targets ∧ ¬ s.lowtarget f)
  | .propex _ f runhd => ∀ P, s.vm.prog f = some P → P.breaks runhd = true →
      P.killed = true ∨ ¬ s.lowtarget f
  | _ => True

theorem stays_call (self : Option ℕ) (b : Bool) : Vm.Keeps Prog.Stays vm (vm.call self b) t := by
  cases self with
  | none => exact .same rfl .refl
  | some p =>
    rw [Vm.call]
    cases hP : vm.prog p with
    | none => exact .same rfl .refl
    | some P => exact .put hP .refl fun _ => .inr (.inr ⟨rfl, id⟩)

theorem stays_change (p : ℕ) (state : PState) (addrun debug kill : Bool) :
    Vm.Keeps Prog.Stays vm (vm.change p state addrun debug kill) t := by
  rcases change_cases vm p state addrun debug kill with heq | ⟨P, P', hP, heq, hg, -, -, hstill⟩
  · rw [heq]
    exact .same rfl .refl
  · rw [heq]
    refine .put hP .refl fun _ => .inr (.inr ⟨hg, fun hb => ?_⟩)
    rw [hb] at hstill
    cases hstill

theorem remains_killprog (runhd : Bool) :
    Vm.Keeps Prog.Remains vm (vm.killprog f runhd).1 t := by
  cases hP : vm.prog f with
  | none =>
    rw [Vm.killprog, hP]
    exact .same rfl fun _ => rfl
  | some P =>
    rcases killprog_cases hP runhd with ⟨-, heq⟩ | ⟨P', go, hd, heq⟩
    · rw [heq]
      exact .same rfl fun _ => rfl
    · rw [heq]
      exact .put hP (fun _ => rfl) fun _ => .inr (.inr hd.group)

theorem unbroken_killprog {runhd : Bool} (h : t = f → ∀ P, vm.prog f = some P →
    P.breaks runhd = true → P.killed = true) :
    Vm.Keeps Prog.Unbroken vm (vm.killprog f runhd).1 t := by
  cases hP : vm.prog f with
  | none =>
    rw [Vm.killprog, hP]
    exact .same rfl fun _ => id
  | some P =>
    rcases killprog_cases hP runhd with ⟨-, heq⟩ | ⟨P', go, hd, heq⟩
    · rw [heq]
      exact .same rfl fun _ => id
    · rw [heq]
      refine .put hP (fun _ => id) fun htf => ?_
      cases go with
      | true => exact .inr (.inl (by rw [hd.goes rfl]; rfl))
      | false => exact .inl ((hd.stays rfl).elim id fun hb => hd.killed (h htf P hP hb))

theorem killprog_gone {runhd : Bool} (h : ∀ P, vm.prog f = some P → P.breaks runhd = true →
    P.killed = true) : (vm.killprog f runhd).1.gone f := by
  intro Q hQ
  cases hP : vm.prog f with
  | none =>
    rw [Vm.killprog, hP] at hQ
    exact absurd (hP.symm.trans hQ) (by simp)
  | some P =>
    rcases killprog_cases hP runhd with ⟨hex, heq⟩ | ⟨P', go, hd, heq⟩
    · rw [heq] at hQ
      obtain rfl := Option.some.inj (hP.symm.trans hQ)
      exact .inr hex
    · rw [heq] at hQ
      obtain rfl := Option.some.inj (put_self.symm.trans hQ)
      cases go with
      | true => exact .inr (by rw [hd.goes rfl]; rfl)
      | false => exact .inl ((hd.stays rfl).elim id fun hb => hd.killed (h P hP hb))

theorem stays_newprog (hw : vm.Whole) (p : ℕ) : Vm.Keeps Prog.Stays vm (vm.newprog p) t := by
  rw [Vm.newprog]
  cases hP : vm.prog p with
  | none => exact .same rfl .refl
  | some P =>
    simp only
    split_ifs
    · exact .put hP .refl fun _ => .inr (.inr ⟨rfl, id⟩)
    · intro Q Q' hQ hQ'
      have hle := hw.bound t Q hQ
      obtain rfl := Option.some.inj (hQ.symm.trans ((put_other (by omega)).symm.trans hQ'))
      exact .inr (.refl Q)

theorem newgrp_prog {Q' : Prog} (h : (vm.newgrp p).prog t = some Q') :
    vm.prog t = some Q' ∨ ∃ P, t = p ∧ vm.prog p = some P ∧ P.group ≠ p ∧
      Q' = { P with group := p } := by
  rw [Vm.newgrp] at h
  cases hP : vm.prog p with
  | none =>
    rw [hP] at h
    exact .inl h
  | some P =>
    simp only [hP] at h
    split_ifs at h with hne
    · exact .inl h
    · have hprog := (delgrp_prog (vm.put p { P with group := p }) P.group).1
      rcases put_prog ((congrFun hprog t).symm.trans h) with ⟨htp, hQ⟩ | ⟨-, hQ⟩
      · exact .inr ⟨P, htp, rfl, hne, hQ⟩
      · exact .inl hQ

theorem unbroken_newgrp (p : ℕ) : Vm.Keeps Prog.Unbroken vm (vm.newgrp p) t := by
  intro Q Q' hQ hQ'
  rcases newgrp_prog hQ' with hsame | ⟨P, rfl, hP, -, rfl⟩
  · obtain rfl := Option.some.inj (hQ.symm.trans hsame)
    exact .inr id
  · obtain rfl := Option.some.inj (hQ.symm.trans hP)
    exact .inr id

theorem remains_newgrp (h : t = p → ∀ P, vm.prog p = some P → P.group = p ∨ P.killed = true) :
    Vm.Keeps Prog.Remains vm (vm.newgrp p) t := by
  intro Q Q' hQ hQ'
  rcases newgrp_prog hQ' with hsame | ⟨P, rfl, hP, hne, rfl⟩
  · obtain rfl := Option.some.inj (hQ.symm.trans hsame)
    exact .inr rfl
  · refine .inl fun R hR => .inl ?_
    obtain rfl := Option.some.inj (hQ'.symm.trans hR)
    exact (h rfl P hP).resolve_left hne

theorem stays_unlink (p : ℕ) : Vm.Keeps Prog.Stays vm (vm.unlink p) t := by
  rw [Vm.unlink]
  cases hP : vm.prog p with
  | none => exact .same rfl .refl
  | some P =>
    have hprog := (delgrp_prog { vm with
      prog := Function.update vm.prog p none
      closing := Function.update vm.closing p true } P.group).1
    by_cases htp : t = p
    · intro Q Q' _ hQ'
      have hQ' : Function.update vm.prog p none t = some Q' := (congrFun hprog t).symm.trans hQ'
      rw [htp, Function.update_self] at hQ'
      cases hQ'
    · exact .same ((congrFun hprog t).trans (Function.update_of_ne htp _ _)) .refl

theorem State.From.tasks (h : s'.task = s.task) : s.From s' where
  back _ T hT := .inr ⟨T, h ▸ hT, rfl, rfl⟩
  forth _ T hT := ⟨T, h ▸ hT, rfl⟩

theorem State.From.set {T' : Task} (hT : s.task i = some T) (hgids : T'.gids = T.gids)
    (hpids : T'.pids = T.pids) : s.From (s.set i vm' (some T')) where
  back j U hU := by
    rcases set_task hU with ⟨rfl, hU'⟩ | ⟨-, hU'⟩
    · obtain rfl := Option.some.inj hU'
      exact .inr ⟨T, hT, hgids, hpids⟩
    · exact .inr ⟨U, hU', rfl, rfl⟩
  forth j U hU := by
    by_cases hj : j = i
    · subst hj
      obtain rfl := Option.some.inj (hT.symm.trans hU)
      exact ⟨T', Function.update_self .., hgids⟩
    · exact ⟨U, (Function.update_of_ne hj _ _).trans hU, rfl⟩

theorem State.From.begin {T' : Task} (hnone : s.task i = none)
    (hnil : T'.gids = [] ∧ T'.pids = []) : s.From (s.set i vm' (some T')) where
  back j U hU := by
    rcases set_task hU with ⟨-, hU'⟩ | ⟨-, hU'⟩
    · obtain rfl := Option.some.inj hU'
      exact .inl hnil
    · exact .inr ⟨U, hU', rfl, rfl⟩
  forth j U hU := by
    have hj : j ≠ i := fun heq => by
      rw [heq, hnone] at hU
      cases hU
    exact ⟨U, (Function.update_of_ne hj _ _).trans hU, rfl⟩

structure State.Spares (s : State) (vm' : Vm) : Prop where
  remain : ∀ t, s.pinned t → Vm.Keeps Prog.Remains s.vm vm' t
  unbroken : ∀ t, s.lowtarget t → Vm.Keeps Prog.Unbroken s.vm vm' t

theorem State.Spares.of_stays (h : ∀ t, Vm.Keeps Prog.Stays s.vm vm' t) : s.Spares vm' :=
  ⟨fun t _ => (h t).mono fun _ _ hs => hs.1, fun t _ => (h t).mono fun _ _ hs => hs.2⟩

theorem State.Kills.still (h : s.Kills) (hk : s.vm.Kept vm') (hspares : s.Spares vm') {j : ℕ}
    {U : Task} (hU : s.task j = some U) : U.Sound vm' :=
  (h.sound j U hU).kept hk (fun t ht => h.bound j U t hU ht)
    (fun hpins t ht hself => hspares.remain t ⟨j, U, hU, hpins, ht, hself⟩)
    fun n hkind t ht hself => hspares.unbroken t ⟨j, U, n, hU, hkind, ht, hself⟩

theorem State.Kills.put (h : s.Kills) (hstacks : (State.mk vm' s.task).Stacks)
    (hk : s.vm.Kept vm') (hspares : s.Spares vm') : (State.mk vm' s.task).Kills :=
  h.kept hstacks hk (.tasks rfl) (fun j U t hU ht => (h.bound j U t hU ht).trans hk.pidnum)
    fun _ _ hU => h.still hk hspares hU

theorem State.Kills.set {T' : Task} (h : s.Kills) (hfrom : s.From (s.set i vm' (some T')))
    (hstacks : (s.set i vm' (some T')).Stacks) (hk : s.vm.Kept vm') (hspares : s.Spares vm')
    (hbound : ∀ t ∈ T'.targets, t ≤ s.vm.pidnum) (hsound : T'.Sound vm') :
    (s.set i vm' (some T')).Kills := by
  refine h.kept hstacks hk hfrom (fun j U t hU ht => ?_) fun j U hU => ?_
  · rcases set_task hU with ⟨-, hU'⟩ | ⟨-, hU'⟩
    · obtain rfl := Option.some.inj hU'
      exact (hbound t ht).trans hk.pidnum
    · exact (h.bound j U t hU' ht).trans hk.pidnum
  · rcases set_task hU with ⟨-, hU'⟩ | ⟨-, hU'⟩
    · obtain rfl := Option.some.inj hU'
      exact hsound
    · exact h.still hk hspares hU'

theorem State.Kills.take {U : Task} (h : s.Kills) (hU : s.task i = some U)
    (hdoing : T.doing = U.doing) (hgids : T.gids = U.gids) (hpids : T.pids = U.pids)
    (htargets : T.targets = U.targets) {runhd : Bool}
    (hlow : s.lowtarget f → ∀ P, s.vm.prog f = some P → P.breaks runhd = true → P.killed = true)
    (hsound : T.Sound (s.vm.killprog f runhd).1) : (s.take i T f runhd).Kills := by
  have hstacks := h.once.take hU hdoing f runhd
  rw [State.take] at hstacks ⊢
  refine h.set (.set hU hgids hpids) hstacks (.killprog f runhd) ⟨fun _ _ => remains_killprog runhd,
    fun t ht => unbroken_killprog fun htf => hlow (htf ▸ ht)⟩ (fun t ht => ?_) hsound
  have ht : t ∈ T.targets := ht
  exact h.bound i U t hU (htargets ▸ ht)

theorem newprog_makes (h : (vm.newprog p).pidnum ≠ vm.pidnum) : ∃ P, vm.prog p = some P ∧
    P.kill = false ∧ P.killed = false ∧ (∀ G, vm.grp P.group = some G → G.killed = false) ∧
      ∃ N, (vm.newprog p).prog (vm.newprog p).pidnum = some N ∧ N.group = P.group := by
  rw [Vm.newprog] at h
  cases hP : vm.prog p with
  | none =>
    rw [hP] at h
    exact absurd rfl h
  | some P =>
    simp only [hP] at h
    split_ifs at h with hspawn
    · exact absurd rfl h
    · have heq : vm.newprog p = Vm.put { vm with pidnum := vm.pidnum + 1 } (vm.pidnum + 1)
          ⟨.ready, P.group, false, false, false, false, false⟩ := by
        rw [Vm.newprog, hP]
        exact if_neg hspawn
      simp only [Bool.or_eq_true, not_or, Bool.not_eq_true, Option.any_eq_false] at hspawn
      refine ⟨P, rfl, hspawn.1, hspawn.2.1, fun G hG => by simpa using hspawn.2.2 G hG, ?_⟩
      rw [heq]
      exact ⟨_, put_self, rfl⟩

theorem bear_cases (T : Task) (p n : ℕ) : (p ∉ T.targets ∧ T.bear p n = T) ∨
    (p ∈ T.targets ∧ T.bear p n = { T with born := n :: T.born }) := by
  rw [Task.bear]
  split_ifs with hp
  · exact .inr ⟨hp, rfl⟩
  · exact .inl ⟨hp, rfl⟩

theorem mem_born {n : ℕ} : t ∈ Task.targets { T with born := n :: T.born } ↔
    t = n ∨ t ∈ T.targets := by
  simp only [Task.targets, List.mem_append, List.mem_cons]
  tauto

theorem State.Kills.newprog (h : s.Kills) (hruns : s.vm.runs p = true)
    (hok : s.Ok (.newprog p)) : (s.newprog p).Kills := by
  have hstacks := h.once.newprog p
  have hspares : s.Spares (s.vm.newprog p) :=
    .of_stays fun _ => stays_newprog h.once.whole p
  have hk : s.vm.Kept (s.vm.newprog p) := .newprog p
  rw [State.newprog] at hstacks ⊢
  split_ifs at hstacks ⊢ with hpid
  · exact h.put hstacks hk hspares
  · obtain ⟨P, hP, hkill, hkilled, hgrp, hmade⟩ := newprog_makes hpid
    have hback : ∀ {i T'}, (s.task i).map (fun T => T.bear p (s.vm.newprog p).pidnum) = some T' →
        ∃ T, s.task i = some T ∧ T' = T.bear p (s.vm.newprog p).pidnum := fun hT' => by
      obtain ⟨T, hT, heq⟩ := Option.map_eq_some_iff.mp hT'
      exact ⟨T, hT, heq.symm⟩
    refine h.kept hstacks hk ⟨fun i T' hT' => ?_, fun i T hT => ?_⟩ (fun i T' t hT' ht => ?_)
      fun i T' hT' => ?_
    · obtain ⟨T, hT, rfl⟩ := hback hT'
      refine .inr ⟨T, hT, ?_⟩
      rcases bear_cases T p (s.vm.newprog p).pidnum with ⟨-, heq⟩ | ⟨-, heq⟩ <;> rw [heq] <;>
        exact ⟨rfl, rfl⟩
    · refine ⟨T.bear p (s.vm.newprog p).pidnum, Option.map_eq_some_iff.mpr ⟨T, hT, rfl⟩, ?_⟩
      rcases bear_cases T p (s.vm.newprog p).pidnum with ⟨-, heq⟩ | ⟨-, heq⟩ <;> rw [heq]
    · obtain ⟨T, hT, rfl⟩ := hback hT'
      rcases bear_cases T p (s.vm.newprog p).pidnum with ⟨-, heq⟩ | ⟨-, heq⟩
      · rw [heq] at ht
        exact (h.bound i T t hT ht).trans hk.pidnum
      · rw [heq] at ht
        rcases mem_born.mp ht with rfl | ht
        · exact le_rfl
        · exact (h.bound i T t hT ht).trans hk.pidnum
    · obtain ⟨T, hT, rfl⟩ := hback hT'
      have hsound := h.still hk hspares hT
      rcases bear_cases T p (s.vm.newprog p).pidnum with ⟨-, heq⟩ | ⟨hp, heq⟩
      · rw [heq]
        exact hsound
      · rw [heq]
        rcases hok hruns i T P hT hp hP with hg | hno | hno | ⟨q, gid, mem, hkind, hg⟩
        · obtain ⟨G, hG⟩ := h.once.whole.grpof hP
          have hflag := h.flagged i T P.group G hT hg hG
          rw [hgrp G hG] at hflag
          cases hflag
        · rw [hkill] at hno
          cases hno
        · rw [hkilled] at hno
          cases hno
        · rw [Task.Sound, hkind] at hsound ⊢
          obtain ⟨hgids, hrest, hfind⟩ := hsound
          refine ⟨hgids, hrest, fun t ht => ?_⟩
          rcases mem_born.mp ht.1 with rfl | hmem
          · obtain ⟨N, hN, hNg⟩ := hmade
            exact ⟨N, hN, hNg.trans hg⟩
          · exact hfind t ⟨hmem, ht.2⟩

theorem State.Kills.exit (h : s.Kills) (hnone : s.task i = none) {broken : Bool}
    (hok : s.Ok (.exit i p broken)) : (s.exit i p broken).Kills := by
  have hstacks := h.once.exit i p broken
  rw [State.exit] at hstacks ⊢
  cases hP : s.vm.prog p with
  | none => exact h
  | some P =>
    simp only [hP] at hstacks ⊢
    split_ifs at hstacks ⊢ with hruns hbroken
    · have hkilled : P.state.isExiting = true → P.killed = true := fun hex => by
        refine h.once.whole.itself p P hP ?_
        cases hs : P.state <;> simp_all [Prog.runs, PState.isExiting]
      refine h.put hstacks (.put hP rfl id fun hex => .inl (hkilled hex)) ⟨fun t _ => ?_,
        fun t ht => ?_⟩
      · exact .put hP (fun _ => rfl) fun _ => .inr (.inr rfl)
      · refine .put hP (fun _ => id) fun htp => .inl ?_
        exact (hok P hP (htp ▸ ht)).resolve_right fun hno => by simp [hbroken] at hno
    · exact h.set (.begin hnone ⟨rfl, rfl⟩) hstacks (.unlink p)
        (.of_stays fun _ => stays_unlink p) (fun _ ht => absurd ht List.not_mem_nil)
        fun _ ht => absurd ht.1 List.not_mem_nil
    · exact h

theorem first_some (h : vm.first T = some f) : vm.within (T.gids.headD 0) f = true ∧
    T.self ≠ some f ∧ ¬ vm.gone f := by
  have hmem := List.mem_of_find?_eq_some h
  have hcond := List.find?_some h
  obtain ⟨P, hP, hP'⟩ := Option.any_eq_true _ _ |>.mp hcond
  simp only [Bool.and_eq_true, decide_eq_true_eq, Bool.not_eq_true'] at hP'
  exact ⟨(List.mem_filter.mp hmem).2, hP'.1.1.1, not_gone.mpr ⟨P, hP, hP'.1.1.2, hP'.1.2⟩⟩

theorem first_none (hw : vm.Whole) (h : vm.first T = none) (ht : T.waits vm t)
    (hfind : ∃ P, vm.prog t = some P ∧ P.group = T.gids.headD 0 ∧ P.state ≠ .broken) : False := by
  obtain ⟨P, hP, hg, hb⟩ := hfind
  obtain ⟨Q, hQ, hkilled, hex⟩ := not_gone.mp ht.2.2
  obtain rfl := Option.some.inj (hP.symm.trans hQ)
  have hno := List.find?_eq_none.mp h t (hw.mem_head.mpr (within_iff.mpr ⟨P, hP, hg⟩))
  simp [hP, hkilled, hex, hb, ht.2.1] at hno

theorem State.Spares.refl (s : State) : s.Spares s.vm := .of_stays fun _ => .same rfl .refl

theorem State.Kills.next (h : s.Kills) (hT : s.task i = some T) {runhd : Bool}
    (hok : s.Ok (.next i runhd)) : (s.next i T runhd).Kills := by
  have hstacks := h.once.next hT runhd
  have hsound := h.sound i T hT
  have hbound : ∀ t ∈ T.targets, t ≤ s.vm.pidnum := fun t ht => h.bound i T t hT ht
  rw [Task.Sound] at hsound
  rw [State.next] at hstacks ⊢
  split at hstacks
  next m hkind =>
    simp only [hkind] at hsound
    obtain ⟨hcard, hgid, hfind⟩ := hsound
    split at hstacks
    next => exact h
    next n =>
      split at hstacks
      next hfirst =>
        refine h.set (.set hT rfl rfl) hstacks (.refl _) (.refl s) hbound ?_
        refine ⟨?_, hgid, fun t ht => hfind t ht⟩
        refine (Finset.card_eq_zero.mpr (Finset.eq_empty_of_forall_notMem fun t ht => ?_)).le
        have ht : T.waits s.vm t := mem_waiting.mp ht
        exact first_none h.once.whole hfirst ht (hfind t ht)
      next f hfirst =>
        obtain ⟨hin, hself, hgone⟩ := first_some hfirst
        obtain ⟨P, hP, hg⟩ := within_iff.mp hin
        have hf : f ∈ T.targets := List.mem_append_right _ (h.among i T f P hT hP (hg ▸ hgid))
        have htarget : s.lowtarget f := ⟨i, T, _, hT, hkind, hf, hself⟩
        have htaken : s.taken T = some f := by
          rw [State.taken, hkind]
          exact hfirst
        have hkill : ∀ P, s.vm.prog f = some P → P.breaks runhd = true → P.killed = true :=
          fun P hP hb => (hok T f P hT htaken hP hb).resolve_right fun hno => hno.2 htarget
        have hk : s.vm.Kept (s.vm.killprog f runhd).1 := .killprog f runhd
        refine h.take (T := { T with kind := .low n }) hT rfl rfl rfl rfl (fun _ => hkill) ?_
        -- `f` waited, and waits no more
        have hlt : (T.waiting (s.vm.killprog f runhd).1).card < (T.waiting s.vm).card := by
          refine Finset.card_lt_card ((Finset.ssubset_iff_of_subset
            (Task.waiting_kept hk hbound)).mpr ⟨f, mem_waiting.mpr ⟨hf, hself, hgone⟩, ?_⟩)
          exact fun hw => (mem_waiting.mp hw).2.2 (killprog_gone hkill)
        refine ⟨Nat.le_of_lt_succ (hlt.trans_le hcard), hgid, fun t ht => ?_⟩
        have hwait : T.waits s.vm t := Task.waits.kept (T := T) hk hbound ht
        obtain ⟨Q, hQ, hQg, hb⟩ := hfind t hwait
        obtain ⟨Q', hQ', -⟩ := not_gone.mp ht.2.2
        have hsame := (remains_killprog runhd Q Q' hQ hQ').resolve_left ht.2.2
        have hstay := (unbroken_killprog (fun _ => hkill) Q Q' hQ hQ').resolve_left ht.2.2
        exact ⟨Q', hQ', hsame.trans hQg, fun hb' => hb (hstay hb')⟩
  next hkind =>
    split at hstacks
    next => exact h
    next f rest hrest =>
      have hlist : ∀ t, T.waits s.vm t → t ∈ T.rest := by
        cases hk : T.kind with
        | low n => exact absurd hk (hkind n)
        | wait p gid mem =>
          simp only [hk] at hsound
          rw [hsound.2.1] at hrest
          cases hrest
        | prog | grp | tree => simpa only [hk] using hsound
      have hsound' : ∀ {vm'}, (∀ t, T.waits vm' t → t ∈ rest) →
          Task.Sound { T with rest := rest } vm' := by
        intro vm' hall
        rw [Task.Sound]
        cases hk : T.kind with
        | low n => exact absurd hk (hkind n)
        | wait p gid mem =>
          simp only [hk] at hsound
          rw [hsound.2.1] at hrest
          cases hrest
        | prog | grp | tree => exact hall
      split_ifs at hstacks ⊢ with hself
      · refine h.set (.set hT rfl rfl) hstacks (.refl _) (.refl s) hbound ?_
        refine hsound' fun t ht => ?_
        have hmem := hlist t ht
        rw [hrest] at hmem
        exact (List.mem_cons.mp hmem).resolve_left fun heq => ht.2.1 (heq ▸ hself)
      · have htaken : s.taken T = some f := by
          rw [State.taken]
          cases hk : T.kind with
          | low n => exact absurd hk (hkind n)
          | prog | wait | grp | tree => simp [hrest, hself]
        have hk : s.vm.Kept (s.vm.killprog f runhd).1 := .killprog f runhd
        refine h.take (T := { T with rest := rest }) hT rfl rfl rfl rfl (fun hlow P hP hb => ?_)
          (hsound' fun t ht => ?_)
        · exact (hok T f P hT htaken hP hb).resolve_right fun hno => hno.2 hlow
        · have hmem := hlist t (ht.kept hk hbound)
          rw [hrest] at hmem
          refine (List.mem_cons.mp hmem).resolve_left fun heq => ht.2.2 ?_
          rw [heq]
          refine killprog_gone fun P hP hb => ?_
          exact (hok T f P hT htaken hP hb).resolve_right fun hno => hno.1 (heq ▸ ht.1)

end Infernode.Sched
