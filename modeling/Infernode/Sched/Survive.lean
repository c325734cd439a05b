import Infernode.Sched.Ends

/-!
# No survivor

In a run whose every step is one that kills withstand, a kill that is over has left none of its
targets, no flag is left behind, and what is freed is freed once.
-/

namespace Infernode.Sched

variable {s : State} {e : Event} {T : Task} {i : ℕ}

structure State.Clean (s : State) : Prop where
  targets : ∀ i T, s.task i = some T → T.finished = true → ∀ t ∈ T.targets,
    T.self = some t ∨ s.vm.gone t
  flags : ∀ g G, s.vm.grp g = some G → G.killed = true → ∃ i T, s.task i = some T ∧ g ∈ T.gids
  held : ∀ i T f b, s.task i = some T → (f, b) ∈ T.doing → f ∉ s.vm.freed
  progs : ∀ p P, s.vm.prog p = some P → p ∉ s.vm.freed ∧ ∃ G, s.vm.grp P.group = some G
  groups : ∀ g G, s.vm.grp g = some G → g ∉ s.vm.freedgrp ∧
    (∃ p P, s.vm.prog p = some P ∧ P.group = g) ∧
      ∀ h, G.parent = some h → ∃ H, s.vm.grp h = some H
  freed : s.vm.freed.Nodup
  freedgrp : s.vm.freedgrp.Nodup

theorem State.Kills.clean (h : s.Kills) : s.Clean where
  targets i T hT hfin t ht := by
    by_contra hno
    obtain ⟨hself, hgone⟩ := not_or.mp hno
    exact (h.sound i T hT).finished hfin t ⟨ht, hself, hgone⟩
  flags := h.flags
  held i T f b hT hf hfreed := by
    obtain ⟨-, hnone, hclosing⟩ := h.once.whole.freed f hfreed
    have hentry := h.once.entry i T f b hT hf
    cases b with
    | true =>
      have hentry : s.vm.closing f = true := hentry
      rw [hclosing] at hentry
      cases hentry
    | false =>
      obtain ⟨P, hP, -⟩ := hentry
      rw [hnone] at hP
      cases hP
  progs p P hP := by
    refine ⟨fun hfreed => ?_, h.once.whole.grpof hP⟩
    rw [(h.once.whole.freed p hfreed).2.1] at hP
    cases hP
  groups g G hG := by
    refine ⟨fun hfreed => ?_, (h.once.whole.memb g G hG).resolve_left nofun, fun k hk => ?_⟩
    · rw [(h.once.whole.fbound g hfreed).2] at hG
      cases hG
    · exact (h.once.whole.parent g G k hG hk).2
  freed := h.once.whole.nodup
  freedgrp := h.once.whole.fnodup

theorem State.Kills.doing {doing : List (ℕ × Bool)} {vm : Vm} (h : s.Kills)
    (hT : s.task i = some T) (hstacks : (s.set i vm (some { T with doing := doing })).Stacks)
    (hk : s.vm.Kept vm) (hspares : s.Spares vm) :
    (s.set i vm (some { T with doing := doing })).Kills := by
  have hsound : T.Sound vm := h.still hk hspares hT
  exact h.set (.set hT rfl rfl) hstacks hk hspares (fun t ht => h.bound i T t hT ht) hsound

theorem step_kills (h : s.Kills) (hok : s.Ok e) : (step s e).Kills := by
  have hstacks := step_stacks h.once e
  cases e with
  | newprog p =>
    simp only [step]
    split_ifs with hruns
    · exact h.newprog hruns hok
    · exact h
  | newgrp p =>
    simp only [step] at hstacks ⊢
    split_ifs at hstacks ⊢ with hruns
    · refine h.put hstacks (.newgrp h.once.whole p) ⟨fun t ht => ?_, fun t _ => unbroken_newgrp p⟩
      exact remains_newgrp fun htp P hP => hok hruns P hP (htp ▸ ht)
    · exact h
  | change p state addrun debug kill =>
    exact h.put hstacks (.change p state addrun debug kill)
      (.of_stays fun _ => stays_change p state addrun debug kill)
  | exit i p broken =>
    simp only [step]
    split_ifs with hnone
    · exact h.exit (Option.isNone_iff_eq_none.mp hnone) hok
    · exact h
  | kill i self f =>
    simp only [step] at hstacks ⊢
    split_ifs at hstacks ⊢ with hcan
    · have hnone := Option.isNone_iff_eq_none.mp (Bool.and_eq_true_iff.mp hcan).1
      exact h.set (.begin hnone ⟨rfl, rfl⟩) hstacks (.call self true)
        (.of_stays fun _ => stays_call self true) (fun _ ht => absurd ht List.not_mem_nil)
        fun _ ht => absurd ht.1 List.not_mem_nil
    · exact h
  | killgrp i self p gid mem =>
    simp only [step]
    split_ifs with hnone
    · exact h.killgrp (Option.isNone_iff_eq_none.mp hnone) hok
    · exact h
  | retry i =>
    simp only [step]
    split
    next T hT => exact h.retry hT hok
    next => exact h
  | killgrptree i self p mem =>
    simp only [step]
    split_ifs with hnone
    · exact h.killgrptree (Option.isNone_iff_eq_none.mp hnone) hok
    · exact h
  | next i runhd =>
    simp only [step]
    split
    next T hT =>
      split_ifs
      · exact h.next hT hok
      · exact h
    next => exact h
  | propex i f runhd =>
    simp only [step]
    split
    next T hT =>
      split
      · refine h.take hT rfl rfl rfl rfl (fun hlow P hP hb => ?_) ?_
        · exact (hok P hP hb).resolve_right fun hno => hno hlow
        · refine h.still (.killprog f runhd) ⟨fun _ _ => remains_killprog runhd, fun t ht => ?_⟩ hT
          refine unbroken_killprog fun htf P hP hb => ?_
          exact (hok P hP hb).resolve_right fun hno => hno (htf ▸ ht)
      · exact h
    next => exact h
  | unlink i =>
    simp only [step] at hstacks ⊢
    split
    next T hT =>
      simp only [hT] at hstacks
      split
      next f doing hdoing =>
        simp only [hdoing] at hstacks
        exact h.doing hT hstacks (.unlink f) (.of_stays fun _ => stays_unlink f)
      next => exact h
    next => exact h
  | free i =>
    simp only [step] at hstacks ⊢
    split
    next T hT =>
      simp only [hT] at hstacks
      split
      next f doing hdoing =>
        simp only [hdoing] at hstacks
        exact h.doing hT hstacks (.free f) (.of_stays fun _ => .same rfl .refl)
      next => exact h
    next => exact h
  | finish i | error i =>
    simp only [step]
    split
    next T hT =>
      split_ifs
      · exact h.leave hT
      · exact h
    next => exact h

theorem boot_prog {p : ℕ} {P : Prog} (h : boot.vm.prog p = some P) :
    p = 1 ∧ P = ⟨.ready, 1, false, false, false, false, false⟩ := by
  change (if p = 1 then some _ else none) = some P at h
  split_ifs at h with hp
  exact ⟨hp, (Option.some.inj h).symm⟩

theorem boot_grp {g : ℕ} {G : Progs} (h : boot.vm.grp g = some G) :
    g = 1 ∧ G = ⟨false, none⟩ := by
  change (if g = 1 then some _ else none) = some G at h
  split_ifs at h with hg
  exact ⟨hg, (Option.some.inj h).symm⟩

theorem boot_task {i : ℕ} {T : Task} (h : boot.task i = some T) : False :=
  Option.some_ne_none T (show some T = none from h.symm)

theorem boot_whole : boot.vm.Whole where
  bound p P hP := (boot_prog hP).1.le
  order p P hP := by
    obtain ⟨rfl, rfl⟩ := boot_prog hP
    exact le_rfl
  live p P hP := by
    obtain ⟨rfl, rfl⟩ := boot_prog hP
    exact .inr ⟨_, rfl⟩
  memb g G hG := by
    obtain ⟨rfl, rfl⟩ := boot_grp hG
    exact .inr ⟨1, _, rfl, rfl⟩
  parent g G h hG hpar := by
    obtain ⟨rfl, rfl⟩ := boot_grp hG
    cases hpar
  own p P hP hne := by
    obtain ⟨rfl, rfl⟩ := boot_prog hP
    exact absurd rfl hne
  gbound g G hG := (boot_grp hG).1.le
  fbound := nofun
  fnodup := List.nodup_nil
  cbound := nofun
  freed := nofun
  nodup := List.nodup_nil
  made := nofun
  itself p P hP hex := by
    obtain ⟨rfl, rfl⟩ := boot_prog hP
    cases hex

theorem boot_kills : boot.Kills where
  once := ⟨boot_whole, fun _ _ _ _ hT => (boot_task hT).elim, fun _ _ hT => (boot_task hT).elim,
    fun _ _ _ _ hT => (boot_task hT).elim⟩
  flagged _ _ _ _ hT := (boot_task hT).elim
  flags g G hG hkilled := by
    obtain ⟨rfl, rfl⟩ := boot_grp hG
    cases hkilled
  alone _ _ _ _ _ hT := (boot_task hT).elim
  known _ _ _ hT := (boot_task hT).elim
  among _ _ _ _ hT := (boot_task hT).elim
  bound _ _ _ hT := (boot_task hT).elim
  sound _ _ hT := (boot_task hT).elim

end Infernode.Sched
