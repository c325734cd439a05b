import Infernode.Sched.Once

/-!
# What a kill finds kept

No step of a VM but the two ends of a kill sets or clears the flag of a group, joins a Prog to a
group that is flagged, or brings back a Prog that is on its way out.
-/

namespace Infernode.Sched

variable {vm vm' vm'' : Vm} {p g : ℕ} {P P' : Prog}

def Vm.gone (vm : Vm) (p : ℕ) : Prop :=
  ∀ P, vm.prog p = some P → P.killed = true ∨ P.state.isExiting = true

def Vm.known (vm : Vm) (g : ℕ) : Prop := (∃ G, vm.grp g = some G) ∨ g ∈ vm.freedgrp

structure Vm.Regrouped (vm vm' : Vm) : Prop where
  known : ∀ g, vm.known g → vm'.known g
  flags : ∀ g G', vm'.grp g = some G' → ∃ G, vm.grp g = some G ∧ G'.killed = G.killed

structure Vm.Kept (vm vm' : Vm) : Prop where
  pidnum : vm.pidnum ≤ vm'.pidnum
  gone : ∀ p ≤ vm.pidnum, vm.gone p → vm'.gone p
  known : ∀ g, vm.known g → vm'.known g
  flags : ∀ g G', vm'.grp g = some G' → vm.known g → ∃ G, vm.grp g = some G ∧ G'.killed = G.killed
  fresh : ∀ g G', vm'.grp g = some G' → ¬ vm.known g → G'.killed = false
  member : ∀ q Q', vm'.prog q = some Q' → vm.known Q'.group →
    (∃ Q, vm.prog q = some Q ∧ Q.group = Q'.group) ∨
      ∀ G, vm.grp Q'.group = some G → G.killed = false

theorem Vm.Regrouped.refl (vm : Vm) : vm.Regrouped vm := ⟨fun _ => id, fun _ G hG => ⟨G, hG, rfl⟩⟩

theorem Vm.Regrouped.trans (h : vm.Regrouped vm') (h' : vm'.Regrouped vm'') :
    vm.Regrouped vm'' where
  known g hg := h'.known g (h.known g hg)
  flags g G'' hG'' := by
    obtain ⟨G', hG', heq'⟩ := h'.flags g G'' hG''
    obtain ⟨G, hG, heq⟩ := h.flags g G' hG'
    exact ⟨G, hG, heq'.trans heq⟩

theorem freegrp_regrouped (g : ℕ) (G : Progs) : vm.Regrouped (vm.freegrp g G) where
  known h hh := by
    by_cases heq : h = g
    · exact .inr (heq ▸ List.mem_cons_self)
    · exact hh.imp (fun ⟨_, hH⟩ => freegrp_some heq hH) (List.mem_cons_of_mem g)
  flags h H' hH' := by
    obtain ⟨-, H, hH, hkilled, -⟩ := freegrp_grp g G h hH'
    exact ⟨H, hH, hkilled⟩

theorem moveup_regrouped (k : ℕ) (vm : Vm) (g : ℕ) : vm.Regrouped (vm.moveup k g).1 := by
  induction k generalizing vm g with
  | zero => exact .refl vm
  | succ k ih =>
    rw [Vm.moveup]
    split_ifs
    · exact .refl vm
    · split
      · exact .refl vm
      · split
        · exact freegrp_regrouped g _
        · exact (freegrp_regrouped g _).trans (ih _ _)

theorem delgrp_regrouped (vm : Vm) (g : ℕ) : vm.Regrouped (vm.delgrp g).1 := moveup_regrouped _ vm g

theorem Vm.Regrouped.kept (h : vm.Regrouped vm') (hpid : vm.pidnum ≤ vm'.pidnum)
    (hgone : ∀ p ≤ vm.pidnum, vm.gone p → vm'.gone p)
    (hmember : ∀ q Q', vm'.prog q = some Q' → ∃ Q, vm.prog q = some Q ∧ Q.group = Q'.group) :
    vm.Kept vm' where
  pidnum := hpid
  gone := hgone
  known := h.known
  flags g G' hG' _ := h.flags g G' hG'
  fresh g G' hG' hknown := by
    obtain ⟨G, hG, -⟩ := h.flags g G' hG'
    exact absurd (.inl ⟨G, hG⟩) hknown
  member q Q' hQ' _ := .inl (hmember q Q' hQ')

theorem Vm.Kept.refl (vm : Vm) : vm.Kept vm :=
  (Vm.Regrouped.refl vm).kept le_rfl (fun _ _ => id) fun _ Q hQ => ⟨Q, hQ, rfl⟩

theorem gone_put {q : ℕ} (h : vm.gone q) (hP : vm.prog p = some P)
    (hkilled : P.killed = true → P'.killed = true)
    (hexit : P.state.isExiting = true → P'.killed = true ∨ P'.state.isExiting = true) :
    (vm.put p P').gone q := by
  intro Q hQ
  rcases put_prog hQ with ⟨rfl, rfl⟩ | ⟨-, hQ⟩
  · exact (h P hP).elim (fun hk => .inl (hkilled hk)) hexit
  · exact h Q hQ

theorem Vm.Kept.put (hP : vm.prog p = some P) (hg : P'.group = P.group)
    (hkilled : P.killed = true → P'.killed = true)
    (hexit : P.state.isExiting = true → P'.killed = true ∨ P'.state.isExiting = true) :
    vm.Kept (vm.put p P') := by
  refine Vm.Regrouped.kept ⟨fun _ => id, fun _ G hG => ⟨G, hG, rfl⟩⟩ le_rfl
    (fun q _ hq => gone_put hq hP hkilled hexit) fun q Q' hQ' => ?_
  rcases put_prog hQ' with ⟨rfl, rfl⟩ | ⟨-, hQ⟩
  · exact ⟨P, hP, hg.symm⟩
  · exact ⟨Q', hQ, rfl⟩

theorem Vm.Kept.call (self : Option ℕ) (b : Bool) : vm.Kept (vm.call self b) := by
  cases self with
  | none => exact .refl vm
  | some p =>
    rw [Vm.call]
    cases hP : vm.prog p with
    | none => exact .refl vm
    | some P => exact .put hP rfl id .inr

theorem Vm.Kept.change (p : ℕ) (state : PState) (addrun debug kill : Bool) :
    vm.Kept (vm.change p state addrun debug kill) := by
  rcases change_cases vm p state addrun debug kill with
    heq | ⟨P, P', hP, heq, hg, hkilled, hstill, -⟩
  · rw [heq]
    exact .refl vm
  · rw [heq]
    refine .put hP hg (fun hk => hkilled.trans hk) fun hex => ?_
    cases hs : P.state <;> simp_all [PState.still, PState.isExiting]

theorem Vm.Kept.killprog (f : ℕ) (runhd : Bool) : vm.Kept (vm.killprog f runhd).1 := by
  cases hP : vm.prog f with
  | none =>
    rw [Vm.killprog, hP]
    exact .refl vm
  | some P =>
    rcases killprog_cases hP runhd with ⟨-, heq⟩ | ⟨P', go, hd, heq⟩
    · rw [heq]
      exact .refl vm
    · rw [heq]
      refine .put hP hd.group hd.killed fun hex => ?_
      rw [hd.alive] at hex
      cases hex

theorem Vm.Kept.newprog (p : ℕ) : vm.Kept (vm.newprog p) := by
  rw [Vm.newprog]
  cases hP : vm.prog p with
  | none => exact .refl vm
  | some P =>
    simp only
    split_ifs with hspawn
    · exact .put hP rfl (fun hk => by simp [hk]) .inr
    · simp only [Bool.or_eq_true, not_or, Bool.not_eq_true, Option.any_eq_false] at hspawn
      exact
        { pidnum := Nat.le_succ _
          gone := fun q hq hgone Q hQ => by
            rcases put_prog hQ with ⟨rfl, -⟩ | ⟨-, hQ⟩
            · exact absurd hq (Nat.not_succ_le_self _)
            · exact hgone Q hQ
          known := fun _ => id
          flags := fun _ G hG _ => ⟨G, hG, rfl⟩
          fresh := fun _ G hG hknown => absurd (.inl ⟨G, hG⟩) hknown
          member := fun q Q' hQ' _ => by
            rcases put_prog hQ' with ⟨-, rfl⟩ | ⟨-, hQ⟩
            · exact .inr fun G hG => by simpa using hspawn.2.2 G hG
            · exact .inl ⟨Q', hQ, rfl⟩ }

theorem Vm.Kept.newgrp (hw : vm.Whole) (p : ℕ) : vm.Kept (vm.newgrp p) := by
  rw [Vm.newgrp]
  cases hP : vm.prog p with
  | none => exact .refl vm
  | some P =>
    simp only
    split_ifs with hne
    · exact .refl vm
    · obtain ⟨hnone, hfreed⟩ := hw.own p P hP hne
      have hfresh : ¬ vm.known p := by
        rintro (⟨G, hG⟩ | hmem)
        · rw [hG] at hnone
          cases hnone
        · exact hfreed hmem
      have hdel := delgrp_regrouped (vm.put p { P with group := p }) P.group
      have hre : vm.Regrouped ((vm.put p { P with group := p }).delgrp P.group).1 :=
        ⟨hdel.known, hdel.flags⟩
      have hprog := (delgrp_prog (vm.put p { P with group := p }) P.group).1
      have hpid := (delgrp_prog (vm.put p { P with group := p }) P.group).2.1
      refine ⟨hpid.ge, fun q _ hq Q hQ => ?_, fun g hg => ?_, fun g G' hG' hg => ?_,
        fun g G' hG' hg => ?_, fun q Q' hQ' hg => ?_⟩
      · have hput : (vm.put p { P with group := p }).gone q := gone_put hq hP id .inr
        exact hput Q ((congrFun hprog q).symm.trans hQ)
      · have hgp : g ≠ p := fun heq => hfresh (heq ▸ hg)
        exact (hre.known g hg).imp (.imp fun _ hG => (Function.update_of_ne hgp _ _).trans hG) id
      · have hgp : g ≠ p := fun heq => hfresh (heq ▸ hg)
        exact hre.flags g G' ((Function.update_of_ne hgp _ _).symm.trans hG')
      · by_cases hgp : g = p
        · rw [hgp] at hG'
          obtain rfl := Option.some.inj ((Function.update_self p _ _).symm.trans hG')
          rfl
        · obtain ⟨G, hG, -⟩ := hre.flags g G' ((Function.update_of_ne hgp _ _).symm.trans hG')
          exact absurd (.inl ⟨G, hG⟩) hg
      · rcases put_prog ((congrFun hprog q).symm.trans hQ') with ⟨-, rfl⟩ | ⟨-, hQ⟩
        · exact absurd hg hfresh
        · exact .inl ⟨Q', hQ, rfl⟩

theorem Vm.Kept.unlink (p : ℕ) : vm.Kept (vm.unlink p) := by
  rw [Vm.unlink]
  cases hP : vm.prog p with
  | none => exact .refl vm
  | some P =>
    have hre := delgrp_regrouped { vm with
      prog := Function.update vm.prog p none
      closing := Function.update vm.closing p true } P.group
    have hprog := (delgrp_prog { vm with
      prog := Function.update vm.prog p none
      closing := Function.update vm.closing p true } P.group)
    have hkeep : ∀ q Q, (vm.unlink p).prog q = some Q → vm.prog q = some Q := by
      intro q Q hQ
      rw [Vm.unlink, hP] at hQ
      have hQ : Function.update vm.prog p none q = some Q := (congrFun hprog.1 q).symm.trans hQ
      by_cases hq : q = p
      · rw [hq, Function.update_self] at hQ
        cases hQ
      · rwa [Function.update_of_ne hq] at hQ
    rw [Vm.unlink, hP] at hkeep
    have hsame : vm.Regrouped _ := ⟨hre.known, hre.flags⟩
    exact hsame.kept hprog.2.1.ge (fun q _ hq Q hQ => hq Q (hkeep q Q hQ))
      fun q Q hQ => ⟨Q, hkeep q Q hQ, rfl⟩

theorem Vm.Kept.free (p : ℕ) : vm.Kept (vm.free p) :=
  Vm.Regrouped.kept ⟨fun _ => id, fun _ G hG => ⟨G, hG, rfl⟩⟩ le_rfl (fun _ _ => id)
    fun _ Q hQ => ⟨Q, hQ, rfl⟩

end Infernode.Sched
