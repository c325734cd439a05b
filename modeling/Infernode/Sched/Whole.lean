import Infernode.Sched.Groups

/-!
# Whole groups

Every Prog is in a group, every group has a Prog, and what is freed is freed once and not met
again.
-/

namespace Infernode.Sched

variable {vm : Vm} {e n : Option ℕ} {p g : ℕ} {P P' : Prog} {G : Progs}

/-- The groups and Progs hold together, but for a group `e` that may have lost its last Prog, and
a group `n` that is about to be made. -/
structure Vm.Half (vm : Vm) (e n : Option ℕ) : Prop where
  bound : ∀ p P, vm.prog p = some P → p ≤ vm.pidnum
  order : ∀ p P, vm.prog p = some P → P.group ≤ p
  live : ∀ p P, vm.prog p = some P → some P.group = n ∨ ∃ G, vm.grp P.group = some G
  memb : ∀ g G, vm.grp g = some G → some g = e ∨ ∃ p P, vm.prog p = some P ∧ P.group = g
  parent : ∀ g G h, vm.grp g = some G → G.parent = some h → h < g ∧ ∃ H, vm.grp h = some H
  own : ∀ p P, vm.prog p = some P → P.group ≠ p → vm.grp p = none ∧ p ∉ vm.freedgrp
  gbound : ∀ g G, vm.grp g = some G → g ≤ vm.pidnum
  fbound : ∀ g ∈ vm.freedgrp, g ≤ vm.pidnum ∧ vm.grp g = none
  fnodup : vm.freedgrp.Nodup
  cbound : ∀ p, vm.closing p = true → p ≤ vm.pidnum ∧ vm.prog p = none
  freed : ∀ p ∈ vm.freed, p ≤ vm.pidnum ∧ vm.prog p = none ∧ vm.closing p = false
  nodup : vm.freed.Nodup
  made : ∀ p, n = some p → vm.grp p = none ∧ p ∉ vm.freedgrp ∧ p ≤ vm.pidnum
  itself : ∀ p P, vm.prog p = some P → P.state = .exiting true → P.killed = true

abbrev Vm.Whole (vm : Vm) : Prop := vm.Half none none

theorem within_iff : vm.within g p = true ↔ ∃ P, vm.prog p = some P ∧ P.group = g := by
  simp [Vm.within, Option.any_eq_true]

theorem Vm.Half.mem_head (h : vm.Half e n) : p ∈ vm.head g ↔ vm.within g p = true := by
  rw [Vm.head, List.mem_filter, List.mem_range]
  refine ⟨fun hp => hp.2, fun hp => ⟨?_, hp⟩⟩
  obtain ⟨P, hP, -⟩ := within_iff.mp hp
  have hle := h.bound p P hP
  omega

theorem Vm.Half.head_eq_nil (h : vm.Half e n) :
    vm.head g = [] ↔ ∀ p P, vm.prog p = some P → P.group ≠ g := by
  rw [List.eq_nil_iff_forall_not_mem]
  constructor
  · intro hnil p P hP hg
    exact hnil p (h.mem_head.mpr (within_iff.mpr ⟨P, hP, hg⟩))
  · intro hall p hp
    obtain ⟨P, hP, hg⟩ := within_iff.mp (h.mem_head.mp hp)
    exact hall p P hP hg

theorem Vm.Half.full (h : vm.Half (some g) n) (hne : vm.head g ≠ []) : vm.Half none n :=
  { h with
    memb := fun g' G' hG' => by
      rcases h.memb g' G' hG' with heq | hmem
      · obtain rfl := Option.some.inj heq
        obtain ⟨p, hp⟩ := List.exists_mem_of_ne_nil _ hne
        obtain ⟨P, hP, hg⟩ := within_iff.mp (h.mem_head.mp hp)
        exact .inr ⟨p, P, hP, hg⟩
      · exact .inr hmem }

theorem freegrp_grp (g : ℕ) (G : Progs) (h : ℕ) {H' : Progs}
    (hH : (vm.freegrp g G).grp h = some H') : h ≠ g ∧ ∃ H, vm.grp h = some H ∧
      H'.killed = H.killed ∧
      H'.parent = if H.parent = some g then G.parent else H.parent := by
  change (if h = g then none else (vm.grp h).map _) = some H' at hH
  split_ifs at hH with hg
  obtain ⟨H, hsome, rfl⟩ := Option.map_eq_some_iff.mp hH
  refine ⟨hg, H, hsome, ?_⟩
  split_ifs <;> exact ⟨rfl, rfl⟩

theorem freegrp_some {g h : ℕ} {G H : Progs} (hg : h ≠ g) (hH : vm.grp h = some H) :
    ∃ H', (vm.freegrp g G).grp h = some H' := by
  refine ⟨if H.parent = some g then { H with parent := G.parent } else H, ?_⟩
  change (if h = g then none else (vm.grp h).map _) = _
  rw [if_neg hg, hH]
  rfl

theorem freegrp_none {g h : ℕ} {G : Progs} (hH : vm.grp h = none) :
    (vm.freegrp g G).grp h = none := by
  change (if h = g then none else (vm.grp h).map _) = _
  rw [hH]
  split_ifs <;> rfl

theorem Vm.Half.freegrp (h : vm.Half (some g) n) (hG : vm.grp g = some G)
    (hempty : ∀ p P, vm.prog p = some P → P.group ≠ g) : (vm.freegrp g G).Half none n where
  bound := h.bound
  order := h.order
  live p P hP := (h.live p P hP).imp id fun ⟨H, hH⟩ => freegrp_some (hempty p P hP) hH
  memb g' G' hG' := by
    obtain ⟨hne, H, hH, -⟩ := freegrp_grp g G g' hG'
    exact .inr ((h.memb g' H hH).resolve_left fun heq => hne (Option.some.inj heq))
  parent g' G' h' hG' hpar := by
    obtain ⟨hne, H, hH, -, heq⟩ := freegrp_grp g G g' hG'
    rw [hpar] at heq
    split_ifs at heq with hg
    · obtain ⟨hlt, -⟩ := h.parent g' H g hH hg
      obtain ⟨hlt', K, hK⟩ := h.parent g G h' hG heq.symm
      exact ⟨hlt'.trans hlt, freegrp_some (by omega) hK⟩
    · obtain ⟨hlt, K, hK⟩ := h.parent g' H h' hH heq.symm
      exact ⟨hlt, freegrp_some (fun hh => hg (hh ▸ heq.symm)) hK⟩
  own p P hP hne := by
    obtain ⟨hnone, hfreed⟩ := h.own p P hP hne
    refine ⟨freegrp_none hnone, fun hmem => ?_⟩
    rcases List.mem_cons.mp hmem with rfl | hmem
    · rw [hG] at hnone
      cases hnone
    · exact hfreed hmem
  gbound g' G' hG' := by
    obtain ⟨-, H, hH, -⟩ := freegrp_grp g G g' hG'
    exact h.gbound g' H hH
  fbound g' hg' := by
    rcases List.mem_cons.mp hg' with rfl | hg'
    · exact ⟨h.gbound _ G hG, if_pos rfl⟩
    · exact ⟨(h.fbound g' hg').1, freegrp_none (h.fbound g' hg').2⟩
  fnodup := by
    refine List.nodup_cons.mpr ⟨fun hmem => ?_, h.fnodup⟩
    have hnone := (h.fbound g hmem).2
    rw [hG] at hnone
    cases hnone
  cbound := h.cbound
  freed := h.freed
  nodup := h.nodup
  made p hp := by
    obtain ⟨hnone, hfreed, hle⟩ := h.made p hp
    refine ⟨freegrp_none hnone, fun hmem => ?_, hle⟩
    rcases List.mem_cons.mp hmem with rfl | hmem
    · rw [hG] at hnone
      cases hnone
    · exact hfreed hmem
  itself := h.itself

theorem Vm.Half.delgrp_cases (h : vm.Half (some g) n) (hG : vm.grp g = some G) :
    (vm.head g ≠ [] ∧ vm.delgrp g = (vm, some g)) ∨
      (vm.head g = [] ∧ vm.delgrp g = (vm.freegrp g G, G.parent)) := by
  rw [Vm.delgrp, Vm.moveup]
  by_cases hne : vm.head g ≠ []
  · exact .inl ⟨hne, if_pos hne⟩
  · rw [not_not] at hne
    refine .inr ⟨hne, ?_⟩
    rw [if_neg (not_not.mpr hne), hG]
    cases hpar : G.parent with
    | none => simp only [hpar]
    | some pg =>
      -- the parent has a Prog of its own
      have hfree := h.freegrp hG (h.head_eq_nil.mp hne)
      obtain ⟨hlt, H, hH⟩ := h.parent g G pg hG hpar
      have hhead : (vm.freegrp g G).head pg ≠ [] := by
        obtain ⟨p, P, hP, hgrp⟩ := (h.memb pg H hH).resolve_left fun heq => by
          have := Option.some.inj heq
          omega
        exact List.ne_nil_of_mem (hfree.mem_head.mpr (within_iff.mpr ⟨P, hP, hgrp⟩))
      have hpos : 0 < vm.pidnum := by
        have := h.gbound g G hG
        omega
      obtain ⟨k, hk⟩ := Nat.exists_eq_succ_of_ne_zero hpos.ne'
      rw [hk]
      simp only [hpar, Vm.moveup]
      rw [if_pos hhead]

theorem Vm.Half.delgrp (h : vm.Half (some g) n) (hG : vm.grp g = some G) :
    (vm.delgrp g).1.Half none n ∧ ∀ pg, (vm.delgrp g).2 = some pg →
      pg ≤ g ∧ ∃ H, (vm.delgrp g).1.grp pg = some H := by
  rcases h.delgrp_cases hG with ⟨hne, heq⟩ | ⟨hnil, heq⟩
  · rw [heq]
    exact ⟨h.full hne, fun pg hpg => by
      obtain rfl := Option.some.inj hpg
      exact ⟨le_rfl, G, hG⟩⟩
  · rw [heq]
    refine ⟨h.freegrp hG (h.head_eq_nil.mp hnil), fun pg hpg => ?_⟩
    obtain ⟨hlt, H, hH⟩ := h.parent g G pg hG hpg
    exact ⟨hlt.le, freegrp_some hlt.ne hH⟩

theorem put_prog {q : ℕ} {Q : Prog} (h : (vm.put p P').prog q = some Q) :
    (q = p ∧ Q = P') ∨ (q ≠ p ∧ vm.prog q = some Q) := by
  change Function.update vm.prog p (some P') q = some Q at h
  by_cases hq : q = p
  · rw [hq, Function.update_self] at h
    exact .inl ⟨hq, (Option.some.inj h).symm⟩
  · rw [Function.update_of_ne hq] at h
    exact .inr ⟨hq, h⟩

theorem put_self : (vm.put p P').prog p = some P' := Function.update_self ..

theorem put_other {q : ℕ} (h : q ≠ p) : (vm.put p P').prog q = vm.prog q :=
  Function.update_of_ne h _ _

theorem Vm.Half.put (h : vm.Half e n) (hP : vm.prog p = some P) (hg : P'.group = P.group)
    (hself : P'.state = .exiting true → P'.killed = true) : (vm.put p P').Half e n where
  bound q Q hQ := by
    rcases put_prog hQ with ⟨rfl, -⟩ | ⟨-, hQ⟩
    · exact h.bound q P hP
    · exact h.bound q Q hQ
  order q Q hQ := by
    rcases put_prog hQ with ⟨rfl, rfl⟩ | ⟨-, hQ⟩
    · rw [hg]
      exact h.order q P hP
    · exact h.order q Q hQ
  live q Q hQ := by
    rcases put_prog hQ with ⟨rfl, rfl⟩ | ⟨-, hQ⟩
    · rw [hg]
      exact h.live q P hP
    · exact h.live q Q hQ
  memb g G hG := by
    refine (h.memb g G hG).imp id fun ⟨q, Q, hQ, hQg⟩ => ?_
    by_cases hq : q = p
    · subst hq
      obtain rfl := Option.some.inj (hP.symm.trans hQ)
      exact ⟨q, P', put_self, hg.trans hQg⟩
    · exact ⟨q, Q, (put_other hq).trans hQ, hQg⟩
  parent := h.parent
  own q Q hQ hne := by
    rcases put_prog hQ with ⟨rfl, rfl⟩ | ⟨-, hQ⟩
    · exact h.own q P hP (hg ▸ hne)
    · exact h.own q Q hQ hne
  gbound := h.gbound
  fbound := h.fbound
  fnodup := h.fnodup
  cbound q hq := by
    obtain ⟨hle, hnone⟩ := h.cbound q hq
    have hne : q ≠ p := fun heq => by
      rw [heq, hP] at hnone
      cases hnone
    exact ⟨hle, (put_other hne).trans hnone⟩
  freed q hq := by
    obtain ⟨hle, hnone, hcl⟩ := h.freed q hq
    have hne : q ≠ p := fun heq => by
      rw [heq, hP] at hnone
      cases hnone
    exact ⟨hle, (put_other hne).trans hnone, hcl⟩
  nodup := h.nodup
  made := h.made
  itself q Q hQ := by
    rcases put_prog hQ with ⟨-, rfl⟩ | ⟨-, hQ⟩
    · exact hself
    · exact h.itself q Q hQ

theorem Vm.Half.flag (h : vm.Half e n) (b : Bool) (on : ℕ → Bool) : (vm.flag b on).Half e n := by
  have hsome : ∀ {g G}, vm.grp g = some G → ∃ G', (vm.flag b on).grp g = some G' := by
    intro g G hG
    exact ⟨if on g then { G with killed := b } else G, by simp [Vm.flag, hG]⟩
  have hback : ∀ {g G'}, (vm.flag b on).grp g = some G' →
      ∃ G, vm.grp g = some G ∧ G'.parent = G.parent := by
    intro g G' hG'
    obtain ⟨G, hG, rfl⟩ := Option.map_eq_some_iff.mp hG'
    refine ⟨G, hG, ?_⟩
    split_ifs <;> rfl
  have hnone : ∀ {g}, vm.grp g = none → (vm.flag b on).grp g = none := by
    intro g hg
    simp [Vm.flag, hg]
  exact
    { bound := h.bound
      order := h.order
      live := fun p P hP => (h.live p P hP).imp id fun ⟨G, hG⟩ => hsome hG
      memb := fun g G hG => by
        obtain ⟨G', hG', -⟩ := hback hG
        exact h.memb g G' hG'
      parent := fun g G k hG hk => by
        obtain ⟨G', hG', hpar⟩ := hback hG
        obtain ⟨hlt, H, hH⟩ := h.parent g G' k hG' (hpar ▸ hk)
        exact ⟨hlt, hsome hH⟩
      own := fun p P hP hne => (h.own p P hP hne).imp hnone id
      gbound := fun g G hG => by
        obtain ⟨G', hG', -⟩ := hback hG
        exact h.gbound g G' hG'
      fbound := fun g hg => (h.fbound g hg).imp id hnone
      fnodup := h.fnodup
      cbound := h.cbound
      freed := h.freed
      nodup := h.nodup
      made := fun p hp => (h.made p hp).imp hnone id
      itself := h.itself }

theorem Vm.Half.call (h : vm.Half e n) (self : Option ℕ) (b : Bool) :
    (vm.call self b).Half e n := by
  cases self with
  | none => exact h
  | some p =>
    rw [Vm.call]
    cases hP : vm.prog p with
    | none => exact h
    | some P => exact h.put hP rfl (h.itself p P hP)

theorem change_cases (vm : Vm) (p : ℕ) (state : PState) (addrun debug kill : Bool) :
    vm.change p state addrun debug kill = vm ∨ ∃ P P', vm.prog p = some P ∧
      vm.change p state addrun debug kill = vm.put p P' ∧ P'.group = P.group ∧
        P'.killed = P.killed ∧ P.state.still = true ∧ P'.state.still = true := by
  rw [Vm.change]
  cases hP : vm.prog p with
  | none => exact .inl rfl
  | some P =>
    simp only
    split_ifs with hstill hcall
    · rw [Bool.and_eq_true] at hstill
      exact .inr ⟨P, _, rfl, rfl, rfl, rfl, hstill.1, hstill.1⟩
    · rw [Bool.and_eq_true] at hstill
      exact .inr ⟨P, _, rfl, rfl, rfl, rfl, hstill.1, hstill.2⟩
    · exact .inl rfl

theorem Vm.Half.change (h : vm.Half e n) (p : ℕ) (state : PState) (addrun debug kill : Bool) :
    (vm.change p state addrun debug kill).Half e n := by
  rcases change_cases vm p state addrun debug kill with heq | ⟨P, P', hP, heq, hg, -, -, hstill⟩
  · rw [heq]
    exact h
  · rw [heq]
    refine h.put hP hg fun hex => ?_
    rw [hex] at hstill
    cases hstill

/-- What `killprog` makes of a Prog: it marks it, or it goes on with it, but for one that has a
debugger. -/
structure Dispatch (P P' : Prog) (runhd go : Bool) : Prop where
  group : P'.group = P.group
  calling : P'.calling = P.calling
  itself : P'.state = .exiting true → P'.killed = true
  killed : P.killed = true → P'.killed = true
  alive : P.state.isExiting = false
  goes : go = true → P'.state = .exiting false
  stays : go = false → P'.killed = true ∨ P.breaks runhd = true

theorem killprog_cases {f : ℕ} (hP : vm.prog f = some P) (runhd : Bool) :
    (P.state.isExiting = true ∧ vm.killprog f runhd = (vm, false)) ∨
      ∃ P' go, Dispatch P P' runhd go ∧ vm.killprog f runhd = (vm.put f P', go) := by
  rw [Vm.killprog, hP]
  simp only
  by_cases hrun : (runhd && P.state = .ready) = true
  · rw [if_pos hrun]
    have hready : P.state = .ready := of_decide_eq_true (Bool.and_eq_true_iff.mp hrun).2
    refine .inr ⟨_, _, ?_, rfl⟩
    exact ⟨rfl, rfl, fun _ => rfl, fun _ => rfl, by rw [hready]; rfl, nofun, fun _ => .inl rfl⟩
  rw [if_neg hrun]
  have hrest : P.state.isExiting = false → P.state ≠ .release → ∃ P' go, Dispatch P P' runhd go ∧
      (if P.addrun then
        (vm.put f { P with kill := true, killed := true, addrun := false, state := .ready }, false)
      else if P.debug then (vm.put f { P with state := .broken, debug := false }, false)
      else (vm.put f { P with state := .exiting false }, true)) = (vm.put f P', go) := by
    intro halive hrelease
    by_cases haddrun : P.addrun = true
    · rw [if_pos haddrun]
      refine ⟨_, _, ?_, rfl⟩
      exact ⟨rfl, rfl, nofun, fun _ => rfl, halive, nofun, fun _ => .inl rfl⟩
    · rw [if_neg haddrun]
      by_cases hdebug : P.debug = true
      · rw [if_pos hdebug]
        refine ⟨_, _, ?_, rfl⟩
        refine ⟨rfl, rfl, nofun, id, halive, nofun, fun _ => .inr ?_⟩
        simp [Prog.breaks, hdebug, haddrun, halive, hrelease, hrun]
      · rw [if_neg hdebug]
        refine ⟨_, _, ?_, rfl⟩
        exact ⟨rfl, rfl, nofun, id, halive, fun _ => rfl, nofun⟩
  cases hs : P.state with
  | release =>
    refine .inr ⟨_, _, ?_, rfl⟩
    exact ⟨rfl, rfl, fun _ => rfl, fun _ => rfl, by rw [hs]; rfl, nofun, fun _ => .inl rfl⟩
  | exiting b => exact .inl ⟨rfl, rfl⟩
  | ready | alt | send | recv | broken | debug =>
    exact .inr (hrest (by rw [hs]; rfl) (by rw [hs]; nofun))

theorem Vm.Half.killprog (h : vm.Half e n) (f : ℕ) (runhd : Bool) :
    (vm.killprog f runhd).1.Half e n := by
  cases hP : vm.prog f with
  | none =>
    rw [Vm.killprog, hP]
    exact h
  | some P =>
    rcases killprog_cases hP runhd with ⟨-, heq⟩ | ⟨P', go, hd, heq⟩
    · rw [heq]
      exact h
    · rw [heq]
      exact h.put hP hd.group hd.itself

theorem Vm.Whole.newprog (h : vm.Whole) (p : ℕ) : (vm.newprog p).Whole := by
  rw [Vm.newprog]
  cases hP : vm.prog p with
  | none => exact h
  | some P =>
    simp only
    have hfresh : vm.prog (vm.pidnum + 1) = none := by
      by_contra hne
      obtain ⟨Q, hQ⟩ := Option.ne_none_iff_exists'.mp hne
      have := h.bound _ Q hQ
      omega
    split_ifs
    · refine h.put hP rfl fun hex => ?_
      simp [h.itself p P hP hex]
    · have hgrp : P.group ≤ vm.pidnum := (h.order p P hP).trans (h.bound p P hP)
      exact
        { bound := fun q Q hQ => by
            rcases put_prog hQ with ⟨rfl, -⟩ | ⟨-, hQ⟩
            · exact le_rfl
            · exact (h.bound q Q hQ).trans (Nat.le_succ _)
          order := fun q Q hQ => by
            rcases put_prog hQ with ⟨rfl, rfl⟩ | ⟨-, hQ⟩
            · exact hgrp.trans (Nat.le_succ _)
            · exact h.order q Q hQ
          live := fun q Q hQ => by
            rcases put_prog hQ with ⟨rfl, rfl⟩ | ⟨-, hQ⟩
            · exact h.live p P hP
            · exact h.live q Q hQ
          memb := fun g G hG => by
            refine (h.memb g G hG).imp id fun ⟨q, Q, hQ, hQg⟩ => ⟨q, Q, ?_, hQg⟩
            have hne : q ≠ vm.pidnum + 1 := fun heq => by
              rw [heq, hfresh] at hQ
              cases hQ
            exact (put_other hne).trans hQ
          parent := h.parent
          own := fun q Q hQ hne => by
            rcases put_prog hQ with ⟨rfl, rfl⟩ | ⟨-, hQ⟩
            · constructor
              · by_contra hsome
                obtain ⟨G, hG⟩ := Option.ne_none_iff_exists'.mp hsome
                have := h.gbound _ G hG
                omega
              · intro hmem
                have := (h.fbound _ hmem).1
                omega
            · exact h.own q Q hQ hne
          gbound := fun g G hG => (h.gbound g G hG).trans (Nat.le_succ _)
          fbound := fun g hg => (h.fbound g hg).imp (fun hle => hle.trans (Nat.le_succ _)) id
          fnodup := h.fnodup
          cbound := fun q hq => by
            obtain ⟨hle, hnone⟩ := h.cbound q hq
            exact ⟨hle.trans (Nat.le_succ _),
              (put_other (Nat.lt_succ_of_le hle).ne).trans hnone⟩
          freed := fun q hq => by
            obtain ⟨hle, hnone, hcl⟩ := h.freed q hq
            exact ⟨hle.trans (Nat.le_succ _),
              (put_other (Nat.lt_succ_of_le hle).ne).trans hnone, hcl⟩
          nodup := h.nodup
          made := fun _ hq => by cases hq
          itself := fun q Q hQ hex => by
            rcases put_prog hQ with ⟨-, rfl⟩ | ⟨-, hQ⟩
            · cases hex
            · exact h.itself q Q hQ hex }

theorem Vm.Whole.depart (h : vm.Whole) (hP : vm.prog p = some P) (hne : P.group ≠ p) :
    (vm.put p { P with group := p }).Half (some P.group) (some p) where
  bound q Q hQ := by
    rcases put_prog hQ with ⟨rfl, -⟩ | ⟨-, hQ⟩
    · exact h.bound q P hP
    · exact h.bound q Q hQ
  order q Q hQ := by
    rcases put_prog hQ with ⟨rfl, rfl⟩ | ⟨-, hQ⟩
    · exact le_rfl
    · exact h.order q Q hQ
  live q Q hQ := by
    rcases put_prog hQ with ⟨rfl, rfl⟩ | ⟨-, hQ⟩
    · exact .inl rfl
    · exact .inr ((h.live q Q hQ).resolve_left (by simp))
  memb g G hG := by
    obtain ⟨q, Q, hQ, hQg⟩ := (h.memb g G hG).resolve_left (by simp)
    by_cases hq : q = p
    · subst hq
      obtain rfl := Option.some.inj (hP.symm.trans hQ)
      exact .inl (congrArg some hQg.symm)
    · exact .inr ⟨q, Q, (put_other hq).trans hQ, hQg⟩
  parent := h.parent
  own q Q hQ hne' := by
    rcases put_prog hQ with ⟨rfl, rfl⟩ | ⟨-, hQ⟩
    · exact absurd rfl hne'
    · exact h.own q Q hQ hne'
  gbound := h.gbound
  fbound := h.fbound
  fnodup := h.fnodup
  cbound q hq := by
    obtain ⟨hle, hnone⟩ := h.cbound q hq
    have hqp : q ≠ p := fun heq => by
      rw [heq, hP] at hnone
      cases hnone
    exact ⟨hle, (put_other hqp).trans hnone⟩
  freed q hq := by
    obtain ⟨hle, hnone, hcl⟩ := h.freed q hq
    have hqp : q ≠ p := fun heq => by
      rw [heq, hP] at hnone
      cases hnone
    exact ⟨hle, (put_other hqp).trans hnone, hcl⟩
  nodup := h.nodup
  made q hq := by
    obtain rfl := Option.some.inj hq
    obtain ⟨hnone, hfreed⟩ := h.own p P hP hne
    exact ⟨hnone, hfreed, h.bound p P hP⟩
  itself q Q hQ hex := by
    rcases put_prog hQ with ⟨-, rfl⟩ | ⟨-, hQ⟩
    · exact h.itself p P hP hex
    · exact h.itself q Q hQ hex

theorem Vm.Half.found (h : vm.Half none (some p)) (hp : ∃ P, vm.prog p = some P ∧ P.group = p)
    {pg : Option ℕ} (hpg : ∀ k, pg = some k → k < p ∧ ∃ H, vm.grp k = some H) :
    Vm.Whole { vm with grp := Function.update vm.grp p (some ⟨false, pg⟩) } := by
  obtain ⟨hnone, hfreed, hle⟩ := h.made p rfl
  have hother : ∀ {g G}, vm.grp g = some G → g ≠ p := by
    rintro g G hG rfl
    rw [hnone] at hG
    cases hG
  have hkeep : ∀ {g G}, vm.grp g = some G →
      ∃ G, Function.update vm.grp p (some ⟨false, pg⟩) g = some G := fun hG =>
    ⟨_, (Function.update_of_ne (hother hG) _ _).trans hG⟩
  have hcases : ∀ {g G}, Function.update vm.grp p (some ⟨false, pg⟩) g = some G →
      (g = p ∧ G = ⟨false, pg⟩) ∨ vm.grp g = some G := by
    intro g G hG
    by_cases hg : g = p
    · rw [hg, Function.update_self] at hG
      exact .inl ⟨hg, (Option.some.inj hG).symm⟩
    · rw [Function.update_of_ne hg] at hG
      exact .inr hG
  exact
    { bound := h.bound
      order := h.order
      live := fun q Q hQ => by
        rcases h.live q Q hQ with heq | ⟨G, hG⟩
        · rw [Option.some.inj heq]
          exact .inr ⟨_, Function.update_self ..⟩
        · exact .inr (hkeep hG)
      memb := fun g G hG => by
        rcases hcases hG with ⟨rfl, -⟩ | hG
        · exact .inr ⟨g, hp⟩
        · exact h.memb g G hG
      parent := fun g G k hG hk => by
        rcases hcases hG with ⟨rfl, rfl⟩ | hG
        · obtain ⟨hlt, H, hH⟩ := hpg k hk
          exact ⟨hlt, hkeep hH⟩
        · obtain ⟨hlt, H, hH⟩ := h.parent g G k hG hk
          exact ⟨hlt, hkeep hH⟩
      own := fun q Q hQ hne => by
        obtain ⟨hq, hqf⟩ := h.own q Q hQ hne
        obtain ⟨P, hP, hPg⟩ := hp
        have hqp : q ≠ p := by
          rintro rfl
          obtain rfl := Option.some.inj (hP.symm.trans hQ)
          exact hne hPg
        exact ⟨(Function.update_of_ne hqp _ _).trans hq, hqf⟩
      gbound := fun g G hG => by
        rcases hcases hG with ⟨rfl, -⟩ | hG
        · exact hle
        · exact h.gbound g G hG
      fbound := fun g hg => by
        have hgp : g ≠ p := fun heq => hfreed (heq ▸ hg)
        exact ⟨(h.fbound g hg).1, (Function.update_of_ne hgp _ _).trans (h.fbound g hg).2⟩
      fnodup := h.fnodup
      cbound := h.cbound
      freed := h.freed
      nodup := h.nodup
      made := fun _ hq => by cases hq
      itself := h.itself }

theorem moveup_prog (k : ℕ) (vm : Vm) (g : ℕ) : (vm.moveup k g).1.prog = vm.prog ∧
    (vm.moveup k g).1.pidnum = vm.pidnum ∧ (vm.moveup k g).1.closing = vm.closing ∧
    (vm.moveup k g).1.freed = vm.freed := by
  induction k generalizing vm g with
  | zero => exact ⟨rfl, rfl, rfl, rfl⟩
  | succ k ih =>
    rw [Vm.moveup]
    split_ifs
    · exact ⟨rfl, rfl, rfl, rfl⟩
    · split
      · exact ⟨rfl, rfl, rfl, rfl⟩
      · split
        · exact ⟨rfl, rfl, rfl, rfl⟩
        · exact ih _ _

theorem delgrp_prog (vm : Vm) (g : ℕ) : (vm.delgrp g).1.prog = vm.prog ∧
    (vm.delgrp g).1.pidnum = vm.pidnum ∧ (vm.delgrp g).1.closing = vm.closing ∧
    (vm.delgrp g).1.freed = vm.freed := moveup_prog _ vm g

theorem Vm.Whole.grpof (h : vm.Whole) (hP : vm.prog p = some P) : ∃ G, vm.grp P.group = some G :=
  (h.live p P hP).resolve_left (by simp)

theorem Vm.Whole.newgrp (h : vm.Whole) (p : ℕ) : (vm.newgrp p).Whole := by
  rw [Vm.newgrp]
  cases hP : vm.prog p with
  | none => exact h
  | some P =>
    simp only
    split_ifs with hne
    · exact h
    · obtain ⟨G, hG⟩ := h.grpof hP
      obtain ⟨hhalf, hpar⟩ := (h.depart hP hne).delgrp hG
      have hlt : P.group < p := lt_of_le_of_ne (h.order p P hP) hne
      refine hhalf.found ⟨{ P with group := p }, ?_, rfl⟩ fun k hk => ?_
      · rw [(delgrp_prog _ _).1]
        exact put_self
      · obtain ⟨hle, hH⟩ := hpar k hk
        exact ⟨hle.trans_lt hlt, hH⟩

theorem Vm.Whole.unlink (h : vm.Whole) (p : ℕ) : (vm.unlink p).Whole := by
  rw [Vm.unlink]
  cases hP : vm.prog p with
  | none => exact h
  | some P =>
    obtain ⟨G, hG⟩ := h.grpof hP
    have hkeep : ∀ {q Q}, Function.update vm.prog p none q = some Q →
        q ≠ p ∧ vm.prog q = some Q := by
      intro q Q hQ
      by_cases hq : q = p
      · rw [hq, Function.update_self] at hQ
        cases hQ
      · rw [Function.update_of_ne hq] at hQ
        exact ⟨hq, hQ⟩
    have hgone : ∀ {q}, vm.prog q = none → Function.update vm.prog p none q = none := by
      intro q hq
      by_cases hqp : q = p
      · rw [hqp, Function.update_self]
      · rw [Function.update_of_ne hqp, hq]
    have hhalf : Vm.Half { vm with
        prog := Function.update vm.prog p none
        closing := Function.update vm.closing p true } (some P.group) none :=
      { bound := fun q Q hQ => h.bound q Q (hkeep hQ).2
        order := fun q Q hQ => h.order q Q (hkeep hQ).2
        live := fun q Q hQ => h.live q Q (hkeep hQ).2
        memb := fun g G' hG' => by
          obtain ⟨q, Q, hQ, hQg⟩ := (h.memb g G' hG').resolve_left (by simp)
          by_cases hq : q = p
          · subst hq
            obtain rfl := Option.some.inj (hP.symm.trans hQ)
            exact .inl (congrArg some hQg.symm)
          · exact .inr ⟨q, Q, (Function.update_of_ne hq _ _).trans hQ, hQg⟩
        parent := h.parent
        own := fun q Q hQ => h.own q Q (hkeep hQ).2
        gbound := h.gbound
        fbound := h.fbound
        fnodup := h.fnodup
        cbound := fun q hq => by
          by_cases hqp : q = p
          · rw [hqp]
            exact ⟨h.bound p P hP, Function.update_self ..⟩
          · have hcl : vm.closing q = true := (Function.update_of_ne hqp _ _).symm.trans hq
            exact (h.cbound q hcl).imp id hgone
        freed := fun q hq => by
          obtain ⟨hle, hnone, hcl⟩ := h.freed q hq
          have hqp : q ≠ p := fun heq => by
            rw [heq, hP] at hnone
            cases hnone
          exact ⟨hle, hgone hnone, (Function.update_of_ne hqp _ _).trans hcl⟩
        nodup := h.nodup
        made := fun _ hq => by cases hq
        itself := fun q Q hQ => h.itself q Q (hkeep hQ).2 }
    exact (hhalf.delgrp hG).1

theorem Vm.Whole.free (h : vm.Whole) (hp : vm.closing p = true) : (vm.free p).Whole :=
  { h with
    cbound := fun q hq => by
      have hqp : q ≠ p := by
        rintro rfl
        change Function.update vm.closing q false q = true at hq
        rw [Function.update_self] at hq
        cases hq
      exact h.cbound q ((Function.update_of_ne hqp _ _).symm.trans hq)
    freed := fun q hq => by
      rcases List.mem_cons.mp hq with rfl | hq
      · obtain ⟨hle, hnone⟩ := h.cbound q hp
        exact ⟨hle, hnone, Function.update_self ..⟩
      · obtain ⟨hle, hnone, hcl⟩ := h.freed q hq
        have hqp : q ≠ p := fun heq => by
          rw [heq, hp] at hcl
          cases hcl
        exact ⟨hle, hnone, (Function.update_of_ne hqp _ _).trans hcl⟩
    nodup := by
      refine List.nodup_cons.mpr ⟨fun hmem => ?_, h.nodup⟩
      rw [(h.freed p hmem).2.2] at hp
      cases hp }

end Infernode.Sched
