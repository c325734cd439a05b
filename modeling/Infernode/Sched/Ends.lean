import Infernode.Sched.Kills

/-!
# The two ends of a kill

A kill of groups flags them and keeps a list of their Progs; when it is over, or fails, it finds
the flags again and clears them.
-/

namespace Infernode.Sched

variable {vm : Vm} {s : State} {T : Task} {i f p gid : ℕ} {mem : Bool}

theorem flag_grp {b : Bool} {on : ℕ → Bool} {g : ℕ} {G' : Progs}
    (h : (vm.flag b on).grp g = some G') :
    ∃ G, vm.grp g = some G ∧ G'.killed = if on g then b else G.killed := by
  obtain ⟨G, hG, rfl⟩ := Option.map_eq_some_iff.mp h
  refine ⟨G, hG, ?_⟩
  split_ifs <;> rfl

theorem call_grp (self : Option ℕ) (b : Bool) : (vm.call self b).grp = vm.grp ∧
    (vm.call self b).freedgrp = vm.freedgrp ∧ (vm.call self b).pidnum = vm.pidnum := by
  cases self with
  | none => exact ⟨rfl, rfl, rfl⟩
  | some p =>
    rw [Vm.call]
    cases vm.prog p <;> exact ⟨rfl, rfl, rfl⟩

theorem call_prog {self : Option ℕ} {b : Bool} {q : ℕ} {Q' : Prog}
    (h : (vm.call self b).prog q = some Q') :
    ∃ Q c, vm.prog q = some Q ∧ Q' = { Q with calling := c } := by
  cases self with
  | none => exact ⟨Q', Q'.calling, h, rfl⟩
  | some p =>
    rw [Vm.call] at h
    cases hP : vm.prog p with
    | none =>
      rw [hP] at h
      exact ⟨Q', Q'.calling, h, rfl⟩
    | some P =>
      simp only [hP] at h
      rcases put_prog h with ⟨rfl, rfl⟩ | ⟨-, hQ⟩
      · exact ⟨P, b, hP, rfl⟩
      · exact ⟨Q', Q'.calling, hQ, rfl⟩

theorem call_within (self : Option ℕ) (b : Bool) (g q : ℕ) :
    (vm.call self b).within g q = vm.within g q := by
  cases self with
  | none => rfl
  | some p =>
    rw [Vm.call]
    cases hP : vm.prog p with
    | none => rfl
    | some P =>
      by_cases hq : q = p
      · rw [Vm.within, Vm.within, hq, put_self, hP]
        rfl
      · rw [Vm.within, Vm.within, put_other hq]

def Vm.mark (vm : Vm) (b : Bool) (on : ℕ → Bool) (self : Option ℕ) : Vm :=
  (vm.flag b on).call self b

theorem mark_grp {b : Bool} {on : ℕ → Bool} {self : Option ℕ} {g : ℕ} {G' : Progs}
    (h : (vm.mark b on self).grp g = some G') :
    ∃ G, vm.grp g = some G ∧ G'.killed = if on g then b else G.killed := by
  rw [Vm.mark, (call_grp self b).1] at h
  exact flag_grp h

theorem mark_prog {b : Bool} {on : ℕ → Bool} {self : Option ℕ} {q : ℕ} {Q' : Prog}
    (h : (vm.mark b on self).prog q = some Q') : ∃ Q, vm.prog q = some Q ∧ Q.group = Q'.group := by
  obtain ⟨Q, c, hQ, rfl⟩ := call_prog h
  exact ⟨Q, hQ, rfl⟩

theorem mark_pidnum {b : Bool} {on : ℕ → Bool} {self : Option ℕ} :
    (vm.mark b on self).pidnum = vm.pidnum := (call_grp self b).2.2

theorem mark_known {b : Bool} {on : ℕ → Bool} {self : Option ℕ} {g : ℕ} (h : vm.known g) :
    (vm.mark b on self).known g := by
  rw [Vm.known, Vm.mark, (call_grp self b).1, (call_grp self b).2.1]
  exact h.imp (fun ⟨G, hG⟩ => ⟨_, Option.map_eq_some_iff.mpr ⟨G, hG, rfl⟩⟩) id

theorem mark_sound {b : Bool} {on : ℕ → Bool} {self : Option ℕ} (h : T.Sound vm)
    (hb : ∀ t ∈ T.targets, t ≤ vm.pidnum) : T.Sound (vm.mark b on self) := by
  have hflag : T.Sound (vm.flag b on) := h
  exact hflag.kept (.call self b) hb
    (fun _ t _ _ => (stays_call self b).mono fun _ _ hs => hs.1)
    fun _ _ t _ _ => (stays_call self b).mono fun _ _ hs => hs.2

theorem State.Kills.start (h : s.Kills) {on : ℕ → Bool} (self : Option ℕ)
    (hstacks : (s.set i (s.vm.mark true on self) (some T)).Stacks)
    (hold : ∀ U, s.task i = some U → U.gids = []) (hon : ∀ g, on g = true ↔ g ∈ T.gids)
    (hgids : ∀ g ∈ T.gids, ∃ G, s.vm.grp g = some G ∧ G.killed = false)
    (hpids : ∀ q Q, s.vm.prog q = some Q → Q.group ∈ T.gids → q ∈ T.pids)
    (hbound : ∀ q ∈ T.targets, q ≤ s.vm.pidnum) (hsound : T.Sound s.vm) :
    (s.set i (s.vm.mark true on self) (some T)).Kills := by
  -- a group of a kill that is on is flagged
  have hfree : ∀ j U g, s.task j = some U → g ∈ U.gids → g ∉ T.gids := by
    intro j U g hU hg hgT
    obtain ⟨G, hG, hclear⟩ := hgids g hgT
    rw [h.flagged j U g G hU hg hG] at hclear
    cases hclear
  refine ⟨hstacks, fun j U g G' hU hg hG' => ?_, fun g G' hG' hkilled => ?_,
    fun j k U V g hU hV hg hg' => ?_, fun j U g hU hg => ?_, fun j U q Q' hU hQ' hg => ?_,
    fun j U t hU ht => ?_, fun j U hU => ?_⟩
  · obtain ⟨G, hG, heq⟩ := mark_grp hG'
    rcases set_task hU with ⟨-, hU'⟩ | ⟨-, hU'⟩
    · obtain rfl := Option.some.inj hU'
      rw [heq, if_pos ((hon g).mpr hg)]
    · rw [heq, h.flagged j U g G hU' hg hG, ite_self]
  · obtain ⟨G, hG, heq⟩ := mark_grp hG'
    by_cases hg : g ∈ T.gids
    · exact ⟨i, T, Function.update_self .., hg⟩
    · rw [heq, if_neg fun hc => hg ((hon g).mp hc)] at hkilled
      obtain ⟨j, U, hU, hgU⟩ := h.flags g G hG hkilled
      have hj : j ≠ i := fun hji => by
        rw [hold U (hji ▸ hU)] at hgU
        cases hgU
      exact ⟨j, U, (Function.update_of_ne hj _ _).trans hU, hgU⟩
  · rcases set_task hU with ⟨hj, hU'⟩ | ⟨-, hU'⟩ <;> rcases set_task hV with ⟨hk, hV'⟩ | ⟨-, hV'⟩
    · exact hj.trans hk.symm
    · obtain rfl := Option.some.inj hU'
      exact absurd hg (hfree k V g hV' hg')
    · obtain rfl := Option.some.inj hV'
      exact absurd hg' (hfree j U g hU' hg)
    · exact h.alone j k U V g hU' hV' hg hg'
  · rcases set_task hU with ⟨-, hU'⟩ | ⟨-, hU'⟩
    · obtain rfl := Option.some.inj hU'
      obtain ⟨G, hG, -⟩ := hgids g hg
      exact mark_known (.inl ⟨G, hG⟩)
    · exact mark_known (h.known j U g hU' hg)
  · obtain ⟨Q, hQ, hsame⟩ := mark_prog hQ'
    rw [← hsame] at hg
    rcases set_task hU with ⟨-, hU'⟩ | ⟨-, hU'⟩
    · obtain rfl := Option.some.inj hU'
      exact hpids q Q hQ hg
    · exact h.among j U q Q hU' hQ hg
  · refine le_of_le_of_eq ?_ mark_pidnum.symm
    rcases set_task hU with ⟨-, hU'⟩ | ⟨-, hU'⟩
    · obtain rfl := Option.some.inj hU'
      exact hbound t ht
    · exact h.bound j U t hU' ht
  · rcases set_task hU with ⟨-, hU'⟩ | ⟨-, hU'⟩
    · obtain rfl := Option.some.inj hU'
      exact mark_sound hsound hbound
    · exact mark_sound (h.sound j U hU') fun t ht => h.bound j U t hU' ht

theorem State.Kills.clears (h : s.Kills) (hT : s.task i = some T) {g : ℕ} {G : Progs}
    (hg : g ∈ T.gids) (hG : s.vm.grp g = some G) : T.clears s.vm g = true := by
  obtain ⟨q, Q, hQ, hQg⟩ := (h.once.whole.memb g G hG).resolve_left nofun
  have hin : s.vm.within g q = true := within_iff.mpr ⟨Q, hQ, hQg⟩
  have hlist : T.pids.any (s.vm.within g) = true :=
    List.any_eq_true.mpr ⟨q, h.among i T q Q hT hQ (hQg ▸ hg), hin⟩
  have hhead : s.vm.head g ≠ [] := List.ne_nil_of_mem (h.once.whole.mem_head.mpr hin)
  cases hk : T.kind <;> simp [Task.clears, hg, hk, hlist, hhead]

theorem State.Kills.leave (h : s.Kills) (hT : s.task i = some T) : (s.leave i T).Kills := by
  have hstacks := h.once.leave i T
  have hother : ∀ {j U}, (s.leave i T).task j = some U → j ≠ i ∧ s.task j = some U := by
    intro j U hU
    rcases set_task hU with ⟨-, hno⟩ | hU'
    · cases hno
    · exact hU'
  have hmark : (s.leave i T).vm = s.vm.mark false (T.clears s.vm) T.self := rfl
  refine ⟨hstacks, fun j U g G' hU hg hG' => ?_, fun g G' hG' hkilled => ?_,
    fun j k U V g hU hV => h.alone j k U V g (hother hU).2 (hother hV).2, fun j U g hU hg => ?_,
    fun j U q Q' hU hQ' hg => ?_, fun j U t hU ht => ?_, fun j U hU => ?_⟩
  · obtain ⟨hj, hU'⟩ := hother hU
    obtain ⟨G, hG, heq⟩ := mark_grp (hmark ▸ hG')
    have hclear : ¬ T.clears s.vm g = true := fun hc => by
      rw [Task.clears, Bool.and_eq_true, decide_eq_true_eq] at hc
      exact hj (h.alone j i U T g hU' hT hg hc.1)
    rw [heq, if_neg hclear]
    exact h.flagged j U g G hU' hg hG
  · obtain ⟨G, hG, heq⟩ := mark_grp (hmark ▸ hG')
    split_ifs at heq with hclear
    · rw [heq] at hkilled
      cases hkilled
    · rw [heq] at hkilled
      obtain ⟨j, U, hU, hgU⟩ := h.flags g G hG hkilled
      have hj : j ≠ i := fun hji => by
        subst hji
        obtain rfl := Option.some.inj (hT.symm.trans hU)
        exact hclear (h.clears hT hgU hG)
      exact ⟨j, U, (Function.update_of_ne hj _ _).trans hU, hgU⟩
  · exact mark_known (h.known j U g (hother hU).2 hg)
  · obtain ⟨Q, hQ, hsame⟩ := mark_prog (hmark ▸ hQ')
    exact h.among j U q Q (hother hU).2 hQ (hsame ▸ hg)
  · exact (h.bound j U t (hother hU).2 ht).trans_eq mark_pidnum.symm
  · exact mark_sound (h.sound j U (hother hU).2) fun t ht => h.bound j U t (hother hU).2 ht

theorem State.Kills.begin (h : s.Kills) (hT : s.task i = some T) (hkind : T.kind = .wait p gid mem)
    (hin : s.vm.within gid p = true) (hclear : ¬ (s.vm.grp gid).any (·.killed) = true)
    (hok : s.unbroken gid mem) : (s.begin i T gid mem).Kills := by
  have hsound := h.sound i T hT
  rw [Task.Sound, hkind] at hsound
  obtain ⟨hnil, -, hfind⟩ := hsound
  obtain ⟨P, hP, hPg⟩ := within_iff.mp hin
  obtain ⟨G, hG⟩ := h.once.whole.grpof hP
  rw [hPg] at hG
  have hlist : ∀ t, t ∈ T.called ++ T.born ++ s.vm.head gid → T.self ≠ some t → ¬ s.vm.gone t →
      t ∈ s.vm.head gid := by
    intro t ht hself hgone
    rcases List.mem_append.mp ht with hmem | hmem
    · have hmem : t ∈ T.targets := List.mem_append_left _ hmem
      obtain ⟨Q, hQ, hg⟩ := hfind t ⟨hmem, hself, hgone⟩
      exact h.once.whole.mem_head.mpr (within_iff.mpr ⟨Q, hQ, hg⟩)
    · exact hmem
  refine h.start none (h.once.begin hT gid mem) (fun U hU => ?_) (fun g => ?_)
    (fun g hg => ?_) (fun q Q hQ hg => ?_) (fun q hq => ?_) ?_
  · obtain rfl := Option.some.inj (hT.symm.trans hU)
    exact hnil
  · simp
  · obtain rfl := List.mem_singleton.mp hg
    refine ⟨G, hG, ?_⟩
    simpa [hG] using hclear
  · exact h.once.whole.mem_head.mpr (within_iff.mpr ⟨Q, hQ, List.mem_singleton.mp hg⟩)
  · rcases List.mem_append.mp hq with hmem | hmem
    · exact h.bound i T q hT (List.mem_append_left _ hmem)
    · obtain ⟨Q, hQ, -⟩ := within_iff.mp (h.once.whole.mem_head.mp hmem)
      exact h.once.whole.bound q Q hQ
  · cases mem with
    | true => exact fun t ht => hlist t ht.1 ht.2.1 ht.2.2
    | false =>
      refine ⟨?_, List.mem_singleton.mpr rfl, fun t ht => ?_⟩
      · refine (Finset.card_le_card fun t ht => ?_).trans (List.toFinset_card_le _)
        have ht := mem_waiting.mp ht
        exact List.mem_toFinset.mpr (hlist t ht.1 ht.2.1 ht.2.2)
      · have hmem := hlist t ht.1 ht.2.1 ht.2.2
        obtain ⟨Q, hQ, hg⟩ := within_iff.mp (h.once.whole.mem_head.mp hmem)
        refine ⟨Q, hQ, hg, fun hbroken => ht.2.2 fun R hR => .inl ?_⟩
        obtain rfl := Option.some.inj (hQ.symm.trans hR)
        rcases hok with hflag | hmem | hall
        · exact absurd hflag hclear
        · cases hmem
        · exact hall t Q hQ hg hbroken

theorem State.Kills.call (h : s.Kills) (hnone : s.task i = none) (self : Option ℕ) :
    (s.set i (s.vm.call self true)
      (some ⟨self, .wait p gid mem, s.vm.head gid, [], [], [], [], []⟩)).Kills := by
  refine h.set (.begin hnone ⟨rfl, rfl⟩) (h.once.call i self rfl) (.call self true)
    (.of_stays fun _ => stays_call self true) (fun t ht => ?_) ⟨rfl, rfl, fun t ht => ?_⟩
  · have ht : t ∈ s.vm.head gid := by simpa [Task.targets] using ht
    obtain ⟨Q, hQ, -⟩ := within_iff.mp (h.once.whole.mem_head.mp ht)
    exact h.once.whole.bound t Q hQ
  · have hmem : t ∈ s.vm.head gid := by simpa [Task.targets] using ht.1
    have hin := h.once.whole.mem_head.mp hmem
    rw [← call_within self true] at hin
    exact within_iff.mp hin

theorem State.Kills.killgrp (h : s.Kills) (hnone : s.task i = none) {self : Option ℕ}
    (hok : s.unbroken gid mem) : (s.killgrp i self p gid mem).Kills := by
  rw [State.killgrp]
  split_ifs with hcan hflag
  · exact h.call hnone self
  · have hcall : (s.set i (s.vm.call self true)
        (some ⟨self, .wait p gid mem, s.vm.head gid, [], [], [], [], []⟩)).Kills :=
      h.call hnone self
    rw [Bool.and_eq_true] at hcan
    refine hcall.begin (Function.update_self ..) rfl ?_ ?_ ?_
    · exact (call_within self true gid p).trans hcan.1
    · have hsame : (s.vm.call self true).grp = s.vm.grp := (call_grp self true).1
      rw [State.set, hsame]
      exact hflag
    · refine .inr ((hok.resolve_left hflag).imp_right fun hall q Q' hQ' hg hb => ?_)
      obtain ⟨Q, c, hQ, rfl⟩ := call_prog hQ'
      exact hall q Q hQ hg hb
  · exact h

theorem State.Kills.retry (h : s.Kills) (hT : s.task i = some T) (hok : s.Ok (.retry i)) :
    (s.retry i T).Kills := by
  have hstacks := h.once.retry hT
  rw [State.retry] at hstacks ⊢
  split
  next p gid mem hkind =>
    simp only [hkind] at hstacks
    have hok := hok T p gid mem hT hkind
    split_ifs with hin hflag
    · rw [if_pos hin] at hstacks
      have hin : ¬ s.vm.within gid p = true := by simpa using hin
      rw [if_neg hin] at hok
      refine h.set (.set hT rfl rfl) hstacks (.refl _) (.refl s)
        (fun t ht => h.bound i T t hT ht) fun t ht => ?_
      have hsound := h.sound i T hT
      rw [Task.Sound, hkind] at hsound
      obtain ⟨Q, hQ, hg⟩ := hsound.2.2 t ht
      rcases hok t (within_iff.mpr ⟨Q, hQ, hg⟩) with hself | hgone
      · exact absurd hself ht.2.1
      · exact absurd hgone ht.2.2
    · exact h
    · have hin : s.vm.within gid p = true := by simpa using hin
      rw [if_pos hin] at hok
      exact h.begin hT hkind hin hflag hok
  next => exact h

theorem mem_tree : f ∈ s.vm.tree p ↔ f ≤ s.vm.pidnum ∧ ∃ P F, s.vm.prog p = some P ∧
    s.vm.prog f = some F ∧ s.vm.below P.group (s.vm.pidnum + 1) F.group = true := by
  simp only [Vm.tree, List.mem_filter, List.mem_range, Nat.lt_succ_iff, Option.any_eq_true]
  exact and_congr_right fun _ =>
    ⟨fun ⟨P, hP, F, hF, hb⟩ => ⟨P, F, hP, hF, hb⟩, fun ⟨P, F, hP, hF, hb⟩ => ⟨P, hP, F, hF, hb⟩⟩

theorem State.Kills.killgrptree (h : s.Kills) (hnone : s.task i = none) {self : Option ℕ}
    (hok : s.Ok (.killgrptree i self p mem)) : (s.killgrptree i self p mem).Kills := by
  have hstacks := h.once.killgrptree i self p mem
  rw [State.killgrptree] at hstacks ⊢
  split
  next hcan =>
    rw [if_pos hcan] at hstacks
    have hgid : ∀ {g}, g ∈ (s.vm.tree p).filterMap (fun f => (s.vm.prog f).map (·.group)) →
        ∃ f F, f ∈ s.vm.tree p ∧ s.vm.prog f = some F ∧ F.group = g := by
      intro g hg
      obtain ⟨f, hf, hF⟩ := List.mem_filterMap.mp hg
      obtain ⟨F, hF, hFg⟩ := Option.map_eq_some_iff.mp hF
      exact ⟨f, F, hf, hF, hFg⟩
    refine h.start self hstacks (fun U hU => ?_) (fun g => decide_eq_true_iff) (fun g hg => ?_)
      (fun q Q hQ hg => ?_) (fun q hq => ?_) fun t ht => ?_
    · rw [hnone] at hU
      cases hU
    · obtain ⟨f, F, hf, hF, rfl⟩ := hgid hg
      obtain ⟨G, hG⟩ := h.once.whole.grpof hF
      exact ⟨G, hG, hok f F G hf hF hG⟩
    · obtain ⟨f, F, hf, hF, hFg⟩ := hgid hg
      obtain ⟨-, P, F', hP, hF', hbelow⟩ := mem_tree.mp hf
      obtain rfl := Option.some.inj (hF.symm.trans hF')
      exact mem_tree.mpr ⟨h.once.whole.bound q Q hQ, P, Q, hP, hQ, hFg ▸ hbelow⟩
    · have hq : q ∈ s.vm.tree p := by simpa [Task.targets] using hq
      exact (mem_tree.mp hq).1
    · have ht : t ∈ s.vm.tree p := by simpa [Task.targets] using ht.1
      exact ht
  next => exact h

end Infernode.Sched
