import Infernode.Sched.Whole

/-!
# Each Prog is freed once

A Prog that is being killed is at one place of one thread, so the thread that unlinks it is the
one that frees it.
-/

namespace Infernode.Sched

variable {vm vm' : Vm} {s : State} {e : Event} {p f : ℕ} {P P' : Prog}

def Vm.Entry (vm : Vm) (f : ℕ) (b : Bool) : Prop :=
  if b then vm.closing f = true else ∃ P, vm.prog f = some P ∧ P.state = .exiting false

def Task.on (T : Task) : List ℕ := T.doing.map Prod.fst

structure State.Stacks (s : State) : Prop where
  whole : s.vm.Whole
  entry : ∀ i T f b, s.task i = some T → (f, b) ∈ T.doing → s.vm.Entry f b
  nodup : ∀ i T, s.task i = some T → T.on.Nodup
  apart : ∀ i j T T', s.task i = some T → s.task j = some T' → i ≠ j → ∀ f ∈ T.on, f ∉ T'.on

theorem entry_put {g : ℕ} {b : Bool} (h : vm.Entry g b) (hP : vm.prog p = some P)
    (halive : P.state ≠ .exiting false ∨ P'.state = .exiting false) : (vm.put p P').Entry g b := by
  cases b with
  | true => exact h
  | false =>
    obtain ⟨Q, hQ, hex⟩ := h
    by_cases hg : g = p
    · subst hg
      obtain rfl := Option.some.inj (hP.symm.trans hQ)
      exact ⟨P', put_self, halive.resolve_left fun hne => hne hex⟩
    · exact ⟨Q, (put_other hg).trans hQ, hex⟩

theorem entry_grp {g : ℕ} {b : Bool} (h : vm.Entry g b) (hprog : vm'.prog = vm.prog)
    (hclosing : vm'.closing = vm.closing) : vm'.Entry g b := by
  rw [Vm.Entry, hprog, hclosing]
  exact h

theorem entry_call {g : ℕ} {b : Bool} (h : vm.Entry g b) (self : Option ℕ) (c : Bool) :
    (vm.call self c).Entry g b := by
  cases self with
  | none => exact h
  | some p =>
    rw [Vm.call]
    cases hP : vm.prog p with
    | none => exact h
    | some P => exact entry_put h hP (em _).symm

theorem entry_change {g : ℕ} {b : Bool} (h : vm.Entry g b) (p : ℕ) (state : PState)
    (addrun debug kill : Bool) : (vm.change p state addrun debug kill).Entry g b := by
  rcases change_cases vm p state addrun debug kill with heq | ⟨P, P', hP, heq, -, -, hstill, -⟩
  · rw [heq]
    exact h
  · rw [heq]
    refine entry_put h hP (.inl fun hex => ?_)
    rw [hex] at hstill
    cases hstill

theorem entry_killprog {g : ℕ} {b : Bool} (h : vm.Entry g b) (f : ℕ) (runhd : Bool) :
    (vm.killprog f runhd).1.Entry g b := by
  cases hP : vm.prog f with
  | none =>
    rw [Vm.killprog, hP]
    exact h
  | some P =>
    rcases killprog_cases hP runhd with ⟨-, heq⟩ | ⟨P', go, hd, heq⟩
    · rw [heq]
      exact h
    · rw [heq]
      refine entry_put h hP (.inl fun hex => ?_)
      have halive := hd.alive
      rw [hex] at halive
      cases halive

theorem entry_newprog {g : ℕ} {b : Bool} (hw : vm.Whole) (h : vm.Entry g b) (p : ℕ) :
    (vm.newprog p).Entry g b := by
  rw [Vm.newprog]
  cases hP : vm.prog p with
  | none => exact h
  | some P =>
    simp only
    split_ifs
    · exact entry_put h hP (em _).symm
    · cases b with
      | true => exact h
      | false =>
        obtain ⟨Q, hQ, hex⟩ := h
        have hle := hw.bound g Q hQ
        exact ⟨Q, (put_other (by omega)).trans hQ, hex⟩

theorem entry_newgrp {g : ℕ} {b : Bool} (h : vm.Entry g b) (p : ℕ) :
    (vm.newgrp p).Entry g b := by
  rw [Vm.newgrp]
  cases hP : vm.prog p with
  | none => exact h
  | some P =>
    simp only
    split_ifs
    · exact h
    · have hput : (vm.put p { P with group := p }).Entry g b := entry_put h hP (em _).symm
      obtain ⟨hprog, -, hclosing, -⟩ := delgrp_prog (vm.put p { P with group := p }) P.group
      exact entry_grp hput hprog hclosing

theorem entry_unlink {g : ℕ} {b : Bool} (h : vm.Entry g b) (hg : g ≠ f) :
    (vm.unlink f).Entry g b := by
  rw [Vm.unlink]
  cases hP : vm.prog f with
  | none => exact h
  | some P =>
    simp only
    rw [Vm.Entry, (delgrp_prog _ _).1, (delgrp_prog _ _).2.2.1]
    simp only [Function.update_of_ne hg]
    exact h

theorem unlink_closing (hP : vm.prog f = some P) : (vm.unlink f).closing f = true := by
  rw [Vm.unlink, hP]
  simp only
  rw [(delgrp_prog _ _).2.2.1]
  exact Function.update_self ..

theorem entry_free {g : ℕ} {b : Bool} (h : vm.Entry g b) (hg : g ≠ f) :
    (vm.free f).Entry g b := by
  cases b with
  | true => exact (Function.update_of_ne hg _ _).trans h
  | false => exact h

theorem State.Stacks.alive (h : s.Stacks) (hP : s.vm.prog f = some P)
    (halive : P.state ≠ .exiting false) {i : ℕ} {T : Task} (hT : s.task i = some T) :
    f ∉ T.on := by
  intro hf
  obtain ⟨⟨g, b⟩, hmem, rfl⟩ := List.mem_map.mp hf
  have hentry := h.entry i T g b hT hmem
  cases b with
  | true =>
    have hnone := (h.whole.cbound g hentry).2
    rw [hP] at hnone
    cases hnone
  | false =>
    obtain ⟨Q, hQ, hex⟩ := hentry
    obtain rfl := Option.some.inj (hP.symm.trans hQ)
    exact halive hex

theorem set_task {i j : ℕ} {T : Task} {T' : Option Task} (h : (s.set i vm' T').task j = some T) :
    (j = i ∧ T' = some T) ∨ (j ≠ i ∧ s.task j = some T) := by
  change Function.update s.task i T' j = some T at h
  by_cases hj : j = i
  · rw [hj, Function.update_self] at h
    exact .inl ⟨hj, h⟩
  · rw [Function.update_of_ne hj] at h
    exact .inr ⟨hj, h⟩

theorem State.Stacks.set (h : s.Stacks) (hw : vm'.Whole) (i : ℕ) {T' : Option Task}
    (hothers : ∀ j T f b, j ≠ i → s.task j = some T → (f, b) ∈ T.doing → vm'.Entry f b)
    (hown : ∀ T ∈ T', (∀ f b, (f, b) ∈ T.doing → vm'.Entry f b) ∧ T.on.Nodup ∧
      ∀ j U, j ≠ i → s.task j = some U → ∀ f ∈ T.on, f ∉ U.on) :
    (s.set i vm' T').Stacks where
  whole := hw
  entry j T f b hT hf := by
    rcases set_task hT with ⟨-, hT⟩ | ⟨hj, hT⟩
    · exact (hown T hT).1 f b hf
    · exact hothers j T f b hj hT hf
  nodup j T hT := by
    rcases set_task hT with ⟨-, hT⟩ | ⟨-, hT⟩
    · exact (hown T hT).2.1
    · exact h.nodup j T hT
  apart j k T U hT hU hjk f hf := by
    rcases set_task hT with ⟨hji, hT'⟩ | ⟨hj, hT'⟩ <;>
      rcases set_task hU with ⟨hki, hU'⟩ | ⟨hk, hU'⟩
    · exact absurd (hji.trans hki.symm) hjk
    · exact (hown T hT').2.2 k U hk hU' f hf
    · exact fun hfU => (hown U hU').2.2 j T hj hT' f hfU hf
    · exact h.apart j k T U hT' hU' hjk f hf

theorem State.Stacks.still (h : s.Stacks) (hw : vm'.Whole)
    (hkeep : ∀ f b, s.vm.Entry f b → vm'.Entry f b) (i : ℕ) {T' : Option Task}
    (hT' : ∀ T ∈ T', T.doing = [] ∨ ∃ U, s.task i = some U ∧ T.doing = U.doing) :
    (s.set i vm' T').Stacks := by
  refine h.set hw i (fun j T f b _ hT hf => hkeep f b (h.entry j T f b hT hf)) fun T hT => ?_
  rcases hT' T hT with hnil | ⟨U, hU, heq⟩
  · simp [Task.on, hnil]
  · have hon : T.on = U.on := by rw [Task.on, heq, Task.on]
    rw [hon, heq]
    exact ⟨fun f b hf => hkeep f b (h.entry i U f b hU hf), h.nodup i U hU,
      fun j V hj hV => h.apart i j U V hU hV (Ne.symm hj)⟩

theorem State.Stacks.take (h : s.Stacks) {i : ℕ} {T U : Task} (hU : s.task i = some U)
    (hdoing : T.doing = U.doing) (f : ℕ) (runhd : Bool) : (s.take i T f runhd).Stacks := by
  rw [State.take]
  have hw : (s.vm.killprog f runhd).1.Whole := h.whole.killprog f runhd
  have hkeep : ∀ g b, s.vm.Entry g b → (s.vm.killprog f runhd).1.Entry g b :=
    fun g b hg => entry_killprog hg f runhd
  by_cases hgo : (s.vm.killprog f runhd).2 = true
  · simp only [hgo, if_true]
    refine h.set hw i (fun j V g b _ hV hg => hkeep g b (h.entry j V g b hV hg)) fun T' hT' => ?_
    obtain rfl := Option.some.inj hT'
    -- the Prog was alive and is put on the stack
    obtain ⟨P, hP⟩ : ∃ P, s.vm.prog f = some P := by
      by_contra hnone
      rw [not_exists, ← Option.eq_none_iff_forall_ne_some] at hnone
      rw [Vm.killprog, hnone] at hgo
      cases hgo
    rcases killprog_cases hP runhd with ⟨-, heq⟩ | ⟨P', go, hd, heq⟩
    · rw [heq] at hgo
      cases hgo
    · rw [heq] at hgo
      have halive : P.state ≠ .exiting false := fun hex => by
        have halive := hd.alive
        rw [hex] at halive
        cases halive
      rw [hdoing]
      refine ⟨fun g b hg => ?_, ?_, fun j V hj hV g hg => ?_⟩
      · rcases List.mem_cons.mp hg with hhead | hg
        · obtain ⟨rfl, rfl⟩ := Prod.mk.inj hhead
          rw [heq]
          exact ⟨P', put_self, hd.goes hgo⟩
        · exact hkeep g b (h.entry i U g b hU hg)
      · exact List.nodup_cons.mpr ⟨h.alive hP halive hU, h.nodup i U hU⟩
      · rcases List.mem_cons.mp hg with rfl | hg
        · exact h.alive hP halive hV
        · exact h.apart i j U V hU hV (Ne.symm hj) g hg
  · simp only [hgo]
    exact h.still hw hkeep i fun T' hT' => by
      obtain rfl := Option.some.inj hT'
      exact .inr ⟨U, hU, hdoing⟩

theorem State.Stacks.next (h : s.Stacks) {i : ℕ} {T : Task} (hT : s.task i = some T)
    (runhd : Bool) : (s.next i T runhd).Stacks := by
  have hsame : ∀ {T'}, T'.doing = T.doing → (s.set i s.vm (some T')).Stacks := fun hd =>
    h.still h.whole (fun _ _ => id) i fun T₁ hT₁ => by
      obtain rfl := Option.some.inj hT₁
      exact .inr ⟨T, hT, hd⟩
  rw [State.next]
  split
  · split
    · exact h
    · split
      · exact hsame rfl
      · refine h.take hT ?_ _ _
        rfl
  · split
    · exact h
    · split_ifs
      · exact hsame rfl
      · refine h.take hT ?_ _ _
        rfl

theorem State.Stacks.leave (h : s.Stacks) (i : ℕ) (T : Task) : (s.leave i T).Stacks := by
  rw [State.leave]
  refine h.still ((h.whole.flag _ _).call _ _) (fun f b hf => entry_call ?_ _ _) i nofun
  exact entry_grp hf rfl rfl

theorem State.Stacks.newprog (h : s.Stacks) (p : ℕ) : (s.newprog p).Stacks := by
  have hkeep : ∀ f b, s.vm.Entry f b → (s.vm.newprog p).Entry f b :=
    fun f b hf => entry_newprog h.whole hf p
  have hw : (s.vm.newprog p).Whole := Vm.Whole.newprog h.whole p
  rw [State.newprog]
  split_ifs
  · exact ⟨hw, fun i T f b hT hf => hkeep f b (h.entry i T f b hT hf), h.nodup, h.apart⟩
  · have hbear : ∀ {T : Task} {n}, (T.bear p n).doing = T.doing := by
      intro T n
      rw [Task.bear]
      split_ifs <;> rfl
    have hon : ∀ {T : Task} {n}, (T.bear p n).on = T.on := by
      intro T n
      rw [Task.on, hbear, Task.on]
    refine ⟨hw, fun i T f b hT hf => ?_, fun i T hT => ?_, fun i j T U hT hU hij f hf => ?_⟩
    · obtain ⟨T₀, hT₀, rfl⟩ := Option.map_eq_some_iff.mp hT
      rw [hbear] at hf
      exact hkeep f b (h.entry i T₀ f b hT₀ hf)
    · obtain ⟨T₀, hT₀, rfl⟩ := Option.map_eq_some_iff.mp hT
      rw [hon]
      exact h.nodup i T₀ hT₀
    · obtain ⟨T₀, hT₀, rfl⟩ := Option.map_eq_some_iff.mp hT
      obtain ⟨U₀, hU₀, rfl⟩ := Option.map_eq_some_iff.mp hU
      rw [hon] at hf ⊢
      exact h.apart i j T₀ U₀ hT₀ hU₀ hij f hf

theorem State.Stacks.exit (h : s.Stacks) (i p : ℕ) (broken : Bool) :
    (s.exit i p broken).Stacks := by
  rw [State.exit]
  cases hP : s.vm.prog p with
  | none => exact h
  | some P =>
    simp only
    split_ifs with hruns hbroken
    · have halive : P.state ≠ .exiting false := fun hex => by
        simp [hex, Prog.runs] at hruns
      refine ⟨h.whole.put hP rfl nofun, fun j T f b hT hf => ?_, h.nodup, h.apart⟩
      exact entry_put (h.entry j T f b hT hf) hP (.inl halive)
    · have halive : P.state ≠ .exiting false := fun hex => by
        simp [hex, Prog.runs] at hruns
      refine h.set (Vm.Whole.unlink h.whole p) i (fun j T f b _ hT hf => ?_) fun T hT => ?_
      · refine entry_unlink (h.entry j T f b hT hf) ?_
        rintro rfl
        exact h.alive hP halive hT (List.mem_map_of_mem (f := Prod.fst) hf)
      · obtain rfl := Option.some.inj hT
        refine ⟨fun f b hf => ?_, List.nodup_singleton p, fun j U _ hU f hf => ?_⟩
        · obtain ⟨rfl, rfl⟩ := Prod.mk.inj (List.mem_singleton.mp hf)
          exact unlink_closing hP
        · obtain rfl := List.mem_singleton.mp hf
          exact h.alive hP halive hU
    · exact h

theorem State.Stacks.begin (h : s.Stacks) {i : ℕ} {T : Task} (hT : s.task i = some T) (gid : ℕ)
    (mem : Bool) : (s.begin i T gid mem).Stacks := by
  refine h.still (h.whole.flag _ _) (fun f b hf => entry_grp hf rfl rfl) i fun T' hT' => ?_
  obtain rfl := Option.some.inj hT'
  exact .inr ⟨T, hT, rfl⟩

theorem State.Stacks.call (h : s.Stacks) (i : ℕ) (self : Option ℕ) {T : Task}
    (hnil : T.doing = []) : (s.set i (s.vm.call self true) (some T)).Stacks := by
  refine h.still (h.whole.call _ _) (fun f b hf => entry_call hf _ _) i fun T' hT' => ?_
  obtain rfl := Option.some.inj hT'
  exact .inl hnil

theorem State.Stacks.killgrp (h : s.Stacks) (i : ℕ) (self : Option ℕ) (p gid : ℕ) (mem : Bool) :
    (s.killgrp i self p gid mem).Stacks := by
  rw [State.killgrp]
  split
  · have hcall : (s.set i (s.vm.call self true)
        (some ⟨self, .wait p gid mem, s.vm.head gid, [], [], [], [], []⟩)).Stacks :=
      h.call i self rfl
    simp only
    split
    · exact hcall
    · exact hcall.begin (Function.update_self ..) gid mem
  · exact h

theorem State.Stacks.killgrptree (h : s.Stacks) (i : ℕ) (self : Option ℕ) (p : ℕ) (mem : Bool) :
    (s.killgrptree i self p mem).Stacks := by
  rw [State.killgrptree]
  split
  · refine h.still ((h.whole.flag _ _).call _ _) (fun f b hf => entry_call ?_ _ _) i
      fun T hT => ?_
    · exact entry_grp hf rfl rfl
    · obtain rfl := Option.some.inj hT
      exact .inl rfl
  · exact h

theorem State.Stacks.retry (h : s.Stacks) {i : ℕ} {T : Task} (hT : s.task i = some T) :
    (s.retry i T).Stacks := by
  rw [State.retry]
  split
  · split_ifs
    · exact h.still h.whole (fun _ _ => id) i fun T' hT' => by
        obtain rfl := Option.some.inj hT'
        exact .inr ⟨T, hT, rfl⟩
    · exact h
    · exact h.begin hT _ _
  · exact h

theorem step_stacks (h : s.Stacks) (e : Event) : (step s e).Stacks := by
  cases e with
  | newprog p =>
    simp only [step]
    split_ifs
    · exact h.newprog p
    · exact h
  | newgrp p =>
    simp only [step]
    split_ifs
    · exact ⟨Vm.Whole.newgrp h.whole p, fun i T f b hT hf => entry_newgrp (h.entry i T f b hT hf) p,
        h.nodup, h.apart⟩
    · exact h
  | change p state addrun debug kill =>
    exact ⟨h.whole.change p state addrun debug kill,
      fun i T f b hT hf => entry_change (h.entry i T f b hT hf) p state addrun debug kill, h.nodup,
      h.apart⟩
  | exit i p broken =>
    simp only [step]
    split_ifs
    · exact h.exit i p broken
    · exact h
  | kill i self f =>
    simp only [step]
    split_ifs
    · exact h.call i self rfl
    · exact h
  | killgrp i self p gid mem =>
    simp only [step]
    split
    · exact h.killgrp i self p gid mem
    · exact h
  | retry i =>
    simp only [step]
    split
    next T hT => exact h.retry hT
    next => exact h
  | killgrptree i self p mem =>
    simp only [step]
    split
    · exact h.killgrptree i self p mem
    · exact h
  | next i runhd =>
    simp only [step]
    split
    next T hT =>
      split_ifs
      · exact h.next hT runhd
      · exact h
    · exact h
  | propex i f runhd =>
    simp only [step]
    split
    next T hT =>
      split
      · exact h.take hT rfl f runhd
      · exact h
    · exact h
  | unlink i =>
    simp only [step]
    split
    next T hT =>
      split
      next f doing hdoing =>
        have hmem : (f, false) ∈ T.doing := by
          rw [hdoing]
          exact List.mem_cons_self
        obtain ⟨P, hP, -⟩ := h.entry i T f false hT hmem
        have hnodup := h.nodup i T hT
        rw [Task.on, hdoing] at hnodup
        have hfresh := (List.nodup_cons.mp hnodup).1
        have hon : f ∈ T.on := List.mem_map_of_mem (f := Prod.fst) hmem
        refine h.set (Vm.Whole.unlink h.whole f) i (fun j U g b hj hU hg => ?_) fun T' hT' => ?_
        · refine entry_unlink (h.entry j U g b hU hg) ?_
          rintro rfl
          exact h.apart i j T U hT hU (Ne.symm hj) g hon
            (List.mem_map_of_mem (f := Prod.fst) hg)
        · obtain rfl := Option.some.inj hT'
          refine ⟨fun g b hg => ?_, hnodup, fun j U hj hU => ?_⟩
          · rcases List.mem_cons.mp hg with hhead | hrest
            · obtain ⟨rfl, rfl⟩ := Prod.mk.inj hhead
              exact unlink_closing hP
            · have hin : (g, b) ∈ T.doing := hdoing ▸ List.mem_cons_of_mem _ hrest
              refine entry_unlink (h.entry i T g b hT hin) fun hgf => ?_
              have hfst : g ∈ doing.map Prod.fst := List.mem_map_of_mem (f := Prod.fst) hrest
              exact hfresh (hgf ▸ hfst)
          · have hsame : T.on = f :: doing.map Prod.fst := by
              rw [Task.on, hdoing]
              rfl
            intro g hg
            exact h.apart i j T U hT hU (Ne.symm hj) g (hsame ▸ hg)
      · exact h
    · exact h
  | free i =>
    simp only [step]
    split
    next T hT =>
      split
      next f doing hdoing =>
        have hmem : (f, true) ∈ T.doing := by
          rw [hdoing]
          exact List.mem_cons_self
        have hnodup := h.nodup i T hT
        rw [Task.on, hdoing] at hnodup
        obtain ⟨hfresh, hrest⟩ := List.nodup_cons.mp hnodup
        have hon : f ∈ T.on := List.mem_map_of_mem (f := Prod.fst) hmem
        refine h.set (Vm.Whole.free h.whole (h.entry i T f true hT hmem)) i
          (fun j U g b hj hU hg => ?_) fun T' hT' => ?_
        · refine entry_free (h.entry j U g b hU hg) ?_
          rintro rfl
          exact h.apart i j T U hT hU (Ne.symm hj) g hon
            (List.mem_map_of_mem (f := Prod.fst) hg)
        · obtain rfl := Option.some.inj hT'
          refine ⟨fun g b hg => ?_, hrest, fun j U hj hU g hg => ?_⟩
          · have hin : (g, b) ∈ T.doing := hdoing ▸ List.mem_cons_of_mem _ hg
            refine entry_free (h.entry i T g b hT hin) fun hgf => ?_
            have hfst : g ∈ doing.map Prod.fst := List.mem_map_of_mem (f := Prod.fst) hg
            exact hfresh (hgf ▸ hfst)
          · refine h.apart i j T U hT hU (Ne.symm hj) g ?_
            rw [Task.on, hdoing]
            exact List.mem_cons_of_mem _ hg
      · exact h
    · exact h
  | finish i | error i =>
    simp only [step]
    split
    next T hT =>
      split_ifs
      · exact h.leave i T
      · exact h
    · exact h

end Infernode.Sched
