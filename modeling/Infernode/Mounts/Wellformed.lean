import Infernode.Mounts.Table

/-!
# The mount table stays well formed

Every head has mounts, no file has two heads, and no lock is held between calls, as long
as no `malloc` fails while `cmount` makes a new head. It links that head first, and
`findmount` follows its mounts.
-/

namespace Infernode.Mounts

open Lib
open Namespace (File Flag MORDER MREPL MBEFORE MAFTER MCREATE MREADONLY)

variable {s s' t t' : Pgrp} {f : File}

structure Keyed (s : Pgrp) : Prop where
  hash : ∀ b, ∀ m ∈ s.mnthash b, MOUNTH m.fromchan.file = b
  keys : ∀ b, ((s.mnthash b).map fun m => m.fromchan.file).Nodup

def Mhead.Good (m : Mhead) : Prop := m.lock = false ∧ m.mount ≠ []

structure Wellformed (s : Pgrp) : Prop where
  ns : s.ns = false
  keyed : Keyed s
  heads : ∀ b, ∀ m ∈ s.mnthash b, m.Good

theorem Keyed.unique (h : Keyed s) {b b' : ℕ} {m m' : Mhead} (hm : m ∈ s.mnthash b)
    (hm' : m' ∈ s.mnthash b') (hfile : m.fromchan.file = m'.fromchan.file) : b = b' ∧ m = m' := by
  have hb : b = b' := by rw [← h.hash b m hm, ← h.hash b' m' hm', hfile]
  subst hb
  exact ⟨rfl, List.inj_on_of_nodup_map (h.keys b) hm hm' hfile⟩

def change (f : File) (g : Mhead → Mhead) (m : Mhead) : Mhead :=
  if m.fromchan.file = f then g m else m

theorem onhead_mnthash (h : Keyed s) (g : Mhead → Mhead) (b : ℕ) :
    (s.onhead f g).mnthash b = (s.mnthash b).map (change f g) := by
  simp only [Pgrp.onhead, Pgrp.chain, Function.update_apply]
  split_ifs with hb
  · subst hb
    rfl
  · symm
    refine (List.map_congr_left (fun m hm => if_neg (fun hfile => hb ?_))).trans (List.map_id _)
    rw [← h.hash b m hm, hfile]

theorem change_file {g : Mhead → Mhead} (hg : ∀ m, (g m).fromchan = m.fromchan) (m : Mhead) :
    (change f g m).fromchan = m.fromchan := by
  rw [change]
  split_ifs
  · exact hg m
  · rfl

theorem Keyed.onhead (h : Keyed s) {g : Mhead → Mhead} (hg : ∀ m, (g m).fromchan = m.fromchan) :
    Keyed (s.onhead f g) := by
  refine ⟨fun b m hm => ?_, fun b => ?_⟩
  · rw [onhead_mnthash h] at hm
    obtain ⟨m', hm', rfl⟩ := List.mem_map.mp hm
    rw [change_file hg, h.hash b m' hm']
  · rw [onhead_mnthash h, List.map_map]
    have hfiles : (fun m : Mhead => m.fromchan.file) ∘ change f g = fun m => m.fromchan.file := by
      funext m
      simp [change_file hg]
    rw [hfiles]
    exact h.keys b

theorem Keyed.congr (h : Keyed s) (hmnt : s'.mnthash = s.mnthash) : Keyed s' :=
  ⟨hmnt ▸ h.hash, hmnt ▸ h.keys⟩

theorem onhead_congr (hmnt : s'.mnthash = s.mnthash) (g : Mhead → Mhead) :
    (s'.onhead f g).mnthash = (s.onhead f g).mnthash := by
  simp [Pgrp.onhead, Pgrp.chain, hmnt]

def Others (f : File) (s : Pgrp) : Prop :=
  ∀ b, ∀ m ∈ s.mnthash b, m.fromchan.file ≠ f → m.Good

theorem Others.onhead (h : Others f s) (hk : Keyed s) {g : Mhead → Mhead}
    (hg : ∀ m, (g m).fromchan = m.fromchan) : Others f (s.onhead f g) := by
  intro b m hm hfile
  rw [onhead_mnthash hk] at hm
  obtain ⟨m', hm', rfl⟩ := List.mem_map.mp hm
  rw [change_file hg] at hfile
  rw [change, if_neg hfile]
  exact h b m' hm' hfile

theorem Others.wellformed (h : Others f s) (hk : Keyed s) (hns : s.ns = false)
    {g : Mhead → Mhead} (hg : ∀ m, (g m).fromchan = m.fromchan) (hgood : ∀ m, (g m).Good) :
    Wellformed (s.onhead f g) := by
  refine ⟨hns, hk.onhead hg, fun b m hm => ?_⟩
  by_cases hfile : m.fromchan.file = f
  · rw [onhead_mnthash hk] at hm
    obtain ⟨m, hm, rfl⟩ := List.mem_map.mp hm
    rw [change_file hg] at hfile
    rw [change, if_pos hfile]
    exact hgood m
  · exact h.onhead hk hg b m hm hfile

theorem Wellformed.others (h : Wellformed s) (f : File) : Others f s :=
  fun b m hm _ => h.heads b m hm

theorem Wellformed.congr (h : Wellformed s) (hmnt : s'.mnthash = s.mnthash)
    (hns : s'.ns = false) : Wellformed s' := by
  refine ⟨hns, h.keyed.congr hmnt, ?_⟩
  rw [hmnt]
  exact h.heads

/-- What calls of `newmount` change, and how many answers of `malloc` they take. -/
structure Allocates (n : ℕ) (s s' : Pgrp) : Prop where
  mnthash : s'.mnthash = s.mnthash
  ns : s'.ns = s.ns
  mallocs : s'.mallocs = s.mallocs.drop n

theorem Allocates.trans {n n' : ℕ} (h : Allocates n s s') (h' : Allocates n' s' t) :
    Allocates (n + n') s t :=
  ⟨h'.mnthash.trans h.mnthash, h'.ns.trans h.ns, by rw [h'.mallocs, h.mallocs, List.drop_drop]⟩

def Fails (n : ℕ) (s : Pgrp) : Prop := false ∈ s.mallocs.take n

theorem Fails.after {n n' : ℕ} (h : Fails n' s') (hn : s'.mallocs = s.mallocs.drop n) :
    Fails (n + n') s := by
  rw [Fails, hn, List.take_drop] at h
  exact List.mem_of_mem_drop h

theorem Fails.mono {n n' : ℕ} (h : Fails n s) (hn : n ≤ n') : Fails n' s :=
  List.take_subset_take_left _ hn h

theorem newmount_spec (c : Chan) (flag : Flag) (spec : Option String) :
    Ensures (newmount c flag spec) s (fun _ s' => Allocates 1 s s')
      (fun _ s' => s'.mnthash = s.mnthash ∧ s'.ns = s.ns ∧ Fails 1 s) := by
  rw [newmount]
  refine ensures_get ?_
  split_ifs with hfail
  · refine ensures_set (ensures_throw ⟨rfl, rfl, ?_⟩)
    obtain ⟨l, hl⟩ := List.head?_eq_some_iff.mp hfail
    simp [Fails, hl]
  · exact ensures_set (ensures_pure ⟨rfl, rfl, List.drop_one.symm⟩)

theorem copyunion_spec (flg : Flag) (ums : List Mount) :
    Ensures (copyunion flg ums) s (fun _ s' => Allocates ums.length s s')
      (fun _ s' => s'.mnthash = s.mnthash ∧ s'.ns = s.ns ∧ Fails ums.length s) := by
  induction ums generalizing s with
  | nil => exact ensures_pure ⟨rfl, rfl, rfl⟩
  | cons um ums ih =>
    rw [copyunion, List.length_cons, Nat.add_comm]
    refine (newmount_spec _ _ _).call (fun _ s' h => ?_)
      (fun _ _ h => ⟨h.1, h.2.1, h.2.2.mono (Nat.le_add_right 1 _)⟩)
    refine ih.call (fun _ s'' h' => ensures_pure (h.trans h')) (fun _ s'' h' => ?_)
    exact ⟨h'.1.trans h.mnthash, h'.2.1.trans h.ns, h'.2.2.after h.mallocs⟩

theorem place_ne_nil (order : Flag) {nms : List Mount} (h : nms ≠ []) (mount : List Mount) :
    place order nms mount ≠ [] := by
  simp only [place]
  split_ifs <;> simp [h]

theorem onhead_onhead (s : Pgrp) {g g' : Mhead → Mhead} (hg : ∀ m, (g m).fromchan = m.fromchan) :
    (s.onhead f g).onhead f g' = s.onhead f (g' ∘ g) := by
  simp only [Pgrp.onhead, Pgrp.chain, Function.update_self, Function.update_idem, List.map_map]
  congr 2
  refine List.map_congr_left (fun m _ => ?_)
  by_cases hm : m.fromchan.file = f
  · simp [hm, hg]
  · simp [hm]

def Free (f : File) (s : Pgrp) : Prop :=
  ∀ b, ∀ m ∈ s.mnthash b, m.fromchan.file = f → m.lock = false

theorem relocked (hk : Keyed t) (hfree : Free f t)
    (hmnt : s.mnthash = (t.onhead f Mhead.locked).mnthash) :
    (s.onhead f Mhead.unlocked).mnthash = t.mnthash := by
  rw [onhead_congr hmnt, onhead_onhead t (g := Mhead.locked) (fun _ => rfl)]
  funext b
  rw [onhead_mnthash hk]
  refine (List.map_congr_left (fun m hm => ?_)).trans (List.map_id _)
  rw [change]
  split_ifs with hfile
  · simp [Mhead.locked, Mhead.unlocked, ← hfree b m hm hfile]
  · rfl

theorem wlockns_spec {Q : PUnit → Pgrp → Prop} {E : Err → Pgrp → Prop} (hns : s.ns = false)
    (h : Q ⟨⟩ { s with ns := true }) : Ensures wlockns s Q E := by
  rw [wlockns]
  refine ensures_get ?_
  rw [hns, if_neg (by decide)]
  exact h

theorem wlock_spec {Q : PUnit → Pgrp → Prop} {E : Err → Pgrp → Prop} (hfree : Free f s)
    (h : Q ⟨⟩ (s.onhead f Mhead.locked)) : Ensures (wlock f) s Q E := by
  have hany : (s.head f).any (·.lock) = false := by
    rw [Option.any_eq_false]
    intro m hm
    have hfile : m.fromchan.file = f := by simpa using List.find?_some hm
    simp [hfree _ m (List.mem_of_find?_eq_some hm) hfile]
  rw [wlock]
  refine ensures_get ?_
  rw [hany, if_neg (by decide)]
  exact h

structure Ready (f : File) (t : Pgrp) : Prop where
  keyed : Keyed t
  others : Others f t
  free : Free f t

theorem addhead_ready (hs : Wellformed s) {old : Chan} (hnone : s.head old.file = none)
    (hst : s'.mnthash = s.mnthash) :
    Ready old.file (s'.chain old.file fun ms => ms ++ [⟨old, [], false⟩]) := by
  have hnew : ∀ m ∈ s.mnthash (MOUNTH old.file), m.fromchan.file ≠ old.file := by
    simpa [Pgrp.head] using hnone
  have hmem : ∀ b, ∀ m ∈ (s'.chain old.file fun ms => ms ++ [⟨old, [], false⟩]).mnthash b,
      m ∈ s.mnthash b ∨ b = MOUNTH old.file ∧ m = ⟨old, [], false⟩ := by
    intro b m hm
    simp only [Pgrp.chain, hst, Function.update_apply] at hm
    split_ifs at hm with hb
    · subst hb
      simpa using hm
    · exact .inl hm
  refine ⟨⟨fun b m hm => ?_, fun b => ?_⟩, fun b m hm hfile => ?_, fun b m hm hfile => ?_⟩
  · rcases hmem b m hm with hm | ⟨rfl, rfl⟩
    · exact hs.keyed.hash b m hm
    · rfl
  · simp only [Pgrp.chain, hst, Function.update_apply]
    split_ifs with hb
    · rw [List.map_append, List.nodup_append]
      refine ⟨hs.keyed.keys _, by simp, ?_⟩
      intro a ha c hc
      obtain ⟨m, hm, rfl⟩ := List.mem_map.mp ha
      obtain rfl : c = old.file := by simpa using hc
      exact hnew m hm
    · exact hs.keyed.keys b
  · rcases hmem b m hm with hm | ⟨-, rfl⟩
    · exact hs.heads b m hm
    · exact absurd rfl hfile
  · rcases hmem b m hm with hm | ⟨-, rfl⟩
    · exact (hs.heads b m hm).1
    · rfl

theorem Ready.setmount (h : Ready f t) (mount : List Mount) :
    Ready f (t.onhead f fun m => { m with mount := mount }) := by
  refine ⟨h.keyed.onhead (fun _ => rfl), h.others.onhead h.keyed (fun _ => rfl), ?_⟩
  intro b m hm hfile
  rw [onhead_mnthash h.keyed] at hm
  obtain ⟨m', hm', rfl⟩ := List.mem_map.mp hm
  have hsame := change_file (f := f) (g := fun m => { m with mount := mount }) (fun _ => rfl) m'
  rw [hsame] at hfile
  rw [change, if_pos hfile]
  exact h.free b m' hm' hfile

theorem Ready.congr (h : Ready f t) (hmnt : t'.mnthash = t.mnthash) : Ready f t' :=
  ⟨h.keyed.congr hmnt, fun b => hmnt ▸ h.others b, fun b => hmnt ▸ h.free b⟩

def oldmounts (order : Flag) : ℕ := if order = MREPL then 0 else 1

theorem gethead_spec (hs : Wellformed s) (old : Chan) (order : Flag) :
    Ensures (gethead old order) { s with ns := true }
      (fun _ t => Ready old.file t ∧ (t.mnthash = s.mnthash ∨
        s.head old.file = none ∧ t.mallocs = s.mallocs.drop (oldmounts order)))
      (fun _ _ => s.head old.file = none ∧ Fails (oldmounts order) s) := by
  have hnew : s.head old.file = none →
      Ready old.file (Pgrp.chain { s with ns := true } old.file
        fun ms => ms ++ [⟨old, [], false⟩]) :=
    fun hnone => addhead_ready hs hnone rfl
  rw [gethead]
  refine ensures_get ?_
  split_ifs with hnone horder
  · refine ensures_bind (ensures_modify ?_)
    rw [oldmounts, if_neg horder]
    refine (newmount_spec _ _ _).call (fun m t ht => ensures_modify ?_)
      (fun _ _ h => ⟨hnone, h.2.2⟩)
    exact ⟨((hnew hnone).congr ht.mnthash).setmount [m], .inr ⟨hnone, ht.mallocs⟩⟩
  · rw [oldmounts, if_pos (not_not.mp horder)]
    exact ensures_bind (ensures_modify (ensures_pure ⟨hnew hnone, .inr ⟨hnone, rfl⟩⟩))
  · have hready : Ready old.file s :=
      ⟨hs.keyed, hs.others _, fun b m hm _ => (hs.heads b m hm).1⟩
    exact ensures_pure ⟨hready.congr rfl, .inl rfl⟩

theorem fillhead_spec {old : Chan} (h : Ready old.file t) (new : Chan) (union : List Mount)
    (flag : Flag) (spec : Option String) :
    Ensures (fillhead new union old flag spec) (t.onhead old.file Mhead.locked)
      (fun _ t' => Wellformed t')
      (fun _ t' => t'.mnthash = (t.onhead old.file Mhead.locked).mnthash ∧ t'.ns = false ∧
        Fails (1 + union.tail.length) t) := by
  rw [fillhead]
  refine ensures_bind (ensures_modify ?_)
  refine (newmount_spec _ _ _).call (fun nm t₁ h₁ => ?_)
    (fun _ t₁ h₁ => ⟨h₁.1, h₁.2.1, h₁.2.2.mono (Nat.le_add_right 1 _)⟩)
  refine (copyunion_spec _ _).call (fun fs t₂ h₂ => ?_) (fun _ t₂ h₂ => ?_)
  · have hmnt : t₂.mnthash = (t.onhead old.file Mhead.locked).mnthash :=
      h₂.mnthash.trans h₁.mnthash
    have hlocked : ∀ m : Mhead, m.locked.fromchan = m.fromchan := fun _ => rfl
    have hkeyed : Keyed t₂ := (h.keyed.onhead hlocked).congr hmnt
    have hothers : Others old.file t₂ :=
      fun b => hmnt ▸ h.others.onhead h.keyed hlocked b
    refine ensures_bind (ensures_modify (ensures_bind (ensures_modify (ensures_pure ?_))))
    rw [onhead_onhead]
    · refine hothers.wellformed hkeyed (h₂.ns.trans h₁.ns) (fun _ => rfl) (fun m => ⟨rfl, ?_⟩)
      exact place_ne_nil _ (List.cons_ne_nil _ _) _
    · exact fun _ => rfl
  · exact ⟨h₂.1.trans h₁.mnthash, h₂.2.1.trans h₁.ns, h₂.2.2.after h₁.mallocs⟩

def newmounts (union : List Mount) (flag : Flag) : ℕ :=
  oldmounts (flag &&& MORDER) + (1 + union.tail.length)

theorem cmount_spec (hs : Wellformed s) (new : Chan) (umh : Option (List Mount)) (old : Chan)
    (flag : Flag) (spec : Option String)
    (hm : Refused new (umh.getD []) old flag ∨ s.head old.file ≠ none ∨
      ¬ Fails (newmounts (umh.getD []) flag) s) :
    Ensures (cmount new umh old flag spec) s (fun _ s' => Wellformed s')
      (fun _ s' => Wellformed s' ∧ s'.mnthash = s.mnthash) := by
  rw [cmount]
  split_ifs with hrefused
  · exact ensures_throw ⟨hs, rfl⟩
  have hm := hm.resolve_left hrefused
  refine ensures_bind (wlockns_spec hs.ns ?_)
  refine (gethead_spec hs old _).call (fun _ t ht => ?_) (fun _ _ h => ?_)
  · obtain ⟨ht, hhead⟩ := ht
    refine ensures_bind (wlock_spec ht.free ?_)
    refine ensures_catch ((fillhead_spec ht _ _ _ _).mono (fun _ _ h => h) (fun e t' h => ?_))
    obtain ⟨hmnt, hns, hfails⟩ := h
    have hsame : t.mnthash = s.mnthash := by
      refine hhead.resolve_right (fun hnew => ?_)
      exact hm.elim (fun hsome => hsome hnew.1) (fun h => h (hfails.after hnew.2))
    have hback : (t'.onhead old.file Mhead.unlocked).mnthash = s.mnthash :=
      (relocked ht.keyed ht.free hmnt).trans hsame
    refine ensures_bind (ensures_modify (ensures_throw ?_))
    exact ⟨hs.congr hback hns, hback⟩
  · exact absurd (h.2.mono (Nat.le_add_right _ _)) (hm.resolve_left (fun hsome => hsome h.1))

theorem eraseP_file {ms : List Mhead} (h : (ms.map fun m => m.fromchan.file).Nodup) {m : Mhead}
    (hm : m ∈ ms.eraseP fun m => m.fromchan.file = f) : m ∈ ms ∧ m.fromchan.file ≠ f := by
  induction ms with
  | nil => simp at hm
  | cons a ms ih =>
    rw [List.map_cons, List.nodup_cons] at h
    by_cases ha : a.fromchan.file = f
    · rw [List.eraseP_cons_of_pos (by simpa using ha)] at hm
      refine ⟨List.mem_cons_of_mem _ hm, fun hfile => h.1 ?_⟩
      rw [ha, ← hfile]
      exact List.mem_map_of_mem hm
    · rw [List.eraseP_cons_of_neg (by simpa using ha), List.mem_cons] at hm
      rcases hm with rfl | hm
      · exact ⟨List.mem_cons_self, ha⟩
      · exact ⟨List.mem_cons_of_mem _ (ih h.2 hm).1, (ih h.2 hm).2⟩

theorem unlinked (hk : Keyed s) (ho : Others f s) :
    Wellformed { s.chain f fun ms => ms.eraseP fun m => m.fromchan.file = f with ns := false } := by
  have hmem : ∀ b, ∀ m ∈ (s.chain f fun ms =>
      ms.eraseP fun m => m.fromchan.file = f).mnthash b, m ∈ s.mnthash b ∧ m.fromchan.file ≠ f := by
    intro b m hm
    simp only [Pgrp.chain, Function.update_apply] at hm
    split_ifs at hm with hb
    · subst hb
      exact eraseP_file (hk.keys _) hm
    · exact ⟨hm, fun hfile => hb (by rw [← hk.hash b m hm, hfile])⟩
  refine ⟨rfl, ⟨fun b m hm => hk.hash b m (hmem b m hm).1, fun b => ?_⟩,
    fun b m hm => ho b m (hmem b m hm).1 (hmem b m hm).2⟩
  simp only [Pgrp.chain, Function.update_apply]
  split_ifs with hb
  · exact (hk.keys _).sublist (List.eraseP_sublist.map _)
  · exact hk.keys b

theorem cunmount_spec (hs : Wellformed s) (mnt : Chan) (mounted : Option Chan) :
    Ensures (cunmount mnt mounted) s (fun _ s' => Wellformed s')
      (fun _ s' => Wellformed s' ∧ s'.mnthash = s.mnthash) := by
  have hlocked : ∀ m : Mhead, m.locked.fromchan = m.fromchan := fun _ => rfl
  have hfree : Free mnt.file { s with ns := true } := fun b m hm _ => (hs.heads b m hm).1
  have hkeyed : Keyed { s with ns := true } := hs.keyed.congr rfl
  have hothers : Others mnt.file { s with ns := true } := hs.others _
  have hgone := unlinked (hkeyed.onhead hlocked) (hothers.onhead hkeyed hlocked)
  rw [cunmount]
  refine ensures_bind (wlockns_spec hs.ns ?_)
  refine ensures_get ?_
  split
  · exact ensures_bind (ensures_modify (ensures_throw ⟨hs.congr rfl rfl, rfl⟩))
  · refine ensures_bind (wlock_spec hfree ?_)
    split
    · exact ensures_bind (ensures_modify (ensures_modify hgone))
    split_ifs
    · dsimp only
      split_ifs with hrest
      · exact ensures_bind (ensures_modify (ensures_modify hgone))
      · refine ensures_bind (ensures_modify (ensures_bind (ensures_modify (ensures_modify ?_))))
        rw [onhead_onhead, onhead_onhead _ hlocked]
        · have hs' : Wellformed { s with ns := false } := hs.congr rfl rfl
          exact (hs'.others _).wellformed hs'.keyed rfl (fun _ => rfl) (fun m => ⟨rfl, hrest⟩)
        · exact fun _ => rfl
    · have hback := relocked (s := Pgrp.onhead { s with ns := true } mnt.file Mhead.locked)
        hkeyed hfree rfl
      refine ensures_bind (ensures_modify (ensures_bind (ensures_modify (ensures_throw ?_))))
      exact ⟨hs.congr hback rfl, hback⟩

def Meets (s : Pgrp) : Act → Prop
  | .mount new umh old flag _ mallocs =>
    Refused new (umh.getD []) old flag ∨ s.head old.file ≠ none ∨
      false ∉ mallocs.take (newmounts (umh.getD []) flag)
  | .unmount _ _ => True

theorem call_spec (hs : Wellformed s) {a : Act} (ha : Meets s a) :
    Ensures (call a) s (fun _ s' => Wellformed s')
      (fun _ s' => Wellformed s' ∧ s'.mnthash = s.mnthash) := by
  cases a with
  | mount new umh old flag spec mallocs =>
    rw [call]
    refine ensures_bind (ensures_modify ?_)
    have hs' : Wellformed { s with mallocs := mallocs } := hs.congr rfl hs.ns
    exact (cmount_spec hs' new umh old flag spec ha).call (fun _ _ h => ensures_pure h)
      (fun _ _ h => h)
  | unmount mnt mounted => exact cunmount_spec hs mnt mounted

theorem step_wellformed (hs : Wellformed s) {a : Act} (ha : Meets s a) :
    Wellformed (step s a) := by
  have h := call_spec hs ha
  rw [step]
  cases hcall : call a s with
  | ok _ s' => exact h.ok hcall
  | error _ s' => exact (h.error hcall).1

theorem newpgrp_wellformed : Wellformed newpgrp :=
  ⟨rfl, ⟨fun _ _ h => absurd h List.not_mem_nil, fun _ => List.nodup_nil⟩,
    fun _ _ h => absurd h List.not_mem_nil⟩

theorem Wellformed.findmount (h : Wellformed s) (f : File) : findmount s f ≠ none := by
  rw [Mounts.findmount]
  split
  · simp
  · rename_i m hm
    have hne := (h.heads _ m (List.mem_of_find?_eq_some hm)).2
    simpa using hne

/-- In every run whose mounts on new files get their memory, every head has mounts, every
file one head, no lock is held between calls, and a call that raises changes no mount. -/
theorem mounts_survive {acts : List Act} (hm : Always step Meets newpgrp acts) :
    let s := acts.foldl step newpgrp
    (∀ b, ∀ m ∈ s.mnthash b, m.mount ≠ [] ∧ m.lock = false) ∧ s.ns = false ∧
    (∀ f, findmount s f ≠ none) ∧
    (∀ b b' m m', m ∈ s.mnthash b → m' ∈ s.mnthash b' → m.fromchan.file = m'.fromchan.file →
      b = b' ∧ m = m') ∧
    (∀ b, ((s.mnthash b).map fun m => m.fromchan.file).Nodup) ∧
    ∀ a, Meets s a → ∀ e t, call a s = .error e t → t.mnthash = s.mnthash ∧ t.ns = false := by
  intro s
  have hs : Wellformed s :=
    hm.invariant Wellformed (fun _ _ hs ha => step_wellformed hs ha) newpgrp_wellformed
  refine ⟨fun b m hmem => ?_, hs.ns, hs.findmount, ?_, hs.keyed.keys, fun a ha e t hcall => ?_⟩
  · exact ⟨(hs.heads b m hmem).2, (hs.heads b m hmem).1⟩
  · exact fun b b' m m' hmem hmem' hfile => hs.keyed.unique hmem hmem' hfile
  · have h := (call_spec hs ha).error hcall
    exact ⟨h.2, h.1.ns⟩

def dir (path : ℕ) : Chan := ⟨⟨0, 0, path⟩, true, none⟩

/-- A new head stays in the table with no mounts; one of a union leaves the name space
locked. -/
theorem unmounted_head :
    (∃ t, call (.mount (dir 1) none (dir 2) MREPL none [false]) newpgrp = .error .Enomem t ∧
      t.head (dir 2).file = some ⟨dir 2, [], false⟩ ∧ findmount t (dir 2).file = none ∧
      t.mnthash ≠ newpgrp.mnthash) ∧
    ∃ t, call (.mount (dir 1) none (dir 2) MBEFORE none [false]) newpgrp = .error .Enomem t ∧
      t.ns = true := by
  refine ⟨⟨_, rfl, rfl, rfl, fun h => ?_⟩, _, rfl, rfl⟩
  have hhead := congrFun h 2
  exact absurd hhead nofun

/-- The head is there when the second mount fails. -/
theorem mounts_survive_mounted :
    let s := [Act.mount (dir 1) none (dir 2) MBEFORE none [true, true]].foldl step newpgrp
    (∃ m ∈ s.mnthash 2, m.mount.length = 2) ∧
    ∃ t, call (.mount (dir 3) none (dir 2) MREPL none [false]) s = .error .Enomem t ∧
      t.mnthash = s.mnthash := by
  have hm : Always step Meets newpgrp [.mount (dir 1) none (dir 2) MBEFORE none [true, true]] :=
    ⟨.inr (.inr (by decide)), trivial⟩
  have h := (mounts_survive hm).2.2.2.2.2 (.mount (dir 3) none (dir 2) MREPL none [false])
    (.inr (.inl (by decide))) .Enomem _ rfl
  exact ⟨⟨_, List.mem_cons_self, rfl⟩, _, rfl, h.1⟩

end Infernode.Mounts
