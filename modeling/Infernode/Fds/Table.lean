import Infernode.Lib.Runs

/-!
# Descriptor tables

`Fgrp` with what `sysfile.c` and `pgrp.c` do to it: `growfd`, `newfd`, `fdclose`, `kdup`,
`kpipe`, `newfgrp` and `dupfgrp`. A call comes with what `malloc` answers in it, whose
memory is zero, and with the channel that it gets from `namec`, if any.
-/

namespace Infernode.Fds

def DELTAFD : ℕ := 20
def MAXNFD : ℕ := 4000

structure Chan where
  path : ℕ
  qtauth : Bool
  deriving DecidableEq

structure Fgrp where
  fd : ℕ → Option Chan
  nfd : ℕ
  maxfd : ℕ
  minfd : ℕ

def growfd (f : Fgrp) (fd : ℕ) (malloc : Bool) : Option Fgrp :=
  if fd < f.nfd then some f
  else
    let n := min (f.nfd + DELTAFD) MAXNFD
    if n ≤ fd then none
    else if malloc then some { f with fd := fun i => if i < f.nfd then f.fd i else none, nfd := n }
    else none

def search (fd : ℕ → Option Chan) : ℕ → ℕ → ℕ
  | 0, i => i
  | n + 1, i => if fd i = none then i else search fd n (i + 1)

def newfd (f : Fgrp) (c : Chan) (malloc : Bool) : Option (ℕ × Fgrp) :=
  let i := search f.fd (f.nfd - f.minfd) f.minfd
  (growfd f i malloc).map fun f =>
    (i, { f with minfd := i + 1, maxfd := max f.maxfd i, fd := Function.update f.fd i (some c) })

def fdtochan (f : Fgrp) (fd : ℤ) : Option Chan :=
  if fd < 0 ∨ f.maxfd < fd then none else f.fd fd.toNat

def lowermax (fd : ℕ → Option Chan) : ℕ → ℕ → ℕ
  | 0, maxfd => maxfd
  | i + 1, maxfd => if fd i = none then lowermax fd i i else maxfd

def fdclose (f : Fgrp) (fd : ℕ) : Fgrp :=
  if f.maxfd < fd ∨ f.fd fd = none then f
  else
    let slots := Function.update f.fd fd none
    { f with
      fd := slots
      maxfd := if fd = f.maxfd then lowermax slots fd f.maxfd else f.maxfd
      minfd := min f.minfd fd }

def kfgrpclose (f : Fgrp) (fd : ℤ) : Option Fgrp :=
  (fdtochan f fd).map fun _ => fdclose f fd.toNat

def kdup (f : Fgrp) (old new : ℤ) (malloc : Bool) : Option (ℕ × Fgrp) :=
  match fdtochan f old with
  | none => none
  | some c =>
    if c.qtauth then none
    else if new = -1 then newfd f c malloc
    else if new < 0 then none
    else
      (growfd f new.toNat malloc).map fun f =>
        (new.toNat, { f with
          maxfd := max f.maxfd new.toNat
          fd := Function.update f.fd new.toNat (some c) })

def kopen (f : Fgrp) (namec : Option Chan) (malloc : Bool) : Option (ℕ × Fgrp) :=
  match namec with
  | none => none
  | some c => newfd f c malloc

/-- `ends` is none where one of the two channels is not made or opened. The state is
what the call leaves, also where it fails. -/
def kpipe (f : Fgrp) (ends : Option (Chan × Chan)) (malloc malloc' : Bool) :
    Option (ℕ × ℕ) × Fgrp :=
  match ends with
  | none => (none, f)
  | some (c, c') =>
    match newfd f c malloc with
    | none => (none, f)
    | some (fd, f) =>
      match newfd f c' malloc' with
      -- the error path writes the slot and nothing else
      | none => (none, { f with fd := Function.update f.fd fd none })
      | some (fd', f) => (some (fd, fd'), f)

def slots (maxfd : ℕ) : ℕ :=
  if DELTAFD ≤ maxfd then (maxfd + 1 + DELTAFD - 1) / DELTAFD * DELTAFD else DELTAFD

def emptyfgrp : Fgrp := { fd := fun _ => none, nfd := DELTAFD, maxfd := 0, minfd := 0 }

def newfgrp (old : Fgrp) (malloc : Bool) : Option Fgrp :=
  if malloc then some { fd := fun _ => none, nfd := slots old.maxfd, maxfd := old.maxfd, minfd := 0 }
  else none

def dupfgrp (f : Fgrp) (malloc : Bool) : Option Fgrp :=
  if malloc then
    some { fd := fun i => if i ≤ f.maxfd then f.fd i else none
           nfd := slots f.maxfd, maxfd := f.maxfd, minfd := f.minfd }
  else none

/-- A call on the table of a process. After `newfgrp` and `dupfgrp` it is the new table
that the run follows: the old one is left as it was. -/
inductive Call
  | kopen (namec : Option Chan) (malloc : Bool)
  | kdup (old new : ℤ) (malloc : Bool)
  | kpipe (ends : Option (Chan × Chan)) (malloc malloc' : Bool)
  | close (fd : ℤ)
  | newfgrp (malloc : Bool)
  | dupfgrp (malloc : Bool)

def answer {α : Type} (f : Fgrp) (table : α → Fgrp) : Option α → Bool × Fgrp
  | none => (false, f)
  | some a => (true, table a)

def exec (f : Fgrp) : Call → Bool × Fgrp
  | .kopen namec malloc => answer f (·.2) (kopen f namec malloc)
  | .kdup old new malloc => answer f (·.2) (kdup f old new malloc)
  | .kpipe ends malloc malloc' =>
    ((kpipe f ends malloc malloc').1.isSome, (kpipe f ends malloc malloc').2)
  | .close fd => answer f id (kfgrpclose f fd)
  | .newfgrp malloc => answer f id (newfgrp f malloc)
  | .dupfgrp malloc => answer f id (dupfgrp f malloc)

def step (f : Fgrp) (c : Call) : Fgrp := (exec f c).2

structure Holds (f : Fgrp) : Prop where
  top : ∀ i, f.fd i ≠ none → i ≤ f.maxfd
  room : f.maxfd < f.nfd
  below : ∀ i < f.minfd, f.fd i ≠ none
  limit : f.nfd ≤ MAXNFD

def next (f : Fgrp) (c : Chan) (malloc : Bool) : Option ℕ := (newfd f c malloc).map (·.1)

/-- A call leaves a table that keeps to its bounds and, where it fails, the open slots
and the next descriptor as they were. -/
def Meets (f : Fgrp) (call : Call) : Prop :=
  Holds (step f call) ∧ ((exec f call).1 = false →
    (∀ i, (step f call).fd i = none ↔ f.fd i = none) ∧
      ∀ c malloc, next (step f call) c malloc = next f c malloc)

def free (f : Fgrp) : Finset ℕ := (Finset.range f.nfd).filter fun i => (f.fd i).isNone

def Clear (f : Fgrp) : Call → Prop
  | .kpipe (some _) _ malloc' => (free f).card = 1 → f.nfd < MAXNFD ∧ malloc' = true
  | _ => True

/-!
## Bounds of descriptor tables

`maxfd` and `minfd` bound the open slots from above and the free ones from below after
every call but one: a `kpipe` whose second descriptor is not to be had clears the slot of
the first and leaves it hidden below `minfd`.
-/

open Lib

variable {f g : Fgrp} {c c' : Chan} {fd i k n : ℕ} {malloc malloc' : Bool}

structure Sound (f : Fgrp) : Prop extends Holds f where
  quanta : f.nfd % DELTAFD = 0

theorem Sound.vacant (h : Sound f) (hi : f.nfd ≤ i) : f.fd i = none := by
  by_contra hopen
  have htop := h.top i hopen
  have hroom := h.room
  omega

theorem Sound.minfd_le (h : Sound f) : f.minfd ≤ f.nfd := by
  by_contra hlt
  exact h.below f.nfd (by omega) (h.vacant le_rfl)

theorem mem_free : i ∈ free f ↔ i < f.nfd ∧ f.fd i = none := by
  simp [free]

theorem search_spec (slots : ℕ → Option Chan) (n i : ℕ) :
    i ≤ search slots n i ∧ search slots n i ≤ i + n ∧
      (∀ k, i ≤ k → k < search slots n i → slots k ≠ none) ∧
      (search slots n i < i + n → slots (search slots n i) = none) := by
  induction n generalizing i with
  | zero => exact ⟨le_rfl, le_rfl, fun k hk hlt => absurd hlt (not_lt.mpr hk), fun h => absurd h
      (lt_irrefl _)⟩
  | succ n ih =>
    rw [search]
    split
    case isTrue hfree =>
      exact ⟨le_rfl, by omega, fun k hk hlt => absurd hlt (not_lt.mpr hk), fun _ => hfree⟩
    case isFalse hopen =>
      obtain ⟨hle, hend, hbelow, hstop⟩ := ih (i + 1)
      refine ⟨by omega, by omega, fun k hk hlt => ?_, fun h => hstop (by omega)⟩
      rcases hk.eq_or_lt with rfl | hk
      · exact hopen
      · exact hbelow k hk hlt

def slot (f : Fgrp) : ℕ := search f.fd (f.nfd - f.minfd) f.minfd

theorem newfd_eq (f : Fgrp) (c : Chan) (malloc : Bool) :
    newfd f c malloc = (growfd f (slot f) malloc).map fun g =>
      (slot f, { g with
        minfd := slot f + 1, maxfd := max g.maxfd (slot f)
        fd := Function.update g.fd (slot f) (some c) }) := rfl

theorem Sound.slot_le (h : Sound f) : slot f ≤ f.nfd := by
  have hend := (search_spec f.fd (f.nfd - f.minfd) f.minfd).2.1
  have hmin := h.minfd_le
  unfold slot
  omega

theorem Sound.slot_below (h : Sound f) (hk : k < slot f) : f.fd k ≠ none := by
  rcases lt_or_ge k f.minfd with hlt | hge
  · exact h.below k hlt
  · exact (search_spec f.fd (f.nfd - f.minfd) f.minfd).2.2.1 k hge hk

theorem Sound.slot_none (h : Sound f) : f.fd (slot f) = none := by
  rcases h.slot_le.eq_or_lt with heq | hlt
  · exact h.vacant heq.ge
  · refine (search_spec f.fd (f.nfd - f.minfd) f.minfd).2.2.2 ?_
    have hmin := h.minfd_le
    unfold slot at hlt
    omega

theorem Sound.slot_lt_iff (h : Sound f) : slot f < f.nfd ↔ free f ≠ ∅ := by
  constructor
  · intro hlt hnone
    have hmem : slot f ∈ free f := mem_free.mpr ⟨hlt, h.slot_none⟩
    simp [hnone] at hmem
  · intro hfree
    obtain ⟨i, hi⟩ := Finset.nonempty_iff_ne_empty.mpr hfree
    by_contra hge
    exact h.slot_below (lt_of_lt_of_le (mem_free.mp hi).1 (not_lt.mp hge)) (mem_free.mp hi).2

structure Grown (f g : Fgrp) (fd : ℕ) : Prop where
  fd_eq : g.fd = f.fd
  maxfd : g.maxfd = f.maxfd
  minfd : g.minfd = f.minfd
  more : f.nfd ≤ g.nfd
  lt : fd < g.nfd
  sound : Sound g
  same : fd < f.nfd → g.nfd = f.nfd

theorem Sound.growfd (h : Sound f) (hg : growfd f fd malloc = some g) : Grown f g fd := by
  simp only [Fds.growfd] at hg
  split at hg
  case isTrue hlt =>
    cases hg
    exact ⟨rfl, rfl, rfl, le_rfl, hlt, h, fun _ => rfl⟩
  case isFalse hge =>
    split at hg
    · cases hg
    case isFalse hn =>
      split at hg
      case isFalse => cases hg
      cases hg
      have hfd : (fun i => if i < f.nfd then f.fd i else none) = f.fd := by
        funext i
        split
        · rfl
        · exact (h.vacant (by omega)).symm
      have hlimit := h.limit
      have hroom := h.room
      have hquanta := h.quanta
      have hmore : f.nfd ≤ min (f.nfd + DELTAFD) MAXNFD := le_min (Nat.le_add_right ..) hlimit
      refine ⟨hfd, rfl, rfl, hmore, not_le.mp hn, ⟨⟨fun i hi => ?_, lt_of_lt_of_le hroom hmore,
        fun i hi => ?_, min_le_right _ _⟩, ?_⟩, fun hlt => absurd hlt hge⟩
      · exact h.top i (hfd ▸ hi)
      · exact fun hnone => h.below i hi ((congrFun hfd i).symm.trans hnone)
      · simp only [DELTAFD, MAXNFD] at hquanta ⊢
        omega

theorem Sound.growfd_none_iff (h : Sound f) (hfd : fd ≤ f.nfd) :
    Fds.growfd f fd malloc = none ↔ fd = f.nfd ∧ (f.nfd = MAXNFD ∨ malloc = false) := by
  have hlimit := h.limit
  simp only [Fds.growfd]
  split
  case isTrue hlt => simp; omega
  case isFalse hge =>
    have heq : fd = f.nfd := by omega
    subst heq
    split
    case isTrue hn =>
      simp only [DELTAFD] at hn
      simp only [true_and, true_iff]
      omega
    case isFalse hn =>
      have hne : f.nfd ≠ MAXNFD := by
        simp only [DELTAFD] at hn
        omega
      cases malloc <;> simp [hne]

theorem Grown.put (h : Grown f g fd) (hbelow : ∀ i < n, i ≠ fd → f.fd i ≠ none) :
    Sound { g with
      minfd := n, maxfd := max g.maxfd fd, fd := Function.update g.fd fd (some c) } := by
  refine ⟨⟨fun i hi => ?_, max_lt h.sound.room h.lt, fun i hi => ?_, h.sound.limit⟩,
    h.sound.quanta⟩
  · rcases eq_or_ne i fd with rfl | hne
    · exact le_max_right _ _
    · simp only [Function.update_of_ne hne] at hi
      exact le_max_of_le_left (h.sound.top i hi)
  · rcases eq_or_ne i fd with rfl | hne
    · simp
    · simp only [Function.update_of_ne hne, h.fd_eq]
      exact hbelow i hi hne

theorem Sound.newfd (h : Sound f) (hg : newfd f c malloc = some (i, g)) :
    Sound g ∧ i = slot f ∧ g.fd = Function.update f.fd i (some c) ∧ g.minfd = i + 1 ∧
      f.nfd ≤ g.nfd ∧ (i < f.nfd → g.nfd = f.nfd) ∧ i < g.nfd := by
  rw [newfd_eq, Option.map_eq_some_iff] at hg
  obtain ⟨f', hgrow, heq⟩ := hg
  simp only [Prod.mk.injEq] at heq
  obtain ⟨rfl, rfl⟩ := heq
  have hgrown := h.growfd hgrow
  refine ⟨hgrown.put fun i hi hne => h.slot_below (by omega), rfl, ?_, rfl, hgrown.more,
    hgrown.same, hgrown.lt⟩
  simp only [hgrown.fd_eq]

theorem Sound.newfd_none_iff (h : Sound f) :
    Fds.newfd f c malloc = none ↔ free f = ∅ ∧ (f.nfd = MAXNFD ∨ malloc = false) := by
  have hlt := h.slot_lt_iff
  have hle := h.slot_le
  rw [newfd_eq, Option.map_eq_none_iff, h.growfd_none_iff hle]
  refine and_congr_left fun _ => ?_
  rw [← not_iff_not, ← ne_eq (free f), ← hlt]
  omega

theorem Sound.newfd_free (h : Sound f) (hg : Fds.newfd f c malloc = some (i, g)) :
    free f ≠ ∅ ∧ free g = (free f).erase i ∧ i ∈ free f ∧ g.nfd = f.nfd ∨
      free f = ∅ ∧ free g ≠ ∅ := by
  obtain ⟨hsound, rfl, hfd, -, hmore, hsame, hlt⟩ := h.newfd hg
  rcases eq_or_ne (free f) ∅ with hnone | hsome
  · refine .inr ⟨hnone, ?_⟩
    have heq : slot f = f.nfd := h.slot_le.antisymm (not_lt.mp fun hlt => h.slot_lt_iff.mp hlt hnone)
    have hq := h.quanta
    have hq' := hsound.quanta
    have hmem : slot f + 1 ∈ free g := by
      rw [mem_free, hfd, Function.update_of_ne (by omega)]
      refine ⟨?_, h.vacant (by omega)⟩
      simp only [DELTAFD] at hq hq'
      omega
    exact fun hempty => by simp [hempty] at hmem
  · have hin := h.slot_lt_iff.mpr hsome
    have hn := hsame hin
    refine .inl ⟨hsome, ?_, mem_free.mpr ⟨hin, h.slot_none⟩, hn⟩
    ext k
    rw [Finset.mem_erase, mem_free, mem_free, hfd, hn]
    rcases eq_or_ne k (slot f) with rfl | hne
    · simp
    · simp [hne]

theorem Sound.kdup {old new : ℤ} (h : Sound f) (hg : kdup f old new malloc = some (i, g)) :
    Sound g := by
  unfold Fds.kdup at hg
  split at hg
  · cases hg
  case h_2 c _ =>
    split at hg
    · cases hg
    split at hg
    · exact (h.newfd hg).1
    split at hg
    · cases hg
    rw [Option.map_eq_some_iff] at hg
    obtain ⟨f', hgrow, heq⟩ := hg
    simp only [Prod.mk.injEq] at heq
    obtain ⟨rfl, rfl⟩ := heq
    have hgrown := h.growfd hgrow
    exact hgrown.put fun k hk _ => h.below k (hgrown.minfd ▸ hk)

theorem lowermax_spec (slots : ℕ → Option Chan) (n m : ℕ) (hm : n ≤ m)
    (htop : ∀ i, slots i ≠ none → i < n) :
    (∀ i, slots i ≠ none → i ≤ lowermax slots n m) ∧ lowermax slots n m ≤ m := by
  induction n generalizing m with
  | zero => exact ⟨fun i hi => absurd (htop i hi) (Nat.not_lt_zero i), le_rfl⟩
  | succ n ih =>
    rw [lowermax]
    split
    case isTrue hfree =>
      have hbelow : ∀ i, slots i ≠ none → i < n := fun i hi => by
        have hlt := htop i hi
        have hne : i ≠ n := fun h => hi (h ▸ hfree)
        omega
      obtain ⟨htop', hle⟩ := ih n le_rfl hbelow
      exact ⟨htop', by omega⟩
    case isFalse =>
      exact ⟨fun i hi => (htop i hi).le.trans hm, le_rfl⟩

theorem Sound.fdclose (h : Sound f) (fd : ℕ) : Sound (fdclose f fd) := by
  unfold Fds.fdclose
  split
  · exact h
  case isFalse hopen =>
    have hslots : ∀ i, Function.update f.fd fd none i ≠ none → i ≠ fd ∧ f.fd i ≠ none :=
      fun i hi => by
        rcases eq_or_ne i fd with rfl | hne
        · simp at hi
        · exact ⟨hne, by rwa [Function.update_of_ne hne] at hi⟩
    refine ⟨⟨fun i hi => ?_, ?_, fun i hi => ?_, h.limit⟩, h.quanta⟩
    · obtain ⟨hne, hi'⟩ := hslots i hi
      have htop := h.top i hi'
      simp only
      split
      case isTrue heq =>
        refine (lowermax_spec _ fd f.maxfd heq.le fun k hk => ?_).1 i hi
        have hk' := hslots k hk
        have hktop := h.top k hk'.2
        omega
      · exact htop
    · simp only
      split
      case isTrue heq =>
        refine lt_of_le_of_lt (lowermax_spec _ fd f.maxfd heq.le fun k hk => ?_).2 h.room
        have hk' := hslots k hk
        have hktop := h.top k hk'.2
        omega
      · exact h.room
    · simp only [lt_min_iff] at hi
      simp only [Function.update_of_ne hi.2.ne]
      exact h.below i hi.1

theorem slots_spec {m : ℕ} (hm : m < MAXNFD) :
    m < slots m ∧ slots m ≤ MAXNFD ∧ slots m % DELTAFD = 0 := by
  simp only [MAXNFD] at hm
  by_cases hq : DELTAFD ≤ m
  · simp only [slots, if_pos hq]
    simp only [DELTAFD, MAXNFD] at hq ⊢
    omega
  · simp only [slots, if_neg hq]
    simp only [DELTAFD, MAXNFD] at hq ⊢
    refine ⟨by omega, by norm_num, by norm_num⟩

theorem emptyfgrp_sound : Sound emptyfgrp :=
  ⟨⟨fun i hi => absurd rfl hi, by decide, fun i hi => absurd hi (Nat.not_lt_zero i), by decide⟩,
    by decide⟩

theorem Sound.lt_limit (h : Sound f) : f.maxfd < MAXNFD := lt_of_lt_of_le h.room h.limit

theorem Sound.newfgrp (h : Sound f) (hg : newfgrp f malloc = some g) : Sound g := by
  unfold Fds.newfgrp at hg
  split at hg
  case isFalse => cases hg
  cases hg
  obtain ⟨hroom, hlimit, hquanta⟩ := slots_spec h.lt_limit
  exact ⟨⟨fun i hi => absurd rfl hi, hroom, fun i hi => absurd hi (Nat.not_lt_zero i), hlimit⟩,
    hquanta⟩

theorem Sound.dupfgrp (h : Sound f) (hg : dupfgrp f malloc = some g) : Sound g := by
  unfold Fds.dupfgrp at hg
  split at hg
  case isFalse => cases hg
  cases hg
  obtain ⟨hroom, hlimit, hquanta⟩ := slots_spec h.lt_limit
  refine ⟨⟨fun i hi => ?_, hroom, fun i hi => ?_, hlimit⟩, hquanta⟩
  · by_contra hgt
    exact hi (if_neg hgt)
  · have hopen := h.below i hi
    simpa [h.top i hopen] using hopen

theorem Sound.second_none_iff (h : Sound f) (c' : Chan) (hg : Fds.newfd f c malloc = some (i, g)) :
    Fds.newfd g c' malloc' = none ↔
      (free f).card = 1 ∧ (f.nfd = MAXNFD ∨ malloc' = false) := by
  rw [(h.newfd hg).1.newfd_none_iff]
  rcases h.newfd_free hg with ⟨-, hfree, hi, hnfd⟩ | ⟨hnone, hsome⟩
  · have hcard := Finset.card_erase_of_mem hi
    have hpos := Finset.card_pos.mpr ⟨i, hi⟩
    rw [hfree, hnfd, ← Finset.card_eq_zero, hcard]
    refine and_congr_left fun _ => ?_
    omega
  · simp [hnone, hsome]

theorem clear_kpipe_iff (hlimit : f.nfd ≤ MAXNFD) :
    Clear f (.kpipe (some (c, c')) malloc malloc') ↔
      ¬((free f).card = 1 ∧ (f.nfd = MAXNFD ∨ malloc' = false)) := by
  simp only [Clear, not_and, not_or, Bool.not_eq_false]
  refine imp_congr_right fun _ => and_congr_left fun _ => ?_
  omega

theorem Sound.answer {α : Type} {table : α → Fgrp} (h : Sound f) {o : Option α}
    (ho : ∀ a, o = some a → Sound (table a)) :
    Sound (answer f table o).2 ∧ ((answer f table o).1 = false → (answer f table o).2 = f) := by
  cases o with
  | none => exact ⟨h, fun _ => rfl⟩
  | some a => exact ⟨ho a rfl, fun hfail => absurd hfail (by simp [Fds.answer])⟩

theorem Sound.kpipe {ends : Option (Chan × Chan)} (h : Sound f)
    (hclear : Clear f (.kpipe ends malloc malloc')) :
    Sound (kpipe f ends malloc malloc').2 ∧
      ((kpipe f ends malloc malloc').1.isSome = false → (kpipe f ends malloc malloc').2 = f) := by
  unfold Fds.kpipe
  split
  · exact ⟨h, fun _ => rfl⟩
  case h_2 c c' =>
    split
    · exact ⟨h, fun _ => rfl⟩
    case h_2 i g hg =>
      split
      case h_1 hnone =>
        exact absurd ((h.second_none_iff _ hg).mp hnone) ((clear_kpipe_iff h.limit).mp hclear)
      case h_2 j g' hg' => exact ⟨((h.newfd hg).1.newfd hg').1, fun hfail => by simp at hfail⟩

theorem Sound.kpipe_hides {ends : Option (Chan × Chan)} (h : Sound f)
    (hclear : ¬Clear f (.kpipe ends malloc malloc')) :
    ¬Holds (Fds.kpipe f ends malloc malloc').2 := by
  intro hholds
  match ends, hclear with
  | none, hclear => exact hclear trivial
  | some (c, c'), hclear =>
    rw [clear_kpipe_iff h.limit, not_not] at hclear
    have hcard := hclear.1
    cases hg : Fds.newfd f c malloc with
    | none =>
      have hfree := (h.newfd_none_iff.mp hg).1
      simp [hfree] at hcard
    | some r =>
      obtain ⟨i, g⟩ := r
      have hnone := (h.second_none_iff c' hg).mpr hclear
      have hmin : g.minfd = i + 1 := (h.newfd hg).2.2.2.1
      simp only [Fds.kpipe, hg, hnone] at hholds
      exact hholds.below i (by simp only; omega) (Function.update_self ..)

theorem Sound.step (h : Sound f) {call : Call} (hclear : Clear f call) :
    Sound (step f call) ∧ ((exec f call).1 = false → Fds.step f call = f) := by
  cases call with
  | kopen namec malloc =>
    refine h.answer fun a ha => ?_
    cases namec with
    | none => cases ha
    | some c => exact (h.newfd ha).1
  | kdup old new malloc => exact h.answer fun a ha => h.kdup ha
  | kpipe ends malloc malloc' => exact h.kpipe hclear
  | close fd =>
    refine h.answer fun a ha => ?_
    obtain ⟨_, -, rfl⟩ := Option.map_eq_some_iff.mp ha
    exact h.fdclose fd.toNat
  | newfgrp malloc => exact h.answer fun a ha => h.newfgrp ha
  | dupfgrp malloc => exact h.answer fun a ha => h.dupfgrp ha

theorem Sound.meets_iff (h : Sound f) (call : Call) : Meets f call ↔ Clear f call := by
  constructor
  · intro hmeets
    cases call with
    | kpipe ends malloc malloc' => exact by_contra fun hclear => h.kpipe_hides hclear hmeets.1
    | _ => trivial
  · intro hclear
    obtain ⟨hsound, hfail⟩ := h.step hclear
    exact ⟨hsound.toHolds, fun hf => by simp [hfail hf]⟩

/-- In a run of calls from `newfgrp` each call keeps to the bounds, and changes nothing
where it fails, exactly if no `kpipe` finds the last free slot of a table that cannot grow. -/
theorem table_kept (calls : List Call) :
    Always step Meets emptyfgrp calls ↔ Always step Clear emptyfgrp calls :=
  always_congr Sound (fun _ call h => h.meets_iff call) (fun _ _ h hclear => (h.step hclear).1)
    emptyfgrp_sound calls

def nineteen : List Call :=
  List.replicate 19 (.kopen (some ⟨1, false⟩) true) ++
    [.kpipe (some (⟨2, false⟩, ⟨3, false⟩)) true false]

set_option maxRecDepth 2000 in
theorem table_hidden : ¬Always step Meets emptyfgrp nineteen := by
  intro h
  have hlast := ((always_append ..).mp h).2.1.1
  exact hlast.below 19 (by decide) (by decide)

/-- After such a run a descriptor given out is the least one free, and none is refused for want
of one below `MAXNFD`. -/
theorem table_lowest {calls : List Call} (h : Always step Clear emptyfgrp calls) (c : Chan) :
    let f := calls.foldl step emptyfgrp
    (∀ malloc i, next f c malloc = some i → IsLeast {k | f.fd k = none} i) ∧
      (next f c true = none ↔ ∀ i < MAXNFD, f.fd i ≠ none) ∧ ∀ i : ℕ, fdtochan f i = f.fd i := by
  intro f
  have hf : Sound f := h.invariant Sound (fun _ _ hs hc => (hs.step hc).1) emptyfgrp_sound
  refine ⟨fun malloc i hi => ?_, ?_, fun i => ?_⟩
  · obtain ⟨⟨j, g⟩, hg, rfl⟩ := Option.map_eq_some_iff.mp hi
    obtain ⟨-, rfl, -⟩ := hf.newfd hg
    exact ⟨hf.slot_none, fun k hk => not_lt.mp fun hlt => hf.slot_below hlt hk⟩
  · have hlimit := hf.limit
    rw [next, Option.map_eq_none_iff, hf.newfd_none_iff]
    constructor
    · rintro ⟨hfree, hnfd⟩ i hi hnone
      have hmem : i ∈ free f := mem_free.mpr ⟨by simp_all, hnone⟩
      simp [hfree] at hmem
    · intro hopen
      have hnfd : f.nfd = MAXNFD := by
        by_contra hne
        exact hopen f.nfd (by omega) (hf.vacant le_rfl)
      refine ⟨Finset.eq_empty_of_forall_notMem fun i hi => ?_, .inl hnfd⟩
      obtain ⟨hlt, hnone⟩ := mem_free.mp hi
      exact hopen i (hnfd ▸ hlt) hnone
  · rw [fdtochan, Int.toNat_natCast]
    split_ifs with hout
    · by_contra hopen
      have htop := hf.top i (Ne.symm hopen)
      omega
    · rfl

def closed : List Call :=
  [.kopen (some ⟨1, false⟩) true, .kopen (some ⟨2, false⟩) true, .close 0]

theorem table_lowest_closed : IsLeast {k | (closed.foldl step emptyfgrp).fd k = none} 0 := by
  have h : Always step Clear emptyfgrp closed := ⟨trivial, trivial, trivial, trivial⟩
  exact (table_lowest h ⟨3, false⟩).1 true 0 (by decide)

end Infernode.Fds
