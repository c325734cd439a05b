import Infernode.Locks.RWlock

/-!
# Exclusion and hand-off

What each process holds is counted, and the counts over all processes are what
the fields of the lock say: the spin locks, the owners of `x` and `k`, the
readers and the writers. The readers own `k` together, from the `canqlock` of the
first to the `qunlock` of the last. A queue holds the processes blocked on it in
the order of their arrival, and a process taken from it owns the lock before it
runs again.
-/

namespace Infernode.Locks
open Infernode.Lib

variable {P : Type*}

def held (pr : Proc P) : ℕ :=
  match pr.pc with
  | .rcount _ | .canqlock _ | .rout _ | .qunlock .rk | .qunlocking .rk | .osready .rk _
  | .runcount | .runout | .wcount | .wuncount => 1
  | _ => 0

def inuse (w : Which) (pr : Proc P) : ℕ :=
  match pr.pc with
  | .qlocking a => if a.which = w then 1 else 0
  | .canqlock _ => if .k = w then 1 else 0
  | .qunlocking a => if a.which = w then 1 else 0
  | _ => 0

def ownx (pr : Proc P) : ℕ :=
  pr.writes + match pr.pc with
  | .osblock .rx | .osblock .wx => pr.sem
  | .rin can | .rcount can | .canqlock can | .rout can => if can then 0 else 1
  | .qlock .wk | .qlocking .wk | .osblock .wk => 1
  | .qunlock a | .qunlocking a | .osready a _ => if a = .rk then 0 else 1
  | _ => 0

def ownk (pr : Proc P) : ℕ :=
  pr.writes + match pr.pc with
  | .osblock .wk => pr.sem
  | .qunlock a | .qunlocking a | .osready a _ => if a.which = .k then 1 else 0
  | _ => 0

def entering (pr : Proc P) : ℕ :=
  match pr.pc with
  | .canqlock _ => 1
  | _ => 0

def reading (pr : Proc P) : ℕ :=
  pr.reads + match pr.pc with
  | .canqlock _ | .rout _ | .qunlock .rx | .qunlocking .rx | .osready .rx _
  | .runlock | .runcount => 1
  | _ => 0

def writing (pr : Proc P) : ℕ :=
  pr.writes + match pr.pc with
  | .qlock a | .qlocking a | .osblock a => if a = .rx then 0 else 1
  | .qunlock .wk | .qunlocking .wk | .osready .wk _
  | .qunlock .wx | .qunlocking .wx | .osready .wx _ | .wunlock | .wuncount => 1
  | _ => 0

section
variable [Fintype P]

def total (f : Proc P → ℕ) (proc : P → Proc P) : ℕ := ∑ p, f (proc p)

theorem total_put [DecidableEq P] (f : Proc P → ℕ) (proc : P → Proc P) (p : P) (pr : Proc P) :
    total f (Function.update proc p pr) + f (proc p) = total f proc + f pr := by
  unfold total
  rw [← Finset.add_sum_erase _ _ (Finset.mem_univ p),
    ← Finset.add_sum_erase Finset.univ (fun q => f (proc q)) (Finset.mem_univ p)]
  have hrest : ∑ q ∈ Finset.univ.erase p, f (Function.update proc p pr q) =
      ∑ q ∈ Finset.univ.erase p, f (proc q) := by
    apply Finset.sum_congr rfl
    intro q hq
    rw [Function.update_of_ne (Finset.ne_of_mem_erase hq)]
  rw [hrest, Function.update_self]
  omega

theorem le_total (f : Proc P → ℕ) (proc : P → Proc P) (p : P) : f (proc p) ≤ total f proc :=
  Finset.single_le_sum (f := fun q => f (proc q)) (fun _ _ => Nat.zero_le _) (Finset.mem_univ p)

theorem two_le_total (f : Proc P → ℕ) (proc : P → Proc P) {p q : P} (hpq : p ≠ q) :
    f (proc p) + f (proc q) ≤ total f proc := by
  classical
  have hq := le_total f (Function.update proc p ⟨.idle, 0, 0, 0⟩) q
  have hput := total_put f proc p ⟨.idle, 0, 0, 0⟩
  have hp := le_total f (Function.update proc p ⟨.idle, 0, 0, 0⟩) p
  rw [Function.update_of_ne hpq.symm] at hq
  rw [Function.update_self] at hp
  have herase := Finset.add_sum_erase Finset.univ (fun q => f (proc q)) (Finset.mem_univ p)
  have hmem : q ∈ Finset.univ.erase p := Finset.mem_erase.mpr ⟨hpq.symm, Finset.mem_univ q⟩
  have hle := Finset.single_le_sum (f := fun q => f (proc q)) (fun _ _ => Nat.zero_le _) hmem
  unfold total
  omega

theorem total_le {f g : Proc P → ℕ} {proc : P → Proc P} (hfg : ∀ q, f (proc q) ≤ g (proc q))
    (p : P) {n : ℕ} (hp : f (proc p) + n ≤ g (proc p)) : total f proc + n ≤ total g proc := by
  classical
  unfold total
  rw [← Finset.add_sum_erase _ _ (Finset.mem_univ p),
    ← Finset.add_sum_erase Finset.univ (fun q => g (proc q)) (Finset.mem_univ p)]
  have hrest : ∑ q ∈ Finset.univ.erase p, f (proc q) ≤ ∑ q ∈ Finset.univ.erase p, g (proc q) :=
    Finset.sum_le_sum fun q _ => hfg q
  omega

theorem total_add (f g : Proc P → ℕ) (proc : P → Proc P) :
    total (fun pr => f pr + g pr) proc = total f proc + total g proc :=
  Finset.sum_add_distrib

def anyreader (n : ℕ) : ℕ := if n = 0 then 0 else 1

theorem anyreader_succ (n : ℕ) : anyreader (n + 1) = 1 := rfl

/-- The fields of the lock say what the processes hold. While the first reader
tries for `k`, the readers do not own it yet. -/
structure Counts (rw : RWlock P) (proc : P → Proc P) : Prop where
  l_eq : total held proc = rw.l.toNat
  use_eq : ∀ w, total (inuse w) proc = (rw.q w).use.toNat
  x_eq : total ownx proc = rw.x.locked.toNat
  k_eq : total ownk proc + anyreader rw.readers =
    rw.k.locked.toNat + if rw.readers = 1 then total entering proc else 0
  readers_eq : total reading proc = rw.readers
  writers_eq : total writing proc = rw.writers

structure Moved (rw rw' : RWlock P) (old new : Proc P) : Prop where
  l_eq : rw'.l.toNat + held old = rw.l.toNat + held new
  use_eq : ∀ w, (rw'.q w).use.toNat + inuse w old = (rw.q w).use.toNat + inuse w new
  x_eq : rw'.x.locked.toNat + ownx old = rw.x.locked.toNat + ownx new
  readers_eq : rw'.readers + reading old = rw.readers + reading new
  writers_eq : rw'.writers + writing old = rw.writers + writing new

omit [Fintype P] in
theorem entering_le (pr : Proc P) : entering pr ≤ held pr := by
  cases pr with
  | mk pc sem reads writes => cases pc <;> simp [entering, held]

variable {rw rw' : RWlock P} {proc : P → Proc P} {p : P} {pr : Proc P}

theorem Counts.put [DecidableEq P] (h : Counts rw proc) (hm : Moved rw rw' (proc p) pr)
    (hk : total ownk (Function.update proc p pr) + anyreader rw'.readers =
      rw'.k.locked.toNat +
        if rw'.readers = 1 then total entering (Function.update proc p pr) else 0) :
    Counts rw' (Function.update proc p pr) := by
  refine ⟨?_, ?_, ?_, hk, ?_, ?_⟩
  · have hput := total_put held proc p pr
    have hl := hm.l_eq
    rw [h.l_eq] at hput
    omega
  · intro w
    have hput := total_put (inuse w) proc p pr
    have hl := hm.use_eq w
    rw [h.use_eq] at hput
    omega
  · have hput := total_put ownx proc p pr
    have hl := hm.x_eq
    rw [h.x_eq] at hput
    omega
  · have hput := total_put reading proc p pr
    have hl := hm.readers_eq
    rw [h.readers_eq] at hput
    omega
  · have hput := total_put writing proc p pr
    have hl := hm.writers_eq
    rw [h.writers_eq] at hput
    omega

theorem Counts.put_same [DecidableEq P] (h : Counts rw proc) (hm : Moved rw rw' (proc p) pr)
    (hr : rw'.readers = rw.readers)
    (hk : rw'.k.locked.toNat + ownk (proc p) = rw.k.locked.toNat + ownk pr)
    (he : entering (proc p) = entering pr) : Counts rw' (Function.update proc p pr) := by
  apply h.put hm
  have hown := total_put ownk proc p pr
  have hent := total_put entering proc p pr
  have hsame : total entering (Function.update proc p pr) = total entering proc := by omega
  have hk' := h.k_eq
  rw [hr, hsame]
  omega

theorem Counts.entering_eq (h : Counts rw proc) (hp : held (proc p) = 1) :
    total entering proc = entering (proc p) := by
  have hle := le_total entering proc p
  have hl := h.l_eq
  have hbool : rw.l.toNat ≤ 1 := Bool.toNat_le rw.l
  have hone := entering_le (proc p)
  by_cases he : entering (proc p) = 0
  · have hlt : total entering proc + 1 ≤ total held proc :=
      total_le (fun q => entering_le (proc q)) p (by omega)
    omega
  · have hle' : total entering proc + 0 ≤ total held proc :=
      total_le (fun q => entering_le (proc q)) p (by omega)
    omega

theorem Counts.l_true (h : Counts rw proc) (hp : held (proc p) = 1) : rw.l = true := by
  have hle := le_total held proc p
  rw [h.l_eq, hp] at hle
  cases hl : rw.l with
  | true => rfl
  | false => simp [hl] at hle

theorem Counts.use_true (h : Counts rw proc) {w : Which} (hp : inuse w (proc p) = 1) :
    (rw.q w).use = true := by
  have hle := le_total (inuse w) proc p
  rw [h.use_eq, hp] at hle
  cases huse : (rw.q w).use with
  | true => rfl
  | false => simp [huse] at hle

theorem Counts.entering_le_one (h : Counts rw proc) : total entering proc ≤ 1 := by
  have hle : total entering proc ≤ total held proc :=
    Finset.sum_le_sum fun q _ => entering_le (proc q)
  have hbool : rw.l.toNat ≤ 1 := Bool.toNat_le _
  rw [h.l_eq] at hle
  omega

theorem Counts.ownk_le_one (h : Counts rw proc) : total ownk proc ≤ 1 := by
  have hk := h.k_eq
  have he := h.entering_le_one
  have hbool : rw.k.locked.toNat ≤ 1 := Bool.toNat_le _
  by_cases hone : rw.readers = 1
  · rw [hone, if_pos rfl, anyreader_succ] at hk
    omega
  · rw [if_neg hone] at hk
    omega

theorem Counts.ownx_le_one (h : Counts rw proc) : total ownx proc ≤ 1 := by
  rw [h.x_eq]
  exact Bool.toNat_le _

theorem Counts.x_locked (h : Counts rw proc) (hp : 1 ≤ ownx (proc p)) : rw.x.locked = true := by
  have hle := le_total ownx proc p
  rw [h.x_eq] at hle
  cases hl : rw.x.locked with
  | true => rfl
  | false =>
    simp [hl] at hle
    omega

theorem Counts.k_locked (h : Counts rw proc) (hp : 1 ≤ ownk (proc p)) : rw.k.locked = true := by
  have hle := le_total ownk proc p
  have hk := h.k_eq
  have he := h.entering_le_one
  cases hl : rw.k.locked with
  | true => rfl
  | false =>
    rw [hl] at hk
    by_cases hone : rw.readers = 1
    · rw [hone, if_pos rfl, anyreader_succ] at hk
      simp at hk
      omega
    · rw [if_neg hone] at hk
      simp at hk
      omega

def First (rw : RWlock P) (pr : Proc P) : Prop :=
  ∃ can, (can = true → rw.writers = 0) ∧
    (pr.pc = .rcount can ∧ rw.readers = 0 ∨ pr.pc = .canqlock can ∧ rw.readers = 1)

omit [Fintype P] in
theorem ownk_le_x (pr : Proc P) (hsem : pr.sem ≤ 1) : ownk pr ≤ ownx pr + held pr := by
  obtain ⟨pc, sem, reads, writes⟩ := pr
  simp only at hsem
  rcases pc with _ | (_ | _ | _) | (_ | _ | _) | (_ | _ | _) | _ | _ | _ | _ |
    (_ | _ | _ | _) | (_ | _ | _ | _) | ⟨_ | _ | _ | _, _⟩ | _ | _ | _ | _ | _ | _ | _ <;>
    simp [ownk, ownx, held, Unlocking.which] <;> omega

omit [Fintype P] in
theorem ownk_le_writing (pr : Proc P) (hsem : pr.sem ≤ 1) : ownk pr ≤ writing pr + held pr := by
  obtain ⟨pc, sem, reads, writes⟩ := pr
  simp only at hsem
  rcases pc with _ | (_ | _ | _) | (_ | _ | _) | (_ | _ | _) | _ | _ | _ | _ |
    (_ | _ | _ | _) | (_ | _ | _ | _) | ⟨_ | _ | _ | _, _⟩ | _ | _ | _ | _ | _ | _ | _ <;>
    simp [ownk, writing, held, Unlocking.which] <;> omega

omit [Fintype P] in
theorem inuse_le_x (pr : Proc P) : inuse .k pr ≤ ownx pr + held pr := by
  obtain ⟨pc, sem, reads, writes⟩ := pr
  rcases pc with _ | (_ | _ | _) | (_ | _ | _) | (_ | _ | _) | _ | _ | _ | _ |
    (_ | _ | _ | _) | (_ | _ | _ | _) | ⟨_ | _ | _ | _, _⟩ | _ | _ | _ | _ | _ | _ | _ <;>
    simp [inuse, ownx, held, Unlocking.which, Locking.which]

omit [Fintype P] in
theorem inuse_le_writing (pr : Proc P) : inuse .k pr ≤ writing pr + held pr := by
  obtain ⟨pc, sem, reads, writes⟩ := pr
  rcases pc with _ | (_ | _ | _) | (_ | _ | _) | (_ | _ | _) | _ | _ | _ | _ |
    (_ | _ | _ | _) | (_ | _ | _ | _) | ⟨_ | _ | _ | _, _⟩ | _ | _ | _ | _ | _ | _ | _ <;>
    simp [inuse, writing, held, Unlocking.which, Locking.which]

theorem Counts.first (h : Counts rw proc) (hp : First rw (proc p)) {f : Proc P → ℕ}
    (hx : ∀ q, f (proc q) ≤ ownx (proc q) + held (proc q))
    (hw : ∀ q, f (proc q) ≤ writing (proc q) + held (proc q))
    (hf : f (proc p) ≤ (proc p).writes) : total f proc = 0 := by
  have hlock : rw.x.locked.toNat ≤ 1 := Bool.toNat_le _
  have hl : rw.l.toNat ≤ 1 := Bool.toNat_le _
  have hleq := h.l_eq
  have hxeq := h.x_eq
  have hweq := h.writers_eq
  obtain ⟨can, hcan, hpc⟩ := hp
  cases can with
  | false =>
    have hstrict : f (proc p) + 2 ≤ ownx (proc p) + held (proc p) := by
      obtain ⟨hpc, -⟩ | ⟨hpc, -⟩ := hpc <;> simp [ownx, held, hpc] <;> omega
    have hle := total_le (g := fun pr => ownx pr + held pr) hx p hstrict
    rw [total_add] at hle
    omega
  | true =>
    have hstrict : f (proc p) + 1 ≤ writing (proc p) + held (proc p) := by
      obtain ⟨hpc, -⟩ | ⟨hpc, -⟩ := hpc <;> simp [writing, held, hpc] <;> omega
    have hle := total_le (g := fun pr => writing pr + held pr) hw p hstrict
    rw [total_add] at hle
    have hzero := hcan rfl
    omega

theorem Counts.first_ownk (h : Counts rw proc) (hp : First rw (proc p))
    (hsem : ∀ q, (proc q).sem ≤ 1) : total ownk proc = 0 := by
  apply h.first hp (fun q => ownk_le_x _ (hsem q)) (fun q => ownk_le_writing _ (hsem q))
  obtain ⟨can, -, ⟨hpc, -⟩ | ⟨hpc, -⟩⟩ := hp <;> simp [ownk, hpc]

theorem Counts.first_use (h : Counts rw proc) (hp : First rw (proc p)) {can : Bool}
    (hpc : (proc p).pc = .rcount can) : rw.k.use = false := by
  have htotal : total (inuse .k) proc = 0 := by
    apply h.first hp (fun q => inuse_le_x _) (fun q => inuse_le_writing _)
    simp [inuse, hpc]
  have hk := h.use_eq .k
  rw [htotal] at hk
  cases huse : rw.k.use with
  | false => rfl
  | true => simp [RWlock.q, huse] at hk

def waits (w : Which) (log : List (Event P)) : List P :=
  log.filterMap fun e => match e with
    | .waits v p => if v = w then some p else none
    | _ => none

def hands (w : Which) (log : List (Event P)) : List P :=
  log.filterMap fun e => match e with
    | .hands v p => if v = w then some p else none
    | _ => none

def Fair (w : Which) (log : List (Event P)) : Prop :=
  ∀ l₁ e l₂, log = l₁ ++ e :: l₂ → (∃ p, e = .takes w p) ∨ e = .frees w →
    waits w l₁ = hands w l₁

omit [Fintype P] in
theorem fair_append {w : Which} {log : List (Event P)} {e : Event P} (h : Fair w log)
    (he : (∃ p, e = .takes w p) ∨ e = .frees w → waits w log = hands w log) :
    Fair w (log ++ [e]) := by
  intro l₁ e' l₂ heq hkind
  obtain rfl | ⟨l₃, x, rfl⟩ := List.eq_nil_or_concat l₂
  · obtain ⟨rfl, hx⟩ := List.append_inj' heq rfl
    obtain rfl : e = e' := by simpa using hx
    exact he hkind
  · have hsplit : log ++ [e] = (l₁ ++ e' :: l₃) ++ [x] := by simpa using heq
    obtain ⟨rfl, -⟩ := List.append_inj' hsplit rfl
    exact h l₁ e' l₃ rfl hkind

def Waiting (w : Which) (pr : Proc P) : Prop :=
  ∃ a : Locking, pr.pc = .osblock a ∧ a.which = w ∧ pr.sem = 0

structure Queue (s : State P) (w : Which) (as : List P) : Prop where
  fifo : Fifo s.qnext (s.rw.q w).head (s.rw.q w).tail as
  waiting : ∀ p ∈ as, Waiting w (s.proc p)
  waits_eq : waits w s.log = hands w s.log ++ as
  locked : as ≠ [] → (s.rw.q w).locked = true

structure Inv (s : State P) (as : Which → List P) : Prop where
  counts : Counts s.rw s.proc
  sem_le : ∀ p, (s.proc p).sem ≤ 1
  sem_block : ∀ p, (s.proc p).sem ≠ 0 → ∃ a, (s.proc p).pc = .osblock a
  queue : ∀ w, Queue s w (as w)
  handing : ∀ r a p, (s.proc r).pc = .osready a p → Waiting a.which (s.proc p) ∧ ∀ w, p ∉ as w
  canq : ∀ p, (s.proc p).pc = .canqlock true → s.rw.writers = 0
  fair : ∀ w, Fair w s.log
  first_ok : Event.canqlock true false ∉ s.log

variable [DecidableEq P] {s s' : State P} {as : Which → List P}

omit [Fintype P] [DecidableEq P] in
theorem waiting_sem {w : Which} {pr : Proc P} (h : Waiting w pr) : pr.sem = 0 := by
  obtain ⟨a, -, -, hsem⟩ := h
  exact hsem

theorem Inv.update {as' : Which → List P} {p : P} {pr : Proc P} (h : Inv s as)
    (hproc : s'.proc = Function.update s.proc p pr) (hcounts : Counts s'.rw s'.proc)
    (hold : ∀ w, ¬ Waiting w (s.proc p)) (hsem : pr.sem = 0)
    (hqueue : ∀ w, Queue s' w (as' w)) (has : ∀ w q, q ≠ p → q ∉ as w → q ∉ as' w)
    (hready : ∀ a r, pr.pc = .osready a r → Waiting a.which (s.proc r) ∧ ∀ w, r ∉ as' w)
    (hwriters : ∀ q, (s'.proc q).pc = .canqlock true → s'.rw.writers = 0)
    (hfair : ∀ w, Fair w s'.log) (hfirst : Event.canqlock true false ∉ s'.log) : Inv s' as' := by
  have hother : ∀ q w, Waiting w (s.proc q) → q ≠ p ∧ s'.proc q = s.proc q := by
    intro q w hq
    have hne : q ≠ p := by rintro rfl; exact hold w hq
    rw [hproc, Function.update_of_ne hne]
    exact ⟨hne, rfl⟩
  refine ⟨hcounts, ?_, ?_, hqueue, ?_, hwriters, hfair, hfirst⟩
  · intro q
    rw [hproc]
    by_cases hqp : q = p
    · subst hqp
      rw [Function.update_self]
      omega
    · rw [Function.update_of_ne hqp]
      exact h.sem_le q
  · intro q
    rw [hproc]
    by_cases hqp : q = p
    · subst hqp
      rw [Function.update_self]
      omega
    · rw [Function.update_of_ne hqp]
      exact h.sem_block q
  · intro r a q hr
    by_cases hrp : r = p
    · subst hrp
      rw [hproc, Function.update_self] at hr
      obtain ⟨hw, hnot⟩ := hready a q hr
      rw [(hother q _ hw).2]
      exact ⟨hw, hnot⟩
    · rw [hproc, Function.update_of_ne hrp] at hr
      obtain ⟨hw, hnot⟩ := h.handing r a q hr
      obtain ⟨hne, hq⟩ := hother q _ hw
      rw [hq]
      exact ⟨hw, fun w => has w q hne (hnot w)⟩

omit [Fintype P] in
theorem Queue.same {p : P} {pr : Proc P} {w : Which} {l : List P} (h : Queue s w l)
    (hproc : s'.proc = Function.update s.proc p pr) (hold : ¬ Waiting w (s.proc p))
    (hfifo : Fifo s'.qnext (s'.rw.q w).head (s'.rw.q w).tail l)
    (hlog : waits w s'.log = waits w s.log ∧ hands w s'.log = hands w s.log)
    (hlocked : l ≠ [] → (s'.rw.q w).locked = true) : Queue s' w l := by
  refine ⟨hfifo, ?_, ?_, hlocked⟩
  · intro q hmem
    have hq := h.waiting q hmem
    have hne : q ≠ p := by rintro rfl; exact hold hq
    rw [hproc, Function.update_of_ne hne]
    exact hq
  · rw [hlog.1, hlog.2]
    exact h.waits_eq

theorem Inv.plain {p : P} {pr : Proc P} (h : Inv s as)
    (hproc : s'.proc = Function.update s.proc p pr) (hcounts : Counts s'.rw s'.proc)
    (hold : ∀ w, ¬ Waiting w (s.proc p)) (hsem : pr.sem = 0)
    (hready : ∀ a r, pr.pc ≠ .osready a r)
    (hqnext : s'.qnext = s.qnext)
    (hq : ∀ w, (s'.rw.q w).head = (s.rw.q w).head ∧ (s'.rw.q w).tail = (s.rw.q w).tail)
    (hlocked : ∀ w, as w ≠ [] → (s'.rw.q w).locked = true)
    (hwriters : ∀ q, (s'.proc q).pc = .canqlock true → s'.rw.writers = 0)
    (hlog : ∀ w, waits w s'.log = waits w s.log ∧ hands w s'.log = hands w s.log)
    (hfair : ∀ w, Fair w s'.log) (hfirst : Event.canqlock true false ∉ s'.log) : Inv s' as := by
  refine h.update hproc hcounts hold hsem ?_ (fun w q _ hnot => hnot)
    (fun a r hpr => absurd hpr (hready a r)) hwriters hfair hfirst
  intro w
  refine (h.queue w).same hproc (hold w) ?_ (hlog w) (hlocked w)
  rw [hqnext, (hq w).1, (hq w).2]
  exact (h.queue w).fifo

omit [Fintype P] [DecidableEq P] in
theorem not_waiting (pr : Proc P) (h : ∀ a, pr.pc ≠ .osblock a) (w : Which) : ¬ Waiting w pr := by
  rintro ⟨a, ha, -⟩
  exact h a ha

omit [DecidableEq P] in
theorem Inv.sem_zero (h : Inv s as) {p : P} (hp : ∀ a, (s.proc p).pc ≠ .osblock a) :
    (s.proc p).sem = 0 := by
  by_contra hsem
  obtain ⟨a, ha⟩ := h.sem_block p hsem
  exact hp a ha

omit [DecidableEq P] in
theorem Inv.alone (h : Inv s as) {p q : P} (hp : held (s.proc p) = 1)
    (hq : held (s.proc q) = 1) : p = q := by
  by_contra hpq
  have hle := two_le_total held s.proc hpq
  have hl := h.counts.l_eq
  have hbool : s.rw.l.toNat ≤ 1 := Bool.toNat_le _
  omega

omit [Fintype P] [DecidableEq P] in
theorem setq_writers (rw : RWlock P) (w : Which) (b : QLock P) :
    (rw.setq w b).writers = rw.writers := by
  cases w <;> rfl

theorem Inv.canq_put {p q : P} {pr : Proc P} (h : Inv s as) (hpr : pr.pc ≠ .canqlock true)
    (hq : (Function.update s.proc p pr q).pc = .canqlock true) : s.rw.writers = 0 := by
  by_cases hqp : q = p
  · subst hqp
    exact absurd (by simpa using hq) hpr
  · exact h.canq q (by simpa [hqp] using hq)

theorem Inv.moves {p : P} {pr : Proc P} (h : Inv s as) (rw : RWlock P)
    (hold : ∀ a, (s.proc p).pc ≠ .osblock a) (hcounts : Counts rw (Function.update s.proc p pr))
    (hsem : pr.sem = (s.proc p).sem) (hready : ∀ a r, pr.pc ≠ .osready a r)
    (hq : ∀ w, (rw.q w).head = (s.rw.q w).head ∧ (rw.q w).tail = (s.rw.q w).tail ∧
      (rw.q w).locked = (s.rw.q w).locked)
    (hwriters : rw.writers = s.rw.writers ∧ pr.pc ≠ .canqlock true ∨ held (s.proc p) = 1 ∧
      (pr.pc = .canqlock true → rw.writers = 0)) :
    Inv { s with rw := rw, proc := Function.update s.proc p pr } as := by
  refine @Inv.plain _ _ _ s ⟨rw, Function.update s.proc p pr, s.qnext, s.log⟩ as p pr h rfl hcounts
    (not_waiting _ hold) (hsem.trans (h.sem_zero hold)) hready rfl
    (fun w => ⟨(hq w).1, (hq w).2.1⟩) ?_ ?_ (fun w => ⟨rfl, rfl⟩) h.fair h.first_ok
  · intro w hne
    rw [(hq w).2.2]
    exact (h.queue w).locked hne
  · intro q hpc
    change (Function.update s.proc p pr q).pc = _ at hpc
    change rw.writers = 0
    by_cases hqp : q = p
    · subst hqp
      rw [Function.update_self] at hpc
      obtain ⟨-, hne⟩ | ⟨-, hw⟩ := hwriters
      · exact absurd hpc hne
      · exact hw hpc
    · rw [Function.update_of_ne hqp] at hpc
      obtain ⟨hw, -⟩ | ⟨hheld, -⟩ := hwriters
      · rw [hw]
        exact h.canq q hpc
      · exact absurd (h.alone (by simp [held, hpc]) hheld) hqp

theorem Inv.call {p : P} {c : Call} (h : Inv s as) (hpc : (s.proc p).pc = .idle)
    (hs : call s p c = some s') : Inv s' as := by
  have hold : ∀ a, (s.proc p).pc ≠ .osblock a := by simp [hpc]
  have hmoves : ∀ pr, Moved s.rw s.rw (s.proc p) pr → ownk (s.proc p) = ownk pr →
      entering pr = 0 → pr.sem = (s.proc p).sem → (∀ a r, pr.pc ≠ .osready a r) →
      Inv (s.put p pr) as := by
    intro pr hm hk he hsem hready
    refine h.moves _ hold (h.counts.put_same hm rfl (by rw [hk]) ?_) hsem hready
      (fun w => ⟨rfl, rfl, rfl⟩) (.inl ⟨rfl, ?_⟩)
    · simp [entering, hpc] at he ⊢
      omega
    · intro hpr
      simp [entering, hpr] at he
  cases c with
  | rlock | canrlock | wlock =>
    obtain rfl := Option.some.inj hs
    apply hmoves
    · constructor <;> simp [held, inuse, ownx, reading, writing, hpc]
    all_goals simp [ownk, entering, hpc]
  | runlock =>
    simp only [Locks.call] at hs
    split_ifs at hs with hreads
    obtain rfl := Option.some.inj hs
    apply hmoves
    · constructor <;> simp [held, inuse, ownx, reading, writing, hpc]
      omega
    all_goals simp [ownk, entering, hpc]
  | wunlock =>
    simp only [Locks.call] at hs
    split_ifs at hs with hwrites
    obtain rfl := Option.some.inj hs
    apply hmoves
    · constructor <;> simp [held, inuse, ownx, reading, writing, hpc] <;> omega
    · simp [ownk, Unlocking.which, hpc]
      omega
    all_goals simp [entering]

theorem Inv.takel {p : P} {pc : Pc P} (h : Inv s as) (hs : takel s p pc = some s')
    (hold : ∀ a, (s.proc p).pc ≠ .osblock a) (hready : ∀ a r, pc ≠ .osready a r)
    (hcanq : pc ≠ .canqlock true)
    (hm : s.rw.l = false → Moved s.rw { s.rw with l := true } (s.proc p)
      ((s.proc p).goto pc))
    (hk : ownk (s.proc p) = ownk ((s.proc p).goto pc))
    (he : entering (s.proc p) = entering ((s.proc p).goto pc)) : Inv s' as := by
  unfold Locks.takel at hs
  split_ifs at hs with hl
  obtain rfl := Option.some.inj hs
  have hfree : s.rw.l = false := by simpa using hl
  have hlocked : s.rw.k.locked.toNat + ownk (s.proc p) =
      s.rw.k.locked.toNat + ownk ((s.proc p).goto pc) := by rw [hk]
  exact h.moves _ hold (h.counts.put_same (hm hfree) rfl hlocked he)
    rfl hready (fun w => by cases w <;> exact ⟨rfl, rfl, rfl⟩) (.inl ⟨rfl, hcanq⟩)

theorem Inv.takeuse {p : P} {w : Which} {pc : Pc P} (h : Inv s as)
    (hs : takeuse s p w pc = some s')
    (hold : ∀ a, (s.proc p).pc ≠ .osblock a) (hready : ∀ a r, pc ≠ .osready a r)
    (hcanq : pc ≠ .canqlock true)
    (huse : ∀ v, inuse v ((s.proc p).goto pc) =
      inuse v (s.proc p) + if v = w then 1 else 0)
    (hm : held (s.proc p) = held ((s.proc p).goto pc) ∧
      ownx (s.proc p) = ownx ((s.proc p).goto pc) ∧
      reading (s.proc p) = reading ((s.proc p).goto pc) ∧
      writing (s.proc p) = writing ((s.proc p).goto pc))
    (hk : ownk (s.proc p) = ownk ((s.proc p).goto pc))
    (he : entering (s.proc p) = entering ((s.proc p).goto pc)) : Inv s' as := by
  unfold Locks.takeuse at hs
  split_ifs at hs with hl
  obtain rfl := Option.some.inj hs
  have hfree : (s.rw.q w).use = false := by simpa using hl
  have hmoved : Moved s.rw (s.rw.setq w { s.rw.q w with use := true }) (s.proc p)
      ((s.proc p).goto pc) := by
    refine ⟨?_, ?_, ?_, ?_, ?_⟩
    · cases w <;> simp [RWlock.setq, hm.1]
    · intro v
      rw [huse]
      by_cases hv : v = w
      · subst hv
        rw [q_setq_self, hfree]
        simp
        omega
      · rw [q_setq_ne _ hv, if_neg hv]
        simp
    · cases w <;> simp [RWlock.setq, RWlock.q, hm.2.1]
    · cases w <;> simp [RWlock.setq, hm.2.2.1]
    · cases w <;> simp [RWlock.setq, hm.2.2.2]
  refine h.moves _ hold (h.counts.put_same hmoved ?_ ?_ he) rfl hready ?_ (.inl ⟨?_, hcanq⟩)
  · cases w <;> rfl
  · rw [hk]
    cases w <;> rfl
  · intro v
    change ((s.rw.setq w _).q v).head = _ ∧ ((s.rw.setq w _).q v).tail = _ ∧
      ((s.rw.setq w _).q v).locked = _
    by_cases hv : v = w
    · subst hv
      rw [q_setq_self]
      exact ⟨rfl, rfl, rfl⟩
    · rw [q_setq_ne _ hv]
      exact ⟨rfl, rfl, rfl⟩
  · cases w <;> rfl

theorem Inv.rout {p : P} {can : Bool} (h : Inv s as) (hpc : (s.proc p).pc = .rout can) :
    Inv (rout s p can) as := by
  have hheld : held (s.proc p) = 1 := by simp [held, hpc]
  have hlock := h.counts.l_true hheld
  have hmoves : ∀ pr, Moved s.rw { s.rw with l := false } (s.proc p) pr →
      ownk (s.proc p) = ownk pr → entering pr = 0 → pr.sem = (s.proc p).sem →
      (∀ a r, pr.pc ≠ .osready a r) → Inv ((s.setl false).put p pr) as := by
    intro pr hm hk he hsem hready
    refine h.moves { s.rw with l := false } (by simp [hpc])
      (h.counts.put_same hm rfl (by rw [hk]) ?_) hsem hready
      (fun w => by cases w <;> exact ⟨rfl, rfl, rfl⟩) (.inl ⟨rfl, ?_⟩)
    · rw [he]
      simp [entering, hpc]
    · intro hpr
      simp [entering, hpr] at he
  cases can with
  | false =>
    apply hmoves
    · constructor <;> simp [held, inuse, ownx, reading, writing, hpc, hlock, RWlock.q]
    all_goals simp [ownk, entering, hpc, Unlocking.which]
  | true =>
    apply hmoves
    · constructor <;> simp [held, inuse, ownx, reading, writing, hpc, hlock, RWlock.q]
    all_goals simp [ownk, entering, hpc]

theorem Inv.runout {p : P} (h : Inv s as) (hpc : (s.proc p).pc = .runout) :
    Inv ((s.setl false).goto p .idle) as := by
  have hheld : held (s.proc p) = 1 := by simp [held, hpc]
  have hlock := h.counts.l_true hheld
  refine h.moves { s.rw with l := false } (by simp [hpc])
    (h.counts.put_same ?_ rfl ?_ ?_) rfl (by simp)
    (fun w => by cases w <;> exact ⟨rfl, rfl, rfl⟩) (.inl ⟨rfl, by simp⟩)
  · constructor <;> simp [held, inuse, ownx, reading, writing, hpc, hlock, RWlock.q]
  · simp [ownk, hpc]
  · simp [entering, hpc]

theorem Inv.wcount {p : P} (h : Inv s as) (hpc : (s.proc p).pc = .wcount) :
    Inv ({ s with rw := { s.rw with l := false, writers := s.rw.writers + 1 } }.goto p
      (.qlock .wx)) as := by
  have hheld : held (s.proc p) = 1 := by simp [held, hpc]
  have hlock := h.counts.l_true hheld
  refine h.moves { s.rw with l := false, writers := s.rw.writers + 1 } (by simp [hpc])
    (h.counts.put_same ?_ rfl ?_ ?_) rfl (by simp)
    (fun w => by cases w <;> exact ⟨rfl, rfl, rfl⟩) (.inr ⟨hheld, by simp⟩)
  · constructor <;> simp [held, inuse, ownx, reading, writing, hpc, hlock, RWlock.q]
    omega
  · simp [ownk, hpc]
  · simp [entering, hpc]

theorem Inv.wuncount {p : P} (h : Inv s as) (hpc : (s.proc p).pc = .wuncount) :
    Inv ({ s with rw := { s.rw with l := false, writers := s.rw.writers - 1 } }.goto p .idle)
      as := by
  have hheld : held (s.proc p) = 1 := by simp [held, hpc]
  have hlock := h.counts.l_true hheld
  have hpos : 1 ≤ s.rw.writers := by
    rw [← h.counts.writers_eq]
    refine le_trans ?_ (le_total writing s.proc p)
    simp [writing, hpc]
  refine h.moves { s.rw with l := false, writers := s.rw.writers - 1 } (by simp [hpc])
    (h.counts.put_same ?_ rfl ?_ ?_) rfl (by simp)
    (fun w => by cases w <;> exact ⟨rfl, rfl, rfl⟩) (.inr ⟨hheld, by simp⟩)
  · constructor <;> simp [held, inuse, ownx, reading, writing, hpc, hlock, RWlock.q]
    omega
  · simp [ownk, hpc]
  · simp [entering, hpc]

theorem Inv.runcount {p : P} (h : Inv s as) (hpc : (s.proc p).pc = .runcount) :
    Inv (runcount s p) as := by
  have hheld : held (s.proc p) = 1 := by simp [held, hpc]
  have hpos : 1 ≤ s.rw.readers := by
    rw [← h.counts.readers_eq]
    refine le_trans ?_ (le_total reading s.proc p)
    simp [reading, hpc]
  have hnone : total Locks.entering s.proc = 0 := by
    rw [h.counts.entering_eq hheld]
    simp [Locks.entering, hpc]
  have hk := h.counts.k_eq
  rw [hnone] at hk
  have hmoves : ∀ pc, (s.rw.readers = 1 ∧ pc = .qunlock .rk ∨
      s.rw.readers ≠ 1 ∧ pc = .runout) →
      Inv ({ s with rw := { s.rw with readers := s.rw.readers - 1 } }.goto p pc) as := by
    intro pc hpcs
    refine h.moves { s.rw with readers := s.rw.readers - 1 } (by simp [hpc])
      (h.counts.put ?_ ?_) rfl ?_ (fun w => by cases w <;> exact ⟨rfl, rfl, rfl⟩)
      (.inl ⟨rfl, ?_⟩)
    · obtain ⟨-, rfl⟩ | ⟨-, rfl⟩ := hpcs <;>
        constructor <;> simp [held, inuse, ownx, reading, writing, hpc, RWlock.q] <;> omega
    · have hown := total_put ownk s.proc p ((s.proc p).goto pc)
      have hent := total_put Locks.entering s.proc p ((s.proc p).goto pc)
      have hwrites : ownk (s.proc p) = (s.proc p).writes := by simp [ownk, hpc]
      have hentp : Locks.entering (s.proc p) = 0 := by simp [Locks.entering, hpc]
      change total ownk (Function.update s.proc p ((s.proc p).goto pc)) +
        anyreader (s.rw.readers - 1) = s.rw.k.locked.toNat + if s.rw.readers - 1 = 1 then
          total Locks.entering (Function.update s.proc p ((s.proc p).goto pc)) else 0
      obtain ⟨hone, rfl⟩ | ⟨hone, rfl⟩ := hpcs
      · have hnew : ownk ((s.proc p).goto (.qunlock .rk)) = (s.proc p).writes + 1 := rfl
        simp only [hone, anyreader] at hk ⊢
        simp at hk ⊢
        omega
      · have hnew : ownk ((s.proc p).goto .runout) = (s.proc p).writes := rfl
        have hentn : Locks.entering ((s.proc p).goto .runout) = 0 := rfl
        have hany : anyreader (s.rw.readers - 1) = anyreader s.rw.readers := by
          unfold anyreader
          split_ifs <;> omega
        rw [hany]
        split_ifs at hk ⊢ <;> omega
    · obtain ⟨-, rfl⟩ | ⟨-, rfl⟩ := hpcs <;> simp
    · obtain ⟨-, rfl⟩ | ⟨-, rfl⟩ := hpcs <;> simp
  apply hmoves
  by_cases hone : s.rw.readers = 1
  · exact .inl ⟨hone, by simp [hone]⟩
  · have hne : s.rw.readers - 1 ≠ 0 := by omega
    exact .inr ⟨hone, by simp [hne]⟩

theorem Inv.rcount {p : P} {can : Bool} (h : Inv s as) (hpc : (s.proc p).pc = .rcount can) :
    Inv (rcount s p can) as := by
  have hheld : held (s.proc p) = 1 := by simp [held, hpc]
  have hlock := h.counts.l_true hheld
  have hentp : Locks.entering (s.proc p) = 0 := by simp [Locks.entering, hpc]
  have hnone : total Locks.entering s.proc = 0 := (h.counts.entering_eq hheld).trans hentp
  have hk := h.counts.k_eq
  have hwrites : ownk (s.proc p) = (s.proc p).writes := by simp [ownk, hpc]
  simp only [Locks.rcount]
  split_ifs with hrefuse huse
  · -- a writer is counted
    refine h.moves { s.rw with l := false } (by simp [hpc])
      (h.counts.put_same ?_ rfl ?_ ?_) rfl (by simp)
      (fun w => by cases w <;> exact ⟨rfl, rfl, rfl⟩) (.inl ⟨rfl, by simp⟩)
    · obtain ⟨rfl, -⟩ := hrefuse
      constructor <;> simp [held, inuse, ownx, reading, writing, hpc, hlock, RWlock.q]
    · simp [ownk, hpc]
    · simp [Locks.entering, hpc]
  · have hreaders : s.rw.readers ≠ 0 := by
      intro hzero
      have hfirst : First s.rw (s.proc p) :=
        ⟨can, fun hcan => by simpa [hcan] using hrefuse, .inl ⟨hpc, hzero⟩⟩
      exact absurd huse (by simp [h.counts.first_use hfirst hpc])
    have hmoved : Moved s.rw { s.rw with readers := s.rw.readers + 1 } (s.proc p)
        ((s.proc p).goto (.rout can)) := by
      constructor <;> simp [held, inuse, ownx, reading, writing, hpc, RWlock.q]
      omega
    have hcounts : Counts { s.rw with readers := s.rw.readers + 1 }
        (Function.update s.proc p ((s.proc p).goto (.rout can))) := by
      apply h.counts.put hmoved
      have hown := total_put ownk s.proc p ((s.proc p).goto (.rout can))
      have hnew : ownk ((s.proc p).goto (.rout can)) = (s.proc p).writes := rfl
      have hsucc : s.rw.readers + 1 ≠ 1 := by omega
      change total ownk (Function.update s.proc p ((s.proc p).goto (.rout can))) +
        anyreader (s.rw.readers + 1) = s.rw.k.locked.toNat + if s.rw.readers + 1 = 1 then
          total Locks.entering (Function.update s.proc p ((s.proc p).goto (.rout can))) else 0
      rw [hnone, anyreader, if_neg hreaders, ite_self] at hk
      rw [anyreader_succ, if_neg hsucc]
      omega
    refine h.plain rfl hcounts (not_waiting _ (by simp [hpc])) (h.sem_zero (by simp [hpc]))
      (by simp) rfl (fun w => by cases w <;> exact ⟨rfl, rfl⟩)
      (fun w hw => by cases w <;> exact (h.queue _).locked hw) ?_ ?_ ?_ ?_
    · exact fun q hq => h.canq_put (by simp) hq
    · intro w
      simp [State.goto, State.put, State.logs, waits, hands]
    · intro w
      exact fair_append (h.fair w) (by simp)
    · simp [State.goto, State.put, State.logs, hreaders, h.first_ok]
  · have huse' : s.rw.k.use = false := by simpa using huse
    refine h.moves { s.rw with
        readers := s.rw.readers + 1, k := { s.rw.k with use := true } } (by simp [hpc])
      (h.counts.put ?_ ?_) rfl (by simp) (fun w => by cases w <;> exact ⟨rfl, rfl, rfl⟩)
      (.inr ⟨hheld, ?_⟩)
    · constructor <;> simp [held, inuse, ownx, reading, writing, hpc, RWlock.q]
      · intro w
        cases w <;> simp [huse']
      · omega
    · have hown := total_put ownk s.proc p ((s.proc p).goto (.canqlock can))
      have hent := total_put Locks.entering s.proc p ((s.proc p).goto (.canqlock can))
      have hnew : ownk ((s.proc p).goto (.canqlock can)) = (s.proc p).writes := rfl
      have hentn : Locks.entering ((s.proc p).goto (.canqlock can)) = 1 := rfl
      change total ownk (Function.update s.proc p ((s.proc p).goto (.canqlock can))) +
        anyreader (s.rw.readers + 1) = s.rw.k.locked.toNat + if s.rw.readers + 1 = 1 then
          total Locks.entering (Function.update s.proc p ((s.proc p).goto (.canqlock can))) else 0
      rw [hnone, ite_self, anyreader] at hk
      rw [anyreader_succ]
      split_ifs at hk ⊢ <;> omega
    · intro hcan
      have hcan' : can = true := by simpa using hcan
      simpa [hcan'] using hrefuse

theorem Inv.canqlock {p : P} {can : Bool} (h : Inv s as) (hpc : (s.proc p).pc = .canqlock can) :
    Inv (canqlock s p can) as := by
  have hheld : held (s.proc p) = 1 := by simp [held, hpc]
  have hone : total Locks.entering s.proc = 1 := by
    rw [h.counts.entering_eq hheld]
    simp [Locks.entering, hpc]
  have huse : s.rw.k.use = true := h.counts.use_true (p := p) (w := .k) (by simp [inuse, hpc])
  have hpos : 1 ≤ s.rw.readers := by
    rw [← h.counts.readers_eq]
    refine le_trans ?_ (le_total reading s.proc p)
    simp [reading, hpc]
  have hfree : s.rw.readers = 1 → s.rw.k.locked = false := by
    intro hreaders
    have hcan : can = true → s.rw.writers = 0 := by
      rintro rfl
      exact h.canq p hpc
    have hzero := h.counts.first_ownk ⟨can, hcan, .inr ⟨hpc, hreaders⟩⟩ h.sem_le
    have hk := h.counts.k_eq
    rw [hzero, hone, if_pos hreaders, hreaders] at hk
    cases hl : s.rw.k.locked with
    | false => rfl
    | true => simp [anyreader, hl] at hk
  have hcounts : Counts { s.rw with k := { s.rw.k with use := false, locked := true } }
      (Function.update s.proc p ((s.proc p).goto (.rout can))) := by
    apply h.counts.put
    · constructor <;> simp [held, inuse, ownx, reading, writing, hpc, RWlock.q]
      intro w
      cases w <;> simp [huse]
    · have hown := total_put ownk s.proc p ((s.proc p).goto (.rout can))
      have hent := total_put Locks.entering s.proc p ((s.proc p).goto (.rout can))
      have hold : ownk (s.proc p) = (s.proc p).writes := by simp [ownk, hpc]
      have hnew : ownk ((s.proc p).goto (.rout can)) = (s.proc p).writes := rfl
      have hento : Locks.entering (s.proc p) = 1 := by simp [Locks.entering, hpc]
      have hentn : Locks.entering ((s.proc p).goto (.rout can)) = 0 := rfl
      have hk := h.counts.k_eq
      have hbool : s.rw.k.locked.toNat ≤ 1 := Bool.toNat_le _
      change total ownk (Function.update s.proc p ((s.proc p).goto (.rout can))) +
        anyreader s.rw.readers = 1 + if s.rw.readers = 1 then
          total Locks.entering (Function.update s.proc p ((s.proc p).goto (.rout can))) else 0
      have hany : anyreader s.rw.readers = 1 := if_neg (by omega)
      rw [hany] at hk ⊢
      by_cases hr : s.rw.readers = 1
      · rw [hfree hr, if_pos hr] at hk
        rw [if_pos hr]
        simp at hk
        omega
      · rw [if_neg hr] at hk ⊢
        omega
  refine h.plain rfl hcounts (not_waiting _ (by simp [hpc])) (h.sem_zero (by simp [hpc]))
    (by simp) rfl (fun w => by cases w <;> exact ⟨rfl, rfl⟩) ?_ ?_ ?_ ?_ ?_
  · intro w hw
    cases w with
    | x => exact (h.queue .x).locked hw
    | k => rfl
  · exact fun q hq => h.canq_put (by simp) hq
  · intro w
    simp [Locks.canqlock, State.goto, State.put, State.logs, State.setq, waits, hands]
  · intro w
    exact fair_append (h.fair w) (by simp)
  · have hnot : Event.canqlock (decide (s.rw.readers = 1)) (!s.rw.k.locked) ≠
        (Event.canqlock true false : Event P) := by
      intro heq
      injection heq with hfirst hok
      simp [hfree (by simpa using hfirst)] at hok
    intro hmem
    obtain hmem | hmem := List.mem_append.mp hmem
    · exact h.first_ok hmem
    · exact hnot (List.mem_singleton.mp hmem).symm

def lockedproc (pr : Proc P) : Locking → Proc P
  | .rx => pr.goto (.rin false)
  | .wx => pr.goto (.qlock .wk)
  | .wk => { pr with pc := .idle, writes := pr.writes + 1 }

def unlockedproc (pr : Proc P) : Unlocking → Proc P
  | .rx => { pr with pc := .idle, reads := pr.reads + 1 }
  | .rk => pr.goto .runout
  | .wk => pr.goto (.qunlock .wx)
  | .wx => pr.goto .wunlock

omit [Fintype P] in
theorem locked_eq (s : State P) (p : P) (a : Locking) :
    locked s p a = s.put p (lockedproc (s.proc p) a) := by cases a <;> rfl

omit [Fintype P] in
theorem unlocked_eq (s : State P) (p : P) (a : Unlocking) :
    unlocked s p a = s.put p (unlockedproc (s.proc p) a) := by cases a <;> rfl

theorem Inv.qlocking_free {p : P} {a : Locking} (h : Inv s as)
    (hpc : (s.proc p).pc = .qlocking a) (hfree : (s.rw.q a.which).locked = false) :
    Inv (qlocking s p a) as := by
  have huse : (s.rw.q a.which).use = true := h.counts.use_true (p := p) (by simp [inuse, hpc])
  have hempty : as a.which = [] := by
    by_contra hne
    simp [(h.queue a.which).locked hne] at hfree
  simp only [Locks.qlocking, hfree, if_true, locked_eq]
  have hcounts : Counts (s.rw.setq a.which { s.rw.q a.which with use := false, locked := true })
      (Function.update s.proc p (lockedproc (s.proc p) a)) := by
    apply h.counts.put_same
    · cases a <;>
      · simp only [Locking.which, RWlock.q] at huse hfree
        constructor <;> simp [lockedproc, held, inuse, ownx, reading, writing, hpc, RWlock.q,
          RWlock.setq, Locking.which, hfree]
        all_goals try omega
        intro w
        cases w <;> simp [huse]
    · cases a <;> rfl
    · cases a <;> simp only [Locking.which, RWlock.q] at hfree <;>
        simp [lockedproc, ownk, hpc, RWlock.setq, RWlock.q, Locking.which, hfree]
      omega
    · cases a <;> simp [lockedproc, Locks.entering, hpc]
  refine h.plain rfl hcounts (not_waiting _ (by simp [hpc])) ?_ ?_ rfl ?_ ?_ ?_ ?_ ?_ ?_
  · have hsem := h.sem_zero (p := p) (by simp [hpc])
    cases a <;> exact hsem
  · cases a <;> simp [lockedproc]
  · intro w
    by_cases hw : w = a.which
    · subst hw
      simp [State.put, State.setq, q_setq_self]
    · simp [State.put, State.setq, q_setq_ne _ hw]
  · intro w hne
    have hw : w ≠ a.which := by rintro rfl; exact hne hempty
    simp only [State.put, logs_rw, State.setq, q_setq_ne _ hw]
    exact (h.queue w).locked hne
  · intro q hq
    have hwriters : (s.rw.setq a.which { s.rw.q a.which with use := false, locked := true }).writers =
        s.rw.writers := by cases a <;> rfl
    change (Function.update s.proc p _ q).pc = _ at hq
    change (s.rw.setq a.which _).writers = 0
    rw [hwriters]
    exact h.canq_put (by cases a <;> simp [lockedproc]) hq
  · intro w
    simp [State.put, State.logs, State.setq, waits, hands]
  · intro w
    refine fair_append (h.fair w) ?_
    rintro (⟨q, hq⟩ | hq)
    · obtain ⟨rfl, -⟩ : a.which = w ∧ p = q := by simpa using hq
      have hwaits := (h.queue a.which).waits_eq
      rwa [hempty, List.append_nil] at hwaits
    · simp at hq
  · exact List.not_mem_append h.first_ok (by simp)

theorem Inv.osblock {p : P} {a : Locking} (h : Inv s as) (hpc : (s.proc p).pc = .osblock a)
    (hsem : (s.proc p).sem ≠ 0) :
    Inv (locked (s.put p { s.proc p with sem := (s.proc p).sem - 1 }) p a) as := by
  have hle := h.sem_le p
  have hone : (s.proc p).sem = 1 := by omega
  have hproc : (locked (s.put p { s.proc p with sem := (s.proc p).sem - 1 }) p a).proc =
      Function.update s.proc p (lockedproc { s.proc p with sem := 0 } a) := by
    simp [locked_eq, State.put, hone]
  have hcounts : Counts s.rw (Function.update s.proc p (lockedproc { s.proc p with sem := 0 } a)) := by
    apply h.counts.put_same
    · cases a <;> constructor <;>
        simp [lockedproc, held, inuse, ownx, reading, writing, hpc, hone]
    · rfl
    · cases a <;> simp [lockedproc, ownk, hpc, hone]
    · cases a <;> simp [lockedproc, Locks.entering, hpc]
  have hrest : (locked (s.put p { s.proc p with sem := (s.proc p).sem - 1 }) p a).rw = s.rw ∧
      (locked (s.put p { s.proc p with sem := (s.proc p).sem - 1 }) p a).qnext = s.qnext ∧
      (locked (s.put p { s.proc p with sem := (s.proc p).sem - 1 }) p a).log = s.log := by
    rw [locked_eq]
    exact ⟨rfl, rfl, rfl⟩
  obtain ⟨hrw, hqnext, hlog⟩ := hrest
  refine h.plain hproc (by rw [hrw, hproc]; exact hcounts) ?_ ?_ ?_ hqnext
    (fun w => by rw [hrw]; exact ⟨rfl, rfl⟩) ?_ ?_ (fun w => by rw [hlog]; exact ⟨rfl, rfl⟩)
    (fun w => by rw [hlog]; exact h.fair w) (by rw [hlog]; exact h.first_ok)
  · intro w hw
    exact hsem (waiting_sem hw)
  · cases a <;> rfl
  · cases a <;> simp [lockedproc]
  · intro w hne
    rw [hrw]
    exact (h.queue w).locked hne
  · intro q hq
    rw [hproc] at hq
    rw [hrw]
    exact h.canq_put (by cases a <;> simp [lockedproc]) hq

theorem Inv.qunlocking_none {p : P} {a : Unlocking} (h : Inv s as)
    (hpc : (s.proc p).pc = .qunlocking a) (hhead : (s.rw.q a.which).head = none) :
    Inv (qunlocking s p a) as := by
  have huse : (s.rw.q a.which).use = true := h.counts.use_true (p := p) (by simp [inuse, hpc])
  have hempty : as a.which = [] := by
    have hfifo := (h.queue a.which).fifo
    rw [hhead] at hfifo
    exact hfifo.head_none
  have hlocked : (s.rw.q a.which).locked = true := by
    cases a
    · exact h.counts.x_locked (p := p) (by simp [ownx, hpc])
    · exact h.counts.k_locked (p := p) (by simp [ownk, hpc, Unlocking.which])
    · exact h.counts.k_locked (p := p) (by simp [ownk, hpc, Unlocking.which])
    · exact h.counts.x_locked (p := p) (by simp [ownx, hpc])
  simp only [Locks.qunlocking, hhead, unlocked_eq]
  have hcounts : Counts (s.rw.setq a.which ⟨false, false, none, (s.rw.q a.which).tail⟩)
      (Function.update s.proc p (unlockedproc (s.proc p) a)) := by
    apply h.counts.put_same
    · cases a <;>
      · simp only [Unlocking.which, RWlock.q] at huse hlocked
        constructor <;> simp [unlockedproc, held, inuse, ownx, reading, writing, hpc, RWlock.q,
          RWlock.setq, Unlocking.which, hlocked]
        all_goals try omega
        intro w
        cases w <;> simp [huse]
    · cases a <;> rfl
    · cases a <;> simp only [Unlocking.which, RWlock.q] at hlocked <;>
        simp [unlockedproc, ownk, hpc, RWlock.setq, RWlock.q, Unlocking.which, hlocked]
      all_goals omega
    · cases a <;> simp [unlockedproc, Locks.entering, hpc]
  refine h.plain rfl hcounts (not_waiting _ (by simp [hpc])) ?_ ?_ rfl ?_ ?_ ?_ ?_ ?_ ?_
  · have hsem := h.sem_zero (p := p) (by simp [hpc])
    cases a <;> exact hsem
  · cases a <;> simp [unlockedproc]
  · intro w
    by_cases hw : w = a.which
    · subst hw
      simp [State.put, State.setq, q_setq_self, hhead]
    · simp [State.put, State.setq, q_setq_ne _ hw]
  · intro w hne
    have hw : w ≠ a.which := by rintro rfl; exact hne hempty
    simp only [State.put, logs_rw, State.setq, q_setq_ne _ hw]
    exact (h.queue w).locked hne
  · intro q hq
    have hwriters : (s.rw.setq a.which ⟨false, false, none, (s.rw.q a.which).tail⟩).writers =
        s.rw.writers := by cases a <;> rfl
    change (Function.update s.proc p _ q).pc = _ at hq
    change (s.rw.setq a.which _).writers = 0
    rw [hwriters]
    exact h.canq_put (by cases a <;> simp [unlockedproc]) hq
  · intro w
    simp [State.put, State.logs, State.setq, waits, hands]
  · intro w
    refine fair_append (h.fair w) ?_
    rintro (⟨q, hq⟩ | hq)
    · simp at hq
    · obtain rfl : a.which = w := by simpa using hq
      have hwaits := (h.queue a.which).waits_eq
      rwa [hempty, List.append_nil] at hwaits
  · exact List.not_mem_append h.first_ok (by simp)

omit [Fintype P] [DecidableEq P] in
theorem waiting_which {w v : Which} {pr : Proc P} (hw : Waiting w pr) (hv : Waiting v pr) :
    w = v := by
  obtain ⟨a, ha, rfl, -⟩ := hw
  obtain ⟨b, hb, rfl, -⟩ := hv
  rw [ha] at hb
  injection hb with hab
  rw [hab]

omit [DecidableEq P] in
theorem Inv.not_queued (h : Inv s as) {p : P} (hp : ∀ w, ¬ Waiting w (s.proc p)) (w : Which) :
    p ∉ as w := fun hmem => hp w ((h.queue w).waiting p hmem)

theorem Inv.qlocking_wait {p : P} {a : Locking} (h : Inv s as)
    (hpc : (s.proc p).pc = .qlocking a) (hlocked : (s.rw.q a.which).locked = true) :
    Inv (qlocking s p a) (Function.update as a.which (as a.which ++ [p])) := by
  have huse : (s.rw.q a.which).use = true := h.counts.use_true (p := p) (by simp [inuse, hpc])
  have hnot := not_waiting (s.proc p) (by simp [hpc])
  have hout := h.not_queued hnot
  have hsem := h.sem_zero (p := p) (by simp [hpc])
  have hcounts : Counts (s.rw.setq a.which ⟨false, true,
      pushhead (s.rw.q a.which).head (s.rw.q a.which).tail p, some p⟩)
      (Function.update s.proc p ((s.proc p).goto (.osblock a))) := by
    apply h.counts.put_same
    · cases a <;>
      · simp only [Locking.which, RWlock.q] at huse hlocked
        constructor <;> simp [held, inuse, ownx, reading, writing, hpc, RWlock.q, RWlock.setq,
          Locking.which, hlocked, hsem]
        intro w
        cases w <;> simp [huse]
    · cases a <;> rfl
    · cases a <;> simp only [Locking.which, RWlock.q] at hlocked <;>
        simp [ownk, hpc, RWlock.setq, RWlock.q, Locking.which, hlocked, hsem]
    · simp [Locks.entering, hpc]
  simp only [Locks.qlocking, hlocked, Bool.true_eq_false, if_false]
  have hself : Waiting a.which ((s.proc p).goto (.osblock a)) := ⟨a, rfl, rfl, hsem⟩
  refine h.update rfl hcounts hnot hsem ?_ ?_ (by simp) ?_ ?_ ?_
  · intro w
    by_cases hw : w = a.which
    · subst hw
      have hqueue := h.queue a.which
      rw [Function.update_self]
      refine ⟨?_, ?_, ?_, ?_⟩
      · simpa [State.goto, State.put, State.logs, State.setq, q_setq_self] using
          hqueue.fifo.push (hout a.which)
      · intro q hmem
        change Waiting a.which (Function.update s.proc p ((s.proc p).goto (.osblock a)) q)
        by_cases hqp : q = p
        · subst hqp
          rw [Function.update_self]
          exact hself
        · rw [Function.update_of_ne hqp]
          simp only [List.mem_append, List.mem_singleton, hqp, or_false] at hmem
          exact hqueue.waiting q hmem
      · have hwaits : waits a.which s.log ++ [p] = hands a.which s.log ++ (as a.which ++ [p]) := by
          rw [hqueue.waits_eq, List.append_assoc]
        simpa [State.goto, State.put, State.logs, State.setq, waits, hands] using hwaits
      · simp [State.goto, State.put, State.logs, State.setq, q_setq_self]
    · have hqueue := h.queue w
      rw [Function.update_of_ne hw]
      refine hqueue.same rfl (hnot w) ?_ ?_ ?_
      · simp only [State.goto, State.put, State.logs, State.setq, q_setq_ne _ hw]
        refine hqueue.fifo.frame (hout w) ?_
        intro t ht hmem
        have hta : t ∈ as a.which := by
          rw [(h.queue a.which).fifo.tail_eq] at ht
          exact List.mem_of_getLast? ht
        exact hw (waiting_which (hqueue.waiting t hmem) ((h.queue a.which).waiting t hta))
      · simp [State.goto, State.put, State.logs, State.setq, waits, hands, Ne.symm hw]
      · simp only [State.goto, State.put, State.logs, State.setq, q_setq_ne _ hw]
        exact hqueue.locked
  · intro w q hqp hmem
    by_cases hw : w = a.which
    · subst hw
      rw [Function.update_self]
      simp [hmem, hqp]
    · rw [Function.update_of_ne hw]
      exact hmem
  · intro q hq
    change (Function.update s.proc p _ q).pc = _ at hq
    change (s.rw.setq a.which _).writers = 0
    rw [setq_writers]
    exact h.canq_put (by simp) hq
  · intro w
    exact fair_append (h.fair w) (by simp)
  · exact List.not_mem_append h.first_ok (by simp)

theorem Inv.qunlocking_some {p r : P} {a : Unlocking} (h : Inv s as)
    (hpc : (s.proc p).pc = .qunlocking a) (hhead : (s.rw.q a.which).head = some r) :
    ∃ as', Inv (qunlocking s p a) as' := by
  have huse : (s.rw.q a.which).use = true := h.counts.use_true (p := p) (by simp [inuse, hpc])
  have hnot := not_waiting (s.proc p) (by simp [hpc])
  have hqueue := h.queue a.which
  have hfifo := hqueue.fifo
  rw [hhead] at hfifo
  obtain ⟨bs, hbs, hpop⟩ := hfifo.pop
  have hrw : Waiting a.which (s.proc r) := hqueue.waiting r (by simp [hbs])
  have hrbs : r ∉ bs := by
    have hnodup := hfifo.nodup
    rw [hbs] at hnodup
    exact (List.nodup_cons.mp hnodup).1
  have hcounts : ∀ tail, Counts (s.rw.setq a.which
      ⟨false, (s.rw.q a.which).locked, s.qnext r, tail⟩)
      (Function.update s.proc p ((s.proc p).goto (.osready a r))) := by
    intro tail
    apply h.counts.put_same
    · cases a <;>
      · simp only [Unlocking.which, RWlock.q] at huse
        constructor <;> simp [held, inuse, ownx, reading, writing, hpc, RWlock.q, RWlock.setq,
          Unlocking.which]
        intro w
        cases w <;> simp [huse]
    · cases a <;> rfl
    · cases a <;> simp [ownk, hpc, RWlock.setq, RWlock.q, Unlocking.which]
    · simp [Locks.entering, hpc]
  simp only [Locks.qunlocking, hhead]
  refine ⟨Function.update as a.which bs, h.update rfl (hcounts _) hnot
    (h.sem_zero (p := p) (by simp [hpc])) ?_ ?_ ?_ ?_ ?_ ?_⟩
  · intro w
    by_cases hw : w = a.which
    · subst hw
      rw [Function.update_self]
      refine ⟨?_, ?_, ?_, ?_⟩
      · simpa [State.goto, State.put, State.logs, State.setq, q_setq_self] using hpop
      · intro q hmem
        have hq : Waiting a.which (s.proc q) := hqueue.waiting q (by simp [hbs, hmem])
        have hqp : q ≠ p := by rintro rfl; exact hnot _ hq
        change Waiting a.which (Function.update s.proc p _ q)
        rw [Function.update_of_ne hqp]
        exact hq
      · have hwaits := hqueue.waits_eq
        rw [hbs] at hwaits
        simpa [State.goto, State.put, State.logs, State.setq, waits, hands] using hwaits
      · intro _
        simpa [State.goto, State.put, State.logs, State.setq, q_setq_self] using
          hqueue.locked (by simp [hbs])
    · rw [Function.update_of_ne hw]
      refine (h.queue w).same rfl (hnot w) ?_ ?_ ?_
      · simp only [State.goto, State.put, State.logs, State.setq, q_setq_ne _ hw]
        exact (h.queue w).fifo
      · simp [State.goto, State.put, State.logs, State.setq, waits, hands, Ne.symm hw]
      · simp only [State.goto, State.put, State.logs, State.setq, q_setq_ne _ hw]
        exact (h.queue w).locked
  · intro w q _ hmem
    by_cases hw : w = a.which
    · subst hw
      rw [Function.update_self]
      rw [hbs] at hmem
      exact fun hq => hmem (List.mem_cons_of_mem r hq)
    · rw [Function.update_of_ne hw]
      exact hmem
  · intro b q hq
    obtain ⟨rfl, rfl⟩ : a = b ∧ r = q := by simpa using hq
    refine ⟨hrw, ?_⟩
    intro w
    by_cases hw : w = a.which
    · subst hw
      rwa [Function.update_self]
    · rw [Function.update_of_ne hw]
      intro hmem
      exact hw (waiting_which ((h.queue w).waiting r hmem) hrw)
  · intro q hq
    change (Function.update s.proc p _ q).pc = _ at hq
    change (s.rw.setq a.which _).writers = 0
    rw [setq_writers]
    exact h.canq_put (by simp) hq
  · intro w
    exact fair_append (h.fair w) (by simp)
  · exact List.not_mem_append h.first_ok (by simp)

def own (w : Which) (pr : Proc P) : ℕ :=
  match w with
  | .x => ownx pr
  | .k => ownk pr

omit [DecidableEq P] in
theorem Inv.own_le_one (h : Inv s as) (w : Which) : total (own w) s.proc ≤ 1 := by
  cases w with
  | x => exact h.counts.ownx_le_one
  | k => exact h.counts.ownk_le_one

omit [Fintype P] [DecidableEq P] in
theorem own_osready {pr : Proc P} {a : Unlocking} {r : P} (h : pr.pc = .osready a r) :
    1 ≤ own a.which pr := by
  cases a <;> simp [own, Unlocking.which, ownx, ownk, h]

theorem Inv.osready_alone (h : Inv s as) {p q r r' : P} {a b : Unlocking}
    (hp : (s.proc p).pc = .osready a r) (hq : (s.proc q).pc = .osready b r')
    (hab : a.which = b.which) : p = q := by
  by_contra hpq
  have hle := two_le_total (own a.which) s.proc hpq
  have hone := h.own_le_one a.which
  have hpo := own_osready hp
  have hqo := own_osready hq
  rw [← hab] at hqo
  omega

theorem total_put_two (f : Proc P → ℕ) (proc : P → Proc P) {p r : P} (pr rr : Proc P)
    (hpr : p ≠ r) :
    total f (Function.update (Function.update proc r rr) p pr) + f (proc p) + f (proc r) =
      total f proc + f pr + f rr := by
  have hone := total_put f proc r rr
  have htwo := total_put f (Function.update proc r rr) p pr
  rw [Function.update_of_ne hpr] at htwo
  omega

theorem Counts.hand {p r : P} {a : Unlocking} (h : Counts s.rw s.proc)
    (hpc : (s.proc p).pc = .osready a r) (hr : Waiting a.which (s.proc r)) (hpr : p ≠ r) :
    Counts s.rw (Function.update (Function.update s.proc r { s.proc r with sem := (s.proc r).sem + 1 })
      p (unlockedproc (s.proc p) a)) := by
  obtain ⟨b, hb, hba, hsem⟩ := hr
  have hboth : ∀ f : Proc P → ℕ, f (unlockedproc (s.proc p) a) +
      f { s.proc r with sem := (s.proc r).sem + 1 } = f (s.proc p) + f (s.proc r) →
      total f (Function.update (Function.update s.proc r
        { s.proc r with sem := (s.proc r).sem + 1 }) p (unlockedproc (s.proc p) a)) =
      total f s.proc := by
    intro f hf
    have htwo := total_put_two f s.proc (unlockedproc (s.proc p) a)
      { s.proc r with sem := (s.proc r).sem + 1 } hpr
    omega
  refine ⟨?_, ?_, ?_, ?_, ?_, ?_⟩
  · rw [hboth, h.l_eq]
    cases a <;> simp [unlockedproc, held, hpc, hb]
  · intro w
    rw [hboth, h.use_eq]
    cases a <;> simp [unlockedproc, inuse, hpc, hb]
  · rw [hboth, h.x_eq]
    cases a <;> cases b <;> simp [Locking.which, Unlocking.which] at hba <;>
      simp [unlockedproc, ownx, hpc, hb, hsem] <;> omega
  · rw [hboth, hboth, h.k_eq]
    · cases a <;> simp [unlockedproc, Locks.entering, hpc, hb]
    · cases a <;> cases b <;> simp [Locking.which, Unlocking.which] at hba <;>
        simp [unlockedproc, ownk, hpc, hb, hsem, Unlocking.which] <;> omega
  · rw [hboth, h.readers_eq]
    cases a <;> simp [unlockedproc, reading, hpc, hb]
  · rw [hboth, h.writers_eq]
    cases a <;> cases b <;> simp [unlockedproc, writing, hpc, hb]

theorem Inv.osready {p r : P} {a : Unlocking} (h : Inv s as)
    (hpc : (s.proc p).pc = .osready a r) : Inv (osready s p a r) as := by
  obtain ⟨hr, hout⟩ := h.handing p a r hpc
  have hpr : p ≠ r := by
    rintro rfl
    obtain ⟨b, hb, -⟩ := hr
    rw [hpc] at hb
    simp at hb
  have hrsem := waiting_sem hr
  have hproc : (Locks.osready s p a r).proc = Function.update (Function.update s.proc r
      { s.proc r with sem := (s.proc r).sem + 1 }) p (unlockedproc (s.proc p) a) := by
    simp [Locks.osready, unlocked_eq, State.put, Function.update_of_ne hpr]
  have hrest : (Locks.osready s p a r).rw = s.rw ∧ (Locks.osready s p a r).qnext = s.qnext ∧
      (Locks.osready s p a r).log = s.log := by
    rw [Locks.osready, unlocked_eq]
    exact ⟨rfl, rfl, rfl⟩
  obtain ⟨hrw, hqnext, hlog⟩ := hrest
  have hother : ∀ q, q ≠ p → q ≠ r → (Locks.osready s p a r).proc q = s.proc q := by
    intro q hqp hqr
    rw [hproc, Function.update_of_ne hqp, Function.update_of_ne hqr]
  have hp' : (Locks.osready s p a r).proc p = unlockedproc (s.proc p) a := by
    rw [hproc, Function.update_self]
  have hr' : (Locks.osready s p a r).proc r = { s.proc r with sem := (s.proc r).sem + 1 } := by
    rw [hproc, Function.update_of_ne hpr.symm, Function.update_self]
  have hpsem := h.sem_zero (p := p) (by simp [hpc])
  refine ⟨?_, ?_, ?_, ?_, ?_, ?_, by rw [hlog]; exact h.fair, by rw [hlog]; exact h.first_ok⟩
  · rw [hrw, hproc]
    exact h.counts.hand hpc hr hpr
  · intro q
    by_cases hqp : q = p
    · subst hqp
      rw [hp']
      cases a <;> simp [unlockedproc, hpsem]
    · by_cases hqr : q = r
      · subst hqr
        rw [hr']
        simp [hrsem]
      · rw [hother q hqp hqr]
        exact h.sem_le q
  · intro q
    by_cases hqp : q = p
    · subst hqp
      rw [hp']
      cases a <;> simp [unlockedproc, hpsem]
    · by_cases hqr : q = r
      · subst hqr
        rw [hr']
        obtain ⟨b, hb, -⟩ := hr
        exact fun _ => ⟨b, hb⟩
      · rw [hother q hqp hqr]
        exact h.sem_block q
  · intro w
    obtain ⟨hfifo, hwaiting, hwaits, hlocked⟩ := h.queue w
    refine ⟨?_, ?_, ?_, ?_⟩
    · rw [hqnext, hrw]
      exact hfifo
    · intro q hmem
      have hq := hwaiting q hmem
      have hqr : q ≠ r := by rintro rfl; exact hout w hmem
      have hqp : q ≠ p := by
        rintro rfl
        exact not_waiting _ (by simp [hpc]) w hq
      rw [hother q hqp hqr]
      exact hq
    · rw [hlog]
      exact hwaits
    · rw [hrw]
      exact hlocked
  · intro r₂ b q hr₂
    have hr₂p : r₂ ≠ p := by
      rintro rfl
      rw [hp'] at hr₂
      cases a <;> simp [unlockedproc] at hr₂
    have hr₂r : r₂ ≠ r := by
      rintro rfl
      rw [hr'] at hr₂
      obtain ⟨c, hc, -⟩ := hr
      simp [hc] at hr₂
    rw [hother r₂ hr₂p hr₂r] at hr₂
    obtain ⟨hq, hqout⟩ := h.handing r₂ b q hr₂
    have hqp : q ≠ p := by
      rintro rfl
      exact not_waiting _ (by simp [hpc]) _ hq
    have hqr : q ≠ r := by
      rintro rfl
      exact hr₂p (h.osready_alone hr₂ hpc (waiting_which hq hr))
    rw [hother q hqp hqr]
    exact ⟨hq, hqout⟩
  · intro q hq
    rw [hrw]
    by_cases hqp : q = p
    · subst hqp
      rw [hp'] at hq
      cases a <;> simp [unlockedproc] at hq
    · by_cases hqr : q = r
      · subst hqr
        rw [hr'] at hq
        exact h.canq q hq
      · rw [hother q hqp hqr] at hq
        exact h.canq q hq

theorem Inv.step {p : P} {c : Call} (h : Inv s as) (hs : step s p c = some s') :
    ∃ as', Inv s' as' := by
  unfold Locks.step at hs
  cases hpc : (s.proc p).pc with
  | idle =>
    rw [hpc] at hs
    exact ⟨as, h.call hpc hs⟩
  | qlock a | qunlock a =>
    rw [hpc] at hs
    refine ⟨as, h.takeuse hs (by simp [hpc]) (by simp) (by simp) ?_ ?_ ?_ ?_⟩
    · intro v
      by_cases hv : v = a.which
      · simp [inuse, hpc, hv]
      · simp [inuse, hpc, hv, Ne.symm hv]
    · cases a <;> simp [held, ownx, reading, writing, hpc]
    · cases a <;> simp [ownk, hpc]
    · simp [Locks.entering, hpc]
  | qlocking a =>
    rw [hpc] at hs
    obtain rfl := Option.some.inj hs
    cases hlocked : (s.rw.q a.which).locked with
    | false => exact ⟨as, h.qlocking_free hpc hlocked⟩
    | true => exact ⟨_, h.qlocking_wait hpc hlocked⟩
  | osblock a =>
    rw [hpc] at hs
    simp only at hs
    split_ifs at hs with hsem
    obtain rfl := Option.some.inj hs
    exact ⟨as, h.osblock hpc hsem⟩
  | rin can | runlock | wlock | wunlock =>
    rw [hpc] at hs
    refine ⟨as, h.takel hs (by simp [hpc]) (by simp) (by simp) ?_ ?_ ?_⟩
    · intro hfree
      constructor <;> simp [held, inuse, ownx, reading, writing, hpc, hfree, RWlock.q]
    · simp [ownk, hpc]
    · simp [Locks.entering, hpc]
  | rcount can =>
    rw [hpc] at hs
    obtain rfl := Option.some.inj hs
    exact ⟨as, h.rcount hpc⟩
  | canqlock can =>
    rw [hpc] at hs
    obtain rfl := Option.some.inj hs
    exact ⟨as, h.canqlock hpc⟩
  | rout can =>
    rw [hpc] at hs
    obtain rfl := Option.some.inj hs
    exact ⟨as, h.rout hpc⟩
  | qunlocking a =>
    rw [hpc] at hs
    obtain rfl := Option.some.inj hs
    cases hhead : (s.rw.q a.which).head with
    | none => exact ⟨as, h.qunlocking_none hpc hhead⟩
    | some r => exact h.qunlocking_some hpc hhead
  | osready a r =>
    rw [hpc] at hs
    obtain rfl := Option.some.inj hs
    exact ⟨as, h.osready hpc⟩
  | runcount =>
    rw [hpc] at hs
    obtain rfl := Option.some.inj hs
    exact ⟨as, h.runcount hpc⟩
  | runout =>
    rw [hpc] at hs
    obtain rfl := Option.some.inj hs
    exact ⟨as, h.runout hpc⟩
  | wcount =>
    rw [hpc] at hs
    obtain rfl := Option.some.inj hs
    exact ⟨as, h.wcount hpc⟩
  | wuncount =>
    rw [hpc] at hs
    obtain rfl := Option.some.inj hs
    exact ⟨as, h.wuncount hpc⟩

omit [DecidableEq P] in
theorem inv_init : Inv (State.init : State P) fun _ => [] := by
  refine ⟨?_, by simp [State.init], by simp [State.init], ?_, by simp [State.init],
    by simp [State.init], ?_, by simp [State.init]⟩
  · refine ⟨?_, ?_, ?_, ?_, ?_, ?_⟩ <;>
      simp [State.init, total, held, inuse, ownx, ownk, reading, writing, anyreader, QLock.init]
    intro w
    cases w <;> rfl
  · intro w
    cases w <;> exact ⟨Fifo.empty _, by simp, rfl, by simp⟩
  · intro w l₁ e l₂ h
    simp [State.init] at h

theorem reached_inv (h : Reached s) : ∃ as, Inv s as := by
  induction h with
  | init => exact ⟨_, inv_init⟩
  | step s s' p c h hs ih =>
    obtain ⟨as, has⟩ := ih
    exact has.step hs

def Exclusive (s : State P) : Prop :=
  ∀ p, 0 < (s.proc p).writes → (s.proc p).writes = 1 ∧
    (∀ q, q ≠ p → (s.proc q).writes = 0) ∧ ∀ q, (s.proc q).reads = 0

structure Sound (s : State P) : Prop where
  exclusive : Exclusive s
  readers_locked : s.rw.l = false → 0 < s.rw.readers → s.rw.k.locked = true
  first_reader : Event.canqlock true false ∉ s.log
  canrlock_iff : ∀ p c s', (s.proc p).pc = .rcount true → step s p c = some s' →
    ((s'.proc p).pc = .idle ↔ ∃ q, 0 < writing (s.proc q))
  arrival : ∀ w, ∃ as, Fifo s.qnext (s.rw.q w).head (s.rw.q w).tail as ∧
    waits w s.log = hands w s.log ++ as
  fair : ∀ w, Fair w s.log

omit [DecidableEq P] in
theorem total_pos {f : Proc P → ℕ} {proc : P → Proc P} :
    total f proc ≠ 0 ↔ ∃ p, 0 < f (proc p) := by
  unfold total
  rw [Ne, Finset.sum_eq_zero_iff]
  simp [Nat.pos_iff_ne_zero]

omit [DecidableEq P] in
theorem Inv.no_reader (h : Inv s as) {p : P} (hp : 0 < (s.proc p).writes) (q : P) :
    (s.proc q).reads = 0 := by
  by_contra hq
  have hown : 1 ≤ total ownk s.proc := by
    refine le_trans ?_ (le_total ownk s.proc p)
    simp only [ownk]
    omega
  have hread : (s.proc q).reads ≤ reading (s.proc q) := Nat.le_add_right _ _
  have hreading := (hread.trans (le_total reading s.proc q))
  rw [h.counts.readers_eq] at hreading
  have hk := h.counts.k_eq
  have he := h.counts.entering_le_one
  have hbool : s.rw.k.locked.toNat ≤ 1 := Bool.toNat_le _
  have hany : anyreader s.rw.readers = 1 := if_neg (by omega)
  rw [hany] at hk
  by_cases hone : s.rw.readers = 1
  · -- the one reader is not the one that is trying for k
    rw [if_pos hone] at hk
    have hpos : total Locks.entering s.proc ≠ 0 := by omega
    obtain ⟨r, hr⟩ := total_pos.mp hpos
    have hrr : (s.proc r).reads + 1 ≤ reading (s.proc r) := by
      unfold Locks.entering at hr
      cases hpc : (s.proc r).pc with
      | canqlock can => simp [reading, hpc]
      | _ => simp [hpc] at hr
    have hsum := h.counts.readers_eq
    by_cases hrq : r = q
    · subst hrq
      have hle := le_total reading s.proc r
      omega
    · have hle := two_le_total reading s.proc hrq
      omega
  · rw [if_neg hone] at hk
    omega

omit [DecidableEq P] in
theorem Inv.exclusive (h : Inv s as) : Exclusive s := by
  intro p hp
  have hx := h.counts.ownx_le_one
  have hwrites : ∀ q, (s.proc q).writes ≤ ownx (s.proc q) := fun q => Nat.le_add_right _ _
  refine ⟨?_, ?_, h.no_reader hp⟩
  · have hle := le_total ownx s.proc p
    have hpw := hwrites p
    omega
  · intro q hqp
    have hle := two_le_total ownx s.proc hqp
    have hpw := hwrites p
    have hqw := hwrites q
    omega

omit [DecidableEq P] in
theorem Inv.readers_locked (h : Inv s as) (hl : s.rw.l = false) (hr : 0 < s.rw.readers) :
    s.rw.k.locked = true := by
  have hk := h.counts.k_eq
  have hnone : total Locks.entering s.proc = 0 := by
    have hle : total Locks.entering s.proc ≤ total held s.proc :=
      Finset.sum_le_sum fun q _ => entering_le (s.proc q)
    rw [h.counts.l_eq, hl] at hle
    exact Nat.le_zero.mp hle
  have hany : anyreader s.rw.readers = 1 := if_neg (by omega)
  rw [hnone, ite_self, hany] at hk
  cases hlocked : s.rw.k.locked with
  | true => rfl
  | false => simp [hlocked] at hk

theorem Inv.canrlock_iff {p : P} {c : Call} (h : Inv s as) (hpc : (s.proc p).pc = .rcount true)
    (hs : Locks.step s p c = some s') :
    (s'.proc p).pc = .idle ↔ ∃ q, 0 < writing (s.proc q) := by
  rw [← total_pos, h.counts.writers_eq]
  unfold Locks.step at hs
  rw [hpc] at hs
  obtain rfl := Option.some.inj hs
  simp only [Locks.rcount]
  split_ifs with hwriters huse
  · simp [State.goto, State.put, hwriters.2]
  · simp [State.goto, State.put] at hwriters ⊢
    exact hwriters
  · simp [State.goto, State.put] at hwriters ⊢
    exact hwriters

theorem reached_sound (h : Reached s) : Sound s := by
  obtain ⟨as, has⟩ := reached_inv h
  refine ⟨has.exclusive, has.readers_locked, has.first_ok, ?_, ?_, has.fair⟩
  · intro p c s' hpc hs
    exact has.canrlock_iff hpc hs
  · intro w
    exact ⟨as w, (has.queue w).fifo, (has.queue w).waits_eq⟩

end

def run [DecidableEq P] (s : State P) (sched : List (P × Call)) : Option (State P) :=
  sched.foldlM (fun s pc => step s pc.1 pc.2) s

theorem run_reached [DecidableEq P] {s s' : State P} {sched : List (P × Call)} (h : Reached s)
    (hs : run s sched = some s') : Reached s' := by
  induction sched generalizing s with
  | nil =>
    obtain rfl := Option.some.inj hs
    exact h
  | cons pc sched ih =>
    obtain ⟨s₁, hstep, hrest⟩ := Option.bind_eq_some_iff.mp hs
    exact ih (.step s s₁ pc.1 pc.2 h hstep) hrest

local instance neZero_two : NeZero 2 := ⟨two_ne_zero⟩

def readerfirst : List (Fin 2 × Call) :=
  List.replicate 9 (0, .rlock) ++ List.replicate 7 (1, .wlock)

theorem readerfirst_sound : ∃ s : State (Fin 2), run .init readerfirst = some s ∧
    (s.proc 0).reads = 1 ∧ (s.proc 1).pc = .osblock .wk ∧ Sound s :=
  ⟨_, rfl, rfl, rfl,
    reached_sound (run_reached .init (rfl : run .init readerfirst = some _))⟩

end Infernode.Locks
