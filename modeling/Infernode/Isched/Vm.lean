import Infernode.Lib.Fifo

/-!
# The VM token

The procs that want the VM, the one that has it, and what each does in a section under
`isched.l`. An `osready` that comes before the `osblock` is remembered.
-/

namespace Infernode.Isched

open Lib (Fifo Linked)

/-- Where a proc is: without the VM, blocked in `acquire`, or in `iyield` or `startup`, with the
VM, about to call `osready` and then to block or go on, about to make a kproc, or not yet in
`startup`. -/
inductive Place
  | absent | out | acquiring | idling | has
  | readying (p : ℕ) (yields : Bool)
  | making | coming
  deriving DecidableEq

structure Vm where
  idle : Bool
  creating : Bool
  vmq : Option ℕ
  vmqt : Option ℕ
  idlevmq : Option ℕ
  qnext : ℕ → Option ℕ
  place : ℕ → Place
  woken : ℕ → Bool
  -- those that came to `vmq`, and those taken from it
  arrived : List ℕ
  granted : List ℕ

def Vm.at (v : Vm) (i : ℕ) (place : Place) : Vm :=
  { v with place := Function.update v.place i place }

def Vm.acquire (v : Vm) (i : ℕ) : Vm :=
  if v.idle then { v with idle := false }.at i .has
  else
    let qnext := Function.update v.qnext i none
    { v with
      qnext := match v.vmq, v.vmqt with
        | some _, some t => Function.update qnext t (some i)
        | _, _ => qnext
      vmq := if v.vmq.isNone then some i else v.vmq
      vmqt := some i
      arrived := v.arrived ++ [i] }.at i .acquiring

def Vm.release (v : Vm) (i : ℕ) : Vm :=
  match v.vmq with
  | some p => { v with vmq := v.qnext p, granted := v.granted ++ [p] }.at i (.readying p false)
  | none =>
    match v.idlevmq with
    | some p => { v with idlevmq := v.qnext p }.at i (.readying p false)
    | none =>
      { v with idle := true, creating := true }.at i (if v.creating then .out else .making)

def Vm.iyield (v : Vm) (i : ℕ) : Vm :=
  match v.vmq with
  | none => v
  | some p =>
    { v with
      vmq := v.qnext p
      qnext := Function.update v.qnext i v.idlevmq
      idlevmq := some i
      granted := v.granted ++ [p] }.at i (.readying p true)

def Vm.startup (v : Vm) (i : ℕ) : Vm :=
  if v.idle then { v with creating := false, idle := false }.at i .has
  else
    { v with
      creating := false
      qnext := Function.update v.qnext i v.idlevmq
      idlevmq := some i }.at i .idling

def Vm.osready (v : Vm) (i p : ℕ) (yields : Bool) : Vm :=
  { v with woken := Function.update v.woken p true }.at i (if yields then .idling else .out)

def Vm.wake (v : Vm) (i : ℕ) : Vm :=
  { v with woken := Function.update v.woken i false }.at i .has

def Vm.kproc (v : Vm) (i k : ℕ) : Vm :=
  (v.at k .coming).at i .out

inductive Turn
  | idle
  | held (i : ℕ)
  | passed (i p : ℕ)
  | readied (p : ℕ)

def Turn.next : Turn → Option ℕ
  | .passed _ p | .readied p => some p
  | _ => none

@[grind cases]
structure Vm.Token (v : Vm) (t : Turn) (vs ids : List ℕ) : Prop where
  vmq : Fifo v.qnext v.vmq (if v.vmq = none then none else v.vmqt) vs
  idlevmq : Linked v.qnext v.idlevmq ids
  nodup : ids.Nodup
  idle : v.idle = true ↔ t = .idle
  empty : t = .idle → vs = [] ∧ ids = []
  has : ∀ i, v.place i = .has ↔ t = .held i
  readying : ∀ i p yields, v.place i = .readying p yields → t = .passed i p
  passed : ∀ i p, t = .passed i p → ∃ yields, v.place i = .readying p yields
  woken : ∀ p, v.woken p = true ↔ t = .readied p
  acquiring : ∀ i ∈ vs, v.place i = .acquiring
  idling : ∀ i ∈ ids, v.place i = .idling ∨ ∃ p, v.place i = .readying p true
  next : ∀ p ∈ t.next, p ∉ vs ∧ p ∉ ids ∧ (v.place p = .acquiring ∨ v.place p = .idling)
  waits : ∀ i, v.place i = .acquiring → i ∈ vs ∨ i ∈ t.next
  sleeps : ∀ i, (v.place i = .idling → i ∈ ids ∨ i ∈ t.next) ∧
    ∀ p, v.place i = .readying p true → i ∈ ids
  making : ∀ i j, (v.place i = .making ∨ v.place i = .coming) →
    (v.place j = .making ∨ v.place j = .coming) → i = j
  creating : ∀ i, (v.place i = .making ∨ v.place i = .coming) → v.creating = true
  arrived : v.arrived = v.granted ++ vs

def Vm.One (v : Vm) : Prop := ∀ i j, v.place i = .has → v.place j = .has → i = j

variable {v : Vm} {t : Turn} {vs ids : List ℕ} {i k p : ℕ} {yields : Bool}

theorem Vm.Token.appear (h : v.Token t vs ids) (hi : v.place i = .absent) :
    (v.at i .out).Token t vs ids := by
  refine ⟨h.vmq, h.idlevmq, h.nodup, h.idle, h.empty, ?_, ?_, ?_, h.woken, ?_, ?_, ?_, ?_, ?_, ?_,
    ?_, h.arrived⟩ <;> simp only [Vm.at, Function.update_apply]
  all_goals grind

theorem Vm.Token.nokproc (h : v.Token t vs ids) (hi : v.place i = .making) :
    (v.at i .out).Token t vs ids := by
  refine ⟨h.vmq, h.idlevmq, h.nodup, h.idle, h.empty, ?_, ?_, ?_, h.woken, ?_, ?_, ?_, ?_, ?_, ?_,
    ?_, h.arrived⟩ <;> simp only [Vm.at, Function.update_apply]
  all_goals grind

theorem Vm.Token.kproc (h : v.Token t vs ids) (hi : v.place i = .making)
    (hk : v.place k = .absent) : (v.kproc i k).Token t vs ids := by
  refine ⟨h.vmq, h.idlevmq, h.nodup, h.idle, h.empty, ?_, ?_, ?_, h.woken, ?_, ?_, ?_, ?_, ?_, ?_,
    ?_, h.arrived⟩ <;> simp only [Vm.kproc, Vm.at, Function.update_apply]
  all_goals grind

theorem Vm.Token.osready (h : v.Token t vs ids) (hi : v.place i = .readying p yields) :
    (v.osready i p yields).Token (.readied p) vs ids := by
  have ht : t = .passed i p := h.readying i p yields hi
  subst ht
  refine ⟨h.vmq, h.idlevmq, h.nodup, ?_, nofun, ?_, ?_, ?_, ?_, ?_, ?_, ?_, ?_, ?_, ?_, ?_,
    h.arrived⟩ <;> simp only [Vm.osready, Vm.at, Function.update_apply]
  all_goals grind [Turn.next]

theorem Vm.Token.wake (h : v.Token t vs ids) (hi : v.woken i = true) :
    (v.wake i).Token (.held i) vs ids := by
  have ht : t = .readied i := (h.woken i).mp hi
  subst ht
  refine ⟨h.vmq, h.idlevmq, h.nodup, ?_, nofun, ?_, ?_, ?_, ?_, ?_, ?_, ?_, ?_, ?_, ?_, ?_,
    h.arrived⟩ <;> simp only [Vm.wake, Vm.at, Function.update_apply]
  all_goals grind [Turn.next]

theorem Vm.Token.one (h : v.Token t vs ids) : v.One := by
  intro i j hi hj
  have hti := (h.has i).mp hi
  have htj := (h.has j).mp hj
  rw [hti] at htj
  exact Turn.held.inj htj

theorem Vm.Token.disjoint (h : v.Token t vs ids) (hi : i ∈ vs) : i ∉ ids := by
  intro hm
  have hacquiring := h.acquiring i hi
  rcases h.idling i hm with hidling | ⟨p, hreadying⟩
  · exact nomatch hacquiring.symm.trans hidling
  · exact nomatch hacquiring.symm.trans hreadying

theorem Vm.Token.acquire_idle (h : v.Token t vs ids) (hidle : v.idle = true) :
    (v.acquire i).Token (.held i) [] [] := by
  have ht : t = .idle := h.idle.mp hidle
  obtain ⟨rfl, rfl⟩ := h.empty ht
  subst ht
  rw [Vm.acquire, if_pos hidle]
  refine ⟨h.vmq, h.idlevmq, h.nodup, ?_, nofun, ?_, ?_, ?_, ?_, nofun, nofun, nofun, ?_, ?_, ?_,
    ?_, h.arrived⟩ <;> simp only [Vm.at, Function.update_apply]
  all_goals grind [Turn.next]

theorem Vm.Token.acquire_qnext (h : v.Token t vs ids) (hvs : i ∉ vs) (hids : i ∉ ids)
    (hidle : v.idle = false) :
    Fifo (v.acquire i).qnext (v.acquire i).vmq (v.acquire i).vmqt (vs ++ [i]) ∧
      Linked (v.acquire i).qnext v.idlevmq ids := by
  have hpush := Fifo.push h.vmq hvs
  rw [Vm.acquire, if_neg (by rw [hidle]; exact nofun)]
  cases hvmq : v.vmq with
  | none =>
    rw [hvmq] at hpush
    refine ⟨hpush, h.idlevmq.congr fun a ha => ?_⟩
    have hai : a ≠ i := by rintro rfl; exact hids ha
    exact (Function.update_of_ne hai _ _).symm
  | some p =>
    have htail := h.vmq.tail_eq
    rw [hvmq, if_neg nofun] at hpush htail
    obtain ⟨b, hb⟩ : ∃ b, vs.getLast? = some b := by
      have hvmq' := h.vmq.linked
      rw [hvmq] at hvmq'
      cases vs with
      | nil => exact nomatch hvmq'
      | cons c cs => simp [List.getLast?_cons]
    have hbvs : b ∈ vs := List.mem_of_getLast? hb
    have hbi : b ≠ i := by rintro rfl; exact hvs hbvs
    rw [hb] at htail
    rw [htail] at hpush
    simp only [Vm.at, htail]
    constructor
    · rw [Function.update_comm hbi.symm]
      exact hpush
    · refine h.idlevmq.congr fun a ha => ?_
      have hai : a ≠ i := by rintro rfl; exact hids ha
      have hab : a ≠ b := by rintro rfl; exact h.disjoint hbvs ha
      rw [Function.update_of_ne hab, Function.update_of_ne hai]

theorem Vm.Token.acquire (h : v.Token t vs ids) (hi : v.place i = .out)
    (hidle : v.idle = false) : (v.acquire i).Token t (vs ++ [i]) ids := by
  have hvs : i ∉ vs := fun hm => nomatch hi.symm.trans (h.acquiring i hm)
  have hids : i ∉ ids := by grind
  obtain ⟨hvmq, hidlevmq⟩ := h.acquire_qnext hvs hids hidle
  have hv : (v.acquire i).idle = v.idle ∧ (v.acquire i).idlevmq = v.idlevmq ∧
      (v.acquire i).creating = v.creating ∧ (v.acquire i).woken = v.woken ∧
      (v.acquire i).granted = v.granted ∧ (v.acquire i).arrived = v.arrived ++ [i] ∧
      (v.acquire i).place = Function.update v.place i .acquiring ∧
      (v.acquire i).vmq ≠ none := by
    rw [Vm.acquire, if_neg (by rw [hidle]; exact nofun)]
    refine ⟨rfl, rfl, rfl, rfl, rfl, rfl, rfl, ?_⟩
    cases v.vmq <;> simp [Vm.at]
  obtain ⟨hidle', hidlehd, hcreating, hwoken, hgranted, harrived, hplace, hne⟩ := hv
  have ht : t ≠ .idle := fun ht => nomatch hidle.symm.trans (h.idle.mpr ht)
  refine ⟨?_, ?_, h.nodup, ?_, fun hidle => absurd hidle ht, ?_, ?_, ?_, ?_, ?_, ?_, ?_, ?_, ?_,
    ?_, ?_, ?_⟩
  · rw [if_neg hne]
    exact hvmq
  · rw [hidlehd]
    exact hidlevmq
  all_goals simp only [hplace, hidle', hcreating, hwoken, hgranted, harrived, Function.update_apply]
  all_goals grind

theorem Vm.Token.pop (h : v.Token t vs ids) (hp : v.vmq = some p) :
    ∃ vs', vs = p :: vs' ∧
      Fifo v.qnext (v.qnext p) (if v.qnext p = none then none else v.vmqt) vs' := by
  have hvmq := h.vmq
  rw [hp, if_neg nofun] at hvmq
  exact hvmq.pop

theorem Vm.Token.release (h : v.Token t vs ids) (hi : v.place i = .has) :
    ∃ t' vs' ids', (v.release i).Token t' vs' ids' := by
  have ht : t = .held i := (h.has i).mp hi
  subst ht
  cases hvmq : v.vmq with
  | some p =>
    obtain ⟨vs', rfl, hpop⟩ := h.pop hvmq
    have hnodup := List.nodup_cons.mp h.vmq.nodup
    refine ⟨.passed i p, vs', ids, ?_⟩
    rw [Vm.release, hvmq]
    refine ⟨hpop, h.idlevmq, h.nodup, ?_, nofun, ?_, ?_, ?passed, ?_, ?_, ?_, ?_, ?_, ?_, ?_, ?_,
      ?_⟩
    case passed =>
      rintro _ _ ⟨⟩
      exact ⟨false, Function.update_self _ _ _⟩
    all_goals simp only [Vm.at, Function.update_apply]
    all_goals grind [Turn.next]
  | none =>
    obtain rfl : vs = [] := by
      have hlinked := h.vmq.linked
      rw [hvmq] at hlinked
      cases vs with
      | nil => rfl
      | cons a as => exact nomatch hlinked.1
    cases hidlevmq : v.idlevmq with
    | some p =>
      have hlinked := h.idlevmq
      rw [hidlevmq] at hlinked
      obtain ⟨ids', rfl, hrest⟩ := hlinked.exists_cons
      have hnodup := List.nodup_cons.mp h.nodup
      refine ⟨.passed i p, [], ids', ?_⟩
      rw [Vm.release, hvmq, hidlevmq]
      refine ⟨?_, hrest, hnodup.2, ?_, nofun, ?_, ?_, ?passed, ?_, ?_, ?_, ?_, ?_, ?_, ?_, ?_,
        ?_⟩
      case passed =>
        rintro _ _ ⟨⟩
        exact ⟨false, Function.update_self _ _ _⟩
      all_goals simp only [Vm.at, Function.update_apply]
      all_goals grind [Turn.next]
    | none =>
      obtain rfl : ids = [] := by
        have hlinked := h.idlevmq
        rw [hidlevmq] at hlinked
        cases ids with
        | nil => rfl
        | cons a as => exact nomatch hlinked.1
      refine ⟨.idle, [], [], ?_⟩
      rw [Vm.release, hvmq, hidlevmq]
      refine ⟨?_, rfl, h.nodup, ?_, fun _ => ⟨rfl, rfl⟩, ?_, ?_, ?_, ?_, nofun, nofun, nofun,
        ?_, ?_, ?_, ?_, ?_⟩ <;> simp only [Vm.at, Function.update_apply]
      all_goals grind [Turn.next]

theorem Vm.Token.iyield (h : v.Token t vs ids) (hi : v.place i = .has) :
    ∃ t' vs' ids', (v.iyield i).Token t' vs' ids' := by
  have ht : t = .held i := (h.has i).mp hi
  cases hvmq : v.vmq with
  | none =>
    rw [Vm.iyield, hvmq]
    exact ⟨t, vs, ids, h⟩
  | some p =>
    subst ht
    obtain ⟨vs', rfl, hpop⟩ := h.pop hvmq
    have hnodup := List.nodup_cons.mp h.vmq.nodup
    have hvs : i ∉ vs' := by grind
    have hids : i ∉ ids := by grind
    have hip : p ≠ i := by grind
    refine ⟨.passed i p, vs', i :: ids, ?_⟩
    rw [Vm.iyield, hvmq]
    refine ⟨hpop.update hvs, h.idlevmq.cons hids, List.nodup_cons.mpr ⟨hids, h.nodup⟩, ?_, nofun,
      ?_, ?_, ?passed, ?_, ?_, ?_, ?_, ?_, ?_, ?_, ?_, ?_⟩
    case passed =>
      rintro _ _ ⟨⟩
      exact ⟨true, Function.update_self _ _ _⟩
    all_goals simp only [Vm.at, Function.update_apply]
    all_goals grind [Turn.next]

theorem Vm.Token.startup (h : v.Token t vs ids) (hi : v.place i = .coming) :
    ∃ t' ids', (v.startup i).Token t' vs ids' := by
  cases hidle : v.idle with
  | true =>
    have ht : t = .idle := h.idle.mp hidle
    obtain ⟨rfl, rfl⟩ := h.empty ht
    subst ht
    refine ⟨.held i, [], ?_⟩
    rw [Vm.startup, if_pos hidle]
    refine ⟨h.vmq, h.idlevmq, h.nodup, ?_, nofun, ?_, ?_, ?_, ?_, nofun, nofun, nofun, ?_, ?_, ?_,
      ?_, h.arrived⟩ <;> simp only [Vm.at, Function.update_apply]
    all_goals grind [Turn.next]
  | false =>
    have ht : t ≠ .idle := fun ht => nomatch hidle.symm.trans (h.idle.mpr ht)
    have hvs : i ∉ vs := by grind
    have hids : i ∉ ids := by grind
    have hvmq : Fifo (Function.update v.qnext i v.idlevmq) v.vmq
        (if v.vmq = none then none else v.vmqt) vs := h.vmq.update hvs
    refine ⟨t, i :: ids, ?_⟩
    rw [Vm.startup, if_neg (by rw [hidle]; exact nofun)]
    refine ⟨hvmq, h.idlevmq.cons hids, List.nodup_cons.mpr ⟨hids, h.nodup⟩, ?_,
      fun hidle => absurd hidle ht, ?_, ?_, ?_, ?_, ?_, ?_, ?_, ?_, ?_, ?_, ?_, ?_⟩
    all_goals simp only [Vm.at, Function.update_apply]
    all_goals grind

end Infernode.Isched
