import Mathlib

/-!
# Procedures that raise errors

A procedure changes a state and returns or raises an error; either way the
state it leaves is seen. `Ensures` says both ways at once, and is composed along
the procedure.
-/

namespace Infernode.Lib

abbrev Proc (σ ε α : Type) := EStateM ε σ α

variable {σ ε α β : Type}

/-- From `s` the procedure returns as `Q` says, or raises an error as `E` says. -/
def Ensures (x : Proc σ ε α) (s : σ) (Q : α → σ → Prop) (E : ε → σ → Prop) : Prop :=
  match x s with
  | .ok a s' => Q a s'
  | .error e s' => E e s'

variable {x : Proc σ ε α} {f : α → Proc σ ε β} {s : σ} {E E' : ε → σ → Prop}

theorem ensures_pure {a : α} {Q : α → σ → Prop} (h : Q a s) : Ensures (pure a) s Q E := h

theorem ensures_bind {Q : β → σ → Prop} (h : Ensures x s (fun a s' => Ensures (f a) s' Q E) E) :
    Ensures (x >>= f) s Q E := by
  rw [Ensures] at h
  change (match EStateM.bind x f s with | .ok a s' => Q a s' | .error e s' => E e s')
  rw [EStateM.bind]
  cases hx : x s with
  | ok a s' | error e s' =>
    rw [hx] at h
    exact h

theorem Ensures.mono {Q Q' : α → σ → Prop} (h : Ensures x s Q E) (hQ : ∀ a s', Q a s' → Q' a s')
    (hE : ∀ e s', E e s' → E' e s') : Ensures x s Q' E' := by
  rw [Ensures] at h ⊢
  cases hx : x s with
  | ok a s' =>
    rw [hx] at h
    exact hQ a s' h
  | error e s' =>
    rw [hx] at h
    exact hE e s' h

/-- A call: what it ensures, then the rest from each state it may leave. -/
theorem Ensures.call {Q : α → σ → Prop} {Q' : β → σ → Prop} (h : Ensures x s Q E)
    (hrest : ∀ a s', Q a s' → Ensures (f a) s' Q' E') (hE : ∀ e s', E e s' → E' e s') :
    Ensures (x >>= f) s Q' E' :=
  ensures_bind (h.mono hrest hE)

theorem ensures_throw {e : ε} {Q : α → σ → Prop} (h : E e s) :
    Ensures (throw e) s Q E := h

theorem ensures_get {Q : β → σ → Prop} {g : σ → Proc σ ε β} (h : Ensures (g s) s Q E) :
    Ensures (get >>= g) s Q E := h

theorem ensures_set {t : σ} {Q : β → σ → Prop} {g : PUnit → Proc σ ε β}
    (h : Ensures (g ⟨⟩) t Q E) : Ensures (set t >>= g) s Q E := h

theorem ensures_modify {t : σ → σ} {Q : PUnit → σ → Prop} (h : Q ⟨⟩ (t s)) :
    Ensures (modify t) s Q E := h

/-- A call whose errors the caller renames. -/
theorem ensures_adapt {ε' : Type} {f : ε → ε'} {F : ε' → σ → Prop} {Q : α → σ → Prop}
    (h : Ensures x s Q (fun e s' => F (f e) s')) : Ensures (EStateM.adaptExcept f x) s Q F := by
  rw [Ensures] at h ⊢
  rw [EStateM.adaptExcept]
  cases hx : x s with
  | ok a s' | error e s' =>
    rw [hx] at h
    exact h

/-- A handler goes on from the state that the error left. -/
theorem ensures_catch {h : ε → Proc σ ε α} {Q : α → σ → Prop}
    (hx : Ensures x s Q (fun e s' => Ensures (h e) s' Q E)) : Ensures (tryCatch x h) s Q E := by
  rw [Ensures] at hx
  change (match EStateM.tryCatch x h s with | .ok a s' => Q a s' | .error e s' => E e s')
  rw [EStateM.tryCatch]
  cases hres : x s with
  | ok a s' | error e s' =>
    rw [hres] at hx
    exact hx

/-- A procedure that raises no error returns. -/
theorem Ensures.returns {Q : α → σ → Prop} (h : Ensures x s Q (fun _ _ => False)) :
    ∃ a s', x s = .ok a s' ∧ Q a s' := by
  rw [Ensures] at h
  cases hx : x s with
  | ok a s' =>
    rw [hx] at h
    exact ⟨a, s', rfl, h⟩
  | error e s' =>
    rw [hx] at h
    exact absurd h id

theorem Ensures.ok {Q : α → σ → Prop} (h : Ensures x s Q E) {a : α} {s' : σ}
    (hx : x s = .ok a s') : Q a s' := by
  rw [Ensures, hx] at h
  exact h

theorem Ensures.error {Q : α → σ → Prop} (h : Ensures x s Q E) {e : ε} {s' : σ}
    (hx : x s = .error e s') : E e s' := by
  rw [Ensures, hx] at h
  exact h

end Infernode.Lib

/-!
## What went in and what came out

A channel takes items in, keeps some of them alive and lets them go one way or
the other. `InOrder` says that those delivered, followed by those alive, stand in
the order in which they entered; `Accounts` that every item that entered is
delivered, alive or dropped.
-/

namespace Infernode.Lib

variable {α : Type*} {entered delivered live dropped : List α}

def InOrder (entered delivered live : List α) : Prop :=
  (delivered ++ live).Sublist entered

def Accounts (entered delivered live dropped : List α) : Prop :=
  entered.Perm (delivered ++ live ++ dropped)

theorem InOrder.enter (h : InOrder entered delivered live) (c : List α) :
    InOrder (entered ++ c) delivered (live ++ c) := by
  have happ := List.Sublist.append h (List.Sublist.refl c)
  rwa [List.append_assoc] at happ

/-- The items in front are delivered, kept or dropped; those behind stay. -/
theorem InOrder.move {front rest c back : List α} (h : InOrder entered delivered (front ++ rest))
    (hsub : (c ++ back).Sublist front) : InOrder entered (delivered ++ c) (back ++ rest) := by
  refine List.Sublist.trans ?_ h
  have happ := (List.Sublist.refl delivered).append (hsub.append (List.Sublist.refl rest))
  simpa only [List.append_assoc] using happ

theorem Accounts.enter (h : Accounts entered delivered live dropped) (c : List α) :
    Accounts (entered ++ c) delivered (live ++ c) dropped := by
  have hswap : (dropped ++ c).Perm (c ++ dropped) := List.perm_append_comm
  have happ := (List.Perm.append_right c h).trans
    (by simpa only [List.append_assoc] using hswap.append_left (delivered ++ live))
  simpa only [Accounts, List.append_assoc] using happ

theorem Accounts.move {front rest c back gone : List α}
    (h : Accounts entered delivered (front ++ rest) dropped)
    (hperm : front.Perm (c ++ back ++ gone)) :
    Accounts entered (delivered ++ c) (back ++ rest) (dropped ++ gone) := by
  have hswap : (gone ++ (rest ++ dropped)).Perm (rest ++ dropped ++ gone) := List.perm_append_comm
  have hfront := (hperm.append_right (rest ++ dropped)).trans
    (by simpa only [List.append_assoc] using hswap.append_left (c ++ back))
  have happ := List.Perm.trans h
    (by simpa only [List.append_assoc] using hfront.append_left delivered)
  simpa only [Accounts, List.append_assoc] using happ

/-- With nothing dropped, what was delivered and what is alive are all that entered. -/
theorem InOrder.complete (h : InOrder entered delivered live)
    (ha : Accounts entered delivered live []) : delivered ++ live = entered := by
  have hlen := ha.length_eq
  rw [List.append_nil] at hlen
  exact h.eq_of_length hlen.symm

end Infernode.Lib

/-!
## Runs

A run folds a step over a list of inputs. `Always` holds of a run when a
condition on state and input holds at each of its steps; a property that every
such step keeps holds at the end of the run, and so in every state on the way.
-/

namespace Infernode.Lib

variable {σ ι : Type*}

def Always (step : σ → ι → σ) (C : σ → ι → Prop) : σ → List ι → Prop
  | _, [] => True
  | s, i :: is => C s i ∧ Always step C (step s i) is

theorem always_append (step : σ → ι → σ) (C : σ → ι → Prop) (s : σ) (is js : List ι) :
    Always step C s (is ++ js) ↔ Always step C s is ∧ Always step C (is.foldl step s) js := by
  induction is generalizing s with
  | nil => simp [Always]
  | cons i is ih => simp [Always, ih, and_assoc]

theorem Always.mono {step : σ → ι → σ} {C D : σ → ι → Prop} (h : ∀ s i, C s i → D s i) {s : σ}
    {is : List ι} (hC : Always step C s is) : Always step D s is := by
  induction is generalizing s with
  | nil => trivial
  | cons i is ih => exact ⟨h s i hC.1, ih hC.2⟩

theorem Always.invariant {step : σ → ι → σ} {C : σ → ι → Prop} (I : σ → Prop)
    (hstep : ∀ s i, I s → C s i → I (step s i)) {s : σ} (hs : I s) {is : List ι}
    (hC : Always step C s is) : I (is.foldl step s) := by
  induction is generalizing s with
  | nil => exact hs
  | cons i is ih => exact ih (hstep s i hs hC.1) hC.2

/-- Two conditions that agree where the invariant holds, which the second keeps. -/
theorem always_congr {step : σ → ι → σ} {C D : σ → ι → Prop} (I : σ → Prop)
    (hCD : ∀ s i, I s → (C s i ↔ D s i)) (hstep : ∀ s i, I s → D s i → I (step s i)) {s : σ}
    (hs : I s) (is : List ι) : Always step C s is ↔ Always step D s is := by
  induction is generalizing s with
  | nil => rfl
  | cons i is ih =>
    simp only [Always, hCD s i hs]
    exact and_congr_right fun hD => ih (hstep s i hs hD)

theorem foldl_invariant {step : σ → ι → σ} {I : σ → Prop} (hstep : ∀ s i, I s → I (step s i))
    {s : σ} (hs : I s) (is : List ι) : I (is.foldl step s) := by
  induction is generalizing s with
  | nil => exact hs
  | cons i is ih => exact ih (hstep s i hs)

end Infernode.Lib
