import Infernode.Lib.RefCount

/-!
# Destroying

`destroy` and what it calls of `heap.c`: `freeptrs`, `freearray`, `freelist`, `freeheap`,
`destroyh`. An object is known by where it is. `none` is a recursion deeper than it is
given, or a loop longer. The deferred queue can always grow.
-/

namespace Infernode.Destroy

def DDEPTH : ℕ := 64

inductive Ty
  | Tarray
  | Tlist
  | Tstring
  | user (n : ℕ)
  deriving DecidableEq

/-- Words of memory: what a word that is a pointer points to, none for `H`. -/
abbrev Words := List (Option ℕ)

/-- An object of `h->t`: an adt, an array of `a->len` elements, a list cell, a string, or one
with no type. A slice has its `root`, and data that is not its own. -/
inductive Obj
  | adt (t : Ty) (data : Words)
  | array (t : Ty) (root : Option ℕ) (data : List Words)
  | list (t : Option Ty) (data : Words) (tail : Option ℕ)
  | string
  | raw
  deriving DecidableEq

structure Heap where
  obj : ℕ → Obj
  map : Ty → List UInt8

structure State where
  ref : ℕ → ℕ
  tref : Ty → ℤ
  ddepth : ℕ
  dq : List ℕ
  freed : List ℕ
  types : List Ty

def State.poolfree (s : State) (h : ℕ) : State := { s with freed := s.freed ++ [h] }

def State.unref (s : State) (h : ℕ) : State := { s with ref := Lib.less s.ref h }

def State.untype (s : State) (t : Ty) : State :=
  { s with tref := Function.update s.tref t (s.tref t - 1) }

def State.freetype (s : State) (t : Ty) : State :=
  let s := s.untype t
  if 0 < s.tref t then s else { s with types := s.types ++ [t] }

def State.freeelem (s : State) (t : Ty) : State :=
  let s := s.untype t
  if s.tref t = 0 then { s with types := s.types ++ [t] } else s

def pointers (map : List UInt8) (v : Words) : List ℕ :=
  map.zipIdx.flatMap fun (c, i) => (List.range 8).filterMap fun b =>
    if c.toNat.testBit b then v.getD (8 * i + (7 - b)) none else none

def freeptrs (H : Heap) (d : State → ℕ → Option State) (s : State) (v : Words) (t : Ty) :
    Option State :=
  (pointers (H.map t) v).foldlM d s

def freearray (H : Heap) (d : State → ℕ → Option State) (s : State) (t : Ty) (root : Option ℕ)
    (data : List Words) : Option State := do
  let s ← match root with
    | some r => d s r
    | none => data.foldlM (fun s v => freeptrs H d s v t) s
  some (s.freeelem t)

def freecell (H : Heap) (d : State → ℕ → Option State) (s : State) (t : Option Ty) (v : Words) :
    Option State :=
  match t with
  | none => some s
  | some t => (freeptrs H d s v t).map (·.freeelem t)

def freetail (H : Heap) (d : State → ℕ → Option State) : ℕ → State → Option ℕ → Option State
  | _, s, none => some s
  | 0, _, some _ => none
  | n + 1, s, some l =>
    match H.obj l with
    | .list t data tail =>
      if s.ref l ≠ 1 then some (s.unref l)
      else do
        let s ← freecell H d ((s.unref l).untype .Tlist) t data
        freetail H d n (s.poolfree l) tail
    | _ => none

def freelist (H : Heap) (n : ℕ) (d : State → ℕ → Option State) (s : State) (t : Option Ty)
    (data : Words) (tail : Option ℕ) : Option State := do
  let s ← freecell H d s t data
  freetail H d n s tail

def destroyh (H : Heap) (n : ℕ) (d : State → ℕ → Option State) (s : State) (h : ℕ) :
    Option State := do
  let s ← match H.obj h with
    | .adt t data => (freeptrs H d s data t).map (·.freetype t)
    | .array t root data => (freearray H d s t root data).map (·.freetype .Tarray)
    | .list t data tail => (freelist H n d s t data tail).map (·.freetype .Tlist)
    | .string => some (s.freetype .Tstring)
    | .raw => some s
  some (s.poolfree h)

def drain (free : State → ℕ → Option State) : ℕ → State → Option State
  | 0, s => if s.dq = [] then some s else none
  | n + 1, s =>
    match s.dq with
    | [] => some s
    | h :: dq => do
      let s ← free { s with dq := dq } h
      drain free n s

def release (free : State → Option State) (s : State) (h : ℕ) : Option State :=
  let s := s.unref h
  if 0 < s.ref h then some s
  else if DDEPTH ≤ s.ddepth then some { s with dq := h :: s.dq }
  else free s

def destroy (H : Heap) (n : ℕ) : ℕ → State → ℕ → Option State
  | 0, s, h => release (fun _ => none) s h
  | k + 1, s, h => release (fun s => do
      let s ← destroyh H n (destroy H n k) { s with ddepth := s.ddepth + 1 } h
      let s ← if s.ddepth = 1 then drain (destroyh H n (destroy H n k)) n s else some s
      some { s with ddepth := s.ddepth - 1 }) s h

/-!
## What freeing does

A step of `destroy` frees some objects and queues others; with those that are being freed
these are the ones whose count it brings to zero. The references that are taken away and the
counts stay balanced.
-/

open Lib

variable {H : Heap} {objs : List ℕ} {count : ℕ → ℕ} {start : ℕ} {s s' s'' : State} {t : Ty}
  {x : ℕ} {P owed owed' l l' new new' : List ℕ} {d : State → ℕ → Option State}

def refs (H : Heap) (x : ℕ) : List ℕ :=
  match H.obj x with
  | .adt t data => pointers (H.map t) data
  | .array t root data => root.elim (data.flatMap (pointers (H.map t))) fun r => [r]
  | .list t data tail => (t.elim [] fun t => pointers (H.map t) data) ++ tail.toList
  | .string => []
  | .raw => []

def types (H : Heap) (x : ℕ) : List Ty :=
  match H.obj x with
  | .adt t _ => [t]
  | .array t _ _ => [t, .Tarray]
  | .list t _ _ => t.toList ++ [.Tlist]
  | .string => [.Tstring]
  | .raw => []

def due (H : Heap) (s : State) (t : Ty) : ℤ := s.tref t + (s.freed.flatMap (types H)).count t

variable (H objs) in
/-- From one state to another `l` are freed and `new` queued; `owed` had been brought to
zero before. -/
structure Ran (s s' : State) (owed l new : List ℕ) : Prop where
  dq : s'.dq = new ++ s.dq
  freed : s'.freed = s.freed ++ l
  dead : ∀ x, owed.count x + (Lib.dead objs s'.ref).count x =
    l.count x + new.count x + (Lib.dead objs s.ref).count x
  due : ∀ t, due H s' t = due H s t
  depth : s'.ddepth = s.ddepth

theorem Ran.refl (s : State) : Ran H objs s s [] [] [] :=
  ⟨rfl, by simp, by simp, fun _ => rfl, rfl⟩

theorem Ran.trans (h : Ran H objs s s' owed l new) (h' : Ran H objs s' s'' owed' l' new') :
    Ran H objs s s'' (owed ++ owed') (l ++ l') (new' ++ new) where
  dq := by rw [h'.dq, h.dq, List.append_assoc]
  freed := by rw [h'.freed, h.freed, List.append_assoc]
  dead x := by
    have hfirst := h.dead x
    have hsecond := h'.dead x
    simp only [List.count_append]
    omega
  due t := (h'.due t).trans (h.due t)
  depth := h'.depth.trans h.depth

theorem Ran.length (h : Ran H objs s s' owed l new) :
    owed.length + (Lib.dead objs s'.ref).length =
      l.length + new.length + (Lib.dead objs s.ref).length := by
  have hperm : (owed ++ Lib.dead objs s'.ref).Perm (l ++ new ++ Lib.dead objs s.ref) :=
    List.perm_iff_count.mpr fun x => by
      simpa [List.count_append, Nat.add_assoc] using h.dead x
  simpa [Nat.add_assoc] using hperm.length_eq

@[simp] theorem untype_ref (s : State) (t : Ty) : (s.untype t).ref = s.ref := rfl

@[simp] theorem untype_dq (s : State) (t : Ty) : (s.untype t).dq = s.dq := rfl

@[simp] theorem untype_freed (s : State) (t : Ty) : (s.untype t).freed = s.freed := rfl

theorem untype_due (s : State) (t t' : Ty) :
    due H (s.untype t) t' = due H s t' - [t].count t' := by
  rcases eq_or_ne t' t with rfl | hne
  · simp only [due, State.untype, Function.update_self, List.count_singleton_self]
    omega
  · simp [due, State.untype, hne, hne.symm]

theorem freetype_eq (s : State) (t : Ty) :
    ∃ ts, s.freetype t = { s.untype t with types := ts } := by
  unfold State.freetype
  simp only
  split_ifs
  · exact ⟨_, rfl⟩
  · exact ⟨_, rfl⟩

theorem freeelem_eq (s : State) (t : Ty) :
    ∃ ts, s.freeelem t = { s.untype t with types := ts } := by
  unfold State.freeelem
  simp only
  split_ifs
  · exact ⟨_, rfl⟩
  · exact ⟨_, rfl⟩

structure Typed (H : Heap) (s s' : State) (ts : List Ty) : Prop where
  ref : s'.ref = s.ref
  dq : s'.dq = s.dq
  freed : s'.freed = s.freed
  ddepth : s'.ddepth = s.ddepth
  due : ∀ t, due H s' t = due H s t - ts.count t

theorem typed_freetype (s : State) (t : Ty) : Typed H s (s.freetype t) [t] := by
  obtain ⟨ts, hts⟩ := freetype_eq s t
  rw [hts]
  exact ⟨rfl, rfl, rfl, rfl, untype_due s t⟩

theorem typed_freeelem (s : State) (t : Ty) : Typed H s (s.freeelem t) [t] := by
  obtain ⟨ts, hts⟩ := freeelem_eq s t
  rw [hts]
  exact ⟨rfl, rfl, rfl, rfl, untype_due s t⟩

theorem Typed.refl (s : State) : Typed H s s [] := ⟨rfl, rfl, rfl, rfl, by simp⟩

theorem poolfree_due (s : State) (x : ℕ) (t : Ty) :
    due H (s.poolfree x) t = due H s t + (types H x).count t := by
  simp only [due, State.poolfree, List.flatMap_append, List.flatMap_cons, List.flatMap_nil,
    List.append_nil, List.count_append]
  omega

variable (H objs count start) in
def Lets (depth : ℕ) (d : State → ℕ → Option State) : Prop :=
  ∀ s x P, s.ddepth = depth → Balanced objs (refs H) count start s.ref (x :: P) →
    ∃ s' l new, d s x = some s' ∧ Ran H objs s s' [] l new ∧
      Balanced objs (refs H) count start s'.ref (new.flatMap (refs H) ++ P)

theorem Lets.foldlM {depth : ℕ} (hd : Lets H objs count start depth d) (xs : List ℕ)
    (hs : s.ddepth = depth) (h : Balanced objs (refs H) count start s.ref (xs ++ P)) :
    ∃ s' l new, xs.foldlM d s = some s' ∧ Ran H objs s s' [] l new ∧
      Balanced objs (refs H) count start s'.ref (new.flatMap (refs H) ++ P) := by
  induction xs generalizing s P with
  | nil => exact ⟨s, [], [], rfl, .refl s, h⟩
  | cons x xs ih =>
    obtain ⟨s₁, l₁, new₁, hstep, hran₁, hbal₁⟩ := hd s x (xs ++ P) hs h
    have hbal : Balanced objs (refs H) count start s₁.ref
        (xs ++ (new₁.flatMap (refs H) ++ P)) :=
      hbal₁.perm (by
        rw [← List.append_assoc, ← List.append_assoc]
        exact List.perm_append_comm.append_right P)
    obtain ⟨s₂, l₂, new₂, hrest, hran₂, hbal₂⟩ := ih (hran₁.depth.trans hs) hbal
    refine ⟨s₂, l₁ ++ l₂, new₂ ++ new₁, ?_, hran₁.trans hran₂, ?_⟩
    · rw [List.foldlM_cons, hstep]
      exact hrest
    · rwa [List.flatMap_append, List.append_assoc]

end Infernode.Destroy
