import Mathlib

/-!
# Objects and their own properties

An object's indexed properties with the default attributes are its elements; the others have their
keys and attributes in its shape, which objects that were built the same way share, and their
values in its slots. Handles are numbers, and every handle is of an object.
-/

namespace Infernode.Js

/-- The array indices are below `2 ^ 32 - 1`; those up to `Idxmax` are in the key itself. -/
inductive Key
  | index (i : ℕ)
  | name (a : ℕ)
  deriving DecidableEq

def Idxmax : ℕ := 0x7FFFFFFE

def keyidx : Key → Option ℕ
  | .index i => if i ≤ Idxmax then some i else none
  | .name _ => none

def keyindex : Key → Option ℕ
  | .index i => some i
  | .name _ => none

def alength : Key := .name 0

def numkey (x : ℕ) : Key := if x < 2 ^ 32 - 1 then .index x else .name 1

inductive V (P : Type)
  | undef
  | num (x : ℕ)
  | prim (p : P)
  | obj (h : ℕ)
  deriving DecidableEq

inductive Slot (P : Type)
  | val (v : V P)
  | acc (get set : Option ℕ)
  deriving DecidableEq

structure Attr where
  write : Bool
  enum : Bool
  conf : Bool
  acc : Bool
  deriving DecidableEq

def Adefault : Attr := ⟨true, true, true, false⟩

/-- Keys and their attributes in the order of the slots. An owned shape is of one object, which
changes it in place; from another one, transitions lead to the shapes with one key more. -/
structure Shape where
  props : List (Key × Attr)
  owned : Bool
  trans : List (Key × Attr × ℕ)

inductive Kind
  | ord | array
  deriving DecidableEq

/-- `idxprops`: some index keys are in the shape; `lenro`: an array's length is not writable. In
the elements `none` is a hole. -/
structure Obj (P : Type) where
  kind : Kind
  ext : Bool
  idxprops : Bool
  lenro : Bool
  shape : ℕ
  slots : List (Slot P)
  elems : List (Option (V P))
  alen : ℕ
  proto : Option ℕ

structure State (P : Type) where
  shapes : ℕ → Shape
  nshape : ℕ
  objs : ℕ → Obj P

variable {P : Type}

def State.setobj (s : State P) (h : ℕ) (o : Obj P) : State P :=
  { s with objs := Function.update s.objs h o }

def State.setshape (s : State P) (i : ℕ) (sh : Shape) : State P :=
  { s with shapes := Function.update s.shapes i sh }

def slotof : List (Key × Attr) → Key → Option ℕ
  | [], _ => none
  | p :: ps, k => if p.1 = k then some 0 else (slotof ps k).map (· + 1)

def Dictmin : ℕ := 64

def addkey (s : State P) (i : ℕ) (k : Key) (attrs : Attr) : State P × ℕ :=
  let sh := s.shapes i
  if sh.owned then (s.setshape i { sh with props := sh.props ++ [(k, attrs)] }, i)
  else
    match sh.trans.find? fun t => t.1 = k ∧ t.2.1 = attrs with
    | some (_, _, ts) => (s, ts)
    | none =>
      let owned := decide (Dictmin ≤ sh.props.length + 1)
      let s := if owned then s
        else s.setshape i { sh with trans := (k, attrs, s.nshape) :: sh.trans }
      ({ s.setshape s.nshape ⟨sh.props ++ [(k, attrs)], owned, []⟩ with nshape := s.nshape + 1 },
        s.nshape)

def ownshape (s : State P) (h : ℕ) : State P :=
  let o := s.objs h
  let sh := s.shapes o.shape
  if sh.owned then s
  else
    { (s.setshape s.nshape ⟨sh.props, true, []⟩).setobj h { o with shape := s.nshape } with
      nshape := s.nshape + 1 }

def addslot (s : State P) (h : ℕ) (k : Key) (attrs : Attr) (v : Slot P) : State P :=
  let (s, sh) := addkey s (s.objs h).shape k attrs
  s.setobj h { s.objs h with shape := sh, slots := (s.objs h).slots ++ [v] }

def setslot (s : State P) (h slot : ℕ) (v : Slot P) : State P :=
  s.setobj h { s.objs h with slots := (s.objs h).slots.set slot v }

def setattr (s : State P) (h slot : ℕ) (attrs : Attr) : State P :=
  let s := ownshape s h
  let i := (s.objs h).shape
  let sh := s.shapes i
  s.setshape i { sh with props := sh.props.modify slot fun p => (p.1, attrs) }

def setelem (s : State P) (h i : ℕ) (v : Option (V P)) : State P :=
  s.setobj h { s.objs h with elems := (s.objs h).elems.set i v }

def addelem (o : Obj P) (i : ℕ) (v : V P) : Option (List (Option (V P))) :=
  let n := o.elems.length
  if o.idxprops then none
  else if i < n then some (o.elems.set i (some v))
  else if 16 + n / 8 < i - n then none
  else some (o.elems ++ List.replicate (i - n) none ++ [some v])

def addprop (s : State P) (h : ℕ) (k : Key) (attrs : Attr) (v : Slot P) : State P :=
  let o := s.objs h
  match keyindex k with
  | none => addslot s h k attrs v
  | some _ =>
    match keyidx k, v with
    | some i, .val x =>
      match if attrs = Adefault then addelem o i x else none with
      | some elems => s.setobj h { o with elems := elems }
      | none => addslot (s.setobj h { o with idxprops := true }) h k attrs v
    | _, _ => addslot (s.setobj h { o with idxprops := true }) h k attrs v

def spillloop (h : ℕ) : List (Option (V P)) → ℕ → State P → State P
  | [], _, s => s
  | none :: e, i, s => spillloop h e (i + 1) s
  | some v :: e, i, s => spillloop h e (i + 1) (addslot s h (.index i) Adefault (.val v))

def spill (s : State P) (h : ℕ) : State P :=
  let o := s.objs h
  spillloop h o.elems 0 (s.setobj h { o with elems := [], idxprops := true })

def Obj.elem (o : Obj P) (k : Key) : Option (V P) :=
  (keyidx k).bind fun i => (o.elems[i]?).join

def slotprop (s : State P) (h : ℕ) (k : Key) : Option (Slot P × Attr) :=
  let o := s.objs h
  let sh := s.shapes o.shape
  (slotof sh.props k).bind fun i =>
    match o.slots[i]?, sh.props[i]? with
    | some v, some (_, a) => some (v, a)
    | _, _ => none

def lengthprop (o : Obj P) (k : Key) : Option (Slot P × Attr) :=
  if o.kind = .array ∧ k = alength then
    some (.val (.num o.alen), ⟨!o.lenro, false, false, false⟩)
  else none

def getownprop (s : State P) (h : ℕ) (k : Key) : Option (Slot P × Attr) :=
  let o := s.objs h
  match o.elem k with
  | some v => some (.val v, Adefault)
  | none =>
    if (keyidx k).isSome ∧ o.idxprops = false then none
    else (slotprop s h k).or (lengthprop o k)

def arraygrew (s : State P) (h : ℕ) (k : Key) : State P :=
  let o := s.objs h
  match keyindex k with
  | some ix => if o.alen ≤ ix then s.setobj h { o with alen := ix + 1 } else s
  | none => s

def grewarray (s : State P) (h : ℕ) (k : Key) : State P :=
  if (s.objs h).kind = .array then arraygrew s h k else s

def putown (s : State P) (h : ℕ) (k : Key) (v : V P) : State P :=
  match keyidx k, (s.objs h).elem k with
  | some i, some _ => setelem s h i (some v)
  | _, _ =>
    match slotof (s.shapes (s.objs h).shape).props k with
    | some slot => setslot s h slot (.val v)
    | none => grewarray (addprop s h k Adefault (.val v)) h k

def redefine (s : State P) (h slot : ℕ) (attrs : Attr) (v : Slot P) : State P :=
  let a := ((s.shapes (s.objs h).shape).props[slot]?).map (·.2)
  setslot (if a = some attrs then s else setattr s h slot attrs) h slot v

def defslot (s : State P) (h : ℕ) (k : Key) (attrs : Attr) (v : Slot P) : State P :=
  let o := s.objs h
  let add (s : State P) := grewarray (addprop s h k attrs v) h k
  match slotof (s.shapes o.shape).props k with
  | some slot => redefine s h slot attrs v
  | none =>
    if attrs ≠ Adefault ∧ (∃ i, keyidx k = some i ∧ i < o.elems.length + 1) ∧
        o.idxprops = false then
      let s := spill s h
      match slotof (s.shapes (s.objs h).shape).props k with
      | some slot => redefine s h slot attrs v
      | none => add s
    else add s

def defown (s : State P) (h : ℕ) (k : Key) (attrs : Attr) (v : Slot P) : State P :=
  match keyidx k, v with
  | some i, .val x =>
    if attrs = Adefault ∧ i < (s.objs h).elems.length then grewarray (setelem s h i (some x)) h k
    else defslot s h k attrs v
  | _, _ => defslot s h k attrs v

def trim : List (Option (V P)) → List (Option (V P))
  | [] => []
  | none :: e => if trim e = [] then [] else none :: trim e
  | some v :: e => some v :: trim e

def removeown (s : State P) (h : ℕ) (k : Key) : State P :=
  let o := s.objs h
  match (keyidx k).filter (· < o.elems.length) with
  | some i =>
    let elems := o.elems.set i none
    s.setobj h { o with elems := if i + 1 = o.elems.length then trim elems else elems }
  | none =>
    match slotof (s.shapes o.shape).props k with
    | none => s
    | some slot =>
      let s := ownshape s h
      let o := s.objs h
      let sh := s.shapes o.shape
      (s.setshape o.shape { sh with props := sh.props.eraseIdx slot }).setobj h
        { o with slots := o.slots.eraseIdx slot }

end Infernode.Js
