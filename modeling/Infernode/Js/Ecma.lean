import Infernode.Js.Define

/-!
# The internal methods of ECMAScript

Ordinary objects (10.1) and arrays (10.4.2) as maps from keys to properties.
-/

namespace Infernode.Js.Ecma

variable {P : Type} [DecidableEq P]

inductive Property (P : Type)
  | data (value : V P) (write enum conf : Bool)
  | accessor (get set : Option ℕ) (enum conf : Bool)
  deriving DecidableEq

structure Object (P : Type) where
  isarray : Bool
  ext : Bool
  proto : Option ℕ
  props : Key → Option (Property P)

abbrev Heap (P : Type) := ℕ → Object P

def Property.conf : Property P → Bool
  | .data _ _ _ conf | .accessor _ _ _ conf => conf

def Property.enum : Property P → Bool
  | .data _ _ enum _ | .accessor _ _ enum _ => enum

def Property.isacc : Property P → Bool
  | .data .. => false
  | .accessor .. => true

def validate (ext : Bool) (d : Desc P) : Option (Property P) → Bool
  | none => ext
  | some cur =>
    cur.conf ||
      d.conf ≠ some true && d.enum.all (· = cur.enum) && (d.isgeneric || d.isacc = cur.isacc) &&
      match cur with
      | .accessor get set _ _ => d.get.all (· = get) && d.set.all (· = set)
      | .data value write _ _ => write || d.write ≠ some true && d.value.all (· = value)

def apply (d : Desc P) : Option (Property P) → Property P
  | none =>
    if d.isacc then
      .accessor (d.get.getD none) (d.set.getD none) (d.enum.getD false) (d.conf.getD false)
    else .data (d.value.getD .undef) (d.write.getD false) (d.enum.getD false) (d.conf.getD false)
  | some (.data value write enum conf) =>
    if d.isacc then
      .accessor (d.get.getD none) (d.set.getD none) (d.enum.getD enum) (d.conf.getD conf)
    else .data (d.value.getD value) (d.write.getD write) (d.enum.getD enum) (d.conf.getD conf)
  | some (.accessor get set enum conf) =>
    if d.isdata then
      .data (d.value.getD .undef) (d.write.getD false) (d.enum.getD enum) (d.conf.getD conf)
    else .accessor (d.get.getD get) (d.set.getD set) (d.enum.getD enum) (d.conf.getD conf)

def ordinaryDefine (o : Object P) (k : Key) (d : Desc P) : Bool × Object P :=
  if validate o.ext d (o.props k) then
    (true, { o with props := Function.update o.props k (some (apply d (o.props k))) })
  else (false, o)

def Object.length (o : Object P) : ℕ × Bool :=
  match o.props alength with
  | some (.data (.num n) write _ _) => (n, write)
  | _ => (0, false)

def shrink (newlen : ℕ) : ℕ → (Key → Option (Property P)) → ℕ × (Key → Option (Property P))
  | 0, props => (0, props)
  | n + 1, props =>
    if n < newlen then (n + 1, props)
    else if (props (.index n)).any (!·.conf) then (n + 1, props)
    else shrink newlen n (Function.update props (.index n) none)

def lendesc (d : Desc P) (n : ℕ) (write : Option Bool) : Desc P :=
  ⟨some (.num n), write, none, none, d.enum, d.conf, .inr ⟨rfl, rfl⟩⟩

def arraySetLength (len : Tolen P) (o : Object P) (d : Desc P) : Ans P × Object P :=
  match d.value with
  | none =>
    let (ok, o) := ordinaryDefine o alength d
    (.ret ok, o)
  | some v =>
    match len.val v with
    | none => (.rangeerr, o)
    | some newlen =>
      let (oldlen, write) := o.length
      if oldlen ≤ newlen then
        let (ok, o) := ordinaryDefine o alength (lendesc d newlen d.write)
        (.ret ok, o)
      else if write = false then (.ret false, o)
      else
        -- writable until the elements are deleted
        let newwritable := if d.write = some false then some true else d.write
        match ordinaryDefine o alength (lendesc d newlen newwritable) with
        | (false, o) => (.ret false, o)
        | (true, o) =>
          let (n, props) := shrink newlen oldlen o.props
          let o := { o with props := props }
          if newlen < n then
            (.ret false, (ordinaryDefine o alength (lendesc d n d.write)).2)
          else if d.write = some false then
            (.ret true, (ordinaryDefine o alength (lendesc d newlen (some false))).2)
          else (.ret true, o)

def defineOwn (len : Tolen P) (o : Object P) (k : Key) (d : Desc P) : Ans P × Object P :=
  if o.isarray = true ∧ k = alength then arraySetLength len o d
  else
    match if o.isarray then keyindex k else none with
    | none =>
      let (ok, o) := ordinaryDefine o k d
      (.ret ok, o)
    | some i =>
      let (length, write) := o.length
      if length ≤ i ∧ write = false then (.ret false, o)
      else
        match ordinaryDefine o k d with
        | (false, o) => (.ret false, o)
        | (true, o) =>
          (.ret true,
            if length ≤ i then (ordinaryDefine o alength (valuedesc (.num (i + 1)))).2 else o)

def createData (len : Tolen P) (o : Object P) (k : Key) (v : V P) : Ans P × Object P :=
  defineOwn len o k (datadesc v Adefault)

def delete (o : Object P) (k : Key) : Bool × Object P :=
  match o.props k with
  | none => (true, o)
  | some p =>
    if p.conf then (true, { o with props := Function.update o.props k none }) else (false, o)

inductive Finds (A : Heap P) (k : Key) : ℕ → Option (Property P) → Prop
  | own {h : ℕ} {p : Property P} : (A h).props k = some p → Finds A k h (some p)
  | none {h : ℕ} : (A h).props k = none → (A h).proto = none → Finds A k h none
  | up {h q : ℕ} {p : Option (Property P)} : (A h).props k = none → (A h).proto = some q →
    Finds A k q p → Finds A k h p

def after (A : Heap P) (h : ℕ) (r : Ans P × Object P) : Ans P × Heap P :=
  (r.1, Function.update A h r.2)

def setWith (len : Tolen P) (A : Heap P) (k : Key) (v recv : V P) :
    Option (Property P) → Ans P × Heap P
  | some (.accessor _ none _ _) => (.ret false, A)
  | some (.accessor _ (some f) _ _) => (.call f recv v, A)
  | some (.data _ false _ _) => (.ret false, A)
  | some (.data _ true _ _) | none =>
    match recv with
    | .obj r =>
      match (A r).props k with
      | some (.accessor ..) | some (.data _ false _ _) => (.ret false, A)
      | some (.data _ true _ _) => after A r (defineOwn len (A r) k (valuedesc v))
      | none => after A r (createData len (A r) k v)
    | _ => (.ret false, A)

inductive Reaches (A : Heap P) (h : ℕ) : Option ℕ → Prop
  | here : Reaches A h (some h)
  | next {q : ℕ} : Reaches A h (A q).proto → Reaches A h (some q)

inductive SetsProto (A : Heap P) (h : ℕ) (p : Option ℕ) : Ans P → Heap P → Prop
  | same : (A h).proto = p → SetsProto A h p (.ret true) A
  | fixed : (A h).proto ≠ p → (A h).ext = false → SetsProto A h p (.ret false) A
  | cycle : (A h).proto ≠ p → (A h).ext = true → Reaches A h p → SetsProto A h p (.ret false) A
  | sets : (A h).proto ≠ p → (A h).ext = true → ¬ Reaches A h p →
    SetsProto A h p (.ret true) (Function.update A h { A h with proto := p })

def boolret (r : Bool × Object P) : Ans P × Object P := (.ret r.1, r.2)

inductive Does (len : Tolen P) (A : Heap P) : Op P → Ans P × Heap P → Prop
  | defineown (h : ℕ) (k : Key) (d : Desc P) :
    Does len A (.defineown h k d) (after A h (defineOwn len (A h) k d))
  | set {h : ℕ} {k : Key} {v recv : V P} {p : Option (Property P)} : Finds A k h p →
    Does len A (.set h k v recv) (setWith len A k v recv p)
  | createdata (h : ℕ) (k : Key) (v : V P) :
    Does len A (.createdata h k v) (after A h (createData len (A h) k v))
  | delete (h : ℕ) (k : Key) : Does len A (.delete h k) (after A h (boolret (delete (A h) k)))
  | setproto {h : ℕ} {p : Option ℕ} {ans : Ans P} {A' : Heap P} : SetsProto A h p ans A' →
    Does len A (.setproto h p) (ans, A')
  | preventext (h : ℕ) :
    Does len A (.preventext h) (.ret true, Function.update A h { A h with ext := false })
  | arraysetlength (h : ℕ) (d : Desc P) :
    Does len A (.arraysetlength h d) (after A h (arraySetLength len (A h) d))
  | arrpush (h : ℕ) (v : V P) :
    Does len A (.arrpush h v)
      (match after A h (createData len (A h) (numkey (A h).length.1) v) with
      | (.ret false, A) => (.typeerr, A)
      | r => r)

end Infernode.Js.Ecma
