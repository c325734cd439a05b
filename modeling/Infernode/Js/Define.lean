import Infernode.Js.Object

/-!
# Operations on objects

What an operation answers, and the objects after it. A setter is called by whoever reads the
answer; what it does are operations of their own.
-/

namespace Infernode.Js

variable {P : Type}

/-- A property descriptor; what is not present is `none`. Functions are handles or undefined, and
none is of an accessor and of data. -/
structure Desc (P : Type) where
  value : Option (V P)
  write : Option Bool
  get : Option (Option ℕ)
  set : Option (Option ℕ)
  enum : Option Bool
  conf : Option Bool
  one : value = none ∧ write = none ∨ get = none ∧ set = none

/-- The length that a value is, if it is one: where `touint32` and `tonumber` agree. -/
structure Tolen (P : Type) where
  val : V P → Option ℕ
  lt : ∀ v n, val v = some n → n < 2 ^ 32

inductive Ans (P : Type)
  | ret (ok : Bool)
  | rangeerr
  | typeerr
  | call (f : ℕ) (recv v : V P)
  deriving DecidableEq

def Desc.isacc (d : Desc P) : Bool := d.get.isSome || d.set.isSome

def Desc.isdata (d : Desc P) : Bool := d.value.isSome || d.write.isSome

def Desc.isgeneric (d : Desc P) : Bool := !d.isacc && !d.isdata

def Desc.isempty (d : Desc P) : Bool :=
  d.isgeneric && d.enum.isNone && d.conf.isNone

def datadesc (v : V P) (a : Attr) : Desc P :=
  ⟨some v, some a.write, none, none, some a.enum, some a.conf, .inr ⟨rfl, rfl⟩⟩

def accdesc (get set : Option ℕ) (a : Attr) : Desc P :=
  ⟨none, none, some get, some set, some a.enum, some a.conf, .inl ⟨rfl, rfl⟩⟩

def valuedesc (v : V P) : Desc P := ⟨some v, none, none, none, none, none, .inr ⟨rfl, rfl⟩⟩

section

variable {g t : Option ℕ} {x : V P} {a : Attr}

end

@[simp] theorem accdesc_isacc : (accdesc g t a : Desc P).isacc = true := rfl

@[simp] theorem accdesc_isdata : (accdesc g t a : Desc P).isdata = false := rfl

@[simp] theorem accdesc_get : (accdesc g t a : Desc P).get = some g := rfl

@[simp] theorem accdesc_set : (accdesc g t a : Desc P).set = some t := rfl

@[simp] theorem accdesc_enum : (accdesc g t a : Desc P).enum = some a.enum := rfl

@[simp] theorem accdesc_conf : (accdesc g t a : Desc P).conf = some a.conf := rfl

@[simp] theorem datadesc_isacc : (datadesc x a).isacc = false := rfl

@[simp] theorem datadesc_isdata : (datadesc x a).isdata = true := rfl

@[simp] theorem datadesc_value : (datadesc x a).value = some x := rfl

@[simp] theorem datadesc_write : (datadesc x a).write = some a.write := rfl

@[simp] theorem datadesc_enum : (datadesc x a).enum = some a.enum := rfl

@[simp] theorem datadesc_conf : (datadesc x a).conf = some a.conf := rfl

def Slot.get : Slot P → Option ℕ
  | .acc g _ => g
  | .val _ => none

def Slot.set : Slot P → Option ℕ
  | .acc _ s => s
  | .val _ => none

def Slot.value : Slot P → V P
  | .val v => v
  | .acc _ _ => .undef

def todesc : Slot P × Attr → Desc P
  | (v, a) =>
    if a.acc then accdesc v.get v.set a
    else datadesc v.value a

theorem todesc_conf {p : Slot P × Attr} : (todesc p).conf = some p.2.conf := by
  obtain ⟨v, a⟩ := p
  rw [todesc]
  split_ifs <;> rfl

def getown (s : State P) (h : ℕ) (k : Key) : Option (Desc P) := (getownprop s h k).map todesc

variable [DecidableEq P]

def compatible (ext : Bool) (d : Desc P) : Option (Desc P) → Bool
  | none => ext
  | some cur =>
    if d.isempty then true
    else if cur.conf = some false then
      if d.conf = some true then false
      else if d.enum.isSome ∧ d.enum ≠ cur.enum then false
      else if d.isgeneric = false ∧ d.isacc ≠ cur.isacc then false
      else if cur.isacc then
        !(d.get.isSome && d.get ≠ cur.get) && !(d.set.isSome && d.set ≠ cur.set)
      else if cur.write = some false then
        !(d.write = some true) && !(d.value.isSome && d.value ≠ cur.value)
      else true
    else true

def ordinarydefine (s : State P) (h : ℕ) (k : Key) (d : Desc P) : Bool × State P :=
  let ext := (s.objs h).ext
  match getown s h k with
  | none =>
    if ext = false then (false, s)
    else if d.isacc then
      (true, defown s h k ⟨false, d.enum.getD false, d.conf.getD false, true⟩
        (.acc (d.get.getD none) (d.set.getD none)))
    else
      (true, defown s h k ⟨d.write.getD false, d.enum.getD false, d.conf.getD false, false⟩
        (.val (d.value.getD .undef)))
  | some cur =>
    if compatible ext d (some cur) = false then (false, s)
    else
      let enum := d.enum.getD (cur.enum.getD false)
      let conf := d.conf.getD (cur.conf.getD false)
      if d.isacc ∧ cur.isdata ∨ d.isdata ∧ cur.isacc then
        if d.isacc then
          (true, defown s h k ⟨false, enum, conf, true⟩
            (.acc (d.get.getD none) (d.set.getD none)))
        else
          (true, defown s h k ⟨d.write.getD false, enum, conf, false⟩
            (.val (d.value.getD .undef)))
      else if cur.isacc then
        (true, defown s h k ⟨false, enum, conf, true⟩
          (.acc (d.get.getD (cur.get.getD none)) (d.set.getD (cur.set.getD none))))
      else
        (true, defown s h k ⟨d.write.getD (cur.write.getD false), enum, conf, false⟩
          (.val (d.value.getD (cur.value.getD .undef))))

def truncloop (h : ℕ) : List ℕ → State P → Bool × State P
  | [], s => (true, s)
  | ix :: idx, s =>
    let sh := s.shapes (s.objs h).shape
    if ((slotof sh.props (.index ix)).bind (sh.props[·]?)).any (!·.2.conf) then
      (false, s.setobj h { s.objs h with alen := ix + 1 })
    else truncloop h idx (removeown s h (.index ix))

def truncate (s : State P) (h n : ℕ) : Bool × State P :=
  let o := s.objs h
  let setlen (s : State P) := s.setobj h { s.objs h with alen := n }
  if n < o.alen then
    let s := s.setobj h { o with elems := o.elems.take n }
    if o.idxprops then
      let idx := ((s.shapes o.shape).props.filterMap fun p => keyindex p.1).filter (n ≤ ·)
      match truncloop h (idx.insertionSort (· ≥ ·)) s with
      | (false, s) => (false, s)
      | (true, s) => (true, setlen s)
    else (true, setlen s)
  else (true, setlen s)

def setlenro (s : State P) (h : ℕ) (d : Desc P) : State P :=
  if d.write = some false then s.setobj h { s.objs h with lenro := true } else s

def arraysetlength (len : Tolen P) (s : State P) (h : ℕ) (d : Desc P) : Ans P × State P :=
  let o := s.objs h
  let refused := d.conf = some true ∨ d.enum = some true ∨ d.isacc = true
  match d.value with
  | none =>
    if refused then (.ret false, s)
    else if d.write = some true ∧ o.lenro = true then (.ret false, s)
    else (.ret true, setlenro s h d)
  | some v =>
    match len.val v with
    | none => (.rangeerr, s)
    | some newlen =>
      if refused then (.ret false, s)
      else if newlen = o.alen then
        if o.lenro = true ∧ d.write = some true then (.ret false, s)
        else (.ret true, setlenro s h d)
      else if o.lenro then (.ret false, s)
      else
        let (ok, s) := truncate s h newlen
        (.ret ok, setlenro s h d)

def defineown (len : Tolen P) (s : State P) (h : ℕ) (k : Key) (d : Desc P) : Ans P × State P :=
  let o := s.objs h
  if o.kind = .array ∧ k = alength then arraysetlength len s h d
  else
    match if o.kind = .array then keyindex k else none with
    | none =>
      let (ok, s) := ordinarydefine s h k d
      (.ret ok, s)
    | some ix =>
      if o.alen ≤ ix ∧ o.lenro = true then (.ret false, s)
      else
        let (ok, s) := ordinarydefine s h k d
        if ok then
          (.ret true, if o.alen ≤ ix then s.setobj h { s.objs h with alen := ix + 1 } else s)
        else (.ret false, s)

def createdata (len : Tolen P) (s : State P) (h : ℕ) (k : Key) (v : V P) : Ans P × State P :=
  let o := s.objs h
  if o.kind = .ord ∧ o.ext = true ∧ getownprop s h k = none then
    (.ret true, addprop s h k Adefault (.val v))
  else defineown len s h k (datadesc v Adefault)

def newpropok (s : State P) (k : Key) : ℕ → Option ℕ → Bool
  | _, none => true
  | 0, some _ => false
  | n + 1, some p =>
    let o := s.objs p
    if o.idxprops = true ∨ (slotof (s.shapes o.shape).props k).isSome then false
    else newpropok s k n o.proto

def setquick (s : State P) (h : ℕ) (k : Key) (v : V P) : Option (State P) :=
  let o := s.objs h
  match keyidx k with
  | some i => (o.elem k).map fun _ => setelem s h i (some v)
  | none =>
    let sh := s.shapes o.shape
    match slotof sh.props k with
    | some slot =>
      if (sh.props[slot]?).any fun p => p.2.write && !p.2.acc then some (setslot s h slot (.val v))
      else none
    | none =>
      if o.kind = .ord ∧ o.ext = true ∧ k ≠ alength ∧ newpropok s k 32 o.proto = true then
        some (addprop s h k Adefault (.val v))
      else none

def setfound (len : Tolen P) (s : State P) (d : Desc P) (k : Key) (v recv : V P) :
    Ans P × State P :=
  if d.isdata then
    if d.write ≠ some true then (.ret false, s)
    else
      match recv with
      | .obj r =>
        match getown s r k with
        | some rd =>
          if rd.isacc ∨ rd.write ≠ some true then (.ret false, s)
          else if (s.objs r).kind = .ord then (.ret true, putown s r k v)
          else defineown len s r k (valuedesc v)
        | none => createdata len s r k v
      | _ => (.ret false, s)
  else
    match d.set.getD none with
    | none => (.ret false, s)
    | some f => (.call f recv v, s)

/-- `none` where the prototypes are more than `fuel`. -/
def set (len : Tolen P) (s : State P) (k : Key) (v recv : V P) : ℕ → ℕ → Option (Ans P × State P)
  | 0, _ => none
  | fuel + 1, h =>
    match if recv = .obj h then setquick s h k v else none with
    | some s => some (.ret true, s)
    | none =>
      match getown s h k with
      | some d => some (setfound len s d k v recv)
      | none =>
        match (s.objs h).proto with
        | some p => set len s k v recv fuel p
        | none => some (setfound len s (datadesc .undef Adefault) k v recv)

def delete (s : State P) (h : ℕ) (k : Key) : Bool × State P :=
  match getown s h k with
  | none => (true, s)
  | some d =>
    if d.conf = some false then (false, s)
    else if (s.objs h).kind = .array ∧ k = alength then (false, s)
    else (true, removeown s h k)

def protoloop (s : State P) (h : ℕ) : ℕ → Option ℕ → Option Bool
  | _, none => some true
  | 0, some _ => none
  | fuel + 1, some q => if q = h then some false else protoloop s h fuel (s.objs q).proto

def setproto (s : State P) (fuel h : ℕ) (p : Option ℕ) : Option (Bool × State P) :=
  let o := s.objs h
  if o.proto = p then some (true, s)
  else if o.ext = false then some (false, s)
  else
    (protoloop s h fuel p).map fun ok =>
      if ok then (true, s.setobj h { o with proto := p }) else (false, s)

def preventext (s : State P) (h : ℕ) : Bool × State P :=
  (true, s.setobj h { s.objs h with ext := false })

def arrpush (len : Tolen P) (s : State P) (h : ℕ) (v : V P) : Ans P × State P :=
  let o := s.objs h
  if o.alen = o.elems.length ∧ o.alen < 2 ^ 31 ∧ o.idxprops = false then
    (.ret true, s.setobj h { o with elems := o.elems ++ [some v], alen := o.alen + 1 })
  else
    match createdata len s h (numkey o.alen) v with
    | (.ret false, s) => (.typeerr, s)
    | r => r

inductive Op (P : Type)
  | defineown (h : ℕ) (k : Key) (d : Desc P)
  | set (h : ℕ) (k : Key) (v recv : V P)
  | createdata (h : ℕ) (k : Key) (v : V P)
  | delete (h : ℕ) (k : Key)
  | setproto (h : ℕ) (p : Option ℕ)
  | preventext (h : ℕ)
  | arraysetlength (h : ℕ) (d : Desc P)
  | arrpush (h : ℕ) (v : V P)

def ret : Bool × State P → Ans P × State P
  | (ok, s) => (.ret ok, s)

def exec (len : Tolen P) (fuel : ℕ) (s : State P) : Op P → Option (Ans P × State P)
  | .defineown h k d => some (defineown len s h k d)
  | .set h k v recv => set len s k v recv fuel h
  | .createdata h k v => some (createdata len s h k v)
  | .delete h k => some (ret (delete s h k))
  | .setproto h p => (setproto s fuel h p).map ret
  | .preventext h => some (ret (preventext s h))
  | .arraysetlength h d => some (arraysetlength len s h d)
  | .arrpush h v => some (arrpush len s h v)

end Infernode.Js
