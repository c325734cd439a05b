import Mathlib

/-!
# Compiling a module

`compile` of `comp-arm64.c` over the module data, with every place where it can stop. The words
that are emitted are not modelled, only how many they are: this and what is refused is an `Env`.
Of an instruction there is the table that its destination is and the type that it makes a frame of.
-/

namespace Infernode.Jit

abbrev Words := ℤ → ℤ

inductive Table
  | case (ind : ℤ)
  | casel (ind : ℤ)
  | goto (ind : ℤ)

structure Inst where
  table : Option Table
  frame : Option ℕ

structure Link where
  pc : ℤ
  frame : Option ℕ

structure Handler where
  pc1 : ℤ
  pc2 : ℤ
  pcs : List ℤ

/-- `text` is the compiled code that takes the place of `prog`; `code` says which types have
`initialize` and `destroy`. -/
structure Module where
  prog : List Inst
  text : Option ℕ
  origmp : Words
  ntype : ℕ
  code : ℕ → Bool
  ext : List Link
  htab : List Handler
  entry : ℤ
  pctab : List ℤ

/-- What `comp` or a macro does: words emitted, or an error raised. -/
inductive Emit
  | words (n : ℕ)
  | raise

inductive Typecode
  | made
  | unmapped
  | refused
  | raise

/-- What memory there is and what is emitted, in each pass. `stray` is what is read outside
`patch`. -/
structure Env where
  patch : Bool
  tinit : Bool
  tmp : Bool
  preamble : Bool
  comp : Bool → ℕ → Emit
  gen : Bool → ℕ → Emit
  map : Option ℕ
  stray : ℤ → ℕ
  typecom : ℕ → Typecode

def tmpsize : ℕ := 8192
def maxwords : ℕ := 16 * 1024 * 1024
def nmactab : ℕ := 11

def count0 (mp : Words) : Table → Words
  | .case ind | .casel ind =>
    if 0 ≤ mp ind then Function.update mp ind (-mp ind - 1) else mp
  | .goto _ => mp

section
variable (relpc : ℤ → ℤ)

def relocate (mp : Words) (a : ℤ) : Words := Function.update mp a (relpc (mp a))

def relocatecase (mp : Words) (ind t stride : ℤ) : Words :=
  let l := mp ind
  if 0 ≤ l then mp
  else
    let n := -l - 1
    let mp := Function.update mp ind n
    let mp := (List.range n.toNat).foldl (fun mp k => relocate relpc mp (t + stride * k + 2)) mp
    let e := t + stride * n
    if 0 ≤ mp e then relocate relpc mp e else mp

def count1 (mp : Words) : Table → Words
  | .case ind => relocatecase relpc mp ind (ind + 1) 3
  | .casel ind => relocatecase relpc mp ind (ind + 2) 4
  | .goto ind =>
    (List.range (mp (ind - 1)).toNat).foldl (fun mp k => relocate relpc mp (ind + k))
      (Function.update mp (ind - 1) 0)

end

inductive Pass (α : Type)
  | raised
  | bad (mp : Words)
  | go (a : α)

def pass0 (e : Env) (i n : ℕ) (mp : Words) : List Inst → Pass (List ℕ × ℕ × Words)
  | [] => .go ([], n, mp)
  | inst :: rest =>
    match e.comp false i with
    | .raise => .raised
    | .words w =>
      let mp := inst.table.elim mp (count0 mp)
      if tmpsize ≤ w ∨ maxwords < n + w then .bad mp
      else
        match pass0 e (i + 1) (n + w) mp rest with
        | .raised => .raised
        | .bad mp => .bad mp
        | .go (offs, n', mp') => .go (n :: offs, n', mp')

inductive Sizes
  | raised
  | large (done : ℕ)
  | go (offs : List ℕ) (n : ℕ)

def Sizes.after (n : ℕ) : Sizes → Sizes
  | .raised => .raised
  | .large done => .large done
  | .go offs n' => .go (n :: offs) n'

def sizes (emit : ℕ → Emit) (limit : Option ℕ) (i n : ℕ) : ℕ → Sizes
  | 0 => .go [] n
  | k + 1 =>
    match emit i with
    | .raise => .raised
    | .words w =>
      if tmpsize ≤ w ∨ limit.any (· < n + w) then .large (i + 1)
      else (sizes emit limit (i + 1) (n + w) k).after n

def pass1 (e : Env) (relpc : ℤ → ℤ) (i n : ℕ) (mp : Words) :
    List Inst → List ℕ → Option (Words × ℕ)
  | inst :: rest, off :: offs =>
    match e.comp true i with
    | .raise => none
    | .words w =>
      let mp := inst.table.elim mp (count1 relpc mp)
      if off ≠ n then none else pass1 e relpc (i + 1) (n + w) mp rest offs
  | _, _ => some (mp, n)

def phases (emit : ℕ → Emit) (i n : ℕ) : List ℕ → Option ℕ
  | off :: offs =>
    match emit i with
    | .raise => none
    | .words w => if off ≠ n then none else phases emit (i + 1) (n + w) offs
  | [] => some n

def typecoms (e : Env) (k : ℕ) (code : ℕ → Bool) : List ℕ → Option ((ℕ → Bool) × Bool)
  | [] => some (code, false)
  | t :: ts =>
    if code t then typecoms e (k + 1) code ts
    else
      match e.typecom k with
      | .raise => none
      | .refused => (typecoms e (k + 1) code ts).map fun r => (r.1, true)
      | .unmapped => typecoms e (k + 1) code ts
      | .made => typecoms e (k + 1) (Function.update code t true) ts

def typesused (m : Module) (ml : List Link) : List ℕ :=
  m.ext.filterMap (·.frame) ++ ml.filterMap (·.frame) ++
    (List.range m.ntype).filter fun i => m.prog.any fun inst => inst.frame == some i

inductive Outcome
  | raised
  | bad (m : Module) (ml : List Link)
  | ok (m : Module) (ml : List Link)

def patchat (e : Env) (patch : List ℕ) (pc : ℤ) : ℤ :=
  if 0 ≤ pc then (patch[pc.toNat]?.getD (e.stray pc) : ℕ) else e.stray pc

def relpc (e : Env) (base : ℕ) (patch : List ℕ) (pc : ℤ) : ℤ := base + 4 * patchat e patch pc

def patchlink (relpc : ℤ → ℤ) (l : Link) : Link :=
  if l.pc = -1 then l else { l with pc := relpc l.pc }

def patchex (at4 : ℤ → ℤ) (h : Handler) : Handler :=
  ⟨at4 h.pc1, at4 h.pc2, h.pcs.map fun pc => if pc = -1 then pc else at4 pc⟩

def compile (e : Env) (m : Module) (ml : List Link) : Outcome :=
  if !(e.patch && e.tinit && e.tmp && e.preamble) then .bad m ml
  else
    match pass0 e 0 0 m.origmp m.prog with
    | .raised => .raised
    | .bad mp => .bad { m with origmp := mp } ml
    | .go (offs, n, mp) =>
      -- a trap stands between the instructions and the macros
      match sizes (e.gen false) none 0 (n + 1) nmactab with
      | .raised => .raised
      | .large _ => .bad { m with origmp := mp } ml
      | .go macs _ =>
        match e.map with
        | none => .bad { m with origmp := mp } ml
        | some base =>
          let patch := offs ++ [n]
          match pass1 e (relpc e base patch) 0 0 mp m.prog offs with
          | none => .raised
          | some (mp, n) =>
            match phases (e.gen true) 0 (n + 1) macs with
            | none => .raised
            | some _ =>
              let ts := typesused m ml
              match typecoms e 0 m.code ts with
              | none => .raised
              | some (code, true) => .bad { m with origmp := mp, code := code } ml
              | some (code, false) =>
                match typecoms e ts.length code ts with
                | none => .raised
                | some (code, _) =>
                  .ok { m with
                    text := some base
                    origmp := mp
                    code := code
                    ext := m.ext.map (patchlink (relpc e base patch))
                    htab := m.htab.map (patchex fun pc => 4 * patchat e patch pc)
                    entry := relpc e base patch m.entry
                    pctab := patch.map fun n => 4 * n } (ml.map (patchlink (relpc e base patch)))

structure Loader where
  lock : Option Bool
  incompile : Bool

def Loader.Ready (L : Loader) : Prop := L.lock ≠ some true ∧ L.incompile = false

instance (L : Loader) : Decidable L.Ready :=
  inferInstanceAs (Decidable (L.lock ≠ some true ∧ L.incompile = false))

def Loader.compile (L : Loader) (e : Env) (m : Module) (ml : List Link) : Loader × Outcome :=
  match Jit.compile e m ml with
  | .raised => ({ L with incompile := true }, .raised)
  | out => (L, out)

def lockedcompile (e : Env) (m : Module) (L : Loader) : Loader × Outcome :=
  match L.lock with
  | none => Loader.compile { L with lock := some false } e m []
  | some _ =>
    match Loader.compile { L with lock := some true } e m [] with
    | (L, .raised) => (L, .raised)
    | (L, out) => ({ L with lock := some false }, out)

end Infernode.Jit
