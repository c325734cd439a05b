import Infernode.Dis.TextOps

/-!
# The string instructions over whole runs

Slots share strings by counted references. In a run where no string is widened
while it is empty, and no block of 2^31 bytes is asked for, every string fits
its block, every instruction changes what its destination stands for as the
codes say, and no other slot changes.
-/

namespace Infernode.Dis

open Lib

variable {n : ℕ}

inductive Instr (n : ℕ)
  | movp (d s : Fin n)
  | newstring (d : Fin n) (cs : List (Fin 128))
  | newrunes (d : Fin n) (rs : List (BitVec 32))
  | c2string (d : Fin n) (cs : List UInt8)
  | insc (d : Fin n) (v : ℕ) (w : ℤ)
  | slicer (d s : Fin n) (start v : ℕ)
  | addc (d m s : Fin n)
  | stringdup (d s : Fin n)
  | splitc (d : Fin n) (expand : Bool)

/-- `newstring` and `newrunes` as their callers use them, who fill what they get;
`insc` takes its value as an int. -/
def Instr.step (pool : Pool) : Instr n → Op n Unit
  | .movp d s => Dis.movp d s
  | .newstring d cs => do
    let ns ← Dis.newstring pool cs.length
    let ns ← poke ns 0 (cs.map fun c => byte c.val)
    leave d (.other ns)
  | .newrunes d rs => do
    let ns ← Dis.newrunes pool rs.length
    let ns ← poke ns 0 (rs.flatMap fun r => rune r.toInt)
    leave d (.other ns)
  | .c2string d cs => do
    let ns ← Dis.c2string pool cs
    leave d (.other ns)
  | .insc d v w => Dis.insc pool d v (int w)
  | .slicer d s start v => slicec pool d s start v
  | .addc d m s => Dis.addc pool d m s
  | .stringdup d s => dupc pool d s
  | .splitc d expand => Dis.splitc pool d expand

def denote (s : Str) : List ℤ := (List.range s.len.natAbs).map (code s)

def Vm.abs (vm : Vm n) (i : Fin n) : List ℤ := ((vm.look i).map fun o => denote o.str).getD []

/-- The instructions on lists of codes; `none` is an index out of bounds. -/
def Instr.spec (a : Fin n → List ℤ) : Instr n → Option (Fin n → List ℤ)
  | .movp d s => some (Function.update a d (a s))
  | .newstring d cs => some (Function.update a d (cs.map fun c => (c.val : ℤ)))
  | .newrunes d rs => some (Function.update a d (rs.map BitVec.toInt))
  | .c2string d cs => some (Function.update a d (decoded cs))
  | .insc d v w => (insert (a d) v (int w)).map (Function.update a d)
  | .slicer d s start v => (slice (a s) start v).map (Function.update a d)
  | .addc d m s => some (Function.update a d (a m ++ a s))
  | .stringdup d s => some (Function.update a d (a s))
  | .splitc _ _ => some a

/-- Bytes below 0x80 and the capacity inside the block, in the unit of the
representation. -/
def Str.WellFormed (s : Str) : Prop :=
  if s.len < 0 then -s.len ≤ s.max ∧ s.max * sizeofRune ≤ s.data.length
  else s.len ≤ s.max ∧ s.max ≤ s.data.length ∧ ∀ v < s.len.toNat, Sascii s v < Runeself

/-- The instruction does what it is for, or raises an error that it may and changes
nothing that the slots stand for. -/
def Instr.Right (pool : Pool) (vm : Vm n) (i : Instr n) : Prop :=
  Ensures (i.step pool) vm (fun _ vm' => i.spec vm.abs = some vm'.abs)
    fun e vm' => vm'.abs = vm.abs ∧ Refused e (i.spec vm.abs = none)

/-- What is said of a state: its strings are well formed, and index and comparison are
those of the codes. -/
structure Vm.Sound (vm : Vm n) : Prop where
  wellformed : ∀ i o, vm.look i = some o → o.str.WellFormed
  index : ∀ i v, indc ((vm.look i).map Obj.str) v =
    if (vm.look i).isNone then .error .exNilref
    else ((vm.abs i)[v]?).elim (.error .exBounds) .ok
  order : ∀ i j, Orders (vm.cmp i j) (vm.abs i) (vm.abs j)

/-- A step that avoids what goes wrong: no code beyond 0x7f is put into a string that is
empty but not nil and has room or another reference, and no block asked for is of
2^31 bytes. -/
def Instr.Careful (vm : Vm n) : Instr n → Prop
  | .newstring _ cs => sizeofString + (cs.length : ℤ) < 2 ^ 31
  | .newrunes _ rs => sizeofString + (rs.length : ℤ) * sizeofRune < 2 ^ 31
  | .c2string _ cs =>
    sizeofString + (countrunes cs.length cs : ℤ) * sizeofRune < 2 ^ 31 ∧
      sizeofString + (cs.length : ℤ) < 2 ^ 31
  | .insc d v w =>
    ∀ o ∈ vm.look d, (int w < 0 ∨ int w ≥ Runeself) →
      (o.str.len > 0 → sizeofString + o.str.len * sizeofRune < 2 ^ 31) ∧
      ¬(o.str.len = 0 ∧ v = 0 ∧ (o.ref > 1 ∨ 0 < o.str.max))
  | .addc d m s => Asks (vm.look m) ((vm.look s).map Obj.str) (decide (m = d))
  | .splitc d expand =>
    ∀ o ∈ vm.look d, expand = true → o.str.len > 0 →
      sizeofString + o.str.len * sizeofRune < 2 ^ 31
  | _ => True

inductive Reached (pool : Pool) (P : Vm n → Instr n → Prop) : Vm n → Prop
  | boot : Reached pool P ⟨0, 0, fun _ => none, fun _ => none⟩
  | done {vm vm' : Vm n} (i : Instr n) : Reached pool P vm → P vm i →
      i.step pool vm = .ok () vm' → Reached pool P vm'
  | failed {vm vm' : Vm n} (i : Instr n) (e : Raised) : Reached pool P vm → P vm i →
      i.step pool vm = .error e vm' → Reached pool P vm'

theorem Codes.denote {s : Str} {cs : List ℤ} (h : Codes s cs) : denote s = cs := by
  have habs := h.abs_len
  rw [Int.abs_eq_natAbs] at habs
  have hlen : s.len.natAbs = cs.length := by exact_mod_cast habs
  rw [Dis.denote, hlen]
  refine List.ext_getElem (by simp) fun v hv hv' => ?_
  rw [List.getElem_map, List.getElem_range, h.code hv']

theorem Codes.wellformed {s : Str} {cs : List ℤ} (h : Codes s cs) : s.WellFormed := by
  obtain h | h := h
  · rw [Str.WellFormed, if_neg h.not_neg]
    refine ⟨h.cap, h.room, fun v hv => ?_⟩
    have hlt : v < cs.length := by rwa [h.len, Int.toNat_natCast] at hv
    have hascii := h.ascii _ (List.getElem_mem hlt)
    have hval := h.sascii hlt
    simp only [Runeself]
    omega
  · rw [Str.WellFormed, if_pos h.len_neg]
    exact ⟨h.cap, h.room⟩

def Vm.refs (vm : Vm n) (id : ℕ) : ℕ := (Finset.univ.filter fun i => vm.slot i = some id).card

/-- Objects that are referred to exist and count their references; `x` counts those that
are in no slot yet. -/
structure Inv (x : ℕ → ℕ) (vm : Vm n) : Prop where
  fresh : ∀ id, 0 < vm.refs id + x id → id < vm.fresh
  live : ∀ id, 0 < vm.refs id + x id →
    ∃ o, vm.heap id = some o ∧ o.ref = vm.refs id + x id ∧ ∃ cs, Codes o.str cs

theorem refs_pos {vm : Vm n} {i : Fin n} {id : ℕ} (h : vm.slot i = some id) : 0 < vm.refs id :=
  Finset.card_pos.mpr ⟨i, by simp [h]⟩

theorem refs_clear (vm : Vm n) (d : Fin n) (id : ℕ) :
    ({ vm with slot := Function.update vm.slot d none } : Vm n).refs id =
      vm.refs id - if vm.slot d = some id then 1 else 0 := by
  have hfilter : (Finset.univ.filter fun i => Function.update vm.slot d none i = some id) =
      (Finset.univ.filter fun i => vm.slot i = some id).erase d := by
    ext i
    by_cases hi : i = d
    · subst hi
      simp
    · simp [hi]
  rw [Vm.refs, hfilter, Finset.card_erase_eq_ite, Vm.refs]
  simp only [Finset.mem_filter, Finset.mem_univ, true_and]
  split <;> rfl

theorem refs_set (vm : Vm n) {d : Fin n} (hd : vm.slot d = none) (k id : ℕ) :
    ({ vm with slot := Function.update vm.slot d (some k) } : Vm n).refs id =
      vm.refs id + if k = id then 1 else 0 := by
  by_cases hk : k = id
  · subst hk
    have hfilter : (Finset.univ.filter fun i => Function.update vm.slot d (some k) i = some k) =
        Insert.insert d (Finset.univ.filter fun i => vm.slot i = some k) := by
      ext i
      by_cases hi : i = d
      · subst hi
        simp
      · simp [hi]
    rw [Vm.refs, hfilter, Finset.card_insert_of_notMem (by simp [hd]), if_pos rfl]
    rfl
  · have hfilter : (Finset.univ.filter fun i => Function.update vm.slot d (some k) i = some id) =
        Finset.univ.filter fun i => vm.slot i = some id := by
      ext i
      by_cases hi : i = d
      · subst hi
        simp [hk, hd]
      · simp [hi]
    rw [Vm.refs, hfilter, if_neg hk]
    rfl

theorem abs_eq {vm vm' : Vm n} {i : Fin n}
    (h : (vm'.look i).map Obj.str = (vm.look i).map Obj.str) : vm'.abs i = vm.abs i := by
  have hmap : ∀ o : Option Obj, (o.map fun o => denote o.str) = (o.map Obj.str).map denote := by
    intro o
    rw [Option.map_map]
    rfl
  rw [Vm.abs, Vm.abs, hmap, hmap, h]

theorem abs_some {vm : Vm n} {i : Fin n} {id : ℕ} {o : Obj} {cs : List ℤ}
    (hslot : vm.slot i = some id) (hheap : vm.heap id = some o) (h : Codes o.str cs) :
    vm.abs i = cs := by
  have hlook : vm.look i = some o := by rw [Vm.look, hslot]; exact hheap
  rw [Vm.abs, hlook]
  exact h.denote

theorem abs_none {vm : Vm n} {i : Fin n} (hslot : vm.slot i = none) : vm.abs i = [] := by
  rw [Vm.abs, Vm.look, hslot]
  rfl

section
variable {x : ℕ → ℕ} {vm : Vm n} {d : Fin n}

theorem destroy_slot (vm : Vm n) (d : Fin n) :
    (vm.destroy d).slot = Function.update vm.slot d none := by
  rw [Vm.destroy]
  split
  next hslot =>
    rw [← hslot, Function.update_eq_self]
  next => rfl

theorem destroy_refs (vm : Vm n) (d : Fin n) (id : ℕ) :
    (vm.destroy d).refs id = vm.refs id - if vm.slot d = some id then 1 else 0 := by
  rw [← refs_clear vm d id, Vm.refs, destroy_slot]
  rfl

theorem destroy_fresh (vm : Vm n) (d : Fin n) : (vm.destroy d).fresh = vm.fresh := by
  rw [Vm.destroy]
  split <;> rfl

theorem Inv.destroy_live (h : Inv x vm) (d : Fin n) {id : ℕ}
    (hid : 0 < (vm.destroy d).refs id + x id) :
    ∃ o, vm.heap id = some o ∧
      (vm.destroy d).heap id = some { o with ref := (vm.destroy d).refs id + x id } ∧
      ∃ cs, Codes o.str cs := by
  have hrefs := destroy_refs vm d id
  obtain ⟨o, hheap, href, hcodes⟩ := h.live id (by omega)
  refine ⟨o, hheap, ?_, hcodes⟩
  rw [hrefs] at hid ⊢
  by_cases hslot : vm.slot d = some id
  · have hpos := refs_pos hslot
    have hleft : o.ref - 1 = vm.refs id - 1 + x id := by omega
    rw [if_pos hslot] at hid ⊢
    simp only [Vm.destroy, hslot, Function.update_self, hheap, Option.bind_some, hleft, if_pos hid]
  · rw [if_neg hslot, Nat.sub_zero]
    have hsame : (vm.destroy d).heap id = vm.heap id := by
      cases hd : vm.slot d with
      | none => simp only [Vm.destroy, hd]
      | some k =>
        have hk : id ≠ k := by
          rintro rfl
          exact hslot hd
        simp only [Vm.destroy, hd]
        rw [Function.update_of_ne hk]
    rw [hsame, hheap, ← href]

theorem Inv.destroy (h : Inv x vm) (d : Fin n) : Inv x (vm.destroy d) where
  fresh id hid := by
    rw [destroy_fresh]
    rw [destroy_refs] at hid
    exact h.fresh id (by omega)
  live id hid := by
    obtain ⟨o, -, hheap, hcodes⟩ := h.destroy_live d hid
    exact ⟨_, hheap, rfl, hcodes⟩

theorem Inv.destroy_abs (h : Inv x vm) (d : Fin n) :
    (vm.destroy d).abs = Function.update vm.abs d [] := by
  funext i
  by_cases hi : i = d
  · subst hi
    rw [Function.update_self]
    exact abs_none (by rw [destroy_slot, Function.update_self])
  · rw [Function.update_of_ne hi]
    refine abs_eq ?_
    have hslot : (vm.destroy d).slot i = vm.slot i := by
      rw [destroy_slot, Function.update_of_ne hi]
    cases hs : vm.slot i with
    | none => rw [Vm.look, Vm.look, hslot, hs]; rfl
    | some id =>
      have hpos := refs_pos (hslot.trans hs)
      have hlive : 0 < (vm.destroy d).refs id + x id := by omega
      obtain ⟨o, hheap, hheap', -⟩ := h.destroy_live d hlive
      rw [Vm.look, Vm.look, hslot, hs, Option.bind_some, Option.bind_some, hheap, hheap']
      rfl

theorem Inv.hold {id : ℕ} {o : Obj} {cs : List ℤ} (h : Inv (x + Pi.single id 1) vm)
    (hd : vm.slot d = none) (hheap : vm.heap id = some o) (hcodes : Codes o.str cs) :
    Inv x { vm with slot := Function.update vm.slot d (some id) } ∧
      ({ vm with slot := Function.update vm.slot d (some id) } : Vm n).abs =
        Function.update vm.abs d cs := by
  have hcount : ∀ k, ({ vm with slot := Function.update vm.slot d (some id) } : Vm n).refs k + x k =
      vm.refs k + (x + Pi.single id 1 : ℕ → ℕ) k := by
    intro k
    rw [refs_set vm hd]
    simp only [Pi.add_apply, Pi.single_apply, eq_comm]
    omega
  refine ⟨⟨fun k hk => ?_, fun k hk => ?_⟩, ?_⟩
  · rw [hcount] at hk
    exact h.fresh k hk
  · rw [hcount] at hk ⊢
    exact h.live k hk
  · funext i
    by_cases hi : i = d
    · subst hi
      rw [Function.update_self]
      exact abs_some (Function.update_self ..) hheap hcodes
    · rw [Function.update_of_ne hi]
      refine abs_eq ?_
      simp only [Vm.look, Function.update_of_ne hi]

theorem Inv.place (h : Inv x vm) (hx : x vm.fresh = 0) (hd : vm.slot d = none) {s : Str}
    {cs : List ℤ} (hcodes : Codes s cs) :
    Inv x (vm.place d s) ∧ (vm.place d s).abs = Function.update vm.abs d cs := by
  let vm' : Vm n :=
    { vm with fresh := vm.fresh + 1, heap := Function.update vm.heap vm.fresh (some ⟨1, s⟩) }
  have hnone : vm.refs vm.fresh = 0 := by
    by_contra hpos
    have hlt := h.fresh vm.fresh (by omega)
    omega
  have hrefs : ∀ k, vm'.refs k = vm.refs k := fun _ => rfl
  have hheld : Inv (x + Pi.single vm.fresh 1) vm' := by
    refine ⟨fun k hk => ?_, fun k hk => ?_⟩
    · rw [hrefs] at hk
      by_cases hnew : k = vm.fresh
      · subst hnew
        exact Nat.lt_succ_self _
      · simp only [Pi.add_apply, Pi.single_apply, if_neg hnew, add_zero] at hk
        exact (h.fresh k hk).trans (Nat.lt_succ_self _)
    · rw [hrefs] at hk ⊢
      by_cases hnew : k = vm.fresh
      · subst hnew
        exact ⟨⟨1, s⟩, Function.update_self .., by simp [hnone, hx], cs, hcodes⟩
      · simp only [Pi.add_apply, Pi.single_apply, if_neg hnew, add_zero] at hk ⊢
        obtain ⟨o, hheap, hrest⟩ := h.live k hk
        exact ⟨o, by rw [← hheap]; exact Function.update_of_ne hnew .., hrest⟩
  have habs : vm'.abs = vm.abs := by
    funext i
    refine abs_eq ?_
    cases hslot : vm.slot i with
    | none => simp only [Vm.look, vm', hslot, Option.bind_none]
    | some k =>
      have hlt := h.fresh k (Nat.add_pos_left (refs_pos hslot) _)
      simp only [Vm.look, vm', hslot, Option.bind_some, Function.update_of_ne hlt.ne]
  have hput := hheld.hold (d := d) hd (Function.update_self ..) hcodes
  rw [habs] at hput
  exact hput

theorem Inv.rewrite (h : Inv x vm) {o : Obj} (hlook : vm.look d = some o) (href : o.ref ≤ 1)
    {s : Str} {cs : List ℤ} (hcodes : Codes s cs) :
    Inv x (vm.rewrite d s) ∧ (vm.rewrite d s).abs = Function.update vm.abs d cs := by
  obtain ⟨id, hslot, hheap⟩ := Option.bind_eq_some_iff.mp hlook
  have hvm : vm.rewrite d s =
      { vm with heap := Function.update vm.heap id (some { o with str := s }) } := by
    simp only [Vm.rewrite, hslot, hheap, Option.map_some]
  rw [hvm]
  refine ⟨⟨fun k hk => h.fresh k hk, fun k hk => ?_⟩, ?_⟩
  · obtain ⟨o', hheap', href', hcodes'⟩ := h.live k hk
    by_cases hk' : k = id
    · subst hk'
      obtain rfl : o = o' := by rw [hheap] at hheap'; exact Option.some.inj hheap'
      exact ⟨_, Function.update_self .., href', cs, hcodes⟩
    · exact ⟨o', by rw [← hheap']; exact Function.update_of_ne hk' .., href', hcodes'⟩
  · funext i
    by_cases hi : i = d
    · subst hi
      rw [Function.update_self]
      exact abs_some hslot (Function.update_self ..) hcodes
    · rw [Function.update_of_ne hi]
      refine abs_eq ?_
      cases hs : vm.slot i with
      | none => simp only [Vm.look, hs, Option.bind_none]
      | some k =>
        -- another slot with the same object would be a second reference
        have hk : k ≠ id := by
          rintro rfl
          obtain ⟨o', hheap', href', -⟩ := h.live k (Nat.add_pos_left (refs_pos hs) _)
          obtain rfl : o = o' := by rw [hheap] at hheap'; exact Option.some.inj hheap'
          have htwo : 1 < vm.refs k :=
            Finset.one_lt_card.mpr ⟨i, by simp [hs], d, by simp [hslot], hi⟩
          omega
        simp only [Vm.look, hs, Option.bind_some, Function.update_of_ne hk]

theorem Inv.movp (h : Inv x vm) (d s : Fin n) :
    Ensures (movp d s : Op n Unit) vm
      (fun _ vm' => Inv x vm' ∧ vm'.abs = Function.update vm.abs d (vm.abs s)) fun _ _ => False := by
  refine ensures_modify ?_
  cases hs : vm.slot s with
  | none =>
    dsimp only
    rw [h.destroy_abs d, abs_none hs]
    exact ⟨h.destroy d, rfl⟩
  | some id =>
    obtain ⟨o, hheap, href, cs, hcodes⟩ := h.live id (Nat.add_pos_left (refs_pos hs) _)
    dsimp only
    rw [hheap, Option.map_some]
    set vm₁ : Vm n :=
      { vm with heap := Function.update vm.heap id (some { o with ref := o.ref + 1 }) } with hvm₁
    have hrefs : ∀ k, vm₁.refs k = vm.refs k := fun _ => rfl
    have hinv : Inv (x + Pi.single id 1) vm₁ := by
      refine ⟨fun k hk => ?_, fun k hk => ?_⟩
      · rw [hrefs] at hk
        by_cases hk' : k = id
        · subst hk'
          exact h.fresh k (Nat.add_pos_left (refs_pos hs) _)
        · simp only [Pi.add_apply, Pi.single_apply, if_neg hk', add_zero] at hk
          exact h.fresh k hk
      · rw [hrefs] at hk ⊢
        by_cases hk' : k = id
        · subst hk'
          refine ⟨_, Function.update_self .., ?_, cs, hcodes⟩
          simp only [href, Pi.add_apply, Pi.single_eq_same, add_assoc]
        · simp only [Pi.add_apply, Pi.single_apply, if_neg hk', add_zero] at hk ⊢
          obtain ⟨o', hheap', hrest⟩ := h.live k hk
          exact ⟨o', by rw [← hheap']; exact Function.update_of_ne hk' .., hrest⟩
    have habs : vm₁.abs = vm.abs := by
      funext i
      refine abs_eq ?_
      cases hslot : vm.slot i with
      | none => simp only [Vm.look, hvm₁, hslot, Option.bind_none]
      | some k =>
        simp only [Vm.look, hvm₁, hslot, Option.bind_some]
        by_cases hk : k = id
        · rw [hk, Function.update_self, hheap]
          rfl
        · rw [Function.update_of_ne hk]
    have hlive : 0 < (vm₁.destroy d).refs id + (x + Pi.single id 1 : ℕ → ℕ) id := by
      simp only [Pi.add_apply, Pi.single_eq_same]
      omega
    obtain ⟨o₁, hheap₁, hheap₂, -⟩ := hinv.destroy_live d hlive
    obtain rfl : { o with ref := o.ref + 1 } = o₁ := by
      change Function.update vm.heap id (some { o with ref := o.ref + 1 }) id = some o₁ at hheap₁
      rw [Function.update_self] at hheap₁
      exact Option.some.inj hheap₁
    have hempty : (vm₁.destroy d).slot d = none := by rw [destroy_slot, Function.update_self]
    have hput := (hinv.destroy d).hold hempty hheap₂ hcodes
    rw [hinv.destroy_abs d, habs, Function.update_idem] at hput
    rw [abs_some hs hheap hcodes]
    exact hput

end

theorem Quiet.look {vm vm' : Vm n} (hq : Quiet vm vm') : vm'.look = vm.look := by
  obtain ⟨k, rfl⟩ := hq
  rfl

theorem Quiet.abs {vm vm' : Vm n} (hq : Quiet vm vm') : vm'.abs = vm.abs := by
  obtain ⟨k, rfl⟩ := hq
  rfl

theorem Inv.quiet {x : ℕ → ℕ} {vm vm' : Vm n} (h : Inv x vm) (hq : Quiet vm vm') : Inv x vm' := by
  obtain ⟨k, rfl⟩ := hq
  exact ⟨h.fresh, h.live⟩

def Keeps (a : Fin n → List ℤ) (vm : Vm n) : Prop := Inv 0 vm ∧ vm.abs = a

theorem Keeps.quiet {a : Fin n → List ℤ} {vm vm' : Vm n} (h : Keeps a vm) (hq : Quiet vm vm') :
    Keeps a vm' :=
  ⟨h.1.quiet hq, hq.abs.trans h.2⟩

section
variable {α : Type} {a : Fin n → List ℤ} {vm : Vm n} {d : Fin n} {cs : List ℤ}

theorem leave_nil (h : Keeps a vm) (d : Fin n) {E : Raised → Vm n → Prop} :
    Ensures (leave d .nil) vm (fun _ vm' => Keeps (Function.update a d []) vm') E := by
  obtain ⟨hinv, rfl⟩ := h
  exact ensures_modify ⟨hinv.destroy d, hinv.destroy_abs d⟩

theorem leave_other (h : Keeps a vm) (d : Fin n) {s : Str} (hs : Codes s cs)
    {E : Raised → Vm n → Prop} :
    Ensures (leave d (.other s)) vm
      (fun _ vm' => Keeps (Function.update a d cs) vm' ∧ vm'.look d = some ⟨1, s⟩) E := by
  obtain ⟨hinv, rfl⟩ := h
  have hempty : (vm.destroy d).slot d = none := by rw [destroy_slot, Function.update_self]
  obtain ⟨hplace, habs⟩ := (hinv.destroy d).place rfl hempty hs
  rw [hinv.destroy_abs d, Function.update_idem] at habs
  refine ensures_modify ⟨⟨hplace, habs⟩, ?_⟩
  simp [Vm.look, Vm.place]

theorem leave_same (h : Keeps a vm) {o : Obj} (hlook : vm.look d = some o) (href : o.ref ≤ 1)
    {s : Str} (hs : Codes s cs) {E : Raised → Vm n → Prop} :
    Ensures (leave d (.same s)) vm (fun _ vm' => Keeps (Function.update a d cs) vm') E := by
  obtain ⟨hinv, rfl⟩ := h
  exact ensures_modify (hinv.rewrite hlook href hs)

theorem make_other (h : Keeps a vm) (d : Fin n) {x : Op n Str}
    (hx : Makes x (Codes · cs) (· = .exHeap)) :
    Ensures (x >>= fun s => leave d (.other s)) vm
      (fun _ vm' => Keeps (Function.update a d cs) vm') fun e vm' => Keeps a vm' ∧ e = .exHeap := by
  refine (hx vm).call (fun s vm' hs => ?_) fun e vm' he => ⟨h.quiet he.1, he.2⟩
  exact (leave_other (h.quiet hs.1) d hs.2).mono (fun _ _ h => h.1) fun _ _ h => h

theorem Keeps.codes (h : Keeps a vm) {i : Fin n} {o : Obj} (hlook : vm.look i = some o) :
    Codes o.str (a i) := by
  obtain ⟨hinv, rfl⟩ := h
  obtain ⟨id, hslot, hheap⟩ := Option.bind_eq_some_iff.mp hlook
  obtain ⟨o', hheap', -, cs, hcs⟩ := hinv.live id (Nat.add_pos_left (refs_pos hslot) _)
  obtain rfl : o = o' := by rw [hheap] at hheap'; exact Option.some.inj hheap'
  rw [abs_some hslot hheap hcs]
  exact hcs

theorem Keeps.denotes (h : Keeps a vm) (i : Fin n) : Denotes ((vm.look i).map Obj.str) (a i) := by
  cases hlook : vm.look i with
  | none =>
    obtain ⟨-, rfl⟩ := h
    change vm.abs i = []
    rw [Vm.abs, hlook]
    rfl
  | some o => exact h.codes hlook

def Updates (x : Op n Unit) (vm : Vm n) (a : Fin n → List ℤ) (d : Fin n)
    (result : Option (List ℤ)) : Prop :=
  Ensures x vm (fun _ vm' => ∃ cs, result = some cs ∧ Keeps (Function.update a d cs) vm')
    fun e vm' => Keeps a vm' ∧ Refused e (result = none)

theorem make_left (h : Keeps a vm) {o : Obj} (hlook : vm.look d = some o) (href : o.ref ≤ 1)
    {x : Op n Left} {P : List ℤ → Str → Prop} (hP : ∀ cs s, P cs s → Codes s cs)
    {result : Option (List ℤ)}
    (hx : Makes x (fun left => ∃ cs, result = some cs ∧ left.Stands (P cs))
      (Refused · (result = none))) :
    Updates (x >>= fun left => leave d left) vm a d result := by
  refine (hx vm).call (fun left vm' hleft => ?_) fun e vm' he => ⟨h.quiet he.1, he.2⟩
  obtain ⟨hq, cs, hcs, hstands⟩ := hleft
  have hlook' : vm'.look d = some o := by rw [hq.look, hlook]
  cases left with
  | nil => exact hstands.elim
  | same s =>
    exact (leave_same (h.quiet hq) hlook' href (hP cs s hstands)).mono
      (fun _ _ hk => ⟨cs, hcs, hk⟩) fun _ _ h => h
  | other s =>
    exact (leave_other (h.quiet hq) d (hP cs s hstands)).mono
      (fun _ _ hk => ⟨cs, hcs, hk.1⟩) fun _ _ h => h

/-- What `insown` may be given: runes, or bytes that it will not widen, or none at all
and no room to put a rune in. -/
def Ready (ss : Str) (cs : List ℤ) (expand : Bool) (v : ℕ) : Prop :=
  Runes ss cs ∨ Bytes ss cs ∧ (expand = true → cs = [] ∧ (v = 0 → ss.max ≤ 0))

theorem insrune_empty (pool : Pool) {ss : Str} (h : Bytes ss []) {v : ℕ}
    (hroom : v = 0 → ss.max ≤ 0) {r : ℤ} (hr : IsInt r) :
    Makes (insrune pool ss (-ss.len) v r : Op n Left)
      (fun left => ∃ cs', insert [] v r = some cs' ∧ left.Stands (Runes · cs'))
      (Refused · (insert [] v r = none)) := by
  have hlen : -ss.len = 0 := by rw [h.len]; rfl
  rw [hlen]
  by_cases hv : v = 0
  · have hmax : ss.max = 0 := by
      have hcap := h.cap
      have hzero := hroom hv
      omega
    have hwide : Wide ss [] := by
      refine ⟨⟨?_, ?_⟩, h.len, ?_, by simp, ⟨_, rfl⟩⟩
      · rw [hmax, zero_mul]
        exact Int.natCast_nonneg _
      · rw [hmax, zero_mul]
        norm_num
      · rw [hmax]
        rfl
    exact insrune_makes pool hwide rfl v hr
  · rw [insrune, if_neg (by omega), if_neg (by omega), if_pos (by exact_mod_cast hv)]
    exact makes_throw (.inr ⟨rfl, by simp [insert, hv]⟩)

theorem insown_updates (pool : Pool) (h : Keeps a vm) {o : Obj} (hlook : vm.look d = some o)
    (href : o.ref ≤ 1) {expand : Bool} {v : ℕ} (hready : Ready o.str (a d) expand v) {r : ℤ}
    (hr : IsInt r) (hexpand : expand = decide (r < 0 ∨ r ≥ Runeself)) :
    Updates (insown pool d o.str expand v r) vm a d (insert (a d) v r) := by
  rw [insown]
  obtain hrunes | ⟨hbytes, hempty⟩ := hready
  · rw [if_pos (.inl hrunes.len_neg)]
    have hl : -o.str.len = (a d).length := by rw [hrunes.len, neg_neg]
    exact make_left h hlook href (fun _ _ => .inr) (insrune_makes pool hrunes.wide hl v hr)
  · cases hwiden : expand with
    | false =>
      rw [hwiden] at hexpand
      have hascii : 0 ≤ r ∧ r < 128 := by
        simp only [Runeself] at hexpand
        have hno := of_decide_eq_false hexpand.symm
        push_cast at hno
        omega
      rw [if_neg (by rintro (hneg | hneg); exacts [hbytes.not_neg hneg, Bool.false_ne_true hneg])]
      exact make_left h hlook href (fun _ _ => .inl) (insbyte_makes pool hbytes v hascii)
    | true =>
      obtain ⟨hnil, hroom⟩ := hempty hwiden
      rw [if_pos (.inr rfl)]
      rw [hnil] at hbytes ⊢
      exact make_left h hlook href (fun _ _ => .inr) (insrune_empty pool hbytes hroom hr)

theorem Updates.quiet {x : Op n α} {f : α → Op n Unit} {P : α → Prop} {result : Option (List ℤ)}
    (hx : Makes x P (· = .exHeap)) (h : Keeps a vm)
    (hf : ∀ y vm', Quiet vm vm' → P y → Updates (f y) vm' a d result) :
    Updates (x >>= f) vm a d result := by
  refine (hx vm).call (fun y vm' hy => hf y vm' hy.1 hy.2) fun e vm' he => ?_
  exact ⟨h.quiet he.1, .inl he.2⟩

theorem make_fresh (h : Keeps a vm) (d : Fin n) {x : Op n Left} {result : Option (List ℤ)}
    {P : List ℤ → Str → Prop} (hP : ∀ cs s, P cs s → Codes s cs)
    (hx : Makes x (fun left => ∃ cs, result = some cs ∧ left.Stands (P cs))
      (Refused · (result = none))) :
    Updates (do
      let left ← x
      match left with
      | .nil => leave d .nil
      | .same s => leave d (.other s)
      | .other s => leave d (.other s)) vm a d result := by
  refine (hx vm).call (fun left vm' hleft => ?_) fun e vm' he => ⟨h.quiet he.1, he.2⟩
  obtain ⟨hq, cs, hcs, hstands⟩ := hleft
  cases left with
  | nil => exact hstands.elim
  | same s | other s =>
    exact (leave_other (h.quiet hq) d (hP cs s hstands)).mono
      (fun _ _ hk => ⟨cs, hcs, hk.1⟩) fun _ _ h => h

theorem insc_nil (pool : Pool) (h : Keeps a vm) (hlook : vm.look d = none) (v : ℕ) {r : ℤ}
    (hr : IsInt r) : Updates (insc pool d v r) vm a d (insert (a d) v r) := by
  have hnil : a d = [] := by
    have hdenotes := h.denotes d
    rw [hlook] at hdenotes
    exact hdenotes
  refine ensures_get ?_
  rw [hlook, hnil]
  refine Updates.quiet (newstring_makes pool le_rfl (by decide)) h fun ss vm' hq hss => ?_
  obtain ⟨hlen, hcap, hblock⟩ := hss
  have hroom := hblock.room
  have hsmall := hblock.small
  by_cases hexpand : r < 0 ∨ r ≥ Runeself
  · have hwide : Wide { ss with max := ss.max / sizeofRune } [] := by
      refine ⟨⟨?_, ?_⟩, hlen, ?_, by simp, ⟨_, rfl⟩⟩
      · simp only [sizeofRune]
        push_cast at hroom ⊢
        omega
      · simp only [sizeofRune]
        push_cast at hsmall ⊢
        omega
      · simp only [sizeofRune, List.length_nil]
        push_cast
        omega
    rw [decide_eq_true hexpand, if_pos rfl]
    exact make_fresh (h.quiet hq) d (fun _ _ => .inr) (insrune_makes pool hwide rfl v hr)
  · have hbytes : Bytes ss [] :=
      hblock.bytes rfl rfl hlen hcap (by simp) ⟨_, rfl⟩
    have hascii : 0 ≤ r ∧ r < 128 := by
      simp only [Runeself] at hexpand
      push_cast at hexpand
      omega
    rw [decide_eq_false hexpand, if_neg Bool.false_ne_true]
    exact make_fresh (h.quiet hq) d (fun _ _ => .inl) (insbyte_makes pool hbytes v hascii)

theorem split_ready (pool : Pool) {s : Str} (hs : Codes s cs) {expand : Bool} {v : ℕ}
    (hsize : expand = true → s.len > 0 → sizeofString + s.len * sizeofRune < 2 ^ 31)
    (hempty : expand = true → s.len = 0 → v ≠ 0) :
    Makes (split pool s expand : Op n Str) (fun ns => Codes ns cs ∧ Ready ns cs expand v)
      (· = .exHeap) := by
  obtain hbytes | hrunes := hs
  · have hlen := hbytes.len
    by_cases hwiden : expand = true ∧ cs ≠ []
    · obtain ⟨rfl, hne⟩ := hwiden
      have hpos := List.length_pos_of_ne_nil hne
      have hroom := hsize rfl (by omega)
      rw [hlen] at hroom
      exact (split_expand pool hbytes hne hroom).mono (fun _ h => ⟨.inr h, .inl h⟩) fun _ h => h
    · have hkeep : expand = false ∨ cs = [] := by
        cases expand with
        | false => exact .inl rfl
        | true => exact .inr (not_not.mp fun hne => hwiden ⟨rfl, hne⟩)
      refine (split_bytes pool hbytes hkeep).mono (fun ns h => ⟨.inl h, .inr ⟨h, fun hexp => ?_⟩⟩)
        fun _ h => h
      have hnil : cs = [] := hkeep.resolve_left (by simp [hexp])
      exact ⟨hnil, fun hv => absurd hv (hempty hexp (by rw [hlen, hnil]; rfl))⟩
  · exact (split_runes pool hrunes expand).mono (fun _ h => ⟨.inr h, .inl h⟩) fun _ h => h

theorem insc_updates (pool : Pool) (h : Keeps a vm) {v : ℕ} {r : ℤ} (hr : IsInt r)
    (hcareful : ∀ o ∈ vm.look d, (r < 0 ∨ r ≥ Runeself) →
      (o.str.len > 0 → sizeofString + o.str.len * sizeofRune < 2 ^ 31) ∧
        ¬(o.str.len = 0 ∧ v = 0 ∧ (o.ref > 1 ∨ 0 < o.str.max))) :
    Updates (insc pool d v r) vm a d (insert (a d) v r) := by
  cases hlook : vm.look d with
  | none => exact insc_nil pool h hlook v hr
  | some o =>
    have hcodes := h.codes hlook
    have hcare := hcareful o (by rw [hlook]; rfl)
    refine ensures_get ?_
    rw [hlook]
    dsimp only
    generalize hexpand : decide (r < 0 ∨ r ≥ Runeself) = expand
    have hwide : expand = true → r < 0 ∨ r ≥ Runeself := fun h =>
      of_decide_eq_true (hexpand.trans h)
    by_cases hsplit : o.ref > 1 ∨ (expand = true ∧ o.str.len > 0)
    · rw [if_pos hsplit]
      have hready : Makes (split pool o.str expand : Op n Str)
          (fun ns => Codes ns (a d) ∧ Ready ns (a d) expand v) (· = .exHeap) := by
        refine split_ready pool hcodes (fun hexp hlen => (hcare (hwide hexp)).1 hlen) ?_
        intro hexp hlen hv
        refine (hcare (hwide hexp)).2 ⟨hlen, hv, .inl ?_⟩
        exact hsplit.resolve_right fun hand => by omega
      refine Updates.quiet hready h fun ns vm' hq hns => ?_
      refine (leave_other (h.quiet hq) d hns.1).call (fun _ vm'' hk => ?_)
        (E := fun _ _ => False) fun _ _ h => h.elim
      obtain ⟨hkeeps, hlook''⟩ := hk
      rw [Function.update_eq_self] at hkeeps
      exact insown_updates pool hkeeps hlook'' le_rfl hns.2 hr hexpand.symm
    · rw [if_neg hsplit]
      have href : o.ref ≤ 1 := not_lt.mp fun h => hsplit (.inl h)
      refine insown_updates pool h hlook href ?_ hr hexpand.symm
      obtain hbytes | hrunes := hcodes
      · refine .inr ⟨hbytes, fun hexp => ?_⟩
        have hlen := hbytes.len
        have hzero : o.str.len = 0 := by
          have hno : ¬o.str.len > 0 := fun hpos => hsplit (.inr ⟨hexp, hpos⟩)
          omega
        refine ⟨List.length_eq_zero_iff.mp (by omega), fun hv => not_lt.mp fun hmax => ?_⟩
        exact (hcare (hwide hexp)).2 ⟨hzero, hv, .inr hmax⟩
      · exact .inl hrunes

theorem addc_keeps (pool : Pool) (h : Keeps a vm) {m s : Fin n}
    (hasks : Asks (vm.look m) ((vm.look s).map Obj.str) (decide (m = d))) :
    Ensures (addc pool d m s) vm (fun _ vm' => Keeps (Function.update a d (a m ++ a s)) vm')
      fun e vm' => Keeps a vm' ∧ e = .exHeap := by
  refine ensures_get ?_
  refine (addstring_makes pool (h.denotes m) (h.denotes s) hasks vm).call (fun left vm' hleft => ?_)
    fun e vm' he => ⟨h.quiet he.1, he.2⟩
  obtain ⟨hq, ⟨rfl, hnil⟩ | ⟨hstands, hsame⟩⟩ := hleft
  · rw [hnil]
    exact leave_nil (h.quiet hq) d
  · cases left with
    | nil => exact hstands.elim
    | same ns =>
      obtain ⟨hmd, o, hlook, href⟩ := hsame ns rfl
      obtain rfl : m = d := of_decide_eq_true hmd
      exact leave_same (h.quiet hq) (by rw [hq.look]; exact hlook) href hstands
    | other ns =>
      exact (leave_other (h.quiet hq) d hstands).mono (fun _ _ h => h.1) fun _ _ h => h

theorem slicec_updates (pool : Pool) (h : Keeps a vm) (d s : Fin n) (start v : ℕ) :
    Updates (slicec pool d s start v) vm a d (slice (a s) start v) := by
  refine ensures_get ?_
  refine (slicer_makes pool (h.denotes s) start v vm).call (fun ns vm' hns => ?_)
    fun e vm' he => ⟨h.quiet he.1, he.2⟩
  obtain ⟨hq, cs', hslice, hdenotes⟩ := hns
  cases ns with
  | none =>
    obtain rfl : cs' = [] := hdenotes
    exact (leave_nil (h.quiet hq) d).mono (fun _ _ hk => ⟨[], hslice, hk⟩) fun _ _ h => h
  | some ns =>
    exact (leave_other (h.quiet hq) d hdenotes).mono
      (fun _ _ hk => ⟨cs', hslice, hk.1⟩) fun _ _ h => h

theorem dupc_keeps (pool : Pool) (h : Keeps a vm) (d s : Fin n) :
    Ensures (dupc pool d s) vm (fun _ vm' => Keeps (Function.update a d (a s)) vm')
      fun e vm' => Keeps a vm' ∧ e = .exHeap := by
  refine ensures_get ?_
  cases hlook : vm.look s with
  | none =>
    have hnil : a s = [] := by
      have hdenotes := h.denotes s
      rw [hlook] at hdenotes
      exact hdenotes
    rw [hnil]
    exact leave_nil h d
  | some o => exact make_other h d (stringdup_makes pool (h.codes hlook))

theorem splitc_keeps (pool : Pool) (h : Keeps a vm) (d : Fin n) (expand : Bool)
    (hsize : ∀ o ∈ vm.look d, expand = true → o.str.len > 0 →
      sizeofString + o.str.len * sizeofRune < 2 ^ 31) :
    Ensures (splitc pool d expand) vm (fun _ vm' => Keeps a vm')
      fun e vm' => Keeps a vm' ∧ e = .exHeap := by
  refine ensures_get ?_
  cases hlook : vm.look d with
  | none => exact ensures_pure h
  | some o =>
    have hready : Makes (split pool o.str expand : Op n Str)
        (fun ns => Codes ns (a d) ∧ Ready ns (a d) expand 1) (· = .exHeap) :=
      split_ready pool (h.codes hlook) (hsize o (by rw [hlook]; rfl)) fun _ _ => one_ne_zero
    have hmake := make_other h d (hready.mono (fun _ h => h.1) fun _ h => h)
    rw [Function.update_eq_self] at hmake
    exact hmake

end

theorem Updates.right {x : Op n Unit} {vm : Vm n} {a : Fin n → List ℤ} {d : Fin n}
    {result : Option (List ℤ)} (h : Updates x vm a d result) :
    Ensures x vm (fun _ vm' => ∃ a', result.map (Function.update a d) = some a' ∧ Keeps a' vm')
      fun e vm' => Keeps a vm' ∧ Refused e (result.map (Function.update a d) = none) := by
  refine h.mono ?_ ?_
  · rintro _ vm' ⟨cs, rfl, hk⟩
    exact ⟨_, rfl, hk⟩
  · rintro e vm' ⟨hk, he⟩
    exact ⟨hk, by simpa [Refused] using he⟩

-- its test of an int must not be evaluated where the count is a length
attribute [local irreducible] newrunes

theorem step_keeps (pool : Pool) {a : Fin n → List ℤ} {vm : Vm n} (h : Keeps a vm) (i : Instr n)
    (hi : i.Careful vm) :
    Ensures (i.step pool) vm (fun _ vm' => ∃ a', i.spec a = some a' ∧ Keeps a' vm')
      fun e vm' => Keeps a vm' ∧ Refused e (i.spec a = none) := by
  have hdone : ∀ {a' : Fin n → List ℤ} {x : Op n Unit}, i.spec a = some a' →
      (Ensures x vm (fun _ vm' => Keeps a' vm') fun e vm' => Keeps a vm' ∧ e = .exHeap) →
      Ensures x vm (fun _ vm' => ∃ a', i.spec a = some a' ∧ Keeps a' vm')
        fun e vm' => Keeps a vm' ∧ Refused e (i.spec a = none) := by
    intro a' x hspec hx
    exact hx.mono (fun _ _ hk => ⟨a', hspec, hk⟩) fun _ _ hk => ⟨hk.1, .inl hk.2⟩
  cases i with
  | movp d s =>
    obtain ⟨hinv, rfl⟩ := h
    exact hdone rfl ((hinv.movp d s).mono (fun _ _ hk => hk) fun _ _ h => h.elim)
  | newstring d cs =>
    have hdata : (cs.map fun c => byte c.val) = (cs.map fun c => (c.val : ℤ)).map byte := by
      rw [List.map_map]
      rfl
    have hascii : ∀ c ∈ cs.map fun c => (c.val : ℤ), 0 ≤ c ∧ c < 128 := by
      intro c hc
      obtain ⟨b, -, rfl⟩ := List.mem_map.mp hc
      omega
    have hfill := fill_bytes (n := n) pool (by rw [List.length_map]) hascii hi
    refine hdone rfl ?_
    rw [Instr.step, hdata, ← bind_assoc]
    exact make_other h d (hfill.mono (fun _ => .inl) fun _ h => h)
  | newrunes d rs =>
    have hdata : (rs.flatMap fun r => rune r.toInt) = (rs.map BitVec.toInt).flatMap rune := by
      rw [List.flatMap_map]
    have hints : ∀ c ∈ rs.map BitVec.toInt, IsInt c := by
      intro c hc
      obtain ⟨r, -, rfl⟩ := List.mem_map.mp hc
      have hlow := r.le_toInt
      have hhigh := r.toInt_lt
      constructor <;> omega
    refine hdone rfl ?_
    rw [Instr.step, hdata, ← bind_assoc]
    change (sizeofString : ℤ) + (rs.length : ℤ) * sizeofRune < 2 ^ 31 at hi
    have hnr : (rs.length : ℤ) = (rs.map BitVec.toInt).length := by rw [List.length_map]
    generalize (rs.length : ℤ) = nr at *
    exact make_other h d (fill_codes pool hnr hints hi)
  | c2string d cs => exact hdone rfl (make_other h d (c2string_makes pool cs hi.1 hi.2))
  | insc d v w => exact (insc_updates pool h (int_isInt w) hi).right
  | slicer d s start v => exact (slicec_updates pool h d s start v).right
  | addc d m s => exact hdone rfl (addc_keeps pool h hi)
  | stringdup d s => exact hdone rfl (dupc_keeps pool h d s)
  | splitc d expand => exact hdone rfl (splitc_keeps pool h d expand hi)

theorem boot_keeps : Keeps (fun _ => []) (⟨0, 0, fun _ => none, fun _ => none⟩ : Vm n) := by
  have hrefs : ∀ id, (⟨0, 0, fun _ => none, fun _ => none⟩ : Vm n).refs id = 0 := by
    intro id
    simp [Vm.refs]
  refine ⟨⟨fun id hid => ?_, fun id hid => ?_⟩, funext fun i => abs_none rfl⟩
  · simp [hrefs] at hid
  · simp [hrefs] at hid

theorem reached_keeps {pool : Pool} {vm : Vm n} (h : Reached pool (fun vm i => i.Careful vm) vm) :
    Keeps vm.abs vm := by
  have hkeeps : ∃ a, Keeps a vm := by
    induction h with
    | boot => exact ⟨_, boot_keeps⟩
    | done i _ hi hstep ih =>
      obtain ⟨a, ha⟩ := ih
      obtain ⟨a', -, hk⟩ := (step_keeps pool ha i hi).ok hstep
      exact ⟨a', hk⟩
    | failed i e _ hi hstep ih =>
      obtain ⟨a, ha⟩ := ih
      exact ⟨a, ((step_keeps pool ha i hi).error hstep).1⟩
  obtain ⟨a, ha⟩ := hkeeps
  rw [ha.2]
  exact ha

theorem Keeps.sound {a : Fin n → List ℤ} {vm : Vm n} (h : Keeps a vm) : vm.Sound := by
  obtain rfl := h.2
  refine ⟨fun i o hlook => (h.codes hlook).wellformed, fun i v => ?_, fun i j => ?_⟩
  · cases hlook : vm.look i with
    | none => rfl
    | some o =>
      have hcodes := h.codes hlook
      rw [Option.map_some]
      by_cases hv : v < (vm.abs i).length
      · rw [indc_codes hcodes hv, List.getElem?_eq_getElem hv]
        rfl
      · rw [indc_bounds hcodes (not_lt.mp hv), List.getElem?_eq_none (not_lt.mp hv)]
        rfl
  · rw [Vm.cmp]
    split
    next hsame =>
      have habs : vm.abs i = vm.abs j := by rw [Vm.abs, Vm.abs, Vm.look, Vm.look, hsame]
      rw [habs]
      simp [Orders]
    next => exact stringcmp_orders (h.denotes i) (h.denotes j)

def plenty : Pool where
  get _ n := if n < 2 ^ 30 then some (List.replicate ((n + 151) / 128 * 128 - 24) 0) else none
  least := by
    intro k n b hb
    have hblock := Option.some.inj (Option.ite_none_right_eq_some.mp hb).2
    rw [← hblock, List.length_replicate]
    omega
  most := by
    intro k n b hb
    have hblock := Option.some.inj (Option.ite_none_right_eq_some.mp hb).2
    rw [← hblock, List.length_replicate]
    omega
  sane := by
    intro k n hn
    exact if_neg (not_lt.mpr hn)

def after (pool : Pool) (vm : Vm n) (i : Instr n) : Vm n :=
  match i.step pool vm with
  | .ok _ vm' => vm'
  | .error _ vm' => vm'

def raised (pool : Pool) (vm : Vm n) (i : Instr n) : Option Raised :=
  match i.step pool vm with
  | .ok _ _ => none
  | .error e _ => some e

theorem reached_after {pool : Pool} {P : Vm n → Instr n → Prop} {vm : Vm n} (h : Reached pool P vm)
    {i : Instr n} (hi : P vm i) : Reached pool P (after pool vm i) := by
  rw [after]
  split
  next hstep => exact .done i h hi hstep
  next hstep => exact .failed i _ h hi hstep

theorem Instr.Right.not_overrun {pool : Pool} {vm : Vm n} {i : Instr n} (h : i.Right pool vm) :
    raised pool vm i ≠ some .overrun := by
  intro hraised
  rw [raised] at hraised
  split at hraised
  · cases hraised
  next hstep =>
    cases hraised
    obtain ⟨-, hheap | ⟨hbounds, -⟩⟩ := h.error hstep
    · cases hheap
    · cases hbounds

def boot : Vm 2 := ⟨0, 0, fun _ => none, fun _ => none⟩

def empty : Vm 2 := after plenty boot (.newstring 0 [])

def wide : Vm 2 := after plenty empty (.insc 0 0 0x100)

theorem wide_look : (wide.look 0).map (fun o => (o.str.len, o.str.max, o.str.data.length)) =
    some (-1, 48, 56) := by decide

theorem wide_unsound : ¬wide.Sound := by
  intro h
  have hlook := wide_look
  obtain ⟨o, ho, hvalues⟩ := Option.map_eq_some_iff.mp hlook
  obtain ⟨hlen, hmax, hsize⟩ : o.str.len = -1 ∧ o.str.max = 48 ∧ o.str.data.length = 56 := by
    simpa using hvalues
  have hwell := h.wellformed 0 o ho
  rw [Str.WellFormed, if_pos (by omega), hmax, hsize] at hwell
  exact absurd hwell.2 (by decide)

def long : Vm 2 := after plenty wide (.newstring 1 (List.replicate 14 97))

end Infernode.Dis
