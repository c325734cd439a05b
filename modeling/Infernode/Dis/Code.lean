import Mathlib

/-!
# The code of a Dis module

`disinst` of `limbo/dis.c` writes the instructions of a module, and the loop of `parsemod` in
`load.c` reads them. An operand that is one offset keeps it whole; the register of the middle
operand and the two offsets of an indirect one are `ushort`s.
-/

namespace Infernode.Dis.Code

def byte (n : ℤ) : UInt8 := UInt8.ofNat (n % 256).toNat

def disbcon (val : ℤ) : Option (List UInt8) :=
  if -64 ≤ val ∧ val ≤ 63 then some [byte (val % 128)]
  else if -8192 ≤ val ∧ val ≤ 8191 then some [byte (val / 256 % 64 + 128), byte val]
  -- the test of negative ones looks at three bits only
  else if val < 0 ∧ val / 2 ^ 29 % 8 ≠ 7 ∨ 0 < val ∧ val / 2 ^ 29 ≠ 0 then none
  else some [byte (val / 2 ^ 24 % 64 + 192), byte (val / 2 ^ 16), byte (val / 2 ^ 8), byte val]

structure ParseState where
  error : Bool
  rest : List UInt8

def operand (ps : ParseState) : ℤ × ParseState :=
  let failed : ℤ × ParseState := (-1, { ps with error := true })
  match ps.rest with
  | [] => failed
  | c :: cp =>
    let sign (v : ℤ) (k : ℕ) : ℤ := if c.toNat / 32 % 2 = 1 then v - 2 ^ k else v
    if c.toNat / 64 = 0 then (c.toNat, { ps with rest := cp })
    else if c.toNat / 64 = 1 then (c.toNat - 128, { ps with rest := cp })
    else if c.toNat / 64 = 2 then
      match cp with
      | c1 :: cp => (sign (c.toNat % 64 * 2 ^ 8 + c1.toNat) 14, { ps with rest := cp })
      | _ => failed
    else
      match cp with
      | c1 :: c2 :: c3 :: cp =>
        (sign (c.toNat % 64 * 2 ^ 24 + c1.toNat * 2 ^ 16 + c2.toNat * 2 ^ 8 + c3.toNat) 30,
          { ps with rest := cp })
      | _ => failed

theorem byte_toNat (n : ℤ) : (byte n).toNat = (n % 256).toNat := by
  simp [byte]
  omega

theorem operand_disbcon {val : ℤ} {bs : List UInt8} (h : disbcon val = some bs) (e : Bool)
    (rest : List UInt8) : operand ⟨e, bs ++ rest⟩ = (val, ⟨e, rest⟩) ↔ -2 ^ 29 ≤ val := by
  unfold disbcon at h
  split_ifs at h <;> obtain rfl := Option.some.inj h <;>
    simp only [operand, List.cons_append, List.nil_append, byte_toNat]
  · split_ifs <;> simp <;> omega
  · split_ifs <;> simp <;> omega
  · generalize hc : val / 2 ^ 24 % 64 = c
    split_ifs <;> simp <;> omega

inductive Mode
  | imm | mp | mpind | fp | fpind | pc | desc | off | noff | err | none | ldt

/-- `iface` is the offset of `decl->iface`. -/
structure Addr where
  reg : ℤ
  offset : ℤ
  iface : ℤ

structure Inst where
  op : ℕ
  sm : Mode
  mm : Mode
  dm : Mode
  s : Addr
  m : Addr
  d : Addr

def INOOP : ℕ := 177
def AMP : ℕ := 0
def AFP : ℕ := 1
def AIMM : ℕ := 2
def AXXX : ℕ := 3
def AIND : ℕ := 4

def dismode : Mode → ℕ
  | .mp => AMP
  | .mpind => AMP + AIND
  | .fp => AFP
  | .fpind => AFP + AIND
  | .err | .none => AXXX
  | _ => AIMM

def disregmode : Mode → ℕ
  | .mp => 0xC0
  | .fp => 0x80
  | .mpind | .fpind | .err | .none => 0
  | _ => 0x40

/-- The constants that `disaddr` writes, where it is called. -/
def disaddr : Mode → Addr → List ℤ
  | .none, _ => []
  | .err, _ => [0]
  | .imm, a | .pc, a | .desc, a => [a.offset]
  | .off, a => [a.iface]
  | .noff, a => [-(a.iface + 1)]
  | .fp, a | .mp, a | .ldt, a => [a.reg]
  | .fpind, a | .mpind, a => [a.reg, a.offset]

def disbcons : List ℤ → Option (List UInt8)
  | [] => some []
  | v :: vs => (disbcon v).bind fun b => (disbcons vs).map (b ++ ·)

def Inst.add (i : Inst) : ℕ := dismode i.sm * 8 + dismode i.dm + disregmode i.mm

def Inst.consts (i : Inst) : List ℤ := disaddr i.mm i.m ++ (disaddr i.sm i.s ++ disaddr i.dm i.d)

def Inst.bytes (i : Inst) : Option (List UInt8) :=
  (disbcons i.consts).map fun b => byte i.op :: byte i.add :: b

def disinst : List Inst → Option (List UInt8)
  | [] => some []
  | i :: is =>
    if i.op = INOOP then disinst is else i.bytes.bind fun b => (disinst is).map (b ++ ·)

inductive Adr
  | ind (v : ℤ)
  | ins (pc : ℤ)
  | i (f s : ℕ)

structure Loaded where
  op : ℕ
  add : ℕ
  reg : ℕ
  s : Adr
  d : Adr

def ushort (v : ℤ) : ℕ := (v % 2 ^ 16).toNat

def readadr (mode : ℕ) (ps : ParseState) : Adr × ParseState :=
  if mode = AFP ∨ mode = AMP ∨ mode = AIMM then (.ind (operand ps).1, (operand ps).2)
  else if mode = AIND + AFP ∨ mode = AIND + AMP then
    (.i (ushort (operand ps).1) (ushort (operand (operand ps).2).1), (operand (operand ps).2).2)
  else (.ind 0, ps)

/-- `ICALL`, `ISPAWN`, `IJMP`, `IBEQB` to `IBGEC` and `IBNEL` to `IBEQL`. -/
def branches (op : ℕ) : Bool :=
  op = 4 || op = 6 || op = 13 || (87 ≤ op && op ≤ 110) || (129 ≤ op && op ≤ 134)

def brpatch (op : ℕ) (nprog : ℤ) : Adr → Option Adr
  | .ind v =>
    if branches op then if v < 0 ∨ nprog ≤ v then none else some (.ins v) else some (.ind v)
  | d => some d

def parsecode (nprog : ℤ) : ℕ → ParseState → Except String (List Loaded × ParseState)
  | 0, ps => if ps.error then .error "truncated Dis instruction" else .ok ([], ps)
  | n + 1, ps =>
    match ps.rest with
    | op :: add :: istream =>
      let ps := { ps with rest := istream }
      let reg := if add.toNat / 64 = 0 then (0, ps) else operand ps
      let s := readadr (add.toNat / 8 % 8) reg.2
      let d := readadr (add.toNat % 8) s.2
      match if add.toNat % 8 = AIMM then brpatch op.toNat nprog d.1 else some d.1 with
      | none => .error "bad branch addr"
      | some dst =>
        (parsecode nprog n d.2).map fun r =>
          (⟨op.toNat, add.toNat, ushort reg.1, s.1, dst⟩ :: r.1, r.2)
    | _ => .error "truncated Dis file"

def adr (m : Mode) (a : Addr) : Adr :=
  match disaddr m a with
  | [v] => .ind v
  | [f, s] => .i (ushort f) (ushort s)
  | _ => .ind 0

/-- The instruction as it was meant, with what its `ushort`s keep. -/
def Inst.loaded (i : Inst) : Loaded where
  op := i.op % 256
  add := i.add
  reg := ushort ((disaddr i.mm i.m).headD 0)
  s := adr i.sm i.s
  d := match adr i.dm i.d with
    | .ind v => if dismode i.dm = AIMM ∧ branches (i.op % 256) then .ins v else .ind v
    | d => d

/-- The modes have operands, the constants are in range, and a branch is to an instruction. -/
structure Inst.Formed (nprog : ℤ) (i : Inst) : Prop where
  middle : disregmode i.mm = 0 → disaddr i.mm i.m = []
  source : dismode i.sm = AXXX → disaddr i.sm i.s = []
  dest : dismode i.dm = AXXX → disaddr i.dm i.d = []
  range : ∀ v ∈ i.consts, -2 ^ 29 ≤ v
  target : dismode i.dm = AIMM → branches (i.op % 256) = true →
    ∀ v ∈ disaddr i.dm i.d, 0 ≤ v ∧ v < nprog

variable {i : Inst} {is : List Inst} {bs : List UInt8} {nprog : ℤ}

theorem disbcons_append {vs ws : List ℤ} (h : disbcons (vs ++ ws) = some bs) :
    ∃ b c, disbcons vs = some b ∧ disbcons ws = some c ∧ bs = b ++ c := by
  induction vs generalizing bs with
  | nil => exact ⟨[], bs, rfl, h, rfl⟩
  | cons v vs ih =>
    obtain ⟨a, ha, h⟩ := Option.bind_eq_some_iff.mp h
    obtain ⟨bs, hbs, rfl⟩ := Option.map_eq_some_iff.mp h
    obtain ⟨b, c, hb, hc, rfl⟩ := ih hbs
    exact ⟨a ++ b, c, by simp [disbcons, ha, hb], hc, by simp⟩

theorem operand_cons {v : ℤ} {vs : List ℤ} (h : disbcons (v :: vs) = some bs)
    (hv : -2 ^ 29 ≤ v) (rest : List UInt8) : ∃ bs', disbcons vs = some bs' ∧
      operand ⟨false, bs ++ rest⟩ = (v, ⟨false, bs' ++ rest⟩) := by
  obtain ⟨b, hb, h⟩ := Option.bind_eq_some_iff.mp h
  obtain ⟨bs', hbs', rfl⟩ := Option.map_eq_some_iff.mp h
  refine ⟨bs', hbs', ?_⟩
  rw [List.append_assoc]
  exact (operand_disbcon hb false _).mpr hv

theorem readadr_read {m : Mode} {a : Addr} (h : disbcons (disaddr m a) = some bs)
    (hrange : ∀ v ∈ disaddr m a, -2 ^ 29 ≤ v) (hnone : dismode m = AXXX → disaddr m a = [])
    (rest : List UInt8) :
    readadr (dismode m) ⟨false, bs ++ rest⟩ = (adr m a, ⟨false, rest⟩) := by
  rcases hm : disaddr m a with _ | ⟨v, _ | ⟨w, _ | ⟨u, vs⟩⟩⟩ <;> rw [hm] at h hrange
  · obtain rfl := Option.some.inj h
    cases m <;> simp_all [adr, readadr, dismode, disaddr, AXXX, AFP, AMP, AIMM, AIND]
  · obtain ⟨bs', h, hread⟩ := operand_cons h (hrange v (by simp)) rest
    obtain rfl := Option.some.inj h
    cases m <;> simp_all [adr, readadr, dismode, disaddr, AXXX, AFP, AMP, AIMM, AIND]
  · obtain ⟨bs', h, hread⟩ := operand_cons h (hrange v (by simp)) rest
    obtain ⟨bs'', h, hread'⟩ := operand_cons h (hrange w (by simp)) rest
    obtain rfl := Option.some.inj h
    cases m <;> simp_all [adr, readadr, dismode, disaddr, AXXX, AFP, AMP, AIMM, AIND]
  · cases m <;> simp [disaddr] at hm

theorem Inst.add_fields (i : Inst) : i.add < 256 ∧ i.add / 64 = disregmode i.mm / 64 ∧
    i.add / 8 % 8 = dismode i.sm ∧ i.add % 8 = dismode i.dm := by
  have hmode (m : Mode) : dismode m < 8 := by cases m <;> decide
  have hreg : disregmode i.mm % 64 = 0 ∧ disregmode i.mm < 256 := by cases i.mm <;> decide
  have hs := hmode i.sm
  have hd := hmode i.dm
  unfold Inst.add
  omega

theorem regread (h : disbcons (disaddr i.mm i.m) = some bs) (hi : i.Formed nprog)
    (rest : List UInt8) : (if i.add / 64 = 0 then (0, ⟨false, bs ++ rest⟩) else
      operand ⟨false, bs ++ rest⟩) = ((disaddr i.mm i.m).headD 0, ⟨false, rest⟩) := by
  have hrange : ∀ v ∈ disaddr i.mm i.m, -2 ^ 29 ≤ v :=
    fun v hv => hi.range v (by simp [Inst.consts, hv])
  rw [i.add_fields.2.1]
  rcases hm : disaddr i.mm i.m with _ | ⟨v, _ | ⟨w, vs⟩⟩ <;> rw [hm] at h hrange
  · obtain rfl := Option.some.inj h
    cases hmm : i.mm <;> simp_all [disregmode, disaddr]
  · obtain ⟨bs', h, hread⟩ := operand_cons h (hrange v (by simp)) rest
    obtain rfl := Option.some.inj h
    have hmid := hi.middle
    cases hmm : i.mm <;> simp_all [disregmode, disaddr]
  · have hmid := hi.middle
    cases hmm : i.mm <;> simp_all [disregmode, disaddr]

theorem brpatch_formed (hi : i.Formed nprog) :
    (if dismode i.dm = AIMM then brpatch (i.op % 256) nprog (adr i.dm i.d)
      else some (adr i.dm i.d)) = some i.loaded.d := by
  by_cases himm : dismode i.dm = AIMM
  · obtain ⟨v, hv⟩ : ∃ v, disaddr i.dm i.d = [v] := by
      cases hdm : i.dm <;> simp_all [dismode, disaddr, AFP, AMP, AIMM, AIND, AXXX]
    have had : adr i.dm i.d = .ind v := by rw [adr, hv]
    have hin (hb : branches (i.op % 256) = true) : ¬(v < 0 ∨ nprog ≤ v) := by
      have := hi.target himm hb v (by simp [hv])
      omega
    by_cases hb : branches (i.op % 256) = true
    · simp [himm, had, brpatch, Inst.loaded, hb, hin hb]
    · simp [himm, had, brpatch, Inst.loaded, hb]
  · simp only [himm, Inst.loaded, false_and, if_false]
    cases adr i.dm i.d <;> rfl

theorem parse_inst (hi : i.Formed nprog) (h : i.bytes = some bs) (n : ℕ) (rest : List UInt8) :
    parsecode nprog (n + 1) ⟨false, bs ++ rest⟩ =
      (parsecode nprog n ⟨false, rest⟩).map fun r => (i.loaded :: r.1, r.2) := by
  obtain ⟨b, hb, rfl⟩ := Option.map_eq_some_iff.mp h
  obtain ⟨bm, b, hm, hrest, rfl⟩ := disbcons_append hb
  obtain ⟨bsrc, bdst, hs, hd, rfl⟩ := disbcons_append hrest
  have hrange := hi.range
  simp only [Inst.consts, List.mem_append] at hrange
  obtain ⟨hlt, -, hsm, hdm⟩ := i.add_fields
  have hop : (byte i.op).toNat = i.op % 256 := by have := byte_toNat i.op; omega
  have hadd : (byte i.add).toNat = i.add := by have := byte_toNat i.add; omega
  simp only [parsecode, List.cons_append, List.append_assoc, hop, hadd, hsm, hdm,
    regread hm hi, readadr_read hs (fun v hv => hrange v (by simp [hv])) hi.source,
    readadr_read hd (fun v hv => hrange v (by simp [hv])) hi.dest, brpatch_formed hi]
  rfl

/-- What the compiler wrote the loader reads, to the last byte. -/
theorem code_read (hf : ∀ i ∈ is, i.op ≠ INOOP → i.Formed nprog) (h : disinst is = some bs)
    (rest : List UInt8) :
    let real := is.filter (·.op ≠ INOOP)
    parsecode nprog real.length ⟨false, bs ++ rest⟩ =
      .ok (real.map Inst.loaded, ⟨false, rest⟩) := by
  induction is generalizing bs with
  | nil =>
    obtain rfl := Option.some.inj h
    rfl
  | cons i is ih =>
    obtain ⟨hi, hf⟩ := List.forall_mem_cons.mp hf
    rw [disinst] at h
    split_ifs at h with hop
    · simpa [hop] using ih hf h
    · obtain ⟨b, hb, h⟩ := Option.bind_eq_some_iff.mp h
      obtain ⟨bs, hbs, rfl⟩ := Option.map_eq_some_iff.mp h
      have hrest := ih hf hbs
      simp only [ne_eq, hop, not_false_eq_true, decide_true, List.filter_cons_of_pos,
        List.length_cons, List.append_assoc, parse_inst (hi hop) hb] at hrest ⊢
      rw [hrest]
      rfl

/-- A call of itself. -/
def again : List Inst :=
  [⟨4, .fp, .none, .pc, ⟨80, 0, 0⟩, ⟨0, 0, 0⟩, ⟨0, 0, 0⟩⟩]

theorem code_read_again : parsecode 1 1 ⟨false, [4, 10, 128, 80, 0]⟩ =
    .ok ([⟨4, 10, 0, .ind 80, .ins 0⟩], ⟨false, []⟩) := by
  have hdis : disinst again = some [4, 10, 128, 80, 0] := by decide
  refine code_read ?_ hdis []
  simp only [again, List.forall_mem_singleton]
  intro
  constructor <;> decide

theorem brpatch_ins {op : ℕ} {ps : ParseState} {dst : Adr} (hb : branches op = true)
    (h : brpatch op nprog (readadr AIMM ps).1 = some dst) :
    ∃ v, dst = .ins v ∧ 0 ≤ v ∧ v < nprog := by
  simp only [readadr, or_true, if_true, brpatch, hb] at h
  split_ifs at h with hout
  exact ⟨_, (Option.some.inj h).symm, by omega⟩

/-- Whatever the bytes are, a module that is taken branches to its own instructions only. -/
theorem code_safe {n : ℕ} {ps : ParseState} {r : List Loaded × ParseState}
    (h : parsecode nprog n ps = .ok r) : r.1.length = n ∧ r.2.error = false ∧
      ∀ i ∈ r.1, branches i.op = true → i.add % 8 = AIMM →
        ∃ v, i.d = .ins v ∧ 0 ≤ v ∧ v < nprog := by
  induction n generalizing ps r with
  | zero =>
    rw [parsecode] at h
    split_ifs at h with herror
    cases h
    simpa using herror
  | succ n ih =>
    rw [parsecode] at h
    split at h
    case h_2 => cases h
    case h_1 op add istream _ =>
      dsimp only at h
      split at h
      · cases h
      case h_2 dst hdst =>
        generalize hrest : parsecode nprog n _ = rest at h
        cases rest with
        | error e => cases h
        | ok r =>
          cases h
          obtain ⟨hlen, herror, hall⟩ := ih hrest
          refine ⟨by simp [hlen], herror, List.forall_mem_cons.mpr ⟨fun hb himm => ?_, hall⟩⟩
          rw [if_pos himm, himm] at hdst
          exact brpatch_ins hb hdst

theorem code_safe_again : ∃ v, Adr.ins 0 = .ins v ∧ 0 ≤ v ∧ v < 1 := by
  have h : parsecode 1 1 ⟨false, [4, 10, 128, 80, 0]⟩ =
      .ok ([⟨4, 10, 0, .ind 80, .ins 0⟩], ⟨false, []⟩) := rfl
  exact (code_safe h).2.2 _ List.mem_cons_self rfl rfl

/-!
## The data of a Dis module

A type comes with a map of its pointers, which `validtypemap` checks. Data that is written over
an array of that type is refused where `haspointers` finds one.
-/

/-- `np` is the length of `map`, and a `WORD` has 8 bytes. -/
structure Typ where
  size : ℕ
  map : List UInt8

def marked (map : List UInt8) (word : ℕ) : Bool :=
  map[word / 8]?.any fun b => b.toNat.testBit (7 - word % 8)

def pointerslot (t : Typ) (offset : ℕ) : Bool :=
  if t.size = 0 ∨ offset % 8 ≠ 0 then false else marked t.map (offset % t.size / 8)

def validtypemap (size : ℕ) (map : List UInt8) : Bool :=
  (List.range (map.length * 8)).all fun word =>
    !marked map word || (word < size / 8 && size % 8 = 0)

def haspointers (t : Typ) (first n : ℕ) : Bool :=
  if t.map = [] ∨ n = 0 then false
  else
    -- the offsets below `first + n`, from the word of `first` on
    (List.range ((first % 8 + n + 7) / 8)).any fun k => pointerslot t (first - first % 8 + k * 8)

variable {t : Typ} {first n e off : ℕ}

theorem marked_within (ht : validtypemap t.size t.map = true) {word : ℕ}
    (hw : marked t.map word = true) : word < t.size / 8 ∧ t.size % 8 = 0 := by
  have hlt : word < t.map.length * 8 := by
    rw [marked, Option.any_eq_true] at hw
    obtain ⟨b, hb, -⟩ := hw
    have := (List.getElem?_eq_some_iff.mp hb).1
    omega
  simpa [hw] using List.all_eq_true.mp ht word (List.mem_range.mpr hlt)

theorem pointerslot_iff (ht : validtypemap t.size t.map = true) (hoff : off < t.size) :
    pointerslot t (e * t.size + off) = true ↔ off % 8 = 0 ∧ marked t.map (off / 8) = true := by
  have hmod : (e * t.size + off) % t.size = off := by
    rw [Nat.mul_comm, Nat.mul_add_mod, Nat.mod_eq_of_lt hoff]
  have hword (hm : marked t.map (off / 8) = true) : (e * t.size + off) % 8 = off % 8 := by
    obtain ⟨k, hk⟩ := Nat.dvd_of_mod_eq_zero (marked_within ht hm).2
    rw [hk, Nat.mul_left_comm, Nat.mul_add_mod]
  rw [pointerslot, hmod]
  split_ifs with hno
  · simp only [false_iff, not_and]
    intro h8 hm
    have := hword hm
    omega
  · refine ⟨fun hm => ⟨?_, hm⟩, fun h => h.2⟩
    have := hword hm
    omega

/-- Of every element of an array, `pointerslot` knows the pointers and nothing else, they lie
within the element, and no byte of the data that is let in is one of theirs. -/
theorem pointers_kept (ht : validtypemap t.size t.map = true)
    (hdata : haspointers t first n = false) (hoff : off < t.size) :
    (pointerslot t (e * t.size + off) = true ↔
      off % 8 = 0 ∧ marked t.map (off / 8) = true) ∧
    (pointerslot t (e * t.size + off) = true → off + 8 ≤ t.size ∧ ∀ b, first ≤ b → b < first + n →
      b < e * t.size + off ∨ e * t.size + off + 8 ≤ b) := by
  refine ⟨pointerslot_iff ht hoff, fun hslot => ?_⟩
  obtain ⟨h8, hm⟩ := (pointerslot_iff ht hoff).mp hslot
  have hin := marked_within ht hm
  refine ⟨by omega, fun b hb hb' => ?_⟩
  generalize e * t.size + off = p at hslot
  by_contra hover
  rw [haspointers] at hdata
  split_ifs at hdata with hnone
  · rcases hnone with hnone | rfl
    · simp [marked, hnone] at hm
    · omega
  · have hp : p % 8 = 0 := by
      by_contra hp
      simp [pointerslot, hp] at hslot
    have hk := List.any_eq_false.mp hdata ((p - (first - first % 8)) / 8)
      (List.mem_range.mpr (by omega))
    have heq : first - first % 8 + (p - (first - first % 8)) / 8 * 8 = p := by omega
    rw [heq, hslot] at hk
    exact hk rfl

theorem pointers_kept_second : pointerslot ⟨16, [64]⟩ 24 = true ∧
    ∀ b, 16 ≤ b → b < 24 → b < 24 ∨ 32 ≤ b := by
  have h := @pointers_kept ⟨16, [64]⟩ 16 8 1 8 (by decide) (by decide) (by decide)
  have hslot : pointerslot ⟨16, [64]⟩ (1 * 16 + 8) = true := h.1.mpr (by decide)
  exact ⟨hslot, (h.2 hslot).2⟩

end Infernode.Dis.Code
