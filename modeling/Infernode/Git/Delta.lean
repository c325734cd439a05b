import Infernode.Audit.Verify

/-!
# Deltas

`applydelta` of `git.b` on the ints of the machine, and what a delta means: two sizes, and
commands that copy from the base or insert. A command may raise where its bytes run out, or
where an offset comes out as a negative int.
-/

namespace Infernode.Git.Delta

open Dis (int)
open Limbo (Str lit)
open Audit (dec)

inductive Applied
  | ok (r : List UInt8)
  | err (e : Str)
  | raises
  deriving DecidableEq

def shlw (b : UInt8) (shift : ℕ) : BitVec 32 := b.toBitVec.setWidth 32 <<< (shift % 64)

def readvarint : BitVec 32 → ℕ → List UInt8 → BitVec 32 × List UInt8
  | val, _, [] => (val, [])
  | val, shift, b :: data =>
    let val := val ||| shlw (b &&& 0x7f) shift
    if b &&& 0x80 = 0 then (val, data) else readvarint val (shift + 7) data

def operands (cmd : UInt8) : List (UInt8 × ℕ) → BitVec 32 → List UInt8 →
    Option (BitVec 32 × List UInt8)
  | [], v, delta => some (v, delta)
  | (bit, shift) :: l, v, delta =>
    if cmd &&& bit ≠ 0 then
      match delta with
      | [] => none
      | b :: delta => operands cmd l (v ||| shlw b shift) delta
    else operands cmd l v delta

def offsetbits : List (UInt8 × ℕ) := [(0x01, 0), (0x02, 8), (0x04, 16), (0x08, 24)]

def sizebits : List (UInt8 × ℕ) := [(0x10, 0), (0x20, 8), (0x40, 16)]

/-- What `result` holds up to `roff + n`, of `tgtsize` bytes. The first index that is outside
raises. -/
def copybytes (tgtsize : ℤ) (out src : List UInt8) (soff n : ℤ) : Option (List UInt8) :=
  if 0 ≤ soff ∧ soff + n ≤ src.length ∧ out.length + n ≤ tgtsize then
    some (out ++ (src.drop soff.toNat).take n.toNat)
  else none

def commands (base : List UInt8) (tgtsize : ℤ) : ℕ → List UInt8 → List UInt8 → Applied
  | _, [], out =>
    if out.length ≠ tgtsize then
      .err ("delta: result size mismatch " ++ dec out.length ++ " vs " ++ dec tgtsize)
    else .ok out
  | 0, _ :: _, _ => .raises
  | n + 1, cmd :: delta, out =>
    if cmd &&& 0x80 ≠ 0 then
      match operands cmd offsetbits 0 delta with
      | none => .raises
      | some (cpoff, delta) =>
        match operands cmd sizebits 0 delta with
        | none => .raises
        | some (cpsize, delta) =>
          let cpsize := if cpsize = 0 then 0x10000 else cpsize
          if base.length < (cpoff + cpsize).toInt then .err (lit "delta copy out of bounds")
          else if tgtsize < int (out.length + cpsize.toInt) then .err (lit "delta result overflow")
          else
            match copybytes tgtsize out base cpoff.toInt cpsize.toInt with
            | none => .raises
            | some out => commands base tgtsize n delta out
    else if cmd ≠ 0 then
      if delta.length < cmd.toNat then .err (lit "delta insert out of bounds")
      else if tgtsize < int (out.length + cmd.toNat) then .err (lit "delta result overflow")
      else
        match copybytes tgtsize out delta 0 cmd.toNat with
        | none => .raises
        | some out => commands base tgtsize n (delta.drop cmd.toNat) out
    else .err (lit "delta: reserved command 0")

/-- `room` is the largest array that the heap has room for; `alloc.c` has none of 2^30 bytes. -/
def applydelta (room : Fin (2 ^ 30)) (base delta : List UInt8) : Applied :=
  if delta.length < 2 then .err (lit "delta too short")
  else
    let (srcsize, rest) := readvarint 0 0 delta
    if srcsize.toInt ≠ base.length then
      .err ("delta source size mismatch: " ++ dec srcsize.toInt ++ " vs " ++ dec base.length)
    else
      let (tgtsize, rest) := readvarint 0 0 rest
      if tgtsize.toInt < 0 ∨ room.1 < tgtsize.toInt then .raises
      else commands base tgtsize.toInt rest.length rest []

section Meaning

/-- A size: seven bits a byte, the low ones first, as far as a byte without the top bit. -/
def varint : List UInt8 → Option (ℕ × List UInt8)
  | [] => none
  | b :: data =>
    if b.toNat < 128 then some (b.toNat, data)
    else (varint data).map fun (v, rest) => (b.toNat % 128 + 128 * v, rest)

/-- The bytes of a number that the bits of a command say are there. -/
def fields (cmd : UInt8) : List (UInt8 × ℕ) → ℕ → List UInt8 → Option (ℕ × List UInt8)
  | [], v, delta => some (v, delta)
  | (bit, shift) :: l, v, delta =>
    if cmd &&& bit ≠ 0 then
      match delta with
      | [] => none
      | b :: delta => fields cmd l (v + b.toNat * 2 ^ shift) delta
    else fields cmd l v delta

/-- The offset and the size of a copy, 0 for 2^16. -/
def copied (cmd : UInt8) (delta : List UInt8) : Option (ℕ × ℕ × List UInt8) := do
  let (offset, delta) ← fields cmd offsetbits 0 delta
  let (size, delta) ← fields cmd sizebits 0 delta
  return (offset, if size = 0 then 2 ^ 16 else size, delta)

inductive Builds (base : List UInt8) : List UInt8 → List UInt8 → Prop
  | done : Builds base [] []
  | copy {cmd delta offset size rest r} (hcmd : cmd &&& 0x80 ≠ 0)
      (hcopied : copied cmd delta = some (offset, size, rest))
      (hbase : offset + size ≤ base.length) (h : Builds base rest r) :
      Builds base (cmd :: delta) ((base.drop offset).take size ++ r)
  | insert {cmd delta r} (hcmd : cmd &&& 0x80 = 0) (hzero : cmd ≠ 0)
      (hdelta : cmd.toNat ≤ delta.length) (h : Builds base (delta.drop cmd.toNat) r) :
      Builds base (cmd :: delta) (delta.take cmd.toNat ++ r)

/-- The delta is well formed for the base, its sizes below 2^31, and makes `r` of it. -/
def Makes (base delta r : List UInt8) : Prop :=
  base.length < 2 ^ 31 ∧ r.length < 2 ^ 31 ∧ ∃ rest rest', varint delta = some (base.length, rest) ∧
    varint rest = some (r.length, rest') ∧ Builds base rest' r

/-- The commands before are good, and what they make has room, and then one is a copy that is cut
short, or that is beyond the base and yet not so where its ends are ints. -/
inductive Traps (base : List UInt8) (t : ℤ) : ℕ → List UInt8 → Prop
  | short {roff : ℕ} {cmd delta} (hcmd : cmd &&& 0x80 ≠ 0) (hcopied : copied cmd delta = none) :
      Traps base t roff (cmd :: delta)
  | beyond {roff offset size : ℕ} {cmd delta rest} (hcmd : cmd &&& 0x80 ≠ 0)
      (hcopied : copied cmd delta = some (offset, size, rest))
      (hbase : base.length < offset + size) (hint : int (offset + size) ≤ base.length)
      (hroom : roff + size ≤ t) : Traps base t roff (cmd :: delta)
  | copy {roff offset size : ℕ} {cmd delta rest} (hcmd : cmd &&& 0x80 ≠ 0)
      (hcopied : copied cmd delta = some (offset, size, rest))
      (hbase : offset + size ≤ base.length) (hroom : roff + size ≤ t)
      (h : Traps base t (roff + size) rest) : Traps base t roff (cmd :: delta)
  | insert {roff : ℕ} {cmd delta} (hcmd : cmd &&& 0x80 = 0) (hzero : cmd ≠ 0)
      (hdelta : cmd.toNat ≤ delta.length) (hroom : roff + cmd.toNat ≤ t)
      (h : Traps base t (roff + cmd.toNat) (delta.drop cmd.toNat)) :
      Traps base t roff (cmd :: delta)

end Meaning

variable {base delta rest r out : List UInt8} {cmd b : UInt8} {t : ℤ} {roff offset size : ℕ}
  {l : List (UInt8 × ℕ)}

set_option maxRecDepth 2000 in
theorem top_iff (b : UInt8) : b &&& 0x80 = 0 ↔ b.toNat < 128 := by
  have hall : ∀ n < 256, (UInt8.ofNat n &&& 0x80 = 0 ↔ n < 128) := by decide
  have hb := hall b.toNat b.toNat_lt
  rwa [UInt8.ofNat_toNat] at hb

theorem low_toNat (b : UInt8) : (b &&& 0x7f).toNat = b.toNat % 128 := by
  rw [UInt8.toNat_and]
  exact Nat.and_two_pow_sub_one_eq_mod b.toNat 7

theorem or_shlw {acc shift : ℕ} (b : UInt8) (hacc : acc < 2 ^ shift)
    (hfits : acc + b.toNat * 2 ^ shift < 2 ^ 32) :
    BitVec.ofNat 32 acc ||| shlw b shift = BitVec.ofNat 32 (acc + b.toNat * 2 ^ shift) := by
  have hb := b.toNat_lt
  rcases Nat.eq_zero_or_pos b.toNat with hzero | hpos
  · have hb0 : b = 0 := UInt8.toNat_inj.mp (by simpa using hzero)
    subst hb0
    simp [shlw]
  · have hshift : shift < 32 := by
      by_contra hge
      have hpow : 2 ^ 32 ≤ 2 ^ shift := Nat.pow_le_pow_right (by norm_num) (by omega)
      nlinarith
    apply BitVec.eq_of_toNat_eq
    have hmod : shift % 64 = shift := Nat.mod_eq_of_lt (by omega)
    have hset : (b.toBitVec.setWidth 32).toNat = b.toNat := by
      rw [BitVec.toNat_setWidth]
      exact Nat.mod_eq_of_lt (by change b.toNat < _; omega)
    have hmul : b.toNat * 2 ^ shift < 2 ^ 32 := by omega
    rw [BitVec.toNat_or, shlw, hmod, BitVec.toNat_shiftLeft, hset, BitVec.toNat_ofNat,
      BitVec.toNat_ofNat, Nat.mod_eq_of_lt (by omega : acc < 2 ^ 32), Nat.mod_eq_of_lt hfits,
      Nat.shiftLeft_eq, Nat.mod_eq_of_lt hmul, Nat.or_comm, Nat.add_comm acc, ← Nat.shiftLeft_eq,
      Nat.shiftLeft_add_eq_or_of_lt hacc]

theorem readvarint_acc {v acc k : ℕ} (h : varint delta = some (v, rest)) (hacc : acc < 2 ^ (7 * k))
    (hfits : acc + v * 2 ^ (7 * k) < 2 ^ 32) :
    readvarint (BitVec.ofNat 32 acc) (7 * k) delta =
      (BitVec.ofNat 32 (acc + v * 2 ^ (7 * k)), rest) := by
  induction delta generalizing v acc k with
  | nil => cases h
  | cons b data ih =>
    rw [varint] at h
    simp only [readvarint, top_iff]
    split_ifs at h ⊢ with hlow
    · obtain ⟨rfl, rfl⟩ := Prod.mk.inj (Option.some.inj h)
      have hand : (b &&& 0x7f).toNat = b.toNat := by rw [low_toNat, Nat.mod_eq_of_lt hlow]
      simp only [or_shlw (b &&& 0x7f) hacc (by rw [hand]; exact hfits), hand]
    · obtain ⟨⟨v', rest'⟩, hv', heq⟩ := Option.map_eq_some_iff.1 h
      obtain ⟨rfl, rfl⟩ := Prod.mk.inj heq
      have hpow : 2 ^ (7 * (k + 1)) = 128 * 2 ^ (7 * k) := by
        rw [Nat.mul_add, Nat.pow_add]
        omega
      have hsum : acc + (b.toNat % 128 + 128 * v') * 2 ^ (7 * k) =
          acc + b.toNat % 128 * 2 ^ (7 * k) + v' * 2 ^ (7 * (k + 1)) := by
        rw [hpow]
        ring
      have hor := or_shlw (b &&& 0x7f) hacc (by
        rw [low_toNat]
        omega)
      have hnext : acc + b.toNat % 128 * 2 ^ (7 * k) < 2 ^ (7 * (k + 1)) := by
        have := Nat.mod_lt b.toNat (by norm_num : 0 < 128)
        rw [hpow]
        nlinarith
      simp only [hor, low_toNat]
      rw [show 7 * k + 7 = 7 * (k + 1) by ring, ih hv' hnext (hsum ▸ hfits), hsum]

theorem readvarint_varint {v : ℕ} (h : varint delta = some (v, rest)) (hv : v < 2 ^ 31) :
    readvarint 0 0 delta = (BitVec.ofNat 32 v, rest) := by
  simpa using readvarint_acc (k := 0) h (by norm_num : 0 < 2 ^ (7 * 0)) (by omega)

theorem ofNat_toInt {v : ℕ} (hv : v < 2 ^ 31) : (BitVec.ofNat 32 v).toInt = v := by
  rw [BitVec.toInt_eq_toNat_bmod, BitVec.toNat_ofNat, Nat.mod_eq_of_lt (by omega)]
  exact Int.bmod_eq_of_le (by omega) (by omega)

theorem operands_fields (cmd : UInt8) (l : List (UInt8 × ℕ)) (acc m : ℕ)
    (hl : l.Pairwise fun e f => e.2 + 8 ≤ f.2)
    (hacc : ∀ e ∈ l, acc < 2 ^ e.2) (hm : ∀ e ∈ l, e.2 + 8 ≤ m) (haccm : acc < 2 ^ m)
    (h32 : m ≤ 32) (delta : List UInt8) :
    operands cmd l (BitVec.ofNat 32 acc) delta =
        (fields cmd l acc delta).map (fun p => (BitVec.ofNat 32 p.1, p.2)) ∧
      ∀ v rest, fields cmd l acc delta = some (v, rest) →
        v < 2 ^ m ∧ rest.length ≤ delta.length := by
  induction l generalizing acc delta with
  | nil =>
    refine ⟨rfl, fun v rest h => ?_⟩
    obtain ⟨rfl, rfl⟩ := Prod.mk.inj (Option.some.inj h)
    exact ⟨haccm, le_rfl⟩
  | cons e l ih =>
    obtain ⟨bit, shift⟩ := e
    obtain ⟨hfirst, hrest⟩ := List.pairwise_cons.1 hl
    have hmrest : ∀ e ∈ l, e.2 + 8 ≤ m := fun e he => hm e (List.mem_cons_of_mem _ he)
    simp only [operands, fields]
    split_ifs with hbit
    · cases delta with
      | nil => exact ⟨rfl, nofun⟩
      | cons b delta =>
        have hb := b.toNat_lt
        have hshift := hacc (bit, shift) List.mem_cons_self
        have hmshift : shift + 8 ≤ m := hm (bit, shift) List.mem_cons_self
        have hnext : acc + b.toNat * 2 ^ shift < 2 ^ (shift + 8) := by
          rw [Nat.pow_add]
          simp only at hshift
          nlinarith
        have hnextm : acc + b.toNat * 2 ^ shift < 2 ^ m :=
          hnext.trans_le (Nat.pow_le_pow_right (by norm_num) hmshift)
        have hfits := hnextm.trans_le (Nat.pow_le_pow_right (by norm_num) h32)
        simp only [or_shlw b hshift hfits]
        obtain ⟨heq, hle⟩ := ih _ hrest (fun e he => hnext.trans_le
          (Nat.pow_le_pow_right (by norm_num) (hfirst e he))) hmrest hnextm delta
        refine ⟨heq, fun v rest h => ?_⟩
        obtain ⟨hv, hlen⟩ := hle v rest h
        exact ⟨hv, hlen.trans (Nat.le_succ _)⟩
    · exact ih _ hrest (fun e he => hacc e (List.mem_cons_of_mem _ he)) hmrest haccm delta

theorem operands_none (h : copied cmd delta = none) : operands cmd offsetbits 0 delta = none ∨
    ∃ o d, operands cmd offsetbits 0 delta = some (o, d) ∧ operands cmd sizebits 0 d = none := by
  have hoffset := (operands_fields cmd offsetbits 0 32 (by decide)
    (by decide) (by decide) (by decide) le_rfl delta).1
  cases ho : fields cmd offsetbits 0 delta with
  | none =>
    rw [ho] at hoffset
    exact .inl hoffset
  | some p =>
    obtain ⟨o, d⟩ := p
    have hsize := (operands_fields cmd sizebits 0 24 (by decide)
      (by decide) (by decide) (by decide) (by decide) d).1
    have hnone : fields cmd sizebits 0 d = none := by
      cases hs : fields cmd sizebits 0 d with
      | none => rfl
      | some q => simp [copied, ho, hs] at h
    rw [ho] at hoffset
    rw [hnone] at hsize
    exact .inr ⟨_, d, hoffset, hsize⟩

theorem operands_some (h : copied cmd delta = some (offset, size, rest)) :
    ∃ d s, operands cmd offsetbits 0 delta = some (BitVec.ofNat 32 offset, d) ∧
      operands cmd sizebits 0 d = some (s, rest) ∧
      (if s = 0 then 0x10000 else s) = BitVec.ofNat 32 size ∧ offset < 2 ^ 32 ∧ 0 < size ∧
      size < 2 ^ 24 ∧ rest.length ≤ delta.length := by
  obtain ⟨hoffset, hole⟩ := operands_fields cmd offsetbits 0 32
    (by decide) (by decide) (by decide) (by decide) le_rfl delta
  cases ho : fields cmd offsetbits 0 delta with
  | none => simp [copied, ho] at h
  | some p =>
    obtain ⟨o, d⟩ := p
    obtain ⟨hsize, hsle⟩ := operands_fields cmd sizebits 0 24
      (by decide) (by decide) (by decide) (by decide) (by decide) d
    cases hs : fields cmd sizebits 0 d with
    | none => simp [copied, ho, hs] at h
    | some q =>
      obtain ⟨s, d'⟩ := q
      rw [ho] at hoffset
      rw [hs] at hsize
      obtain ⟨ho32, hdlen⟩ := hole o d ho
      obtain ⟨hs24, hdlen'⟩ := hsle s d' hs
      simp only [copied, ho, hs, Option.bind_eq_bind, Option.bind_some, Option.pure_def,
        Option.some.injEq, Prod.mk.injEq] at h
      obtain ⟨rfl, rfl, rfl⟩ := h
      have hzero : BitVec.ofNat 32 s = 0 ↔ s = 0 := by
        rw [← BitVec.toNat_inj, BitVec.toNat_ofNat, Nat.mod_eq_of_lt (by omega)]
        rfl
      refine ⟨d, _, hoffset, hsize, ?_, ho32, ?_, ?_, hdlen'.trans hdlen⟩
      · simp only [hzero]
        split_ifs
        · rfl
        · rfl
      · split_ifs <;> omega
      · split_ifs <;> omega

theorem ofNat_add_toInt (m k : ℕ) : (BitVec.ofNat 32 m + BitVec.ofNat 32 k).toInt =
    int ((m : ℤ) + k) := by
  rw [← BitVec.ofNat_add, BitVec.toInt_eq_toNat_bmod, BitVec.toNat_ofNat, int]
  push_cast
  exact Int.emod_bmod ..

theorem int_eq {z : ℤ} (h : 0 ≤ z) (h' : z < 2 ^ 31) : int z = z :=
  Int.bmod_eq_of_le (by omega) (by omega)

theorem commands_copy {n : ℕ} (hcmd : cmd &&& 0x80 ≠ 0)
    (hcopied : copied cmd delta = some (offset, size, rest)) (hbase : base.length < 2 ^ 31)
    (ht : t < 2 ^ 30) (hout : out.length ≤ t) :
    commands base t (n + 1) (cmd :: delta) out =
      if base.length < int (offset + size) then .err (lit "delta copy out of bounds")
      else if t < out.length + size then .err (lit "delta result overflow")
      else if offset + size ≤ base.length then
        commands base t n rest (out ++ (base.drop offset).take size)
      else .raises := by
  obtain ⟨d, s, hop, hops, hs, hoffset, hpos, hsize, -⟩ := operands_some hcopied
  have hsizeint : (BitVec.ofNat 32 size).toInt = size := ofNat_toInt (by omega)
  have hroom : int (out.length + size) = out.length + size := int_eq (by omega) (by omega)
  simp only [commands, if_pos hcmd, hop, hops, hs, ofNat_add_toInt, hsizeint, hroom]
  split_ifs with h1 h2 h3
  · rfl
  · rfl
  · have hoint : (BitVec.ofNat 32 offset).toInt = offset := ofNat_toInt (by omega)
    have hfits : (0 : ℤ) ≤ offset ∧ (offset : ℤ) + size ≤ base.length ∧
        out.length + (size : ℤ) ≤ t :=
      ⟨by omega, by omega, by omega⟩
    simp only [copybytes, hoint, if_pos hfits, Int.toNat_natCast]
  · have hbeyond : ¬(0 ≤ (BitVec.ofNat 32 offset).toInt ∧
        (BitVec.ofNat 32 offset).toInt + size ≤ base.length ∧ out.length + (size : ℤ) ≤ t) := by
      rintro ⟨hneg, hle, -⟩
      rcases lt_or_ge offset (2 ^ 31) with hlow | hhigh
      · rw [ofNat_toInt hlow] at hle
        omega
      · rw [BitVec.toInt_eq_toNat_bmod, BitVec.toNat_ofNat, Nat.mod_eq_of_lt hoffset,
          Int.bmod_def] at hneg
        split_ifs at hneg
        · omega
        · omega
    simp only [copybytes, if_neg hbeyond]

theorem commands_insert {n : ℕ} (hcmd : cmd &&& 0x80 = 0) (hzero : cmd ≠ 0) (ht : t < 2 ^ 30)
    (hout : out.length ≤ t) :
    commands base t (n + 1) (cmd :: delta) out =
      if delta.length < cmd.toNat then .err (lit "delta insert out of bounds")
      else if t < out.length + cmd.toNat then .err (lit "delta result overflow")
      else commands base t n (delta.drop cmd.toNat) (out ++ delta.take cmd.toNat) := by
  have hcmd256 := cmd.toNat_lt
  have hroom : int (out.length + cmd.toNat) = out.length + cmd.toNat :=
    int_eq (by omega) (by omega)
  simp only [commands, hcmd, ne_eq, not_true_eq_false, if_false, hzero, not_false_eq_true, if_true,
    hroom]
  split_ifs with h1 h2
  · rfl
  · rfl
  · have hfits : (0 : ℤ) ≤ 0 ∧ (0 : ℤ) + cmd.toNat ≤ delta.length ∧
        out.length + (cmd.toNat : ℤ) ≤ t := ⟨le_rfl, by omega, by omega⟩
    simp only [copybytes, if_pos hfits, Int.toNat_natCast, Int.toNat_zero, List.drop_zero]

theorem builds_insert_iff (hcmd : cmd &&& 0x80 = 0) (hzero : cmd ≠ 0) :
    Builds base (cmd :: delta) r ↔ cmd.toNat ≤ delta.length ∧
      ∃ r', Builds base (delta.drop cmd.toNat) r' ∧ r = delta.take cmd.toNat ++ r' := by
  constructor
  · intro h
    cases h with
    | copy hcopy => exact absurd hcmd hcopy
    | insert _ _ hle h => exact ⟨hle, _, h, rfl⟩
  · rintro ⟨hle, r', h, rfl⟩
    exact .insert hcmd hzero hle h

theorem traps_insert_iff (hcmd : cmd &&& 0x80 = 0) (hzero : cmd ≠ 0) :
    Traps base t roff (cmd :: delta) ↔ cmd.toNat ≤ delta.length ∧ roff + cmd.toNat ≤ t ∧
      Traps base t (roff + cmd.toNat) (delta.drop cmd.toNat) := by
  constructor
  · intro h
    cases h with
    | short hcopy | beyond hcopy | copy hcopy => exact absurd hcmd hcopy
    | insert _ _ hle hroom h => exact ⟨hle, hroom, h⟩
  · rintro ⟨hle, hroom, h⟩
    exact .insert hcmd hzero hle hroom h

theorem builds_copy_iff (hcmd : cmd &&& 0x80 ≠ 0)
    (hcopied : copied cmd delta = some (offset, size, rest)) :
    Builds base (cmd :: delta) r ↔ offset + size ≤ base.length ∧
      ∃ r', Builds base rest r' ∧ r = (base.drop offset).take size ++ r' := by
  constructor
  · intro h
    cases h with
    | copy _ hcopied' hle h =>
      rw [hcopied] at hcopied'
      obtain ⟨rfl, rfl, rfl⟩ : _ ∧ _ ∧ _ := by simpa using hcopied'
      exact ⟨hle, _, h, rfl⟩
    | insert hinsert => exact absurd hinsert hcmd
  · rintro ⟨hle, r', h, rfl⟩
    exact .copy hcmd hcopied hle h

theorem traps_copy_iff (hcmd : cmd &&& 0x80 ≠ 0)
    (hcopied : copied cmd delta = some (offset, size, rest)) :
    Traps base t roff (cmd :: delta) ↔ roff + size ≤ t ∧
      (base.length < offset + size ∧ int (offset + size) ≤ base.length ∨
        offset + size ≤ base.length ∧ Traps base t (roff + size) rest) := by
  constructor
  · intro h
    cases h with
    | short _ hnone => simp [hcopied] at hnone
    | beyond _ hcopied' hbase hint hroom =>
      rw [hcopied] at hcopied'
      obtain ⟨rfl, rfl, rfl⟩ : _ ∧ _ ∧ _ := by simpa using hcopied'
      exact ⟨hroom, .inl ⟨hbase, hint⟩⟩
    | copy _ hcopied' hbase hroom h =>
      rw [hcopied] at hcopied'
      obtain ⟨rfl, rfl, rfl⟩ : _ ∧ _ ∧ _ := by simpa using hcopied'
      exact ⟨hroom, .inr ⟨hbase, h⟩⟩
    | insert hinsert => exact absurd hinsert hcmd
  · rintro ⟨hroom, ⟨hbase, hint⟩ | ⟨hbase, h⟩⟩
    · exact .beyond hcmd hcopied hbase hint hroom
    · exact .copy hcmd hcopied hbase hroom h

def Exact (base : List UInt8) (t : ℤ) (delta out : List UInt8) (x : Applied) : Prop :=
  (∀ r', x = .ok r' ↔ ∃ r, r' = out ++ r ∧ Builds base delta r ∧ r'.length = t) ∧
    (x = .raises ↔ Traps base t out.length delta)

theorem Exact.err {e : Str} (hbuilds : ∀ r, Builds base delta r → (out ++ r).length ≠ t)
    (htraps : ¬Traps base t out.length delta) : Exact base t delta out (.err e) :=
  ⟨fun _ => ⟨nofun, fun ⟨r, hr', hr, hsize⟩ => absurd (hr' ▸ hsize) (hbuilds r hr)⟩,
    nofun, fun h => absurd h htraps⟩

theorem Exact.step {x : Applied} {piece : List UInt8} (h : Exact base t rest (out ++ piece) x)
    (hbuilds : ∀ r, Builds base delta r ↔ ∃ r', Builds base rest r' ∧ r = piece ++ r')
    (htraps : Traps base t out.length delta ↔ Traps base t (out ++ piece).length rest) :
    Exact base t delta out x := by
  refine ⟨fun r' => (h.1 r').trans ⟨?_, ?_⟩, h.2.trans htraps.symm⟩
  · rintro ⟨r, rfl, hr, hsize⟩
    exact ⟨piece ++ r, List.append_assoc _ _ _, (hbuilds _).2 ⟨r, hr, rfl⟩, hsize⟩
  · rintro ⟨r, rfl, hr, hsize⟩
    obtain ⟨r₀, hr₀, rfl⟩ := (hbuilds r).1 hr
    exact ⟨r₀, (List.append_assoc _ _ _).symm, hr₀, hsize⟩

theorem commands_done (n : ℕ) (out : List UInt8) :
    Exact base t [] out (commands base t n [] out) := by
  have hrun : commands base t n [] out = if out.length ≠ t then
      .err ("delta: result size mismatch " ++ dec out.length ++ " vs " ++ dec t) else .ok out := by
    cases n <;> rfl
  rw [hrun]
  split_ifs with hsize
  · refine Exact.err (fun r hr => ?_) nofun
    cases hr
    simpa using hsize
  · rw [not_not] at hsize
    refine ⟨fun r' => ⟨fun h => ?_, ?_⟩, nofun, nofun⟩
    · obtain rfl := Applied.ok.inj h
      exact ⟨[], (List.append_nil _).symm, .done, hsize⟩
    · rintro ⟨r, rfl, hr, -⟩
      cases hr
      rw [List.append_nil]

/-- The loop returns what the commands make where it has the size asked for, and raises where one
that is reached traps. -/
theorem commands_exact (hbase : base.length < 2 ^ 31) (ht : t < 2 ^ 30) (n : ℕ) :
    ∀ delta out : List UInt8, delta.length ≤ n → out.length ≤ t →
      Exact base t delta out (commands base t n delta out) := by
  induction n with
  | zero =>
    intro delta out hdelta hout
    obtain rfl := List.length_eq_zero_iff.1 (Nat.le_zero.1 hdelta)
    exact commands_done 0 out
  | succ n ih =>
    intro delta out hdelta hout
    cases delta with
    | nil => exact commands_done (n + 1) out
    | cons cmd delta =>
      rw [List.length_cons, Nat.add_le_add_iff_right] at hdelta
      by_cases hcmd : cmd &&& 0x80 = 0
      · by_cases hzero : cmd = 0
        · subst hzero
          refine Exact.err (fun r hr => ?_) fun h => ?_
          · cases hr with
            | copy hcmd => exact absurd rfl hcmd
            | insert _ hzero => exact absurd rfl hzero
          · cases h with
            | short hcmd | beyond hcmd | copy hcmd => exact absurd rfl hcmd
            | insert _ hzero => exact absurd rfl hzero
        · rw [commands_insert hcmd hzero ht hout]
          split_ifs with h1 h2
          · refine Exact.err (fun r hr => ?_) fun h => ?_
            · exact absurd ((builds_insert_iff hcmd hzero).1 hr).1 (by omega)
            · exact absurd ((traps_insert_iff hcmd hzero).1 h).1 (by omega)
          · refine Exact.err (fun r hr => ?_) fun h => ?_
            · obtain ⟨-, r', -, rfl⟩ := (builds_insert_iff hcmd hzero).1 hr
              simp only [List.length_append, List.length_take]
              omega
            · exact absurd ((traps_insert_iff hcmd hzero).1 h).2.1 (by omega)
          · have hle : cmd.toNat ≤ delta.length := by omega
            have hlen : (out ++ delta.take cmd.toNat).length = out.length + cmd.toNat := by
              rw [List.length_append, List.length_take, Nat.min_eq_left hle]
            refine (ih _ _ (by rw [List.length_drop]; omega) (by rw [hlen]; omega)).step
              (fun r => ?_) ?_
            · rw [builds_insert_iff hcmd hzero, and_iff_right hle]
            · rw [traps_insert_iff hcmd hzero, and_iff_right hle, and_iff_right (by omega), hlen]
      · cases hcopied : copied cmd delta with
        | none =>
          have hrun : commands base t (n + 1) (cmd :: delta) out = .raises := by
            rcases operands_none hcopied with hop | ⟨o, d, hop, hops⟩
            · simp only [commands, ne_eq, hcmd, not_false_eq_true, if_true, hop]
            · simp only [commands, ne_eq, hcmd, not_false_eq_true, if_true, hop, hops]
          rw [hrun]
          refine ⟨fun r' => ⟨nofun, ?_⟩, fun _ => .short hcmd hcopied, fun _ => rfl⟩
          rintro ⟨r, -, hr, -⟩
          cases hr with
          | copy _ hcopied' => simp [hcopied] at hcopied'
          | insert hinsert => exact absurd hinsert hcmd
        | some p =>
          obtain ⟨offset, size, rest⟩ := p
          obtain ⟨-, -, -, -, -, hoffset, hpos, hsize, hrest⟩ := operands_some hcopied
          rw [commands_copy hcmd hcopied hbase ht hout]
          split_ifs with h1 h2 h3
          · have hbeyond : base.length < offset + size := by
              by_contra hle
              rw [int_eq (by omega) (by omega)] at h1
              omega
            refine Exact.err (fun r hr => ?_) fun h => ?_
            · exact absurd ((builds_copy_iff hcmd hcopied).1 hr).1 (by omega)
            · obtain ⟨-, ⟨-, hint⟩ | ⟨hle, -⟩⟩ := (traps_copy_iff hcmd hcopied).1 h
              · omega
              · omega
          · refine Exact.err (fun r hr => ?_) fun h => ?_
            · obtain ⟨hle, r', -, rfl⟩ := (builds_copy_iff hcmd hcopied).1 hr
              simp only [List.length_append, List.length_take, List.length_drop]
              omega
            · exact absurd ((traps_copy_iff hcmd hcopied).1 h).1 (by omega)
          · have hlen : (out ++ (base.drop offset).take size).length = out.length + size := by
              rw [List.length_append, List.length_take, List.length_drop]
              omega
            refine (ih _ _ (by omega) (by rw [hlen]; omega)).step (fun r => ?_) ?_
            · rw [builds_copy_iff hcmd hcopied, and_iff_right h3]
            · rw [traps_copy_iff hcmd hcopied, and_iff_right (by omega), hlen]
              exact ⟨fun h => (h.resolve_left (by omega)).2, fun h => .inr ⟨h3, h⟩⟩
          · refine ⟨fun r' => ⟨nofun, ?_⟩, fun _ => ?_, fun _ => rfl⟩
            · rintro ⟨r, -, hr, -⟩
              exact absurd ((builds_copy_iff hcmd hcopied).1 hr).1 h3
            · exact (traps_copy_iff hcmd hcopied).2 ⟨by omega, .inl ⟨by omega, by omega⟩⟩

/-- The result is the delta's where it is well formed, and an error where it is not. -/
def Meets (room : Fin (2 ^ 30)) (base delta : List UInt8) : Prop :=
  (∀ r, applydelta room base delta = .ok r ↔ Makes base delta r) ∧
    applydelta room base delta ≠ .raises

/-- The first size is not the base's, or else the second is one there is room for, no command
traps, and where the commands make that much both sizes are what they are read as. -/
def Plain (room : Fin (2 ^ 30)) (base delta : List UInt8) : Prop :=
  let (srcsize, rest) := readvarint 0 0 delta
  let (tgtsize, rest') := readvarint 0 0 rest
  delta.length < 2 ∨ srcsize.toInt ≠ base.length ∨
    0 ≤ tgtsize.toInt ∧ tgtsize.toInt ≤ room.1 ∧ ¬Traps base tgtsize.toInt 0 rest' ∧
      ∀ r, Builds base rest' r → r.length = tgtsize.toInt →
        varint delta = some (base.length, rest) ∧ varint rest = some (r.length, rest')

theorem varint_length {v : ℕ} (h : varint delta = some (v, rest)) : rest.length < delta.length := by
  induction delta generalizing v with
  | nil => cases h
  | cons b data ih =>
    rw [varint] at h
    split_ifs at h
    · obtain ⟨-, rfl⟩ := Prod.mk.inj (Option.some.inj h)
      exact Nat.lt_succ_self _
    · obtain ⟨⟨v', rest'⟩, hv', heq⟩ := Option.map_eq_some_iff.1 h
      obtain ⟨-, rfl⟩ := Prod.mk.inj heq
      exact (ih hv').trans (Nat.lt_succ_self _)

/-- The delta is applied as it means exactly where it is so. -/
theorem applydelta_exact (room : Fin (2 ^ 30)) (base delta : List UInt8) :
    Meets room base delta ↔ Plain room base delta := by
  have hroom := room.2
  rcases hsrc : readvarint 0 0 delta with ⟨srcsize, rest⟩
  rcases htgt : readvarint 0 0 rest with ⟨tgtsize, rest'⟩
  simp only [Meets, Plain, applydelta, hsrc, htgt]
  by_cases hshort : delta.length < 2
  · simp only [if_pos hshort]
    refine ⟨fun _ => .inl hshort, fun _ => ⟨fun r => ⟨nofun, ?_⟩, nofun⟩⟩
    rintro ⟨-, -, d, d', hd, hd', -⟩
    have h1 := varint_length hd
    have h2 := varint_length hd'
    omega
  have hsizes : ∀ {r}, Makes base delta r → srcsize.toInt = base.length ∧
      tgtsize.toInt = r.length ∧ Builds base rest' r := by
    rintro r ⟨hbase, hr, d, d', hd, hd', hbuilds⟩
    obtain ⟨rfl, rfl⟩ := Prod.mk.inj (hsrc.symm.trans (readvarint_varint hd hbase))
    obtain ⟨rfl, rfl⟩ := Prod.mk.inj (htgt.symm.trans (readvarint_varint hd' hr))
    exact ⟨ofNat_toInt hbase, ofNat_toInt hr, hbuilds⟩
  rw [if_neg hshort, or_iff_right hshort]
  by_cases hbase : srcsize.toInt = base.length
  · have hbase31 : base.length < 2 ^ 31 := by
      have := srcsize.toInt_lt
      omega
    rw [if_neg (not_not.2 hbase), or_iff_right (not_not.2 hbase)]
    by_cases hneg : tgtsize.toInt < 0 ∨ room.1 < tgtsize.toInt
    · rw [if_pos hneg]
      exact ⟨fun h => absurd rfl h.2, fun h => by omega⟩
    · rw [if_neg hneg]
      obtain ⟨hok, hraises⟩ := commands_exact hbase31 (t := tgtsize.toInt) (by omega) rest'.length
        rest' [] le_rfl (by simp; omega)
      simp only [List.nil_append, exists_eq_left', List.length_nil] at hok hraises
      rw [ne_eq, hraises]
      constructor
      · rintro ⟨h, htraps⟩
        refine ⟨by omega, by omega, htraps, fun r hr hlen => ?_⟩
        obtain ⟨-, -, d, d', hd, hd', hbuilds⟩ := (h r).1 ((hok r).2 ⟨hr, hlen⟩)
        have hrlen : r.length < 2 ^ 31 := by omega
        obtain ⟨-, rfl⟩ := Prod.mk.inj (hsrc.symm.trans (readvarint_varint hd hbase31))
        obtain ⟨-, rfl⟩ := Prod.mk.inj (htgt.symm.trans (readvarint_varint hd' hrlen))
        exact ⟨hd, hd'⟩
      · rintro ⟨hpos, hle, htraps, hwhole⟩
        refine ⟨fun r => (hok r).trans ⟨fun ⟨hr, hlen⟩ => ?_, fun h => ?_⟩, htraps⟩
        · obtain ⟨hd, hd'⟩ := hwhole r hr hlen
          exact ⟨hbase31, by omega, rest, rest', hd, hd', hr⟩
        · obtain ⟨-, htoint, hbuilds⟩ := hsizes h
          exact ⟨hbuilds, htoint.symm⟩
  · rw [if_pos hbase, or_iff_left_of_imp fun _ => hbase]
    exact ⟨fun _ => hbase, fun _ => ⟨fun r => ⟨nofun, fun h => absurd (hsizes h).1 hbase⟩, nofun⟩⟩

/-- A copy with an operand missing raises, and sizes that are cut off make an empty result. -/
theorem applydelta_short : applydelta 16 [1, 2, 3] [3, 1, 0x91] = .raises ∧
    applydelta 16 [1, 2, 3] [0x83, 0x80] = .ok [] ∧ ¬Makes [1, 2, 3] [0x83, 0x80] [] := by
  refine ⟨by decide, by decide, ?_⟩
  rintro ⟨-, -, rest, rest', h, -⟩
  simp [varint] at h

end Infernode.Git.Delta
