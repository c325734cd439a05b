import Infernode.Qio.Blocks

/-!
# Surgery on block lists

`concatblock`, `copyblock`, `trimblock`, `pullblock`, `packblock`, `pullupblock` and the copying
of `qcopy`. A block is one of `allocb`, whose size is an `int`, and so is its length. `none` is a
nil block followed, or bytes read or written outside of a block. Next to its blocks a function
gives the blocks that it frees; it takes new blocks from the address `nid` on.
-/

namespace Infernode.Qio.Surgery

abbrev Blk := Block UInt8

def toint (n : ℤ) : ℤ := n.bmod (2 ^ 32)

def toulong (n : ℤ) : ℤ := n % 2 ^ 64

def alloc (nid : ℕ) (size : ℤ) : Option Blk :=
  if 0 ≤ size then some ⟨nid, 0, [], size.toNat⟩ else none

def put (b : Blk) (data : List UInt8) : Option Blk :=
  if data.length ≤ b.post then some (b.extend data) else none

def concatloop : Blk → List Blk → Option Blk
  | nb, [] => some nb
  | nb, f :: fs => do concatloop (← put nb f.data) fs

def concatblock (nid : ℕ) : List Blk → Option (List Blk × List ℕ)
  | [] => none
  | [bp] => some ([bp], [])
  | bp :: bp' :: bps => do
    let nb ← concatloop (← alloc nid (toint (blocklen (bp :: bp' :: bps)))) (bp :: bp' :: bps)
    return ([nb], (bp :: bp' :: bps).map Block.id)

def copyloop : ℕ → Blk → List Blk → Option (ℕ × Blk)
  | count, nbp, [] => some (count, nbp)
  | count, nbp, bp :: bps =>
    if count = 0 then some (0, nbp)
    else do
      let l := if count < bp.BLEN then count else bp.BLEN
      copyloop (count - l) (← put nbp (bp.data.take l)) bps

def copyblock (nid : ℕ) (bps : List Blk) (count : ℤ) : Option Blk := do
  let (count, nbp) ← copyloop count.toNat (← alloc nid count) bps
  if 0 < count then put nbp (List.replicate count 0) else some nbp

def trimskip : ℕ → List Blk → Option (ℕ × List Blk × List ℕ)
  | _, [] => none
  | offset, bp :: bps =>
    if bp.BLEN < offset then do
      let (offset, l, freed) ← trimskip (offset - bp.BLEN) bps
      return (offset, l, bp.id :: freed)
    else some (offset, bp :: bps, [])

def trimcut : ℕ → List Blk → Option (List Blk × List ℕ)
  | _, [] => none
  | len, bp :: bps =>
    if bp.BLEN < len then do
      let (l, freed) ← trimcut (len - bp.BLEN) bps
      return (bp :: l, freed)
    else some ([bp.cut len], bps.map Block.id)

def trimblock (bps : List Blk) (offset len : ℤ) : Option (List Blk × List ℕ) :=
  if offset < 0 ∨ len < 0 then some ([], bps.map Block.id)
  else if toint (blocklen bps) < toint (offset + len) then some ([], bps.map Block.id)
  else do
    match ← trimskip offset.toNat bps with
    | (_, [], _) => none
    | (offset, bp :: bps, freed) =>
      let (l, freed') ← trimcut len.toNat (bp.advance offset :: bps)
      return (l, freed ++ freed')

def pullblock : List Blk → ℕ → List Blk × List ℕ × ℕ
  | [], _ => ([], [], 0)
  | bp :: bps, count =>
    if count = 0 then (bp :: bps, [], 0)
    else
      let n := if count < bp.BLEN then count else bp.BLEN
      if (bp.advance n).BLEN = 0 then
        let (l, freed, bytes) := pullblock bps (count - n)
        (l, bp.id :: freed, n + bytes)
      else (bp.advance n :: bps, [], n)

def packblock : ℕ → List Blk → Option (List Blk × List ℕ)
  | _, [] => some ([], [])
  | nid, nbp :: bps =>
    if toint (nbp.BLEN * 4) < nbp.BALLOC then do
      let b ← put (← alloc nid nbp.BLEN) nbp.data
      let (l, freed) ← packblock (nid + 1) bps
      return (b :: l, nbp.id :: freed)
    else do
      let (l, freed) ← packblock nid bps
      return (nbp :: l, freed)

def pulluploop (bp : Blk) : List Blk → ℕ → Option (List Blk × List ℕ)
  | [], _ => some ([], [bp.id])
  | nbp :: bps, n =>
    if n < nbp.BLEN then do
      let bp ← put bp (nbp.data.take n)
      return (bp :: nbp.advance n :: bps, [])
    else do
      let bp' ← put bp nbp.data
      if n - nbp.BLEN = 0 then return (bp' :: bps, [nbp.id])
      else
        let (l, freed) ← pulluploop bp' bps (n - nbp.BLEN)
        return (l, nbp.id :: freed)

def pullupblock (nid : ℕ) (bps : List Blk) (n : ℤ) : Option (List Blk × List ℕ) :=
  match bps with
  | [] => none
  | bp :: bps =>
    if n ≤ bp.BLEN then some (bp :: bps, [])
    else if bp.BLEN + bp.post < n then do pulluploop (← alloc nid n) (bp :: bps) n.toNat
    else pulluploop bp bps (n - bp.BLEN).toNat

def window (b : Blk) (off n : ℤ) : Option (List UInt8) :=
  if n = 0 then some []
  else if 0 ≤ off ∧ 0 ≤ n ∧ off + n ≤ b.BLEN then some ((b.data.drop off.toNat).take n.toNat)
  else none

def qcopyloop (nb : Blk) (len offset : ℕ) : ℤ → List Blk → Option Blk
  | _, [] => some nb
  | sofar, b :: bs =>
    if offset < toulong (toint (sofar + b.BLEN)) then
      if len = 0 then some nb
      else do
        let n := toint (b.BLEN - (offset - sofar))
        let n := if len < n then (len : ℤ) else n
        let nb ← put nb (← window b (offset - sofar) n)
        let (_, nb) ← copyloop (len - n.toNat) nb bs
        return nb
    else qcopyloop nb len offset (toint (sofar + b.BLEN)) bs

def qcopy (nid : ℕ) (q : Queue UInt8) (len : ℤ) (offset : ℕ) : Option Blk := do
  qcopyloop (← alloc nid len) len.toNat offset 0 q.bfirst

/-- Each block is freed once or linked once, and one that was there has the room it had. -/
structure Settled (nid made : ℕ) (l l' : List Blk) (freed : List ℕ) : Prop where
  once : (l'.map Block.id ++ freed).Perm (l.map Block.id ++ List.range' nid made)
  kept : ∀ b' ∈ l', b'.id ∈ List.range' nid made ∨
    ∃ b ∈ l, b'.id = b.id ∧ b'.BALLOC = b.BALLOC

variable {nid made n offset count : ℕ} {b nb bp : Blk} {l l' bs bps : List Blk} {freed : List ℕ}
  {x y : List UInt8}

theorem put_of_le (h : x.length ≤ b.post) : put b x = some (b.extend x) := if_pos h

theorem alloc_of_nonneg (nid n : ℕ) : alloc nid n = some ⟨nid, 0, [], n⟩ :=
  if_pos (Int.natCast_nonneg n)

theorem extend_extend (b : Blk) (x y : List UInt8) :
    (b.extend x).extend y = b.extend (x ++ y) := by
  simp only [Block.extend, List.append_assoc, List.length_append, Nat.sub_sub]

theorem extend_nil (b : Blk) : b.extend [] = b := by simp [Block.extend]

theorem BALLOC_extend (h : x.length ≤ b.post) : (b.extend x).BALLOC = b.BALLOC := by
  simp only [Block.BALLOC, Block.extend, List.length_append]
  omega

theorem BALLOC_cut (h : n ≤ b.BLEN) : (b.cut n).BALLOC = b.BALLOC := by
  simp only [Block.BLEN] at h
  simp only [Block.BALLOC, Block.cut, List.length_take]
  omega

theorem toint_of_lt (h : n < 2 ^ 31) : toint n = n := by
  refine Int.bmod_eq_of_le ?_ ?_
  · norm_num
  · norm_num
    omega

theorem toint_range (n : ℤ) : -2 ^ 31 ≤ toint n ∧ toint n < 2 ^ 31 := by
  have hge := Int.le_bmod (x := n) (by norm_num : 0 < 2 ^ 32)
  have hlt := Int.bmod_lt (x := n) (by norm_num : 0 < 2 ^ 32)
  rw [toint]
  generalize n.bmod (2 ^ 32) = b at hge hlt
  norm_num at hge hlt
  omega

theorem Settled.refl (nid : ℕ) (l : List Blk) : Settled nid 0 l l [] :=
  ⟨by simp, fun b hb => .inr ⟨b, hb, rfl, rfl⟩⟩

section Copying

theorem concatloop_eq (h : blocklen bs ≤ nb.post) :
    concatloop nb bs = some (nb.extend (bytes bs)) := by
  induction bs generalizing nb with
  | nil => rw [concatloop, bytes_nil, extend_nil]
  | cons b bs ih =>
    rw [blocklen_cons, Block.BLEN] at h
    have hroom : blocklen bs ≤ (nb.extend b.data).post := by
      simp only [Block.extend]
      omega
    rw [concatloop, put_of_le (by omega), Option.bind_eq_bind, Option.bind_some, ih hroom,
      extend_extend, bytes_cons]

theorem concatloop_none (h : nb.post < blocklen bs) : concatloop nb bs = none := by
  induction bs generalizing nb with
  | nil => simp at h
  | cons b bs ih =>
    rw [blocklen_cons, Block.BLEN] at h
    rw [concatloop, put]
    split_ifs with hfit
    · refine ih ?_
      simp only [Block.extend]
      omega
    · rfl

theorem copyloop_eq (h : n ≤ nb.post) :
    copyloop n nb bs = some (n - blocklen bs, nb.extend ((bytes bs).take n)) := by
  induction bs generalizing n nb with
  | nil => rw [copyloop, bytes_nil, List.take_nil, extend_nil, blocklen_nil, Nat.sub_zero]
  | cons b bs ih =>
    rw [copyloop]
    by_cases hn : n = 0
    · rw [if_pos hn, hn, List.take_zero, extend_nil, Nat.zero_sub]
    obtain ⟨k, hk⟩ : ∃ k, k = if n < b.BLEN then n else b.BLEN := ⟨_, rfl⟩
    have hmin : k = min n b.BLEN := by
      rw [hk]
      split_ifs <;> omega
    have hlen : (b.data.take k).length = k := by
      rw [List.length_take, hmin, Block.BLEN]
      omega
    have hroom : n - k ≤ (nb.extend (b.data.take k)).post := by
      simp only [Block.extend, hlen]
      omega
    have htake : b.data.take k ++ (bytes bs).take (n - k) = (bytes (b :: bs)).take n := by
      rw [bytes_cons, List.take_append, hmin, Block.BLEN, ← List.take_take, List.take_length]
      congr 2
      omega
    have hput : put nb (b.data.take k) = some (nb.extend (b.data.take k)) :=
      put_of_le (by rw [hlen]; omega)
    simp only [if_neg hn, ← hk, hput, Option.bind_eq_bind, Option.bind_some]
    rw [ih hroom, extend_extend, htake, blocklen_cons]
    congr 2
    omega

theorem concatblock_two (bp' : Blk) :
    concatblock nid (bp :: bp' :: bps) =
      (alloc nid (toint (blocklen (bp :: bp' :: bps)))).bind fun nb =>
        (concatloop nb (bp :: bp' :: bps)).map fun nb =>
          ([nb], (bp :: bp' :: bps).map Block.id) := by
  simp only [concatblock, Option.bind_eq_bind, Option.pure_def, Option.map_eq_bind]
  rfl

theorem concatblock_exact (nid : ℕ) (hne : l ≠ []) :
    (∃ b freed made, concatblock nid l = some ([b], freed) ∧ b.data = bytes l ∧
      Settled nid made l [b] freed) ↔ l.length = 1 ∨ blocklen l < 2 ^ 31 := by
  obtain - | ⟨bp, bps⟩ := l
  · exact absurd rfl hne
  obtain - | ⟨bp', bps⟩ := bps
  · have hone : concatblock nid [bp] = some ([bp], []) := rfl
    have hdata : bp.data = bytes [bp] := by simp [bytes]
    exact iff_of_true ⟨bp, [], 0, hone, hdata, Settled.refl nid [bp]⟩ (Or.inl List.length_singleton)
  obtain ⟨l, hl⟩ : ∃ l, l = bp :: bp' :: bps := ⟨_, rfl⟩
  have hcode : concatblock nid l = (alloc nid (toint (blocklen l))).bind fun nb =>
      (concatloop nb l).map fun nb => ([nb], l.map Block.id) := by
    rw [hl, concatblock_two]
  have hlen : l.length ≠ 1 := by simp [hl]
  rw [← hl, or_iff_right hlen, hcode]
  constructor
  · rintro ⟨b, freed, made, hsome, -⟩
    by_contra hbig
    have hint := toint_range (blocklen l)
    rw [alloc] at hsome
    split_ifs at hsome with h0
    · rw [Option.bind_some, concatloop_none (by simp only; omega)] at hsome
      simp at hsome
    · simp at hsome
  · intro hlt
    rw [toint_of_lt hlt, alloc_of_nonneg, Option.bind_some, concatloop_eq le_rfl]
    refine ⟨_, _, 1, rfl, by simp [Block.extend], ?_, fun b hb => .inl ?_⟩
    · exact @List.perm_append_comm _ [nid] (l.map Block.id)
    · rw [List.mem_singleton.1 hb]
      simp [Block.extend]

theorem copyblock_eq (nid n : ℕ) (l : List Blk) : ∃ b, copyblock nid l n = some b ∧ b.id = nid ∧
    b.BALLOC = n ∧ b.data = (bytes l).take n ++ List.replicate (n - blocklen l) 0 := by
  have hlen : ((bytes l).take n).length = min n (blocklen l) := by
    rw [List.length_take, bytes_length]
  have hloop : copyloop n ⟨nid, 0, [], n⟩ l = some (n - blocklen l, _) := copyloop_eq le_rfl
  rw [copyblock, alloc_of_nonneg, Int.toNat_natCast, Option.bind_eq_bind, Option.bind_some, hloop,
    Option.bind_eq_bind, Option.bind_some]
  simp only
  split_ifs with hpos
  · have hroom : (List.replicate (n - blocklen l) (0 : UInt8)).length ≤
        (Block.extend ⟨nid, 0, [], n⟩ ((bytes l).take n)).post := by
      simp only [Block.extend, List.length_replicate, hlen]
      omega
    refine ⟨_, put_of_le hroom, rfl, ?_, rfl⟩
    rw [BALLOC_extend hroom, BALLOC_extend (by simp only [hlen]; omega)]
    simp [Block.BALLOC]
  · have hzero : n - blocklen l = 0 := by omega
    refine ⟨_, rfl, rfl, ?_, by simp [Block.extend, hzero]⟩
    rw [BALLOC_extend (by simp only [hlen]; omega)]
    simp [Block.BALLOC]

end Copying

section Trimming

theorem trimskip_eq (h : offset ≤ blocklen l) (hne : l ≠ []) :
    ∃ o bp bps freed, trimskip offset l = some (o, bp :: bps, freed) ∧ o ≤ bp.BLEN ∧
      bytes (bp :: bps) = (bytes l).drop (offset - o) ∧ o ≤ offset ∧
      (∃ front, l = front ++ bp :: bps ∧ freed = front.map Block.id) := by
  induction l generalizing offset with
  | nil => exact absurd rfl hne
  | cons b l ih =>
    rw [trimskip]
    rw [blocklen_cons] at h
    by_cases hb : b.BLEN < offset
    · have hne' : l ≠ [] := by
        rintro rfl
        simp at h
        omega
      obtain ⟨o, bp, bps, freed, hskip, ho, hbytes, hle, front, rfl, rfl⟩ :=
        ih (by omega : offset - b.BLEN ≤ blocklen l) hne'
      refine ⟨o, bp, bps, b.id :: front.map Block.id, ?_, ho, ?_, by omega, b :: front, rfl, rfl⟩
      · rw [if_pos hb, hskip]
        rfl
      · have hoff : offset - o = b.data.length + (offset - b.BLEN - o) := by
          rw [Block.BLEN] at *
          omega
        rw [hbytes, bytes_cons, hoff, List.drop_length_add_append]
    · refine ⟨offset, b, l, [], if_neg hb, by omega, by simp, le_rfl, [], rfl, rfl⟩

theorem trimcut_eq (h : n ≤ blocklen l) (hne : l ≠ []) :
    ∃ l' back, trimcut n l = some (l', back.map Block.id) ∧ l' ≠ [] ∧
      bytes l' = (bytes l).take n ∧
      (∃ front b, l = front ++ b :: back ∧ ∃ k ≤ b.BLEN, l' = front ++ [b.cut k]) := by
  induction l generalizing n with
  | nil => exact absurd rfl hne
  | cons b l ih =>
    rw [trimcut]
    rw [blocklen_cons] at h
    by_cases hb : b.BLEN < n
    · have hne' : l ≠ [] := by
        rintro rfl
        simp at h
        omega
      obtain ⟨l', back, hcut, -, hbytes, front, c, rfl, k, hk, rfl⟩ :=
        ih (by omega : n - b.BLEN ≤ blocklen l) hne'
      refine ⟨b :: (front ++ [c.cut k]), back, ?_, by simp, ?_, b :: front, c, rfl, k, hk, rfl⟩
      · rw [if_pos hb, hcut]
        rfl
      · rw [bytes_cons, hbytes, bytes_cons b, List.take_append, List.take_of_length_le hb.le]
        rfl
    · refine ⟨[b.cut n], l, if_neg hb, by simp, ?_, [], b, rfl, n, by omega, rfl⟩
      rw [bytes_cons, bytes_nil, List.append_nil, bytes_cons, List.take_append_of_le_length]
      · rfl
      · exact not_lt.1 hb

theorem Settled.all (nid : ℕ) (l : List Blk) : Settled nid 0 l [] (l.map Block.id) :=
  ⟨by simp, by simp⟩

/-- The bytes asked for where there are that many, and nil where there are not. -/
def Trimmed (l : List Blk) (offset len : ℤ) (l' : List Blk) : Prop :=
  if 0 ≤ offset ∧ 0 ≤ len ∧ offset + len ≤ blocklen l then
    l' ≠ [] ∧ bytes l' = ((bytes l).drop offset.toNat).take len.toNat
  else l' = []

theorem trimcut_ne_nil (h : trimcut n l = some (l', freed)) : l' ≠ [] := by
  cases l with
  | nil => simp [trimcut] at h
  | cons b l =>
    simp only [trimcut] at h
    split_ifs at h
    · simp only [Option.bind_eq_bind, Option.bind_eq_some_iff, Option.pure_def, Option.some.injEq,
        Prod.mk.injEq] at h
      obtain ⟨_, -, rfl, -⟩ := h
      simp
    · simp only [Option.some.injEq, Prod.mk.injEq] at h
      obtain ⟨rfl, -⟩ := h
      simp

theorem trimblock_fits (nid : ℕ) {o n : ℕ} (hne : l ≠ []) (h : o + n ≤ blocklen l) :
    ∃ l' freed, (do
      match ← trimskip o l with
      | (_, [], _) => none
      | (offset, bp :: bps, freed) =>
        let (l, freed') ← trimcut n (bp.advance offset :: bps)
        return (l, freed ++ freed')) = some (l', freed) ∧ Settled nid 0 l l' freed ∧ l' ≠ [] ∧
          bytes l' = ((bytes l).drop o).take n := by
  obtain ⟨k, bp, bps, freed, hskip, hk, hbytes, hle, front, hl, rfl⟩ :=
    trimskip_eq (by omega : o ≤ blocklen l) hne
  have hadv : bytes (bp.advance k :: bps) = (bytes l).drop o := by
    have hko : o = o - k + k := by omega
    rw [hko, ← List.drop_drop, ← hbytes, bytes_cons, bytes_cons, List.drop_append_of_le_length hk]
    rfl
  have hlen : n ≤ blocklen (bp.advance k :: bps) := by
    rw [← bytes_length, hadv, List.length_drop, bytes_length]
    omega
  obtain ⟨l', back, hcut, hne', hbytes', front', c, hsplit, j, hj, rfl⟩ :=
    trimcut_eq hlen (by simp)
  refine ⟨front' ++ [c.cut j], front.map Block.id ++ back.map Block.id, ?_, ?_, hne',
    by rw [hbytes', hadv]⟩
  · rw [hskip, Option.bind_eq_bind, Option.bind_some]
    simp only [hcut]
    rfl
  have hids : (bp :: bps).map Block.id = front'.map Block.id ++ c.id :: back.map Block.id := by
    have := congrArg (List.map Block.id) hsplit
    simpa [Block.advance] using this
  constructor
  · have hperm : (front'.map Block.id ++ [c.id] ++
        (front.map Block.id ++ back.map Block.id)).Perm
          (front.map Block.id ++ (bp :: bps).map Block.id) := by
      rw [hids]
      simpa using List.perm_append_comm_assoc (front'.map Block.id ++ [c.id])
        (front.map Block.id) (back.map Block.id)
    simpa [hl, Block.cut] using hperm
  · intro b' hb'
    refine .inr ?_
    obtain ⟨b, hb, hid, halloc⟩ : ∃ b ∈ bp.advance k :: bps, b'.id = b.id ∧
        b'.BALLOC = b.BALLOC := by
      rw [hsplit]
      obtain hb' | hb' := List.mem_append.1 hb'
      · exact ⟨b', by simp [hb'], rfl, rfl⟩
      · obtain rfl := List.mem_singleton.1 hb'
        exact ⟨c, by simp, rfl, BALLOC_cut hj⟩
    rw [hl]
    obtain rfl | hb := List.mem_cons.1 hb
    · exact ⟨bp, by simp, hid, halloc.trans (BALLOC_advance hk)⟩
    · exact ⟨b, by simp [hb], hid, halloc⟩

theorem trimblock_exact (nid : ℕ) (hne : l ≠ []) (offset len : ℤ) :
    (∃ l' freed, trimblock l offset len = some (l', freed) ∧ Settled nid 0 l l' freed ∧
      Trimmed l offset len l') ↔
        (0 ≤ offset → 0 ≤ len → (toint (blocklen l) < toint (offset + len) ↔
          (blocklen l : ℤ) < offset + len)) := by
  rw [trimblock]
  by_cases hneg : offset < 0 ∨ len < 0
  · refine iff_of_true ⟨[], _, if_pos hneg, Settled.all nid l, ?_⟩ fun h0 h1 => by omega
    rw [Trimmed, if_neg (by omega)]
  rw [if_neg hneg]
  obtain ⟨o, ho⟩ : ∃ o : ℕ, offset = o := ⟨offset.toNat, by omega⟩
  obtain ⟨n, hn⟩ : ∃ n : ℕ, len = n := ⟨len.toNat, by omega⟩
  subst ho hn
  simp only [Int.natCast_nonneg, forall_const, Int.toNat_natCast]
  by_cases hcheck : toint (blocklen l) < toint (o + n)
  · rw [if_pos hcheck, iff_true_left hcheck]
    constructor
    · rintro ⟨l', freed, hsome, -, htrim⟩
      by_contra hfit
      rw [Trimmed, if_pos (by omega)] at htrim
      simp only [Option.some.injEq, Prod.mk.injEq] at hsome
      exact htrim.1 hsome.1.symm
    · intro hshort
      refine ⟨[], _, rfl, Settled.all nid l, ?_⟩
      rw [Trimmed, if_neg (by omega)]
  · rw [if_neg hcheck, iff_false_left hcheck]
    constructor
    · rintro ⟨l', freed, hsome, -, htrim⟩ hshort
      rw [Trimmed, if_neg (by omega)] at htrim
      simp only [Option.bind_eq_bind, Option.bind_eq_some_iff] at hsome
      obtain ⟨⟨k, l₁, freed₁⟩, -, hsome⟩ := hsome
      cases l₁ with
      | nil => simp at hsome
      | cons bp bps =>
        simp only [Option.bind_eq_some_iff, Option.pure_def, Option.some.injEq,
          Prod.mk.injEq] at hsome
        obtain ⟨⟨l₂, freed₂⟩, hcut, rfl, -⟩ := hsome
        exact trimcut_ne_nil hcut htrim
    · intro hfit
      obtain ⟨l', freed, hsome, hsettled, hne', hbytes⟩ :=
        trimblock_fits nid hne (by omega : o + n ≤ blocklen l)
      refine ⟨l', freed, hsome, hsettled, ?_⟩
      rw [Trimmed, if_pos (by omega)]
      exact ⟨hne', hbytes⟩

end Trimming

section Pulling

theorem Settled.cons_freed (h : Settled nid made l l' freed) (b : Blk) :
    Settled nid made (b :: l) l' (b.id :: freed) := by
  refine ⟨List.perm_middle.trans (h.once.cons b.id), fun b' hb' => ?_⟩
  refine (h.kept b' hb').imp_right fun ⟨c, hc, hid, halloc⟩ => ?_
  exact ⟨c, List.mem_cons_of_mem b hc, hid, halloc⟩

theorem Settled.cons (h : Settled nid made l l' freed) (b b' : Blk) (hid : b'.id = b.id)
    (halloc : b'.BALLOC = b.BALLOC) : Settled nid made (b :: l) (b' :: l') freed := by
  refine ⟨?_, fun c' hc' => ?_⟩
  · rw [List.map_cons, List.map_cons, hid]
    exact h.once.cons b.id
  · obtain rfl | hc' := List.mem_cons.1 hc'
    · exact .inr ⟨b, List.mem_cons_self, hid, halloc⟩
    · refine (h.kept c' hc').imp_right fun ⟨c, hc, hcid, hcalloc⟩ => ?_
      exact ⟨c, List.mem_cons_of_mem b hc, hcid, hcalloc⟩

theorem Settled.of_cons (b : Blk) {b' : Blk} (h : Settled nid made (b' :: l) l' freed)
    (hid : b'.id = b.id) (halloc : b'.BALLOC = b.BALLOC) :
    Settled nid made (b :: l) l' freed := by
  refine ⟨?_, fun c' hc' => ?_⟩
  · have := h.once
    rwa [List.map_cons, hid] at this
  · refine (h.kept c' hc').imp_right fun ⟨c, hc, hcid, hcalloc⟩ => ?_
    obtain rfl | hc := List.mem_cons.1 hc
    · exact ⟨b, List.mem_cons_self, hcid.trans hid, hcalloc.trans halloc⟩
    · exact ⟨c, List.mem_cons_of_mem b hc, hcid, hcalloc⟩

theorem pullblock_eq (nid : ℕ) (l : List Blk) (count : ℕ) : ∃ l' freed,
    pullblock l count = (l', freed, min count (blocklen l)) ∧
      bytes l' = (bytes l).drop (min count (blocklen l)) ∧ Settled nid 0 l l' freed := by
  induction l generalizing count with
  | nil => exact ⟨[], [], by simp [pullblock], by simp, Settled.refl nid []⟩
  | cons b l ih =>
    rw [pullblock]
    by_cases h0 : count = 0
    · subst h0
      exact ⟨b :: l, [], by simp, by simp, Settled.refl nid _⟩
    rw [if_neg h0]
    by_cases hcount : count < b.BLEN
    · have hmin : min count (blocklen (b :: l)) = count := by
        rw [blocklen_cons]
        omega
      simp only [if_pos hcount, BLEN_advance, if_neg (by omega : ¬b.BLEN - count = 0), hmin]
      refine ⟨_, _, rfl, ?_,
        (Settled.refl nid l).cons b (b.advance count) rfl (BALLOC_advance hcount.le)⟩
      rw [bytes_cons, bytes_cons, List.drop_append_of_le_length hcount.le]
      rfl
    · obtain ⟨l', freed, hpull, hbytes, hsettled⟩ := ih (count - b.BLEN)
      have hmin : b.BLEN + min (count - b.BLEN) (blocklen l) =
          min count (blocklen (b :: l)) := by
        rw [blocklen_cons]
        omega
      simp only [if_neg hcount, BLEN_advance, Nat.sub_self, if_true, hpull]
      refine ⟨l', b.id :: freed, by rw [hmin], ?_, hsettled.cons_freed b⟩
      rw [hbytes, ← hmin, bytes_cons]
      exact (List.drop_length_add_append _).symm

theorem packblock_eq (nid : ℕ) (l : List Blk) : ∃ l' freed,
    packblock nid l = some (l', freed) ∧ bytes l' = bytes l ∧
      Settled nid freed.length l l' freed := by
  induction l generalizing nid with
  | nil => exact ⟨[], [], rfl, rfl, Settled.refl nid []⟩
  | cons b l ih =>
    rw [packblock]
    split_ifs with hsparse
    · obtain ⟨l', freed, hpack, hbytes, hsettled⟩ := ih (nid + 1)
      have hput : put ⟨nid, 0, [], b.BLEN⟩ b.data = some ⟨nid, 0, b.data, 0⟩ := by
        rw [put_of_le le_rfl]
        simp [Block.extend, Block.BLEN]
      refine ⟨⟨nid, 0, b.data, 0⟩ :: l', b.id :: freed, ?_, by simp [hbytes], ?_, ?_⟩
      · simp only [alloc_of_nonneg, hput, hpack, Option.bind_eq_bind, Option.bind_some]
        rfl
      · have hrange : List.range' nid (freed.length + 1) =
            nid :: List.range' (nid + 1) freed.length := List.range'_succ
        rw [List.length_cons, hrange, List.map_cons, List.map_cons]
        refine (List.Perm.cons nid (List.perm_middle.trans (hsettled.once.cons b.id))).trans ?_
        exact (@List.perm_middle _ nid (b.id :: l.map Block.id) _).symm
      · intro b' hb'
        rw [List.length_cons, List.range'_succ]
        obtain rfl | hb' := List.mem_cons.1 hb'
        · exact .inl List.mem_cons_self
        · refine (hsettled.kept b' hb').imp (List.mem_cons_of_mem nid) ?_
          rintro ⟨c, hc, h⟩
          exact ⟨c, List.mem_cons_of_mem b hc, h⟩
    · obtain ⟨l', freed, hpack, hbytes, hsettled⟩ := ih nid
      refine ⟨b :: l', freed, ?_, by simp [hbytes], hsettled.cons b b rfl rfl⟩
      rw [hpack]
      rfl

/-- The list with its first block of at least `n` bytes, and nil where there are fewer. -/
def Pulledup (l : List Blk) (n : ℤ) (l' : List Blk) : Prop :=
  if n ≤ blocklen l then ∃ b bs, l' = b :: bs ∧ n ≤ b.BLEN ∧ bytes l' = bytes l else l' = []

theorem pulluploop_eq (nid : ℕ) (h0 : 0 < n) (hroom : n ≤ bp.post) : ∃ l' freed,
    pulluploop bp bps n = some (l', freed) ∧ Settled nid 0 (bp :: bps) l' freed ∧
      Pulledup (bp :: bps) (bp.BLEN + n) l' := by
  induction bps generalizing bp n with
  | nil =>
    refine ⟨[], [bp.id], rfl, Settled.all nid [bp], ?_⟩
    rw [Pulledup, if_neg]
    simp
    omega
  | cons nbp bps ih =>
    rw [pulluploop]
    by_cases hlt : n < nbp.BLEN
    · have htake : (nbp.data.take n).length = n := List.length_take_of_le hlt.le
      refine ⟨bp.extend (nbp.data.take n) :: nbp.advance n :: bps, [], ?_, ?_, ?_⟩
      · rw [if_pos hlt, put_of_le (by rw [htake]; exact hroom)]
        rfl
      · have hnext := (Settled.refl nid bps).cons nbp (nbp.advance n) rfl (BALLOC_advance hlt.le)
        exact hnext.cons bp (bp.extend (nbp.data.take n)) rfl
          (BALLOC_extend (by rw [htake]; exact hroom))
      · rw [Pulledup, if_pos (by rw [blocklen_cons, blocklen_cons]; omega)]
        refine ⟨_, _, rfl, ?_, ?_⟩
        · simp [Block.BLEN, Block.extend, htake]
        · simp only [bytes_cons, Block.extend, Block.advance, List.append_assoc]
          rw [← List.append_assoc (nbp.data.take n), List.take_append_drop]
    rw [if_neg hlt]
    have hfit : nbp.data.length ≤ bp.post := (not_lt.1 hlt).trans hroom
    have hput : put bp nbp.data = some (bp.extend nbp.data) := put_of_le hfit
    have hlen : (bp.extend nbp.data).BLEN = bp.BLEN + nbp.BLEN := by
      simp [Block.BLEN, Block.extend]
    have hsame : bytes (bp.extend nbp.data :: bps) = bytes (bp :: nbp :: bps) := by
      simp [Block.extend]
    by_cases hdone : n - nbp.BLEN = 0
    · refine ⟨bp.extend nbp.data :: bps, [nbp.id], ?_, ?_, ?_⟩
      · rw [hput, Option.bind_eq_bind, Option.bind_some, if_pos hdone]
        rfl
      · exact ((Settled.refl nid bps).cons_freed nbp).cons bp (bp.extend nbp.data) rfl
          (BALLOC_extend hfit)
      · rw [Pulledup, if_pos (by rw [blocklen_cons, blocklen_cons]; omega)]
        exact ⟨_, _, rfl, by rw [hlen]; omega, hsame⟩
    · obtain ⟨l', freed, hloop, hsettled, hpulled⟩ := @ih (n - nbp.BLEN) (bp.extend nbp.data)
        (by omega) (by simp only [Block.extend]; rw [Block.BLEN] at *; omega)
      refine ⟨l', nbp.id :: freed, ?_, ?_, ?_⟩
      · rw [hput, Option.bind_eq_bind, Option.bind_some, if_neg hdone, hloop]
        rfl
      · have hfront := (Settled.of_cons bp hsettled rfl (BALLOC_extend hfit)).cons_freed nbp
        refine ⟨hfront.once.trans ?_, fun b' hb' => ?_⟩
        · exact List.Perm.swap _ _ _
        · refine (hfront.kept b' hb').imp_right (.imp fun c h => ⟨?_, h.2⟩)
          exact (List.Perm.swap bp nbp bps).mem_iff.1 h.1
      · have hsum : ((bp.extend nbp.data).BLEN : ℤ) + (n - nbp.BLEN : ℕ) = bp.BLEN + n := by
          rw [hlen]
          omega
        rw [hsum] at hpulled
        rw [Pulledup, ← hsame]
        have hblock : blocklen (bp :: nbp :: bps) = blocklen (bp.extend nbp.data :: bps) := by
          rw [← bytes_length, ← hsame, bytes_length]
        rw [hblock]
        exact hpulled

theorem pullupblock_eq (nid : ℕ) (hne : l ≠ []) (n : ℤ) : ∃ l' freed made,
    pullupblock nid l n = some (l', freed) ∧ Settled nid made l l' freed ∧ Pulledup l n l' := by
  obtain ⟨bp, bps, rfl⟩ := List.exists_cons_of_ne_nil hne
  rw [pullupblock]
  by_cases hfull : n ≤ bp.BLEN
  · refine ⟨_, [], 0, if_pos hfull, Settled.refl nid _, ?_⟩
    rw [Pulledup, if_pos (by rw [blocklen_cons]; omega)]
    exact ⟨bp, bps, rfl, hfull, rfl⟩
  rw [if_neg hfull]
  obtain ⟨m, rfl⟩ : ∃ m : ℕ, n = m := ⟨n.toNat, by omega⟩
  by_cases hroom : (bp.BLEN : ℤ) + bp.post < m
  · obtain ⟨l', freed, hloop, hsettled, hpulled⟩ :=
      @pulluploop_eq m ⟨nid, 0, [], m⟩ (bp :: bps) nid (by omega) le_rfl
    refine ⟨l', freed, 1, ?_, ⟨?_, fun b' hb' => ?_⟩, ?_⟩
    · rw [if_pos hroom, alloc_of_nonneg, Int.toNat_natCast, Option.bind_eq_bind, Option.bind_some,
        hloop]
    · refine hsettled.once.trans ?_
      simpa using (List.perm_append_singleton nid ((bp :: bps).map Block.id)).symm
    · obtain hb' | ⟨c, hc, hid, halloc⟩ := hsettled.kept b' hb'
      · simp at hb'
      · obtain rfl | hc := List.mem_cons.1 hc
        · exact .inl (by simp [hid])
        · exact .inr ⟨c, hc, hid, halloc⟩
    · simpa [Pulledup, Block.BLEN] using hpulled
  · rw [if_neg hroom]
    obtain ⟨l', freed, hloop, hsettled, hpulled⟩ :=
      @pulluploop_eq (m - bp.BLEN) bp bps nid (by omega) (by omega)
    have hsub : ((m : ℤ) - bp.BLEN).toNat = m - bp.BLEN := by omega
    have hsum : (bp.BLEN : ℤ) + (m - bp.BLEN : ℕ) = m := by omega
    rw [hsum] at hpulled
    exact ⟨l', freed, 0, by rw [hsub, hloop], hsettled, hpulled⟩

end Pulling

section Queued

variable {q : Queue UInt8} {c : ℕ}

theorem window_eq {off k : ℕ} (h : off + k ≤ b.BLEN) :
    window b off k = some ((b.data.drop off).take k) := by
  rw [window]
  split_ifs with h0 hin
  · have hk : k = 0 := by omega
    rw [hk, List.take_zero]
  · rw [Int.toNat_natCast, Int.toNat_natCast]
  · omega

theorem toulong_nonneg {n : ℤ} (h0 : 0 ≤ n) (h : n < 2 ^ 31) : toulong n = n :=
  Int.emod_eq_of_lt h0 (h.trans (by norm_num))

theorem toulong_wrapped (h : 2 ^ 31 ≤ n) (h' : n < 2 ^ 32) :
    (n : ℤ) < toulong (toint n) := by
  have hint : toint n = n - 2 ^ 32 := by
    have hmod : (n : ℤ).bmod (2 ^ 32) = (n - 2 ^ 32 : ℤ).bmod (2 ^ 32) :=
      (Int.sub_bmod_right (n : ℤ) (2 ^ 32)).symm
    rw [toint, hmod]
    refine Int.bmod_eq_of_le ?_ ?_ <;> (norm_num; omega)
  have hneg : toulong (n - 2 ^ 32) = n - 2 ^ 32 + 2 ^ 64 := by
    rw [toulong, ← Int.add_emod_right]
    exact Int.emod_eq_of_lt (by omega) (by omega)
  rw [hint, hneg]
  omega

theorem qcopyloop_empty (nb : Blk) (offset : ℕ) (sofar : ℤ) (bs : List Blk) :
    qcopyloop nb 0 offset sofar bs = some nb := by
  induction bs generalizing sofar with
  | nil => rfl
  | cons b bs ih =>
    rw [qcopyloop, if_pos rfl]
    split_ifs
    · rfl
    · exact ih _

def Near (c offset : ℕ) (bs : List Blk) : Prop :=
  ∀ front back, bs = front ++ back → c + blocklen front < 2 ^ 31 ∨ offset ≤ c + blocklen front

theorem Near.tail (h : Near c offset (b :: bs)) : Near (c + b.BLEN) offset bs :=
  fun front back hbs => by
    have := h (b :: front) back (by rw [hbs]; rfl)
    rwa [blocklen_cons, ← Nat.add_assoc] at this

theorem qcopyloop_eq {len : ℕ} (hsize : ∀ b ∈ bs, b.BALLOC < 2 ^ 31) (hroom : len ≤ nb.post)
    (hc : c < 2 ^ 31) (hoff : c ≤ offset) (hlen : len < 2 ^ 31) (hnear : Near c offset bs) :
    qcopyloop nb len offset c bs =
      some (nb.extend (((bytes bs).drop (offset - c)).take len)) := by
  obtain rfl | h0 := Nat.eq_zero_or_pos len
  · rw [qcopyloop_empty, List.take_zero, extend_nil]
  induction bs generalizing c with
  | nil => rw [qcopyloop, bytes_nil, List.drop_nil, List.take_nil, extend_nil]
  | cons b bs ih =>
    have hb : b.BLEN < 2 ^ 31 := by
      have := hsize b List.mem_cons_self
      rw [Block.BALLOC] at this
      rw [Block.BLEN]
      omega
    have hsum : (c : ℤ) + b.BLEN = (c + b.BLEN : ℕ) := by push_cast; rfl
    rw [qcopyloop, hsum]
    have hstop : (offset : ℤ) < toulong (toint (c + b.BLEN : ℕ)) ↔
        offset < c + b.BLEN ∨ 2 ^ 31 ≤ c + b.BLEN := by
      by_cases hint : c + b.BLEN < 2 ^ 31
      · rw [toint_of_lt hint, toulong_nonneg (by omega) (by omega)]
        omega
      · have hwrap := toulong_wrapped (not_lt.1 hint) (by omega)
        have := hnear [b] bs rfl
        simp only [blocklen_cons, blocklen_nil] at this
        omega
    by_cases hhere : offset < c + b.BLEN ∨ 2 ^ 31 ≤ c + b.BLEN
    swap
    · rw [if_neg (hstop.not.2 hhere), toint_of_lt (by omega),
        ih (fun b hb => hsize b (by simp [hb])) (by omega) (by omega) hnear.tail, bytes_cons]
      have hskip : offset - c = b.data.length + (offset - (c + b.BLEN)) := by
        rw [Block.BLEN] at *
        omega
      rw [hskip, List.drop_length_add_append]
    have hle : offset ≤ c + b.BLEN := by
      have := hnear [b] bs rfl
      simp only [blocklen_cons, blocklen_nil] at this
      omega
    obtain ⟨o, ho⟩ : ∃ o, o = offset - c := ⟨_, rfl⟩
    obtain ⟨k, hk⟩ : ∃ k, k = min (b.BLEN - o) len := ⟨_, rfl⟩
    have hrest : toint (b.BLEN - (o : ℤ)) = (b.BLEN - o : ℕ) := by
      rw [← toint_of_lt (by omega : b.BLEN - o < 2 ^ 31)]
      congr 1
      omega
    have hcount : (if (len : ℤ) < (b.BLEN - o : ℕ) then (len : ℤ) else (b.BLEN - o : ℕ)) = k := by
      rw [hk]
      split_ifs <;> omega
    have hobyte : (offset : ℤ) - c = o := by omega
    have hwin : window b o k = some ((b.data.drop o).take k) := window_eq (by omega)
    have hwlen : ((b.data.drop o).take k).length = k := by
      rw [List.length_take, List.length_drop]
      rw [Block.BLEN] at hk
      omega
    have hput : put nb ((b.data.drop o).take k) = some (nb.extend ((b.data.drop o).take k)) :=
      put_of_le (by rw [hwlen]; omega)
    have hleft : len - k ≤ (nb.extend ((b.data.drop o).take k)).post := by
      simp only [Block.extend, hwlen]
      omega
    simp only [if_pos (hstop.2 hhere), if_neg h0.ne', hobyte, hrest, hcount, hwin, hput,
      Int.toNat_natCast, Option.bind_eq_bind, Option.bind_some, copyloop_eq hleft, Option.pure_def]
    have hodata : o ≤ b.data.length := by
      rw [Block.BLEN] at *
      omega
    rw [extend_extend, ← ho, bytes_cons, List.drop_append_of_le_length hodata, List.take_append,
      List.length_drop]
    have hk' : k = min len (b.data.length - o) := by
      rw [hk, Block.BLEN, Nat.min_comm]
    have htake : (b.data.drop o).take len = (b.data.drop o).take k := by
      rw [hk', ← List.take_take, ← List.length_drop, List.take_length]
    have hsub : len - (b.data.length - o) = len - k := by omega
    rw [htake, hsub]

theorem qcopy_eq (nid : ℕ) {len : ℕ} (hlen : len < 2 ^ 31)
    (hsize : ∀ b ∈ q.bfirst, b.BALLOC < 2 ^ 31) (h : len = 0 ∨ Near 0 offset q.bfirst) :
    ∃ b, qcopy nid q len offset = some b ∧ b.id = nid ∧ b.BALLOC = len ∧
      b.data = ((bytes q.bfirst).drop offset).take len := by
  have hloop : qcopyloop ⟨nid, 0, [], len⟩ len offset 0 q.bfirst =
      some (Block.extend ⟨nid, 0, [], len⟩ (((bytes q.bfirst).drop offset).take len)) := by
    obtain rfl | hnear := h
    · rw [qcopyloop_empty, List.take_zero, extend_nil]
    · exact qcopyloop_eq hsize le_rfl (by norm_num) (Nat.zero_le _) hlen hnear
  refine ⟨Block.extend ⟨nid, 0, [], len⟩ (((bytes q.bfirst).drop offset).take len), ?_, rfl, ?_,
    rfl⟩
  · rw [qcopy, alloc_of_nonneg, Int.toNat_natCast, Option.bind_eq_bind, Option.bind_some, hloop]
  · rw [BALLOC_extend (by simp only [List.length_take]; omega)]
    simp [Block.BALLOC]

/-- Each routine keeps the bytes and settles the blocks, but for totals that are no `int`. -/
theorem surgery_exact (nid : ℕ) (l : List Blk) (q : Queue UInt8) :
    (l ≠ [] →
      ((∃ b freed made, concatblock nid l = some ([b], freed) ∧ b.data = bytes l ∧
        Settled nid made l [b] freed) ↔ l.length = 1 ∨ blocklen l < 2 ^ 31) ∧
      (∀ n : ℕ, ∃ b, copyblock nid l n = some b ∧ b.id = nid ∧ b.BALLOC = n ∧
        b.data = (bytes l).take n ++ List.replicate (n - blocklen l) 0) ∧
      (∀ offset len : ℤ, (∃ l' freed, trimblock l offset len = some (l', freed) ∧
        Settled nid 0 l l' freed ∧ Trimmed l offset len l') ↔
          (0 ≤ offset → 0 ≤ len → (toint (blocklen l) < toint (offset + len) ↔
            (blocklen l : ℤ) < offset + len))) ∧
      (∀ n, ∃ l' freed, pullblock l n = (l', freed, min n (blocklen l)) ∧
        bytes l' = (bytes l).drop (min n (blocklen l)) ∧ Settled nid 0 l l' freed) ∧
      (∃ l' freed, packblock nid l = some (l', freed) ∧ bytes l' = bytes l ∧
        Settled nid freed.length l l' freed) ∧
      ∀ n, ∃ l' freed made, pullupblock nid l n = some (l', freed) ∧
        Settled nid made l l' freed ∧ Pulledup l n l') ∧
    ∀ len offset : ℕ, len < 2 ^ 31 → (∀ b ∈ q.bfirst, b.BALLOC < 2 ^ 31) →
      (len = 0 ∨ Near 0 offset q.bfirst) → ∃ b, qcopy nid q len offset = some b ∧ b.id = nid ∧
        b.BALLOC = len ∧ b.data = ((bytes q.bfirst).drop offset).take len :=
  ⟨fun hne => ⟨concatblock_exact nid hne, fun n => copyblock_eq nid n l,
    trimblock_exact nid hne, pullblock_eq nid l, packblock_eq nid l, pullupblock_eq nid hne⟩,
    fun _ _ hlen hsize h => qcopy_eq nid hlen hsize h⟩

def byte : Blk := ⟨0, 0, [7], 0⟩

def byteQueue : Queue UInt8 := { (qopen 8 false false : Queue UInt8) with bfirst := [byte] }

theorem surgery_exact_byte : ∃ b, qcopy 1 byteQueue (2 : ℕ) 0 = some b ∧ b.data = [7] := by
  have hnear : Near 0 0 byteQueue.bfirst := fun _ _ _ => .inr (Nat.zero_le _)
  obtain ⟨b, hb, -, -, hdata⟩ := (surgery_exact 1 [byte] byteQueue).2 2 0 (by norm_num)
    (by decide) (.inr hnear)
  exact ⟨b, hb, hdata⟩

/-- One byte, trimmed to 2^31 - 1 bytes from its end on. -/
theorem trimblock_walks_off : ¬∃ l' freed, trimblock [byte] 1 (2 ^ 31 - 1) = some (l', freed) ∧
    Settled 1 0 [byte] l' freed ∧ Trimmed [byte] 1 (2 ^ 31 - 1) l' := by
  rintro ⟨l', freed, hsome, -⟩
  have hnone : trimblock [byte] 1 (2 ^ 31 - 1) = none := by decide
  rw [hnone] at hsome
  simp at hsome

end Queued

end Infernode.Qio.Surgery
