import Mathlib

/-!
# Reassembly queues

The fragments of `ip.c`: a queue of blocks ordered by offset, and what `ip4reassemble` does
to it when a fragment is put in. Reading or writing outside the bytes of a block is `none`.
-/

namespace Infernode.Reasm

def IP4HDR : ℕ := 20

def IP_DF : ℕ := 0x4000

def IP_MAX : ℕ := 64 * 1024

def IPFRAG : ℕ := 4

/-- A fragment: the bytes from `rp` to `wp`, as many as there are from `base` to `rp`, and the
`Ipfrag` kept at `base`. -/
structure Block where
  id : ℕ
  room : ℕ
  bytes : List UInt8
  foff : ℕ
  flen : ℕ
  deriving DecidableEq

def nhgets (bs : List UInt8) (i : ℕ) : Option ℕ := do
  let a ← bs[i]?
  let b ← bs[i + 1]?
  return a.toNat * 256 + b.toNat

def nhgetl (bs : List UInt8) (i : ℕ) : Option ℕ := do
  let a ← nhgets bs i
  let b ← nhgets bs (i + 2)
  return a * 65536 + b

def hnputs (bs : List UInt8) (i v : ℕ) : Option (List UInt8) :=
  if i + 1 < bs.length then
    some ((bs.set i (UInt8.ofNat (v / 256))).set (i + 1) (UInt8.ofNat v))
  else none

def memmove (bs : List UInt8) (d s n : ℕ) : Option (List UInt8) :=
  if d + n ≤ bs.length ∧ s + n ≤ bs.length then
    some (bs.take d ++ (bs.drop s).take n ++ bs.drop (d + n))
  else none

def more (frag : ℕ) : Bool := frag.testBit 13

def fragmented (frag : ℕ) : Bool := frag % IP_DF ≠ 0 ∨ 2 * IP_DF ≤ frag

def padblock (bp : Block) : Block := if bp.room ≤ IPFRAG then { bp with room := IPFRAG } else bp

def setfrag (bp : Block) (foff flen : ℕ) : Option Block :=
  if IPFRAG ≤ bp.room then some { bp with foff := foff, flen := flen } else none

/-- The overlap of the fragment before the new one, trimmed away; nothing when the new one lies
within it. The list is what goes before the new one. -/
def trim (bp : Block) : List Block → Option (List Block)
  | [] => some []
  | [prev] =>
    let ovlap := prev.foff + prev.flen - bp.foff
    if 0 < ovlap then
      if bp.flen ≤ ovlap then none else some [{ prev with flen := prev.flen - ovlap }]
    else some [prev]
  | bl :: next :: bs => (trim bp (next :: bs)).map (bl :: ·)

def cover (fend : ℕ) : List Block → Option (List Block × List Block)
  | [] => some ([], [])
  | bl :: bs =>
    let ovlap := fend - bl.foff
    if ovlap = 0 then some (bl :: bs, [])
    else if ovlap < bl.flen then do
      let bytes ← memmove bl.bytes ovlap 0 IP4HDR
      return ({ bl with flen := bl.flen - ovlap, foff := bl.foff + ovlap, bytes := bytes.drop ovlap }
        :: bs, [])
    else do
      let (bs', gone) ← cover fend bs
      return (bs', bl :: gone)

def complete : ℕ → List Block → Option Bool
  | _, [] => some false
  | pktposn, bl :: bs =>
    if bl.foff ≠ pktposn then some false
    else do
      let frag ← bl.bytes[6]?
      if frag.toNat.testBit 5 then complete (pktposn + bl.flen) bs else return true

def pullup (bl : Block) : Option Block :=
  if IP4HDR + bl.flen ≤ bl.bytes.length then
    some { bl with bytes := (bl.bytes.drop IP4HDR).take bl.flen }
  else none

def packet : List Block → Option (List Block)
  | [] => none
  | bl :: bs => do
    let len ← nhgets bl.bytes 2
    if bl.bytes.length < len then none
    let bs' ← bs.mapM pullup
    let bytes ← hnputs (bl.bytes.take len) 6 0
    let bytes ← hnputs bytes 2 (len + (bs.map (·.flen)).sum)
    return { bl with bytes := bytes } :: bs'

/-- The fragment stays within its block; at offset 0 it has the bytes of its header's length. -/
def Fits (bl : Block) : Prop :=
  IP4HDR + bl.flen ≤ bl.bytes.length ∧
    (bl.foff = 0 → nhgets bl.bytes 2 = some bl.bytes.length)

theorem Fits.hdr {bl : Block} (h : Fits bl) : IP4HDR ≤ bl.bytes.length := by
  have := h.1
  omega

theorem nhgets_isSome {bs : List UInt8} {i : ℕ} (h : i + 1 < bs.length) :
    (nhgets bs i).isSome := by
  simp [nhgets, List.getElem?_eq_getElem h, List.getElem?_eq_getElem (by omega : i < bs.length)]

theorem memmove_hdr {bs : List UInt8} {n : ℕ} (h : n + IP4HDR ≤ bs.length) :
    ∃ bs', memmove bs n 0 IP4HDR = some bs' ∧
      bs'.drop n = bs.take IP4HDR ++ bs.drop (n + IP4HDR) := by
  refine ⟨_, if_pos ⟨h, by omega⟩, ?_⟩
  rw [List.append_assoc, List.drop_append_of_le_length (by simp; omega),
    List.drop_eq_nil_of_le (by simp), List.nil_append, List.drop_zero]

inductive Left (bl : Block) : Block → Prop
  | whole : Left bl bl
  | tail {n : ℕ} (hn : n ≤ bl.flen) : Left bl { bl with flen := n }
  | front {n : ℕ} (h0 : 0 < n) (hn : n < bl.flen) : Left bl { bl with
      flen := bl.flen - n, foff := bl.foff + n,
      bytes := bl.bytes.take IP4HDR ++ bl.bytes.drop (n + IP4HDR) }

theorem Left.fits {bl b : Block} (h : Left bl b) (hf : Fits bl) : Fits b := by
  cases h with
  | whole => exact hf
  | tail hn => exact ⟨by have := hf.1; simp only; omega, hf.2⟩
  | front h0 hn =>
    have := hf.1
    refine ⟨by simp; omega, fun h => ?_⟩
    simp only at h
    omega

theorem Left.id {bl b : Block} (h : Left bl b) : b.id = bl.id := by cases h <;> rfl

theorem trim_left {bp : Block} {bs bs' : List Block} (h : trim bp bs = some bs') :
    List.Forall₂ Left bs bs' := by
  match bs, bs', h with
  | [], _, rfl => exact .nil
  | [prev], bs', h =>
    simp only [trim] at h
    split_ifs at h <;> cases h
    · exact .cons (.tail (by omega)) .nil
    · exact .cons .whole .nil
  | bl :: next :: bs, bs', h =>
    obtain ⟨bs₁, h₁, rfl⟩ := Option.map_eq_some_iff.1 h
    exact .cons .whole (trim_left h₁)

theorem cover_left (fend : ℕ) {bs : List Block} (hf : ∀ b ∈ bs, Fits b) :
    ∃ gone rest rest', cover fend bs = some (rest', gone) ∧ bs = gone ++ rest ∧
      List.Forall₂ Left rest rest' := by
  induction bs with
  | nil => exact ⟨[], [], [], rfl, rfl, .nil⟩
  | cons bl bs ih =>
    have hrefl : ∀ l : List Block, List.Forall₂ Left l l := fun l =>
      List.forall₂_same.2 fun _ _ => .whole
    simp only [cover]
    split_ifs with h₀ h₁
    · exact ⟨[], bl :: bs, _, rfl, rfl, hrefl _⟩
    · obtain ⟨bytes, hm, hdrop⟩ := @memmove_hdr bl.bytes (fend - bl.foff)
        (by have := (hf bl (by simp)).1; omega)
      refine ⟨[], bl :: bs, _, by simp [hm, hdrop], rfl, .cons (.front (by omega) h₁) (hrefl _)⟩
    · obtain ⟨gone, rest, rest', h, rfl, hl⟩ := ih fun b hb => hf b (by simp [hb])
      exact ⟨bl :: gone, rest, rest', by simp [h], rfl, hl⟩

theorem complete_isSome {bs : List Block} (hf : ∀ b ∈ bs, Fits b) (n : ℕ) :
    (complete n bs).isSome := by
  induction bs generalizing n with
  | nil => rfl
  | cons bl bs ih =>
    have hlen : 6 < bl.bytes.length := by
      have := (hf bl (by simp)).hdr
      simp only [IP4HDR] at this
      omega
    simp only [complete, List.getElem?_eq_getElem hlen, Option.bind_eq_bind, Option.bind_some]
    split_ifs
    · rfl
    · exact ih (fun b hb => hf b (by simp [hb])) _
    · rfl

theorem complete_head {bs : List Block} {n : ℕ} (h : complete n bs = some true) :
    ∃ bl bs', bs = bl :: bs' ∧ bl.foff = n := by
  cases bs with
  | nil => simp [complete] at h
  | cons bl bs =>
    refine ⟨bl, bs, rfl, ?_⟩
    by_contra hn
    simp [complete, hn] at h

theorem mapM_pullup {bs : List Block} (hf : ∀ b ∈ bs, Fits b) : bs.mapM pullup =
    some (bs.map fun bl => { bl with bytes := (bl.bytes.drop IP4HDR).take bl.flen }) := by
  induction bs with
  | nil => rfl
  | cons bl bs ih =>
    simp [List.mapM_cons, pullup, (hf bl (by simp)).1, ih fun b hb => hf b (by simp [hb])]

def sethdr (bs : List UInt8) (len : ℕ) : List UInt8 :=
  (((bs.set 6 0).set 7 0).set 2 (UInt8.ofNat (len / 256))).set 3 (UInt8.ofNat len)

theorem packet_eq {bl : Block} {bs : List Block} (hf : ∀ b ∈ bl :: bs, Fits b)
    (h₀ : bl.foff = 0) : packet (bl :: bs) = some
      ({ bl with bytes := sethdr bl.bytes (bl.bytes.length + (bs.map (·.flen)).sum) } ::
        bs.map fun bl => { bl with bytes := (bl.bytes.drop IP4HDR).take bl.flen }) := by
  have hlen := (hf bl (by simp)).2 h₀
  have hhdr := (hf bl (by simp)).hdr
  simp only [IP4HDR] at hhdr
  have h7 : 7 < bl.bytes.length := by omega
  have h3 : 3 < bl.bytes.length := by omega
  simp [packet, hlen, mapM_pullup fun b hb => hf b (List.mem_cons_of_mem _ hb), hnputs, h7, h3,
    sethdr]

/-!
## Parts of a datagram

A queue whose blocks are parts of one datagram, in order and apart. Putting a fragment of it in
keeps it so, and the bytes that are there are those that were or are the fragment's.
-/

structure Datagram where
  hdr : List UInt8
  data : List UInt8
  hhdr : hdr.length = IP4HDR
  hdata : data.length ≤ IP_MAX - IP4HDR - 1

variable {D : Datagram} {bp b : Block} {bs before after gone : List Block}

/-- The same but for the length, the fragment field, the time to live and the checksum, which
the fragments of one datagram have each their own. -/
def SameHdr (h h' : List UInt8) : Prop :=
  ∀ i < IP4HDR, i ∉ [2, 3, 6, 7, 8, 10, 11] → h[i]? = h'[i]?

def Block.Covers (b : Block) (i : ℕ) : Prop := b.foff ≤ i ∧ i < b.foff + b.flen

def Covered (bs : List Block) (i : ℕ) : Prop := ∃ b ∈ bs, b.Covers i

@[simp] theorem covered_nil (i : ℕ) : ¬ Covered [] i := by simp [Covered]

@[simp] theorem covered_cons (b : Block) (bs : List Block) (i : ℕ) :
    Covered (b :: bs) i ↔ b.Covers i ∨ Covered bs i := by
  simp [Covered]

@[simp] theorem covered_append (bs cs : List Block) (i : ℕ) :
    Covered (bs ++ cs) i ↔ Covered bs i ∨ Covered cs i := by
  simp [Covered, or_and_right, exists_or]

structure Part (D : Datagram) (b : Block) : Prop where
  hdr : SameHdr b.bytes D.hdr
  last : ∃ c, b.bytes[6]? = some c ∧ (c.toNat.testBit 5 = true ↔ b.foff + b.flen < D.data.length)
  pos : 0 < b.flen
  le : b.foff + b.flen ≤ D.data.length
  data : (b.bytes.drop IP4HDR).take b.flen = (D.data.drop b.foff).take b.flen
  fits : IP4HDR + b.flen ≤ b.bytes.length

theorem Part.tail (h : Part D b) {n : ℕ} (h₀ : 0 < n) (hn : n ≤ b.flen)
    (hlast : b.foff + b.flen < D.data.length) : Part D { b with flen := n } where
  hdr := h.hdr
  last := by
    obtain ⟨c, hc, hmore⟩ := h.last
    exact ⟨c, hc, iff_of_true (hmore.2 hlast) (by simp only; omega)⟩
  pos := h₀
  le := by have := h.le; simp only; omega
  data := by
    have := congrArg (List.take n) h.data
    simpa only [List.take_take, min_eq_left hn] using this
  fits := by have := h.fits; simp only; omega

theorem Part.front (h : Part D b) {n : ℕ} (hn : n < b.flen) {bytes : List UInt8}
    (hb : bytes = b.bytes.take IP4HDR ++ b.bytes.drop (n + IP4HDR)) :
    Part D { b with flen := b.flen - n, foff := b.foff + n, bytes := bytes } := by
  have hfits := h.fits
  have hlen : (b.bytes.take IP4HDR).length = IP4HDR := by
    rw [List.length_take]
    omega
  have hget : ∀ i < IP4HDR, bytes[i]? = b.bytes[i]? := fun i hi => by
    rw [hb, List.getElem?_append_left (by omega), List.getElem?_take, if_pos hi]
  have hend : b.foff + n + (b.flen - n) = b.foff + b.flen := by omega
  refine ⟨fun i hi hne => (hget i hi).trans (h.hdr i hi hne), ?_, ?_, ?_, ?_, ?_⟩
  · obtain ⟨c, hc, hmore⟩ := h.last
    exact ⟨c, (hget 6 (by decide)).trans hc, by simp only [hend, hmore]⟩
  · simp only
    omega
  · simp only [hend]
    exact h.le
  · have hdata := congrArg (List.drop n) h.data
    simp only [List.drop_take, List.drop_drop] at hdata
    simp only [hb]
    rw [List.drop_append_of_le_length hlen.ge, List.drop_eq_nil_of_le hlen.le, List.nil_append,
      Nat.add_comm n IP4HDR, hdata]
  · simp only [hb, List.length_append, hlen, List.length_drop]
    omega

def Chain (bs : List Block) : Prop := bs.Pairwise fun b c => b.foff + b.flen ≤ c.foff

def Uncut (bs : List Block) : Prop := ∀ b ∈ bs, b.foff = 0 → b.bytes.length = IP4HDR + b.flen

def Cuts (bp : Block) (bs : List Block) : Prop :=
  ∃ b ∈ bs, b.foff = 0 ∧ 0 < bp.foff ∧ bp.foff < b.flen ∧ b.flen < bp.foff + bp.flen

theorem trim_none {bs : List Block} (h : trim bp bs = none) (hlt : ∀ b ∈ bs, b.foff < bp.foff) :
    ∃ b ∈ bs, b.foff < bp.foff ∧ bp.foff + bp.flen ≤ b.foff + b.flen := by
  match bs, h with
  | [prev], h =>
    simp only [trim] at h
    split_ifs at h with h₀ h₁
    exact ⟨prev, by simp, hlt prev (by simp), by omega⟩
  | bl :: next :: bs, h =>
    obtain ⟨b, hb, h⟩ := trim_none (Option.map_eq_none_iff.1 h) fun b hb =>
      hlt b (List.mem_cons_of_mem _ hb)
    exact ⟨b, List.mem_cons_of_mem _ hb, h⟩

theorem trim_parts {bs before : List Block} (h : trim bp bs = some before) (hbp : Part D bp)
    (hp : ∀ b ∈ bs, Part D b) (hch : Chain bs) (hlt : ∀ b ∈ bs, b.foff < bp.foff) :
    (∀ b ∈ before, Part D b ∧ b.foff + b.flen ≤ bp.foff) ∧
      before.map (·.foff) = bs.map (·.foff) ∧ Chain before ∧
      (∀ i, Covered before i ∨ bp.Covers i ↔ Covered bs i ∨ bp.Covers i) ∧
      (¬ Cuts bp bs → Uncut bs → Uncut before) := by
  match bs, before, h with
  | [], _, rfl => simp [Chain, Uncut]
  | [prev], before, h =>
    have hprev := hp prev (by simp)
    have hpos := hlt prev (by simp)
    simp only [trim] at h
    split_ifs at h with h₀ h₁ <;> cases h
    · have hle := hbp.le
      refine ⟨?_, rfl, by simp [Chain], fun i => ?_, fun hcut _ => ?_⟩
      · simp only [List.mem_singleton, forall_eq]
        exact ⟨hprev.tail (by omega) (by omega) (by omega), by omega⟩
      · simp only [covered_cons, covered_nil, or_false, Block.Covers]
        omega
      · intro b hb hb₀
        rw [List.mem_singleton] at hb
        subst hb
        exact absurd ⟨prev, by simp, hb₀, by omega, by simp only at hb₀; omega, by
          simp only at hb₀; omega⟩ hcut
    · refine ⟨?_, rfl, by simp [Chain], fun i => .rfl, fun _ h => h⟩
      simp only [List.mem_singleton, forall_eq]
      exact ⟨hprev, by omega⟩
  | bl :: next :: bs, before, h =>
    obtain ⟨bs', h', rfl⟩ := Option.map_eq_some_iff.1 h
    obtain ⟨hbl, hch'⟩ := List.pairwise_cons.1 hch
    obtain ⟨hparts, hfoff, hchain, hcov, hcut⟩ := trim_parts h' hbp
      (fun b hb => hp b (List.mem_cons_of_mem _ hb)) hch'
      fun b hb => hlt b (List.mem_cons_of_mem _ hb)
    have hnext := hbl next (by simp)
    have hlt' := hlt next (by simp)
    refine ⟨?_, by simp [hfoff], List.pairwise_cons.2 ⟨fun b hb => ?_, hchain⟩, fun i => ?_, ?_⟩
    · simp only [List.mem_cons, forall_eq_or_imp]
      exact ⟨⟨hp bl (by simp), by omega⟩, hparts⟩
    · have hmem : b.foff ∈ (next :: bs).map (·.foff) := hfoff ▸ List.mem_map_of_mem hb
      obtain ⟨c, hc, he⟩ := List.mem_map.1 hmem
      exact he ▸ hbl c hc
    · have := hcov i
      rw [covered_cons, covered_cons _ (next :: bs)]
      tauto
    · intro hnc hun
      have hun' := hcut (fun ⟨b, hb, h⟩ => hnc ⟨b, List.mem_cons_of_mem _ hb, h⟩)
        fun b hb => hun b (List.mem_cons_of_mem _ hb)
      intro b hb
      rcases List.mem_cons.1 hb with rfl | hb
      · exact hun b (by simp)
      · exact hun' b hb

theorem front_covers (bytes : List UInt8) (hge : bp.foff ≤ b.foff)
    (h : bp.foff + bp.flen - b.foff < b.flen) (i : ℕ) :
    Block.Covers ⟨b.id, b.room, bytes, b.foff + (bp.foff + bp.flen - b.foff),
      b.flen - (bp.foff + bp.flen - b.foff)⟩ i ∨ bp.Covers i ↔ b.Covers i ∨ bp.Covers i := by
  simp only [Block.Covers]
  omega

theorem cover_parts (h : cover (bp.foff + bp.flen) bs = some (after, gone))
    (hp : ∀ b ∈ bs, Part D b) (hch : Chain bs) (hge : ∀ b ∈ bs, bp.foff ≤ b.foff) :
    (∀ b ∈ after, Part D b ∧ bp.foff + bp.flen ≤ b.foff) ∧ Chain after ∧
      ∀ i, Covered after i ∨ bp.Covers i ↔ Covered bs i ∨ bp.Covers i := by
  induction bs generalizing after gone with
  | nil =>
    cases h
    simp [Chain]
  | cons bl bs ih =>
    obtain ⟨hbl, hch'⟩ := List.pairwise_cons.1 hch
    have hpart := hp bl (by simp)
    have hstart := hge bl (by simp)
    simp only [cover] at h
    split_ifs at h with h₀ h₁
    · cases h
      refine ⟨?_, hch, fun i => .rfl⟩
      simp only [List.mem_cons, forall_eq_or_imp]
      refine ⟨⟨hpart, by omega⟩, fun b hb => ⟨hp b (List.mem_cons_of_mem _ hb), ?_⟩⟩
      have := hbl b hb
      omega
    · obtain ⟨bytes, hm, hdrop⟩ := @memmove_hdr bl.bytes
        (bp.foff + bp.flen - bl.foff) (by have := hpart.fits; omega)
      simp only [hm, Option.bind_eq_bind, Option.bind_some] at h
      cases h
      refine ⟨?_, List.pairwise_cons.2 ⟨fun b hb => ?_, hch'⟩, fun i => ?_⟩
      · simp only [List.mem_cons, forall_eq_or_imp]
        refine ⟨⟨hpart.front h₁ hdrop, by omega⟩, fun b hb =>
          ⟨hp b (List.mem_cons_of_mem _ hb), ?_⟩⟩
        have := hbl b hb
        omega
      · have := hbl b hb
        simp only
        omega
      · have := front_covers (bytes.drop (bp.foff + bp.flen - bl.foff)) hstart h₁ i
        rw [covered_cons, covered_cons]
        tauto
    · obtain ⟨⟨bs', gone'⟩, h', hret⟩ := Option.bind_eq_some_iff.1 h
      cases hret
      obtain ⟨hparts, hchain, hcov⟩ := ih h' (fun b hb => hp b (List.mem_cons_of_mem _ hb)) hch'
        fun b hb => hge b (List.mem_cons_of_mem _ hb)
      refine ⟨hparts, hchain, fun i => ?_⟩
      have hsub : bl.Covers i → bp.Covers i := fun ⟨h₂, h₃⟩ => ⟨by omega, by omega⟩
      have := hcov i
      rw [covered_cons]
      tauto

theorem complete_iff {n : ℕ} (hn : n < D.data.length) (hp : ∀ b ∈ bs, Part D b) (hch : Chain bs)
    (hge : ∀ b ∈ bs, n ≤ b.foff) :
    complete n bs = some true ↔ ∀ i, n ≤ i → i < D.data.length → Covered bs i := by
  induction bs generalizing n with
  | nil =>
    refine iff_of_false (by simp [complete]) fun h => ?_
    exact covered_nil n (h n le_rfl hn)
  | cons bl bs ih =>
    obtain ⟨hbl, hch'⟩ := List.pairwise_cons.1 hch
    have hpart := hp bl (by simp)
    have hstart := hge bl (by simp)
    have hpos := hpart.pos
    by_cases hfoff : bl.foff = n
    · obtain ⟨c, hc, hmore⟩ := hpart.last
      simp only [complete, hfoff, ne_eq, not_true_eq_false, if_false, hc, Option.bind_eq_bind,
        Option.bind_some]
      by_cases hlast : bl.foff + bl.flen < D.data.length
      · rw [if_pos (hmore.2 hlast), ih (by omega) (fun b hb => hp b (List.mem_cons_of_mem _ hb))
          hch' fun b hb => hfoff ▸ hbl b hb]
        refine ⟨fun h i hni hi => ?_, fun h i hni hi => ?_⟩
        · rw [covered_cons]
          by_cases hin : i < n + bl.flen
          · exact .inl ⟨hfoff ▸ hni, hfoff ▸ hin⟩
          · exact .inr (h i (by omega) hi)
        · refine ((covered_cons _ _ _).1 (h i (by omega) hi)).resolve_left fun hin => ?_
          have := hin.2
          omega
      · rw [if_neg fun h => hlast (hmore.1 h)]
        refine iff_of_true rfl fun i hni hi => ?_
        exact (covered_cons _ _ _).2 (.inl ⟨by omega, by omega⟩)
    · refine iff_of_false (by simp [complete, hfoff]) fun h => ?_
      obtain ⟨b, hb, hcov⟩ := h n le_rfl hn
      have := hcov.1
      rcases List.mem_cons.1 hb with rfl | hb
      · omega
      · have := hbl b hb
        omega

theorem complete_data {n : ℕ} (hp : ∀ b ∈ bs, Part D b) (hch : Chain bs)
    (hc : complete n bs = some true) :
    (bs.flatMap fun b => (b.bytes.drop IP4HDR).take b.flen) = D.data.drop n ∧
      n + (bs.map (·.flen)).sum = D.data.length := by
  induction bs generalizing n with
  | nil => simp [complete] at hc
  | cons bl bs ih =>
    obtain ⟨hbl, hch'⟩ := List.pairwise_cons.1 hch
    have hpart := hp bl (by simp)
    obtain ⟨c, hc₆, hmore⟩ := hpart.last
    have hfoff : bl.foff = n := by
      by_contra hne
      simp [complete, hne] at hc
    simp only [complete, hfoff, ne_eq, not_true_eq_false, if_false, hc₆, Option.bind_eq_bind,
      Option.bind_some] at hc
    simp only [List.flatMap_cons, List.map_cons, List.sum_cons, hpart.data, hfoff]
    split_ifs at hc with hbit
    · obtain ⟨hdata, hsum⟩ := ih (fun b hb => hp b (List.mem_cons_of_mem _ hb)) hch' hc
      refine ⟨?_, by omega⟩
      rw [hdata, ← List.drop_drop, List.take_append_drop]
    · have hend : bl.foff + bl.flen = D.data.length :=
        le_antisymm hpart.le (not_lt.1 fun h => hbit (hmore.2 h))
      have hnil : bs = [] := List.eq_nil_iff_forall_not_mem.2 fun b hb => by
        have := hbl b hb
        have hb' := hp b (List.mem_cons_of_mem _ hb)
        have := hb'.le
        have := hb'.pos
        omega
      subst hnil
      simp only [List.flatMap_nil, List.append_nil, List.map_nil, List.sum_nil, Nat.add_zero]
      refine ⟨List.take_of_length_le ?_, by omega⟩
      rw [List.length_drop]
      omega

/-- The blocks hold the header of the datagram, with the fragment field zero and its length,
and its data. -/
def Datagram.Rebuilt (D : Datagram) (bl : List Block) : Prop :=
  ∃ hdr, (bl.flatMap (·.bytes)) = hdr ++ D.data ∧ hdr.length = IP4HDR ∧ SameHdr hdr D.hdr ∧
    nhgets hdr 2 = some (IP4HDR + D.data.length) ∧ nhgets hdr 6 = some 0

theorem sethdr_take {bs : List UInt8} {v : ℕ} (h : IP4HDR ≤ bs.length) :
    sethdr bs v = sethdr (bs.take IP4HDR) v ++ bs.drop IP4HDR := by
  have hlen : (bs.take IP4HDR).length = 20 := by
    rw [List.length_take]
    exact min_eq_left h
  conv_lhs => rw [← List.take_append_drop IP4HDR bs]
  simp only [sethdr]
  repeat rw [List.set_append_left _ _ (by simp only [List.length_set, hlen]; omega)]

theorem sethdr_hdr {h : List UInt8} {v : ℕ} (hlen : h.length = IP4HDR) (hv : v < 65536) :
    nhgets (sethdr h v) 2 = some v ∧ nhgets (sethdr h v) 6 = some 0 ∧ SameHdr (sethdr h v) h := by
  simp only [IP4HDR] at hlen
  refine ⟨?_, ?_, fun i hi hne => ?_⟩
  · simp only [nhgets, sethdr]
    simp [hlen]
    omega
  · simp [nhgets, sethdr, hlen]
  · simp only [List.mem_cons, not_or] at hne
    obtain ⟨h2, h3, h6, h7, -⟩ := hne
    simp only [sethdr]
    rw [List.getElem?_set_ne (Ne.symm h3), List.getElem?_set_ne (Ne.symm h2),
      List.getElem?_set_ne (Ne.symm h7), List.getElem?_set_ne (Ne.symm h6)]

theorem packet_rebuilt {bl : List Block} (hp : ∀ b ∈ bs, Part D b) (hf : ∀ b ∈ bs, Fits b)
    (hch : Chain bs) (hun : Uncut bs) (hc : complete 0 bs = some true)
    (h : packet bs = some bl) : D.Rebuilt bl := by
  obtain ⟨b, bs, rfl, h₀⟩ := complete_head hc
  obtain ⟨hdata, hsum⟩ := complete_data hp hch hc
  have hpart := hp b (by simp)
  have hlen := hun b (by simp) h₀
  rw [packet_eq hf h₀] at h
  cases h
  have hv : b.bytes.length + (bs.map (·.flen)).sum = IP4HDR + D.data.length := by
    simp only [List.map_cons, List.sum_cons] at hsum
    omega
  have htake : (b.bytes.take IP4HDR).length = IP4HDR := by
    rw [List.length_take]
    omega
  have hbound : IP4HDR + D.data.length < 65536 := by
    have := D.hdata
    simp only [IP4HDR, IP_MAX] at this ⊢
    omega
  obtain ⟨hl, hfr, hsame⟩ := sethdr_hdr htake hbound
  refine ⟨sethdr (b.bytes.take IP4HDR) (IP4HDR + D.data.length), ?_, by simp [sethdr, htake],
    fun i hi hne => (hsame i hi hne).trans ?_, hl, hfr⟩
  · rw [List.flatMap_cons, List.flatMap_map, hv, sethdr_take (by omega), List.append_assoc]
    congr 1
    rw [List.flatMap_cons, List.take_of_length_le (by rw [List.length_drop]; omega),
      List.drop_zero] at hdata
    exact hdata
  · rw [List.getElem?_take, if_pos hi]
    exact hpart.hdr i hi hne

end Infernode.Reasm
