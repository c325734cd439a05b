import Infernode.Dis.Text

/-!
# What a string stands for

A string of bytes or of runes stands for a list of codes; which of the two it is
shows in no result. Each operation on strings makes, of strings that stand for
some codes, one that stands for theirs, inside its block.
-/

namespace Infernode.Dis

open Lib

def byte (c : ℤ) : UInt8 := UInt8.ofNat (c % 2 ^ 8).toNat

def IsInt (c : ℤ) : Prop := -2 ^ 31 ≤ c ∧ c < 2 ^ 31

theorem int_eq {c : ℤ} (h : IsInt c) : int c = c := by
  obtain ⟨hlow, hhigh⟩ := h
  exact Int.bmod_eq_of_le (by norm_num; omega) (by norm_num; omega)

theorem int_isInt (c : ℤ) : IsInt (int c) := by
  have hlow := @Int.le_bmod c (2 ^ 32) (by norm_num)
  have hhigh := @Int.bmod_lt c (2 ^ 32) (by norm_num)
  rw [int]
  constructor <;> omega

@[simp] theorem rune_length (c : ℤ) : (rune c).length = sizeofRune := le_length _ _

theorem int_rune {c : ℤ} (h : IsInt c) : int (leval (rune c)) = c := by
  obtain ⟨hlow, hhigh⟩ := h
  have hnonneg : 0 ≤ c % 2 ^ 32 := Int.emod_nonneg _ (by norm_num)
  have hlt : (c % 2 ^ 32).toNat < 2 ^ 32 := by
    have := Int.emod_lt_of_pos c (by norm_num : (0 : ℤ) < 2 ^ 32)
    omega
  have hval : leval (rune c) = (c % 2 ^ 32).toNat := by
    rw [rune, leval_le]
    exact Nat.mod_eq_of_lt hlt
  have hcast : (2 : ℤ) ^ 32 = ((2 ^ 32 : ℕ) : ℤ) := by norm_num
  rw [hval, Int.toNat_of_nonneg hnonneg, int, hcast, Int.emod_bmod]
  exact Int.bmod_eq_of_le (by norm_num; omega) (by norm_num; omega)

theorem byte_toNat {c : ℤ} (h : 0 ≤ c ∧ c < 128) : ((byte c).toNat : ℤ) = c := by
  have hmod : c % 2 ^ 8 = c := Int.emod_eq_of_lt h.1 (by omega)
  rw [byte, hmod, UInt8.toNat_ofNat']
  omega

structure Bytes (s : Str) (cs : List ℤ) : Prop where
  len : s.len = cs.length
  cap : s.len ≤ s.max
  room : s.max ≤ s.data.length
  small : s.max < 2 ^ 30 + 2 ^ 16
  ascii : ∀ c ∈ cs, 0 ≤ c ∧ c < 128
  holds : ∃ rest, s.data = cs.map byte ++ rest

structure Runes (s : Str) (cs : List ℤ) : Prop where
  nonempty : cs ≠ []
  len : s.len = -cs.length
  cap : -s.len ≤ s.max
  room : s.max * sizeofRune ≤ s.data.length
  small : s.max * sizeofRune < 2 ^ 30 + 2 ^ 16
  ints : ∀ c ∈ cs, IsInt c
  holds : ∃ rest, s.data = cs.flatMap rune ++ rest

def Codes (s : Str) (cs : List ℤ) : Prop := Bytes s cs ∨ Runes s cs

theorem flatMap_rune_length (cs : List ℤ) : (cs.flatMap rune).length = cs.length * sizeofRune := by
  induction cs with
  | nil => rfl
  | cons c cs ih =>
    rw [List.flatMap_cons, List.length_append, rune_length, ih, List.length_cons]
    ring

theorem Runes.len_neg {s : Str} {cs : List ℤ} (h : Runes s cs) : s.len < 0 := by
  have hpos := List.length_pos_of_ne_nil h.nonempty
  have hlen := h.len
  omega

theorem Bytes.not_neg {s : Str} {cs : List ℤ} (h : Bytes s cs) : ¬s.len < 0 := by
  have hlen := h.len
  omega

theorem Bytes.take {s : Str} {cs : List ℤ} (h : Bytes s cs) :
    s.data.take s.len.toNat = cs.map byte := by
  obtain ⟨rest, hrest⟩ := h.holds
  rw [h.len, hrest]
  exact List.take_left' (by simp)

theorem Runes.take {s : Str} {cs : List ℤ} (h : Runes s cs) :
    s.data.take ((-s.len).toNat * sizeofRune) = cs.flatMap rune := by
  obtain ⟨rest, hrest⟩ := h.holds
  rw [h.len, hrest]
  exact List.take_left' (by rw [flatMap_rune_length]; simp)

theorem Bytes.cvtup {s : Str} {cs : List ℤ} (h : Bytes s cs) : cvtup s = cs.flatMap rune := by
  rw [Dis.cvtup, h.take, List.flatMap_map]
  refine List.flatMap_congr fun c hc => ?_
  rw [byte_toNat (h.ascii c hc)]

theorem Bytes.sascii {s : Str} {cs : List ℤ} (h : Bytes s cs) {v : ℕ} (hv : v < cs.length) :
    (Sascii s v : ℤ) = cs[v] := by
  obtain ⟨rest, hrest⟩ := h.holds
  have hget : s.data.getD v 0 = byte cs[v] := by
    rw [hrest, List.getD_append _ _ _ _ (by simpa using hv)]
    simp [hv]
  rw [Sascii, hget, byte_toNat (h.ascii _ (List.getElem_mem hv))]

theorem Runes.srune {s : Str} {cs : List ℤ} (h : Runes s cs) {v : ℕ} (hv : v < cs.length) :
    int (Srune s v) = cs[v] := by
  obtain ⟨rest, hrest⟩ := h.holds
  have hsplit : s.data =
      (cs.take v).flatMap rune ++ (rune cs[v] ++ ((cs.drop (v + 1)).flatMap rune ++ rest)) := by
    have hcs : cs.flatMap rune = (cs.take v ++ cs[v] :: cs.drop (v + 1)).flatMap rune := by
      rw [← List.drop_eq_getElem_cons hv, List.take_append_drop]
    rw [hrest, hcs]
    simp only [List.flatMap_append, List.flatMap_cons, List.append_assoc]
  have hbefore : ((cs.take v).flatMap rune).length = v * sizeofRune := by
    rw [flatMap_rune_length, List.length_take_of_le (by omega)]
  rw [Srune, hsplit, List.drop_left' hbefore, List.take_left' (by simp)]
  exact int_rune (h.ints _ (List.getElem_mem hv))

section
variable (pool : Pool) {n : ℕ} {α β : Type}

def Quiet (vm vm' : Vm n) : Prop := ∃ k, vm' = { vm with allocs := k }

theorem quiet_refl (vm : Vm n) : Quiet vm vm := ⟨vm.allocs, rfl⟩

theorem Quiet.trans {vm vm' vm'' : Vm n} (h : Quiet vm vm') (h' : Quiet vm' vm'') :
    Quiet vm vm'' := by
  obtain ⟨k, rfl⟩ := h
  obtain ⟨k', rfl⟩ := h'
  exact ⟨k', rfl⟩

/-- A procedure that only allocates yields a result as `Q` says, or raises an error
as `E` says. -/
def Makes (x : Op n α) (Q : α → Prop) (E : Raised → Prop) : Prop :=
  ∀ vm, Ensures x vm (fun a vm' => Quiet vm vm' ∧ Q a) fun e vm' => Quiet vm vm' ∧ E e

variable {x : Op n α} {f : α → Op n β} {Q Q' : α → Prop} {R : β → Prop} {E E' : Raised → Prop}

theorem makes_pure {a : α} (h : Q a) : Makes (pure a : Op n α) Q E :=
  fun vm => ensures_pure ⟨quiet_refl vm, h⟩

theorem makes_throw {e : Raised} (h : E e) : Makes (throw e : Op n α) Q E :=
  fun vm => ensures_throw ⟨quiet_refl vm, h⟩

theorem Makes.bind (hx : Makes x Q E) (hf : ∀ a, Q a → Makes (f a) R E) :
    Makes (x >>= f) R E := by
  intro vm
  refine (hx vm).call (fun a vm' ha => ?_) fun e vm' he => he
  refine (hf a ha.2 vm').mono ?_ ?_
  · exact fun b vm'' hb => ⟨ha.1.trans hb.1, hb.2⟩
  · exact fun e vm'' he => ⟨ha.1.trans he.1, he.2⟩

theorem Makes.mono (hx : Makes x Q E) (hQ : ∀ a, Q a → Q' a) (hE : ∀ e, E e → E' e) :
    Makes x Q' E' :=
  fun vm => (hx vm).mono (fun a _ h => ⟨h.1, hQ a h.2⟩) fun e _ h => ⟨h.1, hE e h.2⟩

theorem Makes.map {g : α → β} (hx : Makes x Q E) (hg : ∀ a, Q a → R (g a)) :
    Makes (x >>= fun a => pure (g a)) R E :=
  hx.bind fun a ha => makes_pure (hg a ha)

structure Block (unit : ℕ) (s : Str) : Prop where
  room : s.max * unit ≤ s.data.length
  small : s.max * unit < 2 ^ 30 + 2 ^ 16

theorem nheap_makes {size : ℤ} (hlow : 0 ≤ size) (hhigh : size < 2 ^ 31) :
    Makes (nheap pool size : Op n (List UInt8))
      (fun b => sizeofHeap + size ≤ b.length ∧ (b.length : ℤ) < 2 ^ 30 + 2 ^ 16)
      (· = .exHeap) := by
  intro vm
  refine ensures_get (ensures_set ?_)
  have hint : int size = size := int_eq ⟨by omega, hhigh⟩
  rw [hint]
  have hreq : ((sizeofHeap + size) % 2 ^ 64).toNat = (sizeofHeap + size).toNat := by
    rw [Int.emod_eq_of_lt (by simp [sizeofHeap]; omega) (by simp [sizeofHeap]; omega)]
  rw [hreq]
  cases hget : pool.get vm.allocs (sizeofHeap + size).toNat with
  | none => exact ensures_throw ⟨⟨_, rfl⟩, rfl⟩
  | some b =>
    have hleast := pool.least _ _ _ hget
    have hmost := pool.most _ _ _ hget
    have hsane : (sizeofHeap + size).toNat < 2 ^ 30 := by
      by_contra hbig
      rw [pool.sane _ _ (not_lt.mp hbig)] at hget
      cases hget
    exact ensures_pure ⟨⟨_, rfl⟩, by omega, by omega⟩

theorem newstring_makes {nb : ℤ} (hlow : 0 ≤ nb) (hhigh : sizeofString + nb < 2 ^ 31) :
    Makes (newstring pool nb : Op n Str) (fun s => s.len = nb ∧ nb ≤ s.max ∧ Block 1 s)
      (· = .exHeap) := by
  have hint : int nb = nb := int_eq ⟨by omega, by simp only [sizeofString] at hhigh; omega⟩
  simp only [newstring, hint]
  refine (nheap_makes pool (by simp only [sizeofString]; omega) hhigh).map fun b hb => ?_
  simp only [sizeofString, sizeofHeap] at hb ⊢
  refine ⟨trivial, by push_cast at hb ⊢; omega, ?_, by push_cast at hb ⊢; omega⟩
  simp only [dataoffset, sizeofHeap, List.length_drop]
  push_cast at hb ⊢
  omega

theorem newrunes_makes {nr : ℤ} (hlow : 0 < nr) (hhigh : sizeofString + nr * sizeofRune < 2 ^ 31) :
    Makes (newrunes pool nr : Op n Str) (fun s => s.len = -nr ∧ nr ≤ s.max ∧ Block sizeofRune s)
      (· = .exHeap) := by
  have hint : int nr = nr :=
    int_eq ⟨by omega, by simp only [sizeofString, sizeofRune] at hhigh; omega⟩
  simp only [newrunes, hint, if_neg hlow.ne', if_neg hlow.not_gt]
  refine (nheap_makes pool (by simp only [sizeofString, sizeofRune]; omega) hhigh).map
    fun b hb => ?_
  simp only [sizeofString, sizeofHeap, sizeofRune] at hb ⊢
  refine ⟨trivial, by push_cast at hb ⊢; omega, ?_, by push_cast at hb ⊢; omega⟩
  simp only [dataoffset, sizeofHeap, List.length_drop]
  push_cast at hb ⊢
  omega

structure Poked (s : Str) (w : List UInt8) (s' : Str) : Prop where
  len : s'.len = s.len
  max : s'.max = s.max
  size : s'.data.length = s.data.length
  data : s'.data = w ++ s.data.drop w.length

theorem poke_makes {s : Str} {i : ℕ} {bs front : List UInt8} (hfront : i = front.length)
    (hdata : ∃ rest, s.data = front ++ rest) (hroom : i + bs.length ≤ s.data.length) :
    Makes (poke s i bs : Op n Str) (Poked s (front ++ bs)) E := by
  subst hfront
  obtain ⟨rest, hrest⟩ := hdata
  have htake : s.data.take front.length = front := by rw [hrest, List.take_left]
  rw [poke, if_pos hroom, htake]
  refine makes_pure ⟨rfl, rfl, ?_, by rw [List.length_append]⟩
  simp only [List.length_append, List.length_drop]
  omega

theorem poke_start {s : Str} {bs : List UInt8} (hroom : bs.length ≤ s.data.length) :
    Makes (poke s 0 bs : Op n Str) (Poked s bs) E := by
  have h : Makes (poke s 0 bs : Op n Str) (Poked s ([] ++ bs)) E :=
    poke_makes rfl ⟨s.data, rfl⟩ (by omega)
  exact h

theorem Block.bytes {s s' : Str} {cs : List ℤ} (hs : Block 1 s) (hmax : s'.max = s.max)
    (hsize : s'.data.length = s.data.length) (hlen : s'.len = cs.length) (hcap : cs.length ≤ s.max)
    (hascii : ∀ c ∈ cs, 0 ≤ c ∧ c < 128) (hdata : ∃ rest, s'.data = cs.map byte ++ rest) :
    Bytes s' cs where
  len := hlen
  cap := by rw [hlen, hmax]; exact hcap
  room := by rw [hmax, hsize]; simpa using hs.room
  small := by rw [hmax]; simpa using hs.small
  ascii := hascii
  holds := hdata

theorem Block.runes {s s' : Str} {cs : List ℤ} (hs : Block sizeofRune s) (hmax : s'.max = s.max)
    (hsize : s'.data.length = s.data.length) (hlen : s'.len = -cs.length) (hne : cs ≠ [])
    (hcap : cs.length ≤ s.max) (hints : ∀ c ∈ cs, IsInt c)
    (hdata : ∃ rest, s'.data = cs.flatMap rune ++ rest) : Runes s' cs where
  nonempty := hne
  len := hlen
  cap := by rw [hlen, hmax]; simpa using hcap
  room := by rw [hmax, hsize]; exact hs.room
  small := by rw [hmax]; exact hs.small
  ints := hints
  holds := hdata

theorem Bytes.block {s : Str} {cs : List ℤ} (h : Bytes s cs) : Block 1 s :=
  ⟨by simpa using h.room, by simpa using h.small⟩

theorem Runes.block {s : Str} {cs : List ℤ} (h : Runes s cs) : Block sizeofRune s :=
  ⟨h.room, h.small⟩

theorem Bytes.ints {s : Str} {cs : List ℤ} (h : Bytes s cs) : ∀ c ∈ cs, IsInt c := by
  intro c hc
  have hascii := h.ascii c hc
  exact ⟨by omega, by omega⟩

theorem fill_bytes {cs : List ℤ} {nb : ℤ} (hnb : nb = cs.length)
    (hascii : ∀ c ∈ cs, 0 ≤ c ∧ c < 128) (hsize : sizeofString + nb < 2 ^ 31) :
    Makes (do
      let ns ← newstring pool nb
      poke ns 0 (cs.map byte) : Op n Str) (Bytes · cs) (· = .exHeap) := by
  refine (newstring_makes pool (by omega) hsize).bind fun ns hns => ?_
  obtain ⟨hlen, hcap, hblock⟩ := hns
  have hroom := hblock.room
  refine (poke_start (by simp; omega)).mono (fun s' hs' => ?_) fun _ h => h
  exact hblock.bytes hs'.max hs'.size (by rw [hs'.len, hlen, hnb]) (by omega) hascii
    ⟨_, hs'.data⟩

theorem fill_runes {cs : List ℤ} {nr : ℤ} (hnr : nr = cs.length) (hne : cs ≠ [])
    (hints : ∀ c ∈ cs, IsInt c) (hsize : sizeofString + nr * sizeofRune < 2 ^ 31) :
    Makes (do
      let ns ← newrunes pool nr
      poke ns 0 (cs.flatMap rune) : Op n Str) (Runes · cs) (· = .exHeap) := by
  have hpos := List.length_pos_of_ne_nil hne
  refine (newrunes_makes pool (by omega) hsize).bind fun ns hns => ?_
  obtain ⟨hlen, hcap, hblock⟩ := hns
  have hroom := hblock.room
  have hfit : (cs.flatMap rune).length ≤ ns.data.length := by
    rw [flatMap_rune_length]
    simp only [sizeofRune] at hroom ⊢
    omega
  refine (poke_start hfit).mono (fun s' hs' => ?_) fun _ h => h
  exact hblock.runes hs'.max hs'.size (by rw [hs'.len, hlen, hnr]) hne (by omega) hints
    ⟨_, hs'.data⟩

theorem Runes.size {s : Str} {cs : List ℤ} (h : Runes s cs) :
    sizeofString + (cs.length : ℤ) * sizeofRune < 2 ^ 31 := by
  have hcap := h.cap
  have hlen := h.len
  have hsmall := h.small
  simp only [sizeofString, sizeofRune] at hsmall ⊢
  omega

theorem Bytes.size {s : Str} {cs : List ℤ} (h : Bytes s cs) :
    sizeofString + (cs.length : ℤ) < 2 ^ 31 := by
  have hcap := h.cap
  have hlen := h.len
  have hsmall := h.small
  simp only [sizeofString]
  omega

theorem stringdup_bytes {s : Str} {cs : List ℤ} (h : Bytes s cs) :
    Makes (stringdup pool s : Op n Str) (Bytes · cs) (· = .exHeap) := by
  rw [stringdup, if_pos (not_lt.mp h.not_neg), h.take]
  exact fill_bytes pool h.len h.ascii (by rw [h.len]; exact h.size)

theorem stringdup_runes {s : Str} {cs : List ℤ} (h : Runes s cs) :
    Makes (stringdup pool s : Op n Str) (Runes · cs) (· = .exHeap) := by
  have hnr : -s.len = cs.length := by rw [h.len, neg_neg]
  rw [stringdup, if_neg (not_le.mpr h.len_neg), h.take]
  exact fill_runes pool hnr h.nonempty h.ints (by rw [hnr]; exact h.size)

theorem stringdup_makes {s : Str} {cs : List ℤ} (h : Codes s cs) :
    Makes (stringdup pool s : Op n Str) (Codes · cs) (· = .exHeap) := by
  obtain h | h := h
  · exact (stringdup_bytes pool h).mono (fun _ => .inl) fun _ h => h
  · exact (stringdup_runes pool h).mono (fun _ => .inr) fun _ h => h

theorem split_runes {s : Str} {cs : List ℤ} (h : Runes s cs) (expand : Bool) :
    Makes (split pool s expand : Op n Str) (Runes · cs) (· = .exHeap) := by
  have hneg := h.len_neg
  rw [split, if_neg (by omega)]
  exact stringdup_runes pool h

theorem split_expand {s : Str} {cs : List ℤ} (h : Bytes s cs) (hne : cs ≠ [])
    (hsize : sizeofString + (cs.length : ℤ) * sizeofRune < 2 ^ 31) :
    Makes (split pool s true : Op n Str) (Runes · cs) (· = .exHeap) := by
  have hpos := List.length_pos_of_ne_nil hne
  rw [split, if_pos ⟨rfl, by rw [h.len]; omega⟩, h.cvtup]
  exact fill_runes pool h.len hne h.ints (by rw [h.len]; exact hsize)

theorem split_bytes {s : Str} {cs : List ℤ} (h : Bytes s cs) {expand : Bool}
    (hkeep : expand = false ∨ cs = []) :
    Makes (split pool s expand : Op n Str) (Bytes · cs) (· = .exHeap) := by
  have hcond : ¬(expand = true ∧ s.len > 0) := by
    rintro ⟨rfl, hpos⟩
    rw [h.len] at hpos
    simp only [Bool.true_eq_false, false_or] at hkeep
    simp [hkeep] at hpos
  rw [split, if_neg hcond]
  exact stringdup_bytes pool h

end

end Infernode.Dis
