import Infernode.Dis.TextCodes

/-!
# Index, slice, concatenation and order

The operations of the machine on strings compute index, update or append at the
end, slice, concatenation and lexicographic order of the codes the strings
stand for.
-/

namespace Infernode.Dis

open Lib

def Denotes (o : Option Str) (cs : List ℤ) : Prop :=
  match o with
  | none => cs = []
  | some s => Codes s cs

def insert (cs : List ℤ) (v : ℕ) (r : ℤ) : Option (List ℤ) :=
  if v < cs.length then some (cs.set v r) else if v = cs.length then some (cs ++ [r]) else none

def slice (cs : List ℤ) (start v : ℕ) : Option (List ℤ) :=
  if start ≤ v ∧ v ≤ cs.length then some ((cs.drop start).take (v - start)) else none

def decoded (cs : List UInt8) : List ℤ :=
  (readrunes (countrunes cs.length cs) cs).map fun r : ℕ => (r : ℤ)

theorem indc_codes {s : Str} {cs : List ℤ} (h : Codes s cs) {v : ℕ} (hv : v < cs.length) :
    indc (some s) v = .ok cs[v] := by
  obtain h | h := h
  · rw [indc, if_neg h.not_neg, if_neg (by rw [h.len]; omega), h.sascii hv]
  · rw [indc, if_pos h.len_neg, if_neg (by rw [h.len]; omega), h.srune hv]

theorem indc_bounds {s : Str} {cs : List ℤ} (h : Codes s cs) {v : ℕ} (hv : cs.length ≤ v) :
    indc (some s) v = .error .exBounds := by
  obtain h | h := h
  · rw [indc, if_neg h.not_neg, if_pos (by rw [h.len]; omega)]
  · rw [indc, if_pos h.len_neg, if_pos (by rw [h.len]; omega)]

def Orders (x : ℤ) (c1 c2 : List ℤ) : Prop := (x < 0 ↔ c1 < c2) ∧ (x = 0 ↔ c1 = c2)

theorem differ_orders {a b : ℕ → ℤ} {c1 c2 : List ℤ} {n i : ℕ} (hn : n = min c1.length c2.length)
    (ha : ∀ j, (hj : j < c1.length) → a (i + j) = c1[j])
    (hb : ∀ j, (hj : j < c2.length) → b (i + j) = c2[j]) :
    Orders ((differ a b n i).getD (c1.length - c2.length)) c1 c2 := by
  induction c1 generalizing c2 n i with
  | nil =>
    subst hn
    cases c2 with
    | nil => simp [Orders, differ]
    | cons y c2 =>
      simp [Orders, differ]
      omega
  | cons x c1 ih =>
    cases c2 with
    | nil =>
      subst hn
      simp [Orders, differ]
      omega
    | cons y c2 =>
      obtain rfl : n = min c1.length c2.length + 1 := by simp [hn]
      have hx : a i = x := ha 0 (by simp)
      have hy : b i = y := hb 0 (by simp)
      have hlen : (((x :: c1).length : ℕ) : ℤ) - ((y :: c2).length : ℕ) = c1.length - c2.length := by
        simp
      rw [differ, hx, hy, hlen]
      by_cases hxy : x = y
      · subst hxy
        have hrest := @ih c2 _ (i + 1) rfl
          (fun j hj => by rw [add_assoc, add_comm 1 j]; exact ha (j + 1) (by simpa using hj))
          (fun j hj => by rw [add_assoc, add_comm 1 j]; exact hb (j + 1) (by simpa using hj))
        simpa [Orders, List.cons_lt_cons_iff] using hrest
      · rw [if_pos hxy]
        by_cases hlt : x < y
        · simp [Orders, hlt, hxy, List.cons_lt_cons_iff]
        · simp [Orders, hlt, hxy, List.cons_lt_cons_iff]

def code (s : Str) (i : ℕ) : ℤ := if s.len < 0 then int (Srune s i) else Sascii s i

theorem code_runes {s : Str} (h : s.len < 0) : code s = fun i => int (Srune s i) :=
  funext fun _ => if_pos h

theorem code_bytes {s : Str} (h : ¬s.len < 0) : code s = fun i => (Sascii s i : ℤ) :=
  funext fun _ => if_neg h

theorem Codes.code {s : Str} {cs : List ℤ} (h : Codes s cs) {v : ℕ} (hv : v < cs.length) :
    code s v = cs[v] := by
  obtain h | h := h
  · rw [Dis.code, if_neg h.not_neg, h.sascii hv]
  · rw [Dis.code, if_pos h.len_neg, h.srune hv]

theorem Codes.length {s : Str} {cs : List ℤ} (h : Codes s cs) :
    (if s.len < 0 then -s.len else s.len) = cs.length := by
  obtain h | h := h
  · rw [if_neg h.not_neg, h.len]
  · rw [if_pos h.len_neg, h.len, neg_neg]

theorem snil_codes : Codes snil [] := .inl ⟨rfl, by decide, by decide, by decide, by simp, [], rfl⟩

theorem Denotes.codes {o : Option Str} {cs : List ℤ} (h : Denotes o cs) :
    Codes (o.getD snil) cs := by
  cases o with
  | none =>
    obtain rfl : cs = [] := h
    exact snil_codes
  | some s => exact h

theorem stringcmp_orders {o1 o2 : Option Str} {c1 c2 : List ℤ} (h1 : Denotes o1 c1)
    (h2 : Denotes o2 c2) : Orders (stringcmp o1 o2) c1 c2 := by
  have hc1 := h1.codes
  have hc2 := h2.codes
  have hfound : stringcmp o1 o2 = (differ (code (o1.getD snil)) (code (o2.getD snil))
      (min c1.length c2.length) 0).getD (c1.length - c2.length) := by
    have hmin : (if (c2.length : ℤ) < c1.length then (c2.length : ℤ) else c1.length).toNat =
        min c1.length c2.length := by
      split <;> omega
    simp only [stringcmp, hc1.length, hc2.length, hmin]
    congr 1
    by_cases hneg1 : (o1.getD snil).len < 0 <;> by_cases hneg2 : (o2.getD snil).len < 0
    · simp only [code_runes hneg1, code_runes hneg2, decide_eq_true hneg1, decide_eq_true hneg2]
    · simp only [code_runes hneg1, code_bytes hneg2, decide_eq_true hneg1, decide_eq_false hneg2]
    · simp only [code_bytes hneg1, code_runes hneg2, decide_eq_false hneg1, decide_eq_true hneg2]
    · simp only [code_bytes hneg1, code_bytes hneg2, decide_eq_false hneg1, decide_eq_false hneg2]
  rw [hfound]
  exact differ_orders rfl (fun j hj => by rw [zero_add]; exact hc1.code hj)
    fun j hj => by rw [zero_add]; exact hc2.code hj

section
variable (pool : Pool) {n : ℕ}

theorem drop_flatMap_rune (cs : List ℤ) (k : ℕ) :
    (cs.flatMap rune).drop (k * sizeofRune) = (cs.drop k).flatMap rune := by
  by_cases hk : k ≤ cs.length
  · have hlen : ((cs.take k).flatMap rune).length = k * sizeofRune := by
      rw [flatMap_rune_length, List.length_take_of_le hk]
    have hsplit : cs.flatMap rune = (cs.take k).flatMap rune ++ (cs.drop k).flatMap rune := by
      rw [← List.flatMap_append, List.take_append_drop]
    rw [hsplit, List.drop_left' hlen]
  · have hle : cs.length ≤ k := by omega
    have hlen : (cs.flatMap rune).length ≤ k * sizeofRune := by
      rw [flatMap_rune_length]
      exact Nat.mul_le_mul_right _ hle
    rw [List.drop_of_length_le hle, List.drop_of_length_le hlen]
    rfl

theorem take_flatMap_rune {cs : List ℤ} {k : ℕ} (hk : k ≤ cs.length) :
    (cs.flatMap rune).take (k * sizeofRune) = (cs.take k).flatMap rune := by
  have hlen : ((cs.take k).flatMap rune).length = k * sizeofRune := by
    rw [flatMap_rune_length, List.length_take_of_le hk]
  have hsplit : cs.flatMap rune = (cs.take k).flatMap rune ++ (cs.drop k).flatMap rune := by
    rw [← List.flatMap_append, List.take_append_drop]
  rw [hsplit, List.take_left' hlen]

theorem Runes.window {s : Str} {cs : List ℤ} (h : Runes s cs) {i k : ℕ} (hk : i + k ≤ cs.length) :
    (s.data.drop (i * sizeofRune)).take (k * sizeofRune) = ((cs.drop i).take k).flatMap rune := by
  obtain ⟨rest, hrest⟩ := h.holds
  have hi : i * sizeofRune ≤ (cs.flatMap rune).length := by
    rw [flatMap_rune_length]
    exact Nat.mul_le_mul_right _ (by omega)
  have hle : k ≤ (cs.drop i).length := by rw [List.length_drop]; omega
  rw [hrest, List.drop_append_of_le_length hi, drop_flatMap_rune, List.take_append_of_le_length,
    take_flatMap_rune hle]
  rw [flatMap_rune_length]
  exact Nat.mul_le_mul_right _ hle

theorem Bytes.window {s : Str} {cs : List ℤ} (h : Bytes s cs) {i k : ℕ} (hk : i + k ≤ cs.length) :
    (s.data.drop i).take k = ((cs.drop i).take k).map byte := by
  obtain ⟨rest, hrest⟩ := h.holds
  rw [hrest, List.drop_append_of_le_length (by simp; omega), List.take_append_of_le_length]
  · rw [← List.map_drop, ← List.map_take]
  · simp
    omega

def Refused (e : Raised) (bounds : Prop) : Prop := e = .exHeap ∨ e = .exBounds ∧ bounds

theorem mem_slice {cs : List ℤ} {i k : ℕ} {c : ℤ} (hc : c ∈ (cs.drop i).take k) : c ∈ cs :=
  List.mem_of_mem_drop (List.mem_of_mem_take hc)

theorem slice_within {cs : List ℤ} {start v : ℕ} (h : start ≤ v ∧ v ≤ cs.length)
    (hsize : cs.length < 2 ^ 31) :
    slice cs start v = some ((cs.drop start).take (v - start)) ∧
      int ((v : ℤ) - start) = (v - start : ℕ) ∧ start + (v - start) ≤ cs.length ∧
      ((v - start : ℕ) : ℤ) = ((cs.drop start).take (v - start)).length := by
  rw [int_eq ⟨by omega, by omega⟩, List.length_take, List.length_drop]
  exact ⟨if_pos h, by omega, by omega, by omega⟩

theorem slicer_bytes {s : Str} {cs : List ℤ} (h : Bytes s cs) (start v : ℕ) :
    Makes (slicer pool start v (some s) : Op n (Option Str))
      (fun ns => ∃ cs', slice cs start v = some cs' ∧ Denotes ns cs')
      (Refused · (slice cs start v = none)) := by
  have hsize := h.size
  simp only [sizeofString] at hsize
  rw [slicer, if_neg h.not_neg, h.len]
  by_cases hbounds : start ≤ v ∧ v ≤ cs.length
  · obtain ⟨hslice, hnc, hk, hlen⟩ := slice_within hbounds (by omega)
    rw [if_neg (by omega), hnc]
    by_cases hzero : v - start = 0
    · rw [if_pos (by exact_mod_cast hzero)]
      exact makes_pure ⟨_, hslice, by simp [Denotes, hzero]⟩
    · rw [if_neg (by exact_mod_cast hzero), Int.toNat_natCast, h.window hk, ← bind_assoc]
      have hfill := fill_bytes (n := n) pool hlen (fun c hc => h.ascii c (mem_slice hc))
        (by simp only [sizeofString]; omega)
      refine (hfill.mono (fun _ h => h) fun _ => .inl).map fun ns hns => ?_
      exact ⟨_, hslice, .inl hns⟩
  · rw [if_pos (by omega)]
    exact makes_throw (.inr ⟨rfl, if_neg hbounds⟩)

theorem slicer_runes {s : Str} {cs : List ℤ} (h : Runes s cs) (start v : ℕ) :
    Makes (slicer pool start v (some s) : Op n (Option Str))
      (fun ns => ∃ cs', slice cs start v = some cs' ∧ Denotes ns cs')
      (Refused · (slice cs start v = none)) := by
  have hsize := h.size
  simp only [sizeofString, sizeofRune] at hsize
  rw [slicer, if_pos h.len_neg, h.len, neg_neg]
  by_cases hbounds : start ≤ v ∧ v ≤ cs.length
  · obtain ⟨hslice, hnc, hk, hlen⟩ := slice_within hbounds (by omega)
    rw [if_neg (by omega), hnc]
    by_cases hzero : v - start = 0
    · rw [if_pos (by exact_mod_cast hzero)]
      exact makes_pure ⟨_, hslice, by simp [Denotes, hzero]⟩
    · have hne : (cs.drop start).take (v - start) ≠ [] := by
        intro hnil
        rw [hnil] at hlen
        exact hzero (by exact_mod_cast hlen)
      rw [if_neg (by exact_mod_cast hzero), Int.toNat_natCast, h.window hk, ← bind_assoc]
      generalize hnr : ((v - start : ℕ) : ℤ) = nr at *
      have hfill := fill_runes (n := n) pool hlen hne (fun c hc => h.ints c (mem_slice hc))
        (by simp only [sizeofString, sizeofRune]; omega)
      refine (hfill.mono (fun _ h => h) fun _ => .inl).map fun ns hns => ?_
      exact ⟨_, hslice, .inr hns⟩
  · rw [if_pos (by omega)]
    exact makes_throw (.inr ⟨rfl, if_neg hbounds⟩)

theorem slicer_makes {o : Option Str} {cs : List ℤ} (h : Denotes o cs) (start v : ℕ) :
    Makes (slicer pool start v o : Op n (Option Str))
      (fun ns => ∃ cs', slice cs start v = some cs' ∧ Denotes ns cs')
      (Refused · (slice cs start v = none)) := by
  cases o with
  | none =>
    obtain rfl : cs = [] := h
    by_cases hzero : start = 0 ∧ v = 0
    · obtain ⟨rfl, rfl⟩ := hzero
      exact makes_pure ⟨[], rfl, rfl⟩
    · rw [slicer, if_neg hzero]
      refine makes_throw (.inr ⟨rfl, if_neg ?_⟩)
      rw [List.length_nil]
      omega
  | some s =>
    obtain h | h := h
    · exact slicer_bytes pool h start v
    · exact slicer_runes pool h start v

def Left.Stands (left : Left) (P : Str → Prop) : Prop :=
  match left with
  | .nil => False
  | .same s => P s
  | .other s => P s

theorem poke_twice {ns : Str} {i : ℕ} {len : ℤ} {a b : List UInt8} (hi : i = a.length)
    (hroom : a.length + b.length ≤ ns.data.length) {E : Raised → Prop} :
    Makes (do
      let ns ← poke ns 0 a
      poke { ns with len } i b : Op n Str)
      (fun s => s.len = len ∧ s.max = ns.max ∧ s.data.length = ns.data.length ∧
        ∃ rest, s.data = (a ++ b) ++ rest) E := by
  refine (poke_start (by omega)).bind fun s hs => ?_
  refine (poke_makes (s := { s with len }) hi ⟨_, hs.data⟩ (by rw [hi, hs.size]; exact hroom)).mono
    (fun s' hs' => ?_) fun _ h => h
  exact ⟨hs'.len, hs'.max.trans hs.max, hs'.size.trans hs.size, _, hs'.data⟩

theorem joined_room {s : Str} {c1 c2 : List ℤ} (hs : Block sizeofRune s)
    (hcap : (c1.length : ℤ) + c2.length ≤ s.max) :
    (c1.flatMap rune).length + (c2.flatMap rune).length ≤ s.data.length := by
  have hroom := hs.room
  rw [flatMap_rune_length, flatMap_rune_length]
  simp only [sizeofRune] at hroom ⊢
  omega

theorem append_ne_nil {c1 c2 : List ℤ} (h : 0 < (c1.length : ℤ) + c2.length) : c1 ++ c2 ≠ [] := by
  intro hnil
  have hlen := congrArg List.length hnil
  rw [List.length_append, List.length_nil] at hlen
  omega

theorem join_runes {c1 c2 : List ℤ} {l g : ℤ} {i : ℕ} (hi : i = (c1.flatMap rune).length)
    (hl : l = c1.length + c2.length) (hpos : 0 < l) (hg : l ≤ g)
    (hints : ∀ c ∈ c1 ++ c2, IsInt c) (hsize : sizeofString + g * sizeofRune < 2 ^ 31) :
    Makes (do
      let ns ← newrunes pool g
      let ns ← poke ns 0 (c1.flatMap rune)
      let ns ← poke { ns with len := -l } i (c2.flatMap rune)
      pure (.other ns) : Op n Left)
      (fun left => ∃ s, left = .other s ∧ Runes s (c1 ++ c2)) (· = .exHeap) := by
  refine (newrunes_makes pool (by omega) hsize).bind fun ns hns => ?_
  obtain ⟨-, hcap, hblock⟩ := hns
  rw [← bind_assoc]
  refine (poke_twice hi (joined_room hblock (by omega))).map fun s hs => ⟨s, rfl, ?_⟩
  obtain ⟨hlen, hmax, hsame, rest, hrest⟩ := hs
  refine hblock.runes hmax hsame ?_ (append_ne_nil (by omega)) ?_ hints ⟨rest, by simp [hrest]⟩
  · rw [hlen, hl, List.length_append]
    push_cast
    ring
  · rw [List.length_append]
    push_cast
    omega

theorem append_runes {s : Str} {c1 c2 : List ℤ} (h : Runes s c1) {l : ℤ} {i : ℕ}
    (hi : i = c1.length * sizeofRune) (hl : l = c1.length + c2.length) (hcap : l ≤ s.max)
    (hints : ∀ c ∈ c2, IsInt c) {E : Raised → Prop} :
    Makes (poke { s with len := -l } i (c2.flatMap rune) : Op n Str) (Runes · (c1 ++ c2)) E := by
  have hroom : (c1.flatMap rune).length + (c2.flatMap rune).length ≤ s.data.length :=
    joined_room h.block (by omega)
  have hstart : i = (c1.flatMap rune).length := by rw [hi, flatMap_rune_length]
  refine (poke_makes (s := { s with len := -l }) hstart h.holds (by rw [hstart]; exact hroom)).mono (fun s' hs' => ?_)
    fun _ h => h
  have hpos := List.length_pos_of_ne_nil h.nonempty
  have hne : c1 ++ c2 ≠ [] := append_ne_nil (by omega)
  refine h.block.runes hs'.max hs'.size ?_ hne ?_ ?_
    ⟨_, by rw [hs'.data, List.flatMap_append]⟩
  · rw [hs'.len, hl, List.length_append]
    push_cast
    ring
  · rw [List.length_append]
    push_cast
    omega
  · exact List.forall_mem_append.mpr ⟨h.ints, hints⟩

theorem join_bytes {c1 c2 : List ℤ} {l g : ℤ} {i : ℕ} (hi : i = c1.length)
    (hl : l = c1.length + c2.length) (hg : l ≤ g)
    (hascii : ∀ c ∈ c1 ++ c2, 0 ≤ c ∧ c < 128) (hsize : sizeofString + g < 2 ^ 31) :
    Makes (do
      let ns ← newstring pool g
      let ns ← poke ns 0 (c1.map byte)
      let ns ← poke { ns with len := l } i (c2.map byte)
      pure (.other ns) : Op n Left)
      (fun left => ∃ s, left = .other s ∧ Bytes s (c1 ++ c2)) (· = .exHeap) := by
  refine (newstring_makes pool (by omega) hsize).bind fun ns hns => ?_
  obtain ⟨-, hcap, hblock⟩ := hns
  have hroom := hblock.room
  rw [← bind_assoc]
  refine (poke_twice (by simpa using hi) (by simp; omega)).map fun s hs => ⟨s, rfl, ?_⟩
  obtain ⟨hlen, hmax, hsame, rest, hrest⟩ := hs
  refine hblock.bytes hmax hsame ?_ ?_ hascii ⟨rest, by simp [hrest]⟩
  · rw [hlen, hl, List.length_append]
    push_cast
    rfl
  · rw [List.length_append]
    push_cast
    omega

theorem append_bytes {s : Str} {c1 c2 : List ℤ} (h : Bytes s c1) {l : ℤ} {i : ℕ}
    (hi : i = c1.length) (hl : l = c1.length + c2.length) (hcap : l ≤ s.max)
    (hascii : ∀ c ∈ c2, 0 ≤ c ∧ c < 128) {E : Raised → Prop} :
    Makes (poke { s with len := l } i (c2.map byte) : Op n Str) (Bytes · (c1 ++ c2)) E := by
  have hroom := h.room
  have hstart : i = (c1.map byte).length := by simpa using hi
  have hfit : i + (c2.map byte).length ≤ s.data.length := by
    rw [List.length_map]
    omega
  refine (poke_makes (s := { s with len := l }) hstart h.holds hfit).mono (fun s' hs' => ?_) fun _ h => h
  refine h.block.bytes hs'.max hs'.size ?_ ?_ ?_ ⟨_, by rw [hs'.data, List.map_append]⟩
  · rw [hs'.len, hl, List.length_append]
    push_cast
    rfl
  · rw [List.length_append]
    push_cast
    omega
  · exact List.forall_mem_append.mpr ⟨h.ascii, hascii⟩

/-- The block that a concatenation asks for, if it must: its length, more when it is
to be appended to again, in the wider of the two representations. -/
def request (s1 s2 : Str) (append : Bool) : ℤ :=
  let l := |s1.len| + |s2.len|
  let g := if append then l + l / 4 else l
  sizeofString + (if s1.len < 0 ∨ s2.len < 0 then g * sizeofRune else g)

theorem Codes.abs_len {s : Str} {cs : List ℤ} (h : Codes s cs) : |s.len| = cs.length := by
  obtain h | h := h
  · rw [h.len]
    simp
  · rw [h.len]
    simp

theorem Codes.ints {s : Str} {cs : List ℤ} (h : Codes s cs) : ∀ c ∈ cs, IsInt c := by
  obtain h | h := h
  · exact h.ints
  · exact h.ints

theorem Codes.tail {s : Str} {cs : List ℤ} (h : Codes s cs) :
    (if s.len < 0 then s.data.take ((-s.len).toNat * sizeofRune) else cvtup s) =
      cs.flatMap rune := by
  obtain h | h := h
  · rw [if_neg h.not_neg, h.cvtup]
  · rw [if_pos h.len_neg, h.take]

/-- The concatenation of `c1` and `c2` is left, in place only where that is allowed. -/
def Joined (c1 c2 : List ℤ) (own : Prop) (left : Left) : Prop :=
  (left.Stands (Codes · (c1 ++ c2))) ∧ ∀ s, left = .same s → own

theorem joined_same {c1 c2 : List ℤ} {own : Prop} {s : Str} (h : Codes s (c1 ++ c2)) (hown : own) :
    Joined c1 c2 own (.same s) :=
  ⟨h, fun _ _ => hown⟩

theorem joined_other {c1 c2 : List ℤ} {own : Prop} {s : Str} (h : Codes s (c1 ++ c2)) :
    Joined c1 c2 own (.other s) :=
  ⟨h, fun _ h => nomatch h⟩

def grown (l : ℤ) (own : Bool) : ℤ := if own then l + l / 4 else l

theorem grown_eq (l : ℤ) (own : Bool) : (if own = true then l + l / 4 else l) = grown l own := rfl

theorem le_grown {l : ℤ} (hl : 0 ≤ l) (own : Bool) : l ≤ grown l own := by
  rw [grown]
  split <;> omega

theorem own_iff {append : Bool} {ref : ℕ} :
    (append && decide (ref ≤ 1)) = true ↔ append = true ∧ ref ≤ 1 := by
  rw [Bool.and_eq_true, decide_eq_true_eq]

theorem addstring_runes {o : Obj} {s2 : Str} {c1 c2 : List ℤ} {append : Bool}
    (h1 : Runes o.str c1) (h2 : Codes s2 c2)
    (hsize : request o.str s2 (append && decide (o.ref ≤ 1)) < 2 ^ 31) :
    Makes (addstring pool (some o) (some s2) append : Op n Left)
      (Joined c1 c2 (append = true ∧ o.ref ≤ 1)) (· = .exHeap) := by
  have hneg := h1.len_neg
  have hpos := List.length_pos_of_ne_nil h1.nonempty
  have hlen := h1.len
  have habs1 := Codes.abs_len (.inr h1)
  have habs2 := h2.abs_len
  simp only [request, if_pos (Or.inl hneg), habs1, habs2, grown_eq] at hsize
  simp only [addstring, if_pos hneg, h2.tail, h1.take, grown_eq]
  have hown := @own_iff append o.ref
  generalize (append && decide (o.ref ≤ 1)) = own at *
  have hgle := le_grown (by omega : 0 ≤ (c1.length : ℤ) + c2.length) own
  have hl : (if s2.len < 0 then int (-o.str.len - s2.len) else int (-o.str.len + s2.len)) =
      (c1.length : ℤ) + c2.length := by
    simp only [sizeofString, sizeofRune] at hsize
    by_cases hneg2 : s2.len < 0
    · rw [abs_of_neg hneg2] at habs2
      rw [if_pos hneg2, int_eq ⟨by omega, by omega⟩]
      omega
    · rw [abs_of_nonneg (not_lt.mp hneg2)] at habs2
      rw [if_neg hneg2, int_eq ⟨by omega, by omega⟩]
      omega
  have hi : (-o.str.len).toNat * sizeofRune = c1.length * sizeofRune := by
    rw [hlen, neg_neg, Int.toNat_natCast]
  rw [hl, hi]
  by_cases hin : own = true ∧ (c1.length : ℤ) + c2.length ≤ o.str.max
  · rw [if_pos hin]
    exact (append_runes h1 rfl rfl hin.2 h2.ints).map
      fun s hs => joined_same (.inr hs) (hown.mp hin.1)
  · rw [if_neg hin]
    refine (join_runes pool (by rw [flatMap_rune_length]) rfl (by omega) hgle
      (List.forall_mem_append.mpr ⟨h1.ints, h2.ints⟩) hsize).mono ?_ fun _ h => h
    rintro _ ⟨s, rfl, hs⟩
    exact joined_other (.inr hs)

theorem addstring_widen {o : Obj} {s2 : Str} {c1 c2 : List ℤ} {append : Bool}
    (h1 : Bytes o.str c1) (h2 : Runes s2 c2)
    (hsize : request o.str s2 (append && decide (o.ref ≤ 1)) < 2 ^ 31) :
    Makes (addstring pool (some o) (some s2) append : Op n Left)
      (Joined c1 c2 (append = true ∧ o.ref ≤ 1)) (· = .exHeap) := by
  have hneg := h2.len_neg
  have hpos := List.length_pos_of_ne_nil h2.nonempty
  have hlen := h1.len
  have hlen2 := h2.len
  have habs1 := Codes.abs_len (.inl h1)
  have habs2 := Codes.abs_len (.inr h2)
  simp only [request, if_pos (Or.inr hneg), habs1, habs2, grown_eq] at hsize
  simp only [addstring, if_neg h1.not_neg, if_pos hneg, h1.cvtup, h2.take, grown_eq]
  generalize (append && decide (o.ref ≤ 1)) = own at *
  have hgle := le_grown (by omega : 0 ≤ (c1.length : ℤ) + c2.length) own
  have hl : int (o.str.len + -s2.len) = (c1.length : ℤ) + c2.length := by
    simp only [sizeofString, sizeofRune] at hsize
    rw [int_eq ⟨by omega, by omega⟩]
    omega
  rw [hl, hlen, Int.toNat_natCast]
  refine (newrunes_makes pool (by omega) hsize).bind fun ns hns => ?_
  obtain ⟨-, hcap, hblock⟩ := hns
  have hroom : (c1.flatMap rune).length + (c2.flatMap rune).length ≤ ns.data.length :=
    joined_room hblock (by omega)
  refine (poke_start (by dsimp only; omega)).bind fun s hs => ?_
  have hstart : c1.length * sizeofRune = (c1.flatMap rune).length := by rw [flatMap_rune_length]
  have hfit : c1.length * sizeofRune + (c2.flatMap rune).length ≤ s.data.length := by
    rw [hstart, hs.size]
    exact hroom
  refine (poke_makes hstart ⟨_, hs.data⟩ hfit).map fun s' hs' => joined_other (.inr ?_)
  have hne : c1 ++ c2 ≠ [] := append_ne_nil (by omega)
  refine hblock.runes (hs'.max.trans hs.max) (hs'.size.trans hs.size) ?_ hne ?_
    (List.forall_mem_append.mpr ⟨h1.ints, h2.ints⟩) ⟨_, by rw [hs'.data, List.flatMap_append]⟩
  · rw [hs'.len, hs.len, List.length_append]
    push_cast
    ring
  · rw [List.length_append]
    push_cast
    omega

theorem addstring_bytes {o : Obj} {s2 : Str} {c1 c2 : List ℤ} {append : Bool}
    (h1 : Bytes o.str c1) (h2 : Bytes s2 c2)
    (hsize : request o.str s2 (append && decide (o.ref ≤ 1)) < 2 ^ 31) :
    Makes (addstring pool (some o) (some s2) append : Op n Left)
      (Joined c1 c2 (append = true ∧ o.ref ≤ 1)) (· = .exHeap) := by
  have habs1 := Codes.abs_len (.inl h1)
  have habs2 := Codes.abs_len (.inl h2)
  have hbytes : ¬(o.str.len < 0 ∨ s2.len < 0) := by
    rintro (h | h)
    · exact h1.not_neg h
    · exact h2.not_neg h
  simp only [request, if_neg hbytes, habs1, habs2, grown_eq] at hsize
  simp only [addstring, if_neg h1.not_neg, if_neg h2.not_neg, h1.take, h2.take, grown_eq]
  have hown := @own_iff append o.ref
  generalize (append && decide (o.ref ≤ 1)) = own at *
  have hgle := le_grown (by omega : 0 ≤ (c1.length : ℤ) + c2.length) own
  have hl : int (o.str.len + s2.len) = (c1.length : ℤ) + c2.length := by
    simp only [sizeofString] at hsize
    rw [h1.len, h2.len, int_eq ⟨by omega, by omega⟩]
  have hi : o.str.len.toNat = c1.length := by rw [h1.len, Int.toNat_natCast]
  rw [hl, hi]
  by_cases hin : own = true ∧ (c1.length : ℤ) + c2.length ≤ o.str.max
  · rw [if_pos hin]
    exact (append_bytes h1 rfl rfl hin.2 h2.ascii).map
      fun s hs => joined_same (.inl hs) (hown.mp hin.1)
  · rw [if_neg hin]
    refine (join_bytes pool rfl rfl hgle (List.forall_mem_append.mpr ⟨h1.ascii, h2.ascii⟩)
      hsize).mono ?_ fun _ h => h
    rintro _ ⟨s, rfl, hs⟩
    exact joined_other (.inl hs)

/-- The block a concatenation asks for where neither string is nil. -/
def Asks (o1 : Option Obj) (o2 : Option Str) (append : Bool) : Prop :=
  ∀ s1 ∈ o1, ∀ s2 ∈ o2, request s1.str s2 (append && decide (s1.ref ≤ 1)) < 2 ^ 31

theorem addstring_makes {o1 : Option Obj} {o2 : Option Str} {c1 c2 : List ℤ} {append : Bool}
    (h1 : Denotes (o1.map Obj.str) c1) (h2 : Denotes o2 c2) (hsize : Asks o1 o2 append) :
    Makes (addstring pool o1 o2 append : Op n Left)
      (fun left => (left = .nil ∧ c1 ++ c2 = []) ∨
        Joined c1 c2 (append = true ∧ ∃ o ∈ o1, o.ref ≤ 1) left)
      (· = .exHeap) := by
  cases o1 with
  | none =>
    obtain rfl : c1 = [] := h1
    cases o2 with
    | none =>
      obtain rfl : c2 = [] := h2
      exact makes_pure (.inl ⟨rfl, rfl⟩)
    | some s2 => exact (stringdup_makes pool h2).map fun s hs => .inr (joined_other hs)
  | some o =>
    cases o2 with
    | none =>
      obtain rfl : c2 = [] := h2
      rw [addstring]
      split
      next hin =>
        have hsame : Codes o.str (c1 ++ []) := by
          rw [List.append_nil]
          exact h1
        exact makes_pure (.inr (joined_same hsame ⟨hin.1, o, rfl, hin.2⟩))
      next =>
        exact (stringdup_makes pool h1).map fun s hs => .inr (joined_other (by simpa using hs))
    | some s2 =>
      have hreq := hsize o rfl s2 rfl
      have hall : Makes (addstring pool (some o) (some s2) append : Op n Left)
          (Joined c1 c2 (append = true ∧ o.ref ≤ 1)) (· = .exHeap) := by
        obtain h1 | h1 := h1
        · obtain h2 | h2 := h2
          · exact addstring_bytes pool h1 h2 hreq
          · exact addstring_widen pool h1 h2 hreq
        · exact addstring_runes pool h1 h2 hreq
      refine hall.mono (fun left hleft => .inr ⟨hleft.1, fun s hs => ?_⟩) fun _ h => h
      obtain ⟨happend, href⟩ := hleft.2 s hs
      exact ⟨happend, o, rfl, href⟩

theorem set_codes {cs : List ℤ} {v : ℕ} (hv : v < cs.length) (r : ℤ) :
    cs.set v r = cs.take v ++ (r :: cs.drop (v + 1)) := by
  rw [List.set_eq_take_append_cons_drop, if_pos hv]

theorem forall_set {P : ℤ → Prop} {cs : List ℤ} {v : ℕ} {r : ℤ} (h : ∀ c ∈ cs, P c) (hr : P r) :
    ∀ c ∈ cs.set v r, P c := by
  intro c hc
  obtain hc | rfl := List.mem_or_eq_of_mem_set hc
  · exact h c hc
  · exact hr

structure Wide (ss : Str) (cs : List ℤ) : Prop where
  block : Block sizeofRune ss
  len : ss.len = -cs.length
  cap : cs.length ≤ ss.max
  ints : ∀ c ∈ cs, IsInt c
  holds : ∃ rest, ss.data = cs.flatMap rune ++ rest

theorem Runes.wide {s : Str} {cs : List ℤ} (h : Runes s cs) : Wide s cs where
  block := h.block
  len := h.len
  cap := by
    have hcap := h.cap
    have hlen := h.len
    omega
  ints := h.ints
  holds := h.holds

theorem Wide.put {ss : Str} {cs : List ℤ} (h : Wide ss cs) {v : ℕ} (hv : v < cs.length) {r : ℤ}
    (hr : IsInt r) {E : Raised → Prop} :
    Makes (poke ss (v * sizeofRune) (rune r) : Op n Str) (Runes · (cs.set v r)) E := by
  obtain ⟨rest, hrest⟩ := h.holds
  have hroom := h.block.room
  have hcap := h.cap
  have hstart : v * sizeofRune = ((cs.take v).flatMap rune).length := by
    rw [flatMap_rune_length, List.length_take_of_le (by omega)]
  have hcs : cs.flatMap rune = (cs.take v ++ cs[v] :: cs.drop (v + 1)).flatMap rune := by
    rw [← List.drop_eq_getElem_cons hv, List.take_append_drop]
  have hdata : ss.data =
      (cs.take v).flatMap rune ++ (rune cs[v] ++ ((cs.drop (v + 1)).flatMap rune ++ rest)) := by
    rw [hrest, hcs]
    simp only [List.flatMap_append, List.flatMap_cons, List.append_assoc]
  have hfit : v * sizeofRune + (rune r).length ≤ ss.data.length := by
    rw [rune_length]
    simp only [sizeofRune] at hroom ⊢
    omega
  refine (poke_makes hstart ⟨_, hdata⟩ hfit).mono (fun s' hs' => ?_) fun _ h => h
  have hne : cs.set v r ≠ [] := by
    rw [set_codes hv]
    simp
  refine h.block.runes hs'.max hs'.size (by rw [hs'.len, h.len, List.length_set]) hne
    (by rw [List.length_set]; exact hcap) (forall_set h.ints hr) ⟨rest, ?_⟩
  have hdrop : ss.data.drop ((cs.take v).flatMap rune ++ rune r).length =
      (cs.drop (v + 1)).flatMap rune ++ rest := by
    rw [hdata, ← List.append_assoc, List.drop_left' (by simp)]
  rw [hs'.data, hdrop, set_codes hv]
  simp only [List.flatMap_append, List.flatMap_cons, List.append_assoc]

theorem runes_add (cs : List ℤ) (r : ℤ) : (cs ++ [r]).flatMap rune = cs.flatMap rune ++ rune r := by
  simp

theorem Wide.add {ss : Str} {cs : List ℤ} (h : Wide ss cs) {v : ℕ} (hv : v = cs.length) {r len : ℤ}
    (hr : IsInt r) (hlen : len = -((v : ℤ) + 1)) (hcap : v < ss.max) {E : Raised → Prop} :
    Makes (poke { ss with len } (v * sizeofRune) (rune r) : Op n Str)
      (Runes · (cs ++ [r])) E := by
  subst hv
  have hroom := h.block.room
  have hstart : cs.length * sizeofRune = (cs.flatMap rune).length := by rw [flatMap_rune_length]
  have hfit : cs.length * sizeofRune + (rune r).length ≤ ss.data.length := by
    rw [rune_length]
    simp only [sizeofRune] at hroom ⊢
    omega
  refine (poke_makes (s := { ss with len }) hstart h.holds hfit).mono (fun s' hs' => ?_) fun _ h => h
  refine h.block.runes hs'.max hs'.size ?_ (by simp) ?_
    (List.forall_mem_append.mpr ⟨h.ints, by simpa using hr⟩) ⟨_, by rw [hs'.data, runes_add]⟩
  · rw [hs'.len, List.length_append]
    push_cast
    exact hlen
  · rw [List.length_append]
    push_cast
    simp
    omega

theorem Wide.take {ss : Str} {cs : List ℤ} (h : Wide ss cs) :
    ss.data.take ((-ss.len).toNat * sizeofRune) = cs.flatMap rune := by
  obtain ⟨rest, hrest⟩ := h.holds
  rw [h.len, neg_neg, Int.toNat_natCast, hrest]
  exact List.take_left' (by rw [flatMap_rune_length])

theorem insrune_new {cs : List ℤ} {v : ℕ} (hv : v = cs.length) (hints : ∀ c ∈ cs, IsInt c) {r : ℤ}
    (hr : IsInt r) {nb : ℤ} (hnb : ((v : ℤ) + 1) * sizeofRune ≤ nb)
    (hsize : sizeofString + nb < 2 ^ 31) {len : ℤ} (hlen : len = -((v : ℤ) + 1)) :
    Makes (do
      let ns ← newstring pool nb
      let ns ← poke ns 0 (cs.flatMap rune)
      let ns ← poke ns (v * sizeofRune) (rune r)
      pure (.other { ns with len, max := ns.max / sizeofRune }) : Op n Left)
      (fun left => left.Stands (Runes · (cs ++ [r]))) (· = .exHeap) := by
  subst hv
  refine (newstring_makes pool (by simp only [sizeofRune] at hnb; omega) hsize).bind fun ns hns => ?_
  obtain ⟨-, hcap, hblock⟩ := hns
  have hroom := hblock.room
  have hsmall := hblock.small
  have hlength : (cs.flatMap rune).length = cs.length * sizeofRune := flatMap_rune_length cs
  simp only [sizeofRune] at hnb hlength
  refine (poke_start (by omega)).bind fun s hs => ?_
  have hfit : cs.length * sizeofRune + (rune r).length ≤ s.data.length := by
    rw [hs.size, rune_length]
    simp only [sizeofRune]
    omega
  refine (poke_makes hlength.symm ⟨_, hs.data⟩ hfit).map fun s' hs' => ?_
  have hmax : s'.max = ns.max := hs'.max.trans hs.max
  have hsame : s'.data.length = ns.data.length := hs'.size.trans hs.size
  refine ⟨by simp, ?_, ?_, ?_, ?_, List.forall_mem_append.mpr ⟨hints, by simpa using hr⟩,
    ⟨_, by rw [hs'.data, runes_add]⟩⟩
  · rw [List.length_append]
    push_cast
    exact hlen
  · simp only [hlen, hmax, sizeofRune]
    push_cast
    omega
  · simp only [hmax, hsame, sizeofRune]
    push_cast
    omega
  · simp only [hmax, sizeofRune]
    push_cast
    omega

theorem insrune_makes {ss : Str} {cs : List ℤ} (h : Wide ss cs) {l : ℤ} (hl : l = cs.length)
    (v : ℕ) {r : ℤ} (hr : IsInt r) :
    Makes (insrune pool ss l v r : Op n Left)
      (fun left => ∃ cs', insert cs v r = some cs' ∧ left.Stands (Runes · cs'))
      (Refused · (insert cs v r = none)) := by
  have hsmall := h.block.small
  have hcap := h.cap
  simp only [sizeofRune] at hsmall
  rw [insrune, hl]
  by_cases hlt : v < cs.length
  · rw [if_pos (by exact_mod_cast hlt)]
    exact (h.put hlt hr).map fun s hs => ⟨_, if_pos hlt, hs⟩
  rw [if_neg (by exact_mod_cast hlt)]
  by_cases heq : v = cs.length
  · have hins : insert cs v r = some (cs ++ [r]) := by rw [insert, if_neg hlt, if_pos heq]
    have hint : int ((v : ℤ) + 1) = v + 1 := int_eq ⟨by omega, by omega⟩
    by_cases hmax : (v : ℤ) < ss.max
    · rw [if_pos ⟨by exact_mod_cast heq, hmax⟩, hint]
      exact (h.add heq hr rfl hmax).map fun s hs => ⟨_, hins, hs⟩
    · rw [if_neg fun hand => hmax hand.2, if_neg (not_not.mpr (by exact_mod_cast heq)), hint, h.take]
      refine (insrune_new pool heq h.ints hr ?_ ?_ rfl).mono (fun left hleft => ?_) fun _ => .inl
      · simp only [sizeofRune]
        omega
      · simp only [sizeofString, sizeofRune]
        omega
      · exact ⟨_, hins, hleft⟩
  · have hins : insert cs v r = none := by rw [insert, if_neg hlt, if_neg heq]
    have hne : (v : ℤ) ≠ cs.length := by exact_mod_cast heq
    rw [if_neg fun hand => hne hand.1, if_pos hne]
    exact makes_throw (.inr ⟨rfl, hins⟩)

theorem Bytes.put {ss : Str} {cs : List ℤ} (h : Bytes ss cs) {v : ℕ} (hv : v < cs.length) {r : ℤ}
    (hr : 0 ≤ r ∧ r < 128) {E : Raised → Prop} :
    Makes (poke ss v [byte r] : Op n Str) (Bytes · (cs.set v r)) E := by
  obtain ⟨rest, hrest⟩ := h.holds
  have hroom := h.room
  have hcap := h.cap
  have hlen := h.len
  have hstart : v = ((cs.take v).map byte).length := by
    rw [List.length_map, List.length_take_of_le (by omega)]
  have hcs : cs.map byte = (cs.take v ++ cs[v] :: cs.drop (v + 1)).map byte := by
    rw [← List.drop_eq_getElem_cons hv, List.take_append_drop]
  have hdata : ss.data =
      (cs.take v).map byte ++ ([byte cs[v]] ++ ((cs.drop (v + 1)).map byte ++ rest)) := by
    rw [hrest, hcs]
    simp only [List.map_append, List.map_cons, List.append_assoc, List.cons_append, List.nil_append]
  have hfit : v + [byte r].length ≤ ss.data.length := by
    rw [List.length_singleton]
    omega
  refine (poke_makes hstart ⟨_, hdata⟩ hfit).mono (fun s' hs' => ?_) fun _ h => h
  refine h.block.bytes hs'.max hs'.size (by rw [hs'.len, h.len, List.length_set])
    (by rw [List.length_set]; omega) (forall_set h.ascii hr) ⟨rest, ?_⟩
  have hdrop : ss.data.drop ((cs.take v).map byte ++ [byte r]).length =
      (cs.drop (v + 1)).map byte ++ rest := by
    rw [hdata, ← List.append_assoc, List.drop_left' (by simp)]
  rw [hs'.data, hdrop, set_codes hv]
  simp only [List.map_append, List.map_cons, List.append_assoc, List.cons_append, List.nil_append]

theorem insbyte_new {cs : List ℤ} {v : ℕ} (hv : v = cs.length) (hascii : ∀ c ∈ cs, 0 ≤ c ∧ c < 128)
    {r : ℤ} (hr : 0 ≤ r ∧ r < 128) {nb : ℤ} (hnb : (v : ℤ) + 1 ≤ nb)
    (hsize : sizeofString + nb < 2 ^ 31) {len : ℤ} (hlen : len = (v : ℤ) + 1) :
    Makes (do
      let ns ← newstring pool nb
      let ns ← poke ns 0 (cs.map byte)
      let ns ← poke ns v [byte r]
      pure (.other { ns with len }) : Op n Left)
      (fun left => left.Stands (Bytes · (cs ++ [r]))) (· = .exHeap) := by
  subst hv
  refine (newstring_makes pool (by omega) hsize).bind fun ns hns => ?_
  obtain ⟨-, hcap, hblock⟩ := hns
  have hroom := hblock.room
  have hlength : cs.length = (cs.map byte).length := (List.length_map _).symm
  refine (poke_start (by omega)).bind fun s hs => ?_
  have hfit : cs.length + [byte r].length ≤ s.data.length := by
    rw [hs.size, List.length_singleton]
    omega
  refine (poke_makes hlength ⟨_, hs.data⟩ hfit).map fun s' hs' => ?_
  refine hblock.bytes (hs'.max.trans hs.max) (hs'.size.trans hs.size) ?_ ?_
    (List.forall_mem_append.mpr ⟨hascii, by simpa using hr⟩)
    ⟨_, by dsimp only; rw [hs'.data, List.map_append]; rfl⟩
  · rw [List.length_append]
    push_cast
    exact hlen
  · rw [List.length_append]
    push_cast
    simp
    omega

theorem byte_eq (r : ℤ) : UInt8.ofNat (r % 2 ^ 8).toNat = byte r := rfl

theorem insbyte_makes {ss : Str} {cs : List ℤ} (h : Bytes ss cs) (v : ℕ) {r : ℤ}
    (hr : 0 ≤ r ∧ r < 128) :
    Makes (insbyte pool ss v r : Op n Left)
      (fun left => ∃ cs', insert cs v r = some cs' ∧ left.Stands (Bytes · cs'))
      (Refused · (insert cs v r = none)) := by
  have hsize := h.size
  simp only [sizeofString] at hsize
  have hascii : ∀ c ∈ [r], 0 ≤ c ∧ c < 128 := by simpa using hr
  have hsmall := h.small
  have hcap := h.cap
  have hlen := h.len
  rw [insbyte]
  simp only [byte_eq, hlen]
  by_cases hlt : v < cs.length
  · rw [if_pos (by exact_mod_cast hlt)]
    exact (h.put hlt hr).map fun s hs => ⟨_, if_pos hlt, hs⟩
  rw [if_neg (by exact_mod_cast hlt)]
  by_cases heq : v = cs.length
  · have hins : insert cs v r = some (cs ++ [r]) := by rw [insert, if_neg hlt, if_pos heq]
    have hint : int ((v : ℤ) + 1) = v + 1 := int_eq ⟨by omega, by omega⟩
    by_cases hmax : (v : ℤ) < ss.max
    · rw [if_pos ⟨by exact_mod_cast heq, hmax⟩, hint]
      exact (append_bytes h heq (by simp [heq]) (by omega) hascii).map fun s hs => ⟨_, hins, hs⟩
    · have htake : ss.data.take (cs.length : ℤ).toNat = cs.map byte := by rw [← hlen, h.take]
      rw [if_neg fun hand => hmax hand.2, if_neg (not_not.mpr (by exact_mod_cast heq)), hint, htake]
      refine (insbyte_new pool heq h.ascii hr (by omega) ?_ rfl).mono
        (fun left hleft => ?_) fun _ => .inl
      · simp only [sizeofString]
        omega
      · exact ⟨_, hins, hleft⟩
  · have hins : insert cs v r = none := by rw [insert, if_neg hlt, if_neg heq]
    have hne : (v : ℤ) ≠ cs.length := by exact_mod_cast heq
    rw [if_neg fun hand => hne hand.1, if_pos hne]
    exact makes_throw (.inr ⟨rfl, hins⟩)

theorem chartoruneloop_le (str : List UInt8) (c0 fuel i l : ℕ) :
    (chartoruneloop str c0 fuel i l).1 ≤ Runemax := by
  induction fuel generalizing i l with
  | zero => simp [chartoruneloop, Runeerror, Runemax]
  | succ fuel ih =>
    have herror : Runeerror ≤ Runemax := by decide
    rw [chartoruneloop]
    dsimp only
    split
    · exact herror
    split
    · split
      next hi =>
        subst hi
        split
        · exact herror
        · have hand := @Nat.and_le_right
            (l <<< Bitx ||| (str.getD 1 0).toNat ^^^ Tx) (RuneX (1 + 1))
          exact hand.trans (by decide)
      next =>
        split
        · exact herror
        next hbad =>
          split
          · exact herror
          · exact not_lt.mp fun h => hbad (.inr h)
    · exact ih _ _

theorem chartorune_le (str : List UInt8) : (chartorune str).1 ≤ Runemax := by
  rw [chartorune]
  split
  next h => exact h.le.trans (by decide)
  next => exact chartoruneloop_le _ _ _ _ _

theorem readrunes_length (nc : ℕ) (cs : List UInt8) : (readrunes nc cs).length = nc := by
  induction nc generalizing cs with
  | zero => rfl
  | succ nc ih => rw [readrunes, List.length_cons, ih]

theorem readrunes_le (nc : ℕ) (cs : List UInt8) : ∀ r ∈ readrunes nc cs, r ≤ Runemax := by
  induction nc generalizing cs with
  | zero => simp [readrunes]
  | succ nc ih =>
    intro r hr
    rw [readrunes, List.mem_cons] at hr
    obtain rfl | hr := hr
    · exact chartorune_le cs
    · exact ih _ r hr

theorem decoded_ascii {cs : List UInt8} (h : ∀ c ∈ cs, c.toNat < Runeself) :
    decoded cs = cs.map fun c => (c.toNat : ℤ) := by
  have hcount : ∀ cs : List UInt8, (∀ c ∈ cs, c.toNat < Runeself) →
      countrunes cs.length cs = cs.length := by
    intro cs
    induction cs with
    | nil => simp [countrunes]
    | cons c cs ih =>
      intro h
      rw [List.length_cons, countrunes, if_pos (h c List.mem_cons_self),
        ih fun c' hc' => h c' (List.mem_cons_of_mem _ hc')]
  have hread : ∀ cs : List UInt8, (∀ c ∈ cs, c.toNat < Runeself) →
      readrunes cs.length cs = cs.map UInt8.toNat := by
    intro cs
    induction cs with
    | nil => simp [readrunes]
    | cons c cs ih =>
      intro h
      have hc : chartorune (c :: cs) = (c.toNat, 1) := by
        rw [chartorune]
        exact if_pos (h c List.mem_cons_self)
      rw [List.length_cons, readrunes, hc, List.drop_one, List.tail_cons,
        ih fun c' hc' => h c' (List.mem_cons_of_mem _ hc'), List.map_cons]
  rw [decoded, hcount cs h, hread cs h, List.map_map]
  rfl

theorem decoded_ints (cs : List UInt8) : ∀ c ∈ decoded cs, IsInt c := by
  intro c hc
  obtain ⟨r, hr, rfl⟩ := List.mem_map.mp hc
  have hle := readrunes_le _ _ r hr
  simp only [Runemax] at hle
  exact ⟨by omega, by omega⟩

theorem byte_natCast (c : UInt8) : byte (c.toNat : ℤ) = c := by
  have hlt := c.toNat_lt
  have hmod : ((c.toNat : ℤ) % 2 ^ 8).toNat = c.toNat := by omega
  rw [byte, hmod, UInt8.ofNat_toNat]

theorem newrunes_zero : (newrunes pool 0 : Op n Str) = newstring pool 0 := rfl

theorem fill_codes {cs : List ℤ} {nr : ℤ} (hnr : nr = cs.length) (hints : ∀ c ∈ cs, IsInt c)
    (hsize : sizeofString + nr * sizeofRune < 2 ^ 31) :
    Makes (do
      let ns ← newrunes pool nr
      poke ns 0 (cs.flatMap rune) : Op n Str) (Codes · cs) (· = .exHeap) := by
  by_cases hnil : cs = []
  · have hempty : Makes (do
        let ns ← newstring pool 0
        poke ns 0 (([] : List ℤ).map byte) : Op n Str) (Bytes · []) (· = .exHeap) :=
      fill_bytes pool rfl (by simp) (by decide)
    have hzero : nr = 0 := by rw [hnr, hnil]; rfl
    rw [hzero, newrunes_zero, hnil]
    exact hempty.mono (fun _ => .inl) fun _ h => h
  · exact (fill_runes pool hnr hnil hints hsize).mono (fun _ => .inr) fun _ h => h

theorem c2string_makes (cs : List UInt8)
    (hsize : sizeofString + (countrunes cs.length cs : ℤ) * sizeofRune < 2 ^ 31)
    (hbytes : sizeofString + (cs.length : ℤ) < 2 ^ 31) :
    Makes (c2string pool cs : Op n Str) (Codes · (decoded cs)) (· = .exHeap) := by
  have hlen : (decoded cs).length = countrunes cs.length cs := by
    rw [decoded, List.length_map, readrunes_length]
  rw [c2string]
  dsimp only
  split
  next =>
    have hdata : ((readrunes (countrunes cs.length cs) cs).flatMap fun r : ℕ => rune r) =
        (decoded cs).flatMap rune := by
      rw [decoded, List.flatMap_map]
    rw [hdata]
    have hnr : (countrunes cs.length cs : ℤ) = (decoded cs).length := by rw [hlen]
    generalize (countrunes cs.length cs : ℤ) = nr at *
    exact fill_codes pool hnr (decoded_ints cs) hsize
  next hany =>
    have hascii : ∀ c ∈ cs, c.toNat < Runeself := by
      simpa using hany
    have hmap : (cs.map fun c => (c.toNat : ℤ)).map byte = cs := by
      rw [List.map_map]
      exact (List.map_congr_left fun c _ => byte_natCast c).trans (List.map_id' cs)
    have hrange : ∀ c ∈ cs.map fun c => (c.toNat : ℤ), 0 ≤ c ∧ c < 128 := by
      intro c hc
      obtain ⟨b, hb, rfl⟩ := List.mem_map.mp hc
      have hb := hascii b hb
      simp only [Runeself] at hb
      omega
    have hfill := fill_bytes (n := n) pool (by rw [List.length_map]) hrange hbytes
    rw [hmap] at hfill
    rw [decoded_ascii hascii]
    exact hfill.mono (fun _ => .inl) fun _ h => h

end

end Infernode.Dis
