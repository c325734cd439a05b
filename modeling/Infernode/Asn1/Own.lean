import Infernode.Asn1.Digits

/-!
# Where elements lie

An element lies in an array where the bytes from its tag to its end are its encoding: its value is
of its own bytes, and those in it lie side by side in its content.
-/

namespace Infernode.Asn1

open Lib

def bytesof (a : List UInt8) (i j : ℕ) : List UInt8 := (a.drop i).take (j - i)

def signed (bs : List UInt8) : ℤ :=
  BigEndian.value bs - if ∃ b ∈ bs.head?, 128 ≤ b.toNat then 256 ^ bs.length else 0

def own (a : List UInt8) (i j : ℕ) (kind : Kind) (constr : Bool) : Option Value :=
  match kind, constr with
  | .eoc, _ => if j = i then some .eoc else none
  | .boolean, false => if j = i + 1 then some (.bool (getb a i)) else none
  | .integer, false =>
    some (if j ≤ i + 4 then .int (signed (bytesof a i j)) else .bigint (bytesof a i j))
  | .bitstring, false =>
    if i < j ∧ getb a i ≤ 7 then some (.bitstring (getb a i) (bytesof a (i + 1) j)) else none
  | .octets, false => some (.octets (bytesof a i j))
  | .string, false => some (.string (Limbo.string (bytesof a i j)))
  | .null, false => if j = i then some .null else none
  | .objid, false =>
    if i < j then
      match objidloop a j j (j - i) i [] with
      | (.ok, k, subids) => if k = j then some (.objid (arcs subids)) else none
      | _ => none
    else none
  | .external, _ | .other, _ => some (.other (bytesof a i j))
  | .real, false => some (.real (bytesof a i j))
  | _, _ => none

structure Heads (a : List UInt8) (i : ℕ) (tag : Tag) (i1 i2 : ℕ) (length : ℤ) : Prop where
  tag : tag_decode a i a.length = (.ok, i1, tag)
  length : length_decode a i1 a.length = (.ok, i2, length)

/-- The content ends at `j` and the element at `stop`: for an indefinite length, which only a
constructed one has, behind the end marker. -/
inductive Spans (a : List UInt8) (i : ℕ) (tag : Tag) (i2 j : ℕ) : ℕ → Prop
  | definite {i1 : ℕ} {length : ℤ} : Heads a i tag i1 i2 length → getb a i1 ≠ 0x80 →
    j = i2 + length → j ≤ a.length → Spans a i tag i2 j j
  | indefinite {i1 : ℕ} {length : ℤ} : Heads a i tag i1 i2 length → getb a i1 = 0x80 →
    tag.constr = true → i2 ≤ j → getb a j = 0 → getb a (j + 1) = 0 → j + 2 ≤ a.length →
    Spans a i tag i2 j (j + 2)

def pieces : List Elem → Option (List UInt8)
  | [] => some []
  | .elem _ (.octets bytes) :: l => (pieces l).map (bytes ++ ·)
  | _ :: _ => none

def ofpieces : Kind → List UInt8 → Option Value
  | .octets, bs => some (.octets bs)
  | .string, bs => some (.string (Limbo.string bs))
  | _, _ => none

mutual

inductive Within (a : List UInt8) : ℕ → ℕ → Elem → Prop
  | leaf {i i2 j stop : ℕ} {tag : Tag} {val : Value} : Spans a i tag i2 j stop →
    own a i2 j tag.kind tag.nests = some val → Within a i stop (.elem tag val)
  | pieces {i i2 j stop : ℕ} {tag : Tag} {es : List Elem} {bs : List UInt8} {val : Value} :
    Spans a i tag i2 j stop → tag.nests = true → Contents a i2 j es → pieces es = some bs →
    ofpieces tag.kind bs = some val → Within a i stop (.elem tag val)
  | seq {i i2 j stop : ℕ} {tag : Tag} {es : List Elem} : Spans a i tag i2 j stop →
    tag.nests = true → tag.kind = .sequence → Contents a i2 j es → Within a i stop (.seq tag es)
  | set {i i2 j stop : ℕ} {tag : Tag} {es : List Elem} : Spans a i tag i2 j stop →
    tag.nests = true → tag.kind = .set → Contents a i2 j es → Within a i stop (.set tag es)

inductive Contents (a : List UInt8) : ℕ → ℕ → List Elem → Prop
  | nil (i : ℕ) : Contents a i i []
  | cons {i j k : ℕ} {e : Elem} {es : List Elem} : Within a i k e → Contents a k j es →
    Contents a i j (e :: es)

end

def Kind.loops : Kind → Bool
  | .octets | .string | .sequence | .set => true
  | _ => false

def goeson (kind : Kind) (e : Elem) : Bool :=
  match kind, e with
  | .sequence, e | .set, e => !e.iseoc
  | _, .elem _ (.octets _) => true
  | _, _ => false

/-- `ber_decode` is called with `d` levels left at `i`; in a loop, of which kind and up to where. -/
inductive Calls (a : List UInt8) : ℕ → ℕ → Option (Kind × ℤ) → Prop
  | root : Calls a (Maxdepth + 1) 0 none
  | enter {d i i1 i2 : ℕ} {loop : Option (Kind × ℤ)} {tag : Tag} {length : ℤ} :
    Calls a (d + 1) i loop → Heads a i tag i1 i2 length → add i2 length ≤ a.length →
    tag.nests = true → tag.kind.loops = true → ¬ add i2 length ≤ i2 →
    Calls a d i2 (some (tag.kind, add i2 length))
  | next {d i j : ℕ} {kind : Kind} {stop : ℤ} {e : Elem} : Calls a d i (some (kind, stop)) →
    ber_decode a a.length d i = some (.ok, j, some e) → goeson kind e = true → ¬ stop ≤ j →
    Calls a d j (some (kind, stop))

def refused (kind : Kind) : Bool → Bool
  | true => kind ∈ [.boolean, .integer, .bitstring, .null, .objid, .real]
  | false => kind ∈ [.boolean, .bitstring, .objid, .sequence, .set]

def unfilled (a : List UInt8) (i2 : ℕ) (length : ℤ) (kind : Kind) : Bool → Prop
  | true => kind ∉ [.external, .other]
  | false => kind ∈ [.eoc, .null, .objid, .sequence, .set] ∨
    kind = .boolean ∧ length ≠ 1 ∨
    kind = .bitstring ∧ (length = 1 ∧ getb a 0 ≠ 0 ∨
      1 < length ∧ i2 < a.length ∧ (7 < getb a i2 ∨ 0x0FFFFFFF < length))

/-- The element at `i` has what the decoder takes for what it is: no length of `0x80`, no end past
any int, and in a value of one byte that the first byte of the array stands for, that byte. -/
def Clean (a : List UInt8) (i : ℕ) : Prop :=
  ∀ tag i1 i2 length, Heads a i tag i1 i2 length →
    (getb a i1 = 0x80 → refused tag.kind tag.nests = true) ∧
    (2 ^ 31 ≤ i2 + length → unfilled a i2 length tag.kind tag.nests) ∧
    (length = 1 → i2 < a.length → tag.nests = false → tag.kind = .boolean →
      getb a i2 = getb a 0) ∧
    (length = 1 → i2 < a.length → tag.nests = false → tag.kind = .bitstring → getb a 0 = 0 →
      getb a i2 = 0)

/-- Without an exception, and without an error only with something that meets `P`. -/
def Ends {α : Type} (P : ℕ → α → Prop) (out : Out α) : Prop :=
  ∃ err j x, out = some (err, j, x) ∧ (err = .ok → ∃ y, x = some y ∧ P j y)

/-- Every call of `ber_decode` ends without an exception, and what it makes lies where it was
read. -/
def Sound (a : List UInt8) : Prop :=
  ∀ d i loop, Calls a d i loop → Ends (Within a i) (ber_decode a a.length d i)

/-!
## What a value has of its own bytes

What `value_decode` makes where no element is gone into: the value that its bytes have by
themselves, or no value.
-/

variable {a : List UInt8} {i j i1 i2 : ℕ} {tag : Tag} {length : ℤ}

theorem uint7loop_bounds {k num : ℕ} {x : ℕ} (h : uint7loop a k i num = (.ok, j, x)) :
    i < j ∧ j ≤ i + k := by
  induction k generalizing i num with
  | zero => cases h
  | succ k ih =>
    simp only [uint7loop] at h
    split_ifs at h with hbig hmore
    · cases (Prod.mk.inj h).1
    · have hbounds := ih h
      omega
    · obtain ⟨rfl, -⟩ := Prod.mk.inj (Prod.mk.inj h).2
      omega

theorem value_lt_int (bs : List UInt8) (hbs : bs.length ≤ 4)
    (htop : bs.length = 4 → ∀ b ∈ bs.head?, b.toNat < 128) : BigEndian.value bs < 2 ^ 31 := by
  have hlt := BigEndian.value_lt bs
  by_cases hfour : bs.length = 4
  · cases bs with
    | nil => exact nomatch hfour
    | cons b bs =>
      have hb := htop hfour b rfl
      have hrest := BigEndian.value_lt bs
      rw [BigEndian.value_cons]
      have hthree : bs.length = 3 := by simpa using hfour
      rw [hthree] at hrest ⊢
      omega
  · have hle : (256 : ℕ) ^ bs.length ≤ 256 ^ 3 := Nat.pow_le_pow_right (by omega) (by omega)
    omega

theorem int_decode_unsigned {n count : ℕ} {x : ℤ} (hn : n ≤ a.length)
    (h : int_decode a i n count true = (.ok, j, x)) :
    j = i + count ∧ (0 < count → j ≤ n) ∧ 0 ≤ x ∧ x < 2 ^ 31 ∧ (count = 0 → x = 0) := by
  rw [int_decode] at h
  by_cases hle : count ≤ n - i
  swap
  · rw [if_neg hle] at h
    cases (Prod.mk.inj h).1
  rw [if_pos hle] at h
  by_cases hbig : 4 < count ∨ (true : Bool) = true ∧ count = 4 ∧ 128 ≤ getb a i
  · rw [if_pos hbig] at h
    cases (Prod.mk.inj h).1
  rw [if_neg hbig] at h
  simp only [Bool.true_eq_false, false_and, if_false] at h
  obtain ⟨rfl, hx⟩ := Prod.mk.inj (Prod.mk.inj h).2
  refine ⟨rfl, fun hpos => by omega, ?_⟩
  rw [not_or] at hbig
  by_cases hzero : count = 0
  · subst hzero
    simp only [intloop, List.take_zero, List.foldl_nil] at hx
    omega
  have hlen : ((a.drop i).take count).length = count := by
    rw [List.length_take, List.length_drop]
    omega
  have hne : (a.drop i).take count ≠ [] := by
    intro hnil
    rw [hnil] at hlen
    exact hzero hlen.symm
  have hlt := value_lt_int ((a.drop i).take count) (by omega) (by
    intro hfour b hb
    have hget : getb a i = b.toNat := by
      rw [List.head?_take, if_neg hzero, List.head?_drop] at hb
      rw [getb, List.getD_eq_getElem?_getD, hb]
      rfl
    by_contra hge
    exact hbig.2 ⟨rfl, by omega, by omega⟩)
  rw [intloop_eq hne] at hx
  have hmod : ((0 : ℤ) * 256 ^ ((a.drop i).take count).length +
      BigEndian.value ((a.drop i).take count)).bmod (2 ^ 32) =
      BigEndian.value ((a.drop i).take count) := by
    rw [Int.bmod_def]
    split_ifs <;> omega
  rw [hmod] at hx
  omega

theorem Heads.bounds (h : Heads a i tag i1 i2 length) :
    i < i1 ∧ i1 < i2 ∧ i2 ≤ a.length ∧ 0 ≤ length ∧ length < 2 ^ 31 ∧
      (getb a i1 = 0x80 → length = 0) := by
  obtain ⟨htag, hlength⟩ := h
  have hi1 : i < i1 := by
    rw [tag_decode] at htag
    split_ifs at htag with htwo
    · simp only at htag
      split_ifs at htag with hlong
      · obtain ⟨herr, hrest⟩ := Prod.mk.inj htag
        obtain ⟨hj, -⟩ := Prod.mk.inj hrest
        have hbounds := uint7loop_bounds (a := a) (k := a.length - (i + 1)) (i := i + 1)
          (j := i1) (x := (uint7_decode a (i + 1) a.length).2.2)
          (Prod.ext herr (Prod.ext hj rfl))
        omega
      · obtain ⟨rfl, -⟩ := Prod.mk.inj (Prod.mk.inj htag).2
        omega
    · exact nomatch (Prod.mk.inj htag).1
  rw [length_decode] at hlength
  split_ifs at hlength with hlt
  · simp only at hlength
    split_ifs at hlength with hlong heq
    · obtain ⟨hj, hle, hpos, hmax, hzero⟩ := int_decode_unsigned le_rfl hlength
      refine ⟨hi1, by omega, by omega, hpos, hmax, fun h80 => hzero (by omega)⟩
    · omega
    · obtain ⟨rfl, rfl⟩ := Prod.mk.inj (Prod.mk.inj hlength).2
      omega
  · exact nomatch (Prod.mk.inj hlength).1

theorem Heads.unique {tag' : Tag} {i1' i2' : ℕ} {length' : ℤ} (h : Heads a i tag i1 i2 length)
    (h' : Heads a i tag' i1' i2' length') :
    tag' = tag ∧ i1' = i1 ∧ i2' = i2 ∧ length' = length := by
  obtain ⟨-, htag⟩ := Prod.mk.inj (h'.tag.symm.trans h.tag)
  obtain ⟨rfl, rfl⟩ := Prod.mk.inj htag
  obtain ⟨-, hlength⟩ := Prod.mk.inj (h'.length.symm.trans h.length)
  obtain ⟨rfl, rfl⟩ := Prod.mk.inj hlength
  exact ⟨rfl, rfl, rfl, rfl⟩

theorem Spans.bounds {stop : ℕ} (h : Spans a i tag i2 j stop) :
    i < i2 ∧ i2 ≤ j ∧ j ≤ stop ∧ stop ≤ a.length := by
  cases h with
  | definite hheads hne hj hle | indefinite hheads h80 hconstr hle hj hj1 hend =>
    have hbounds := hheads.bounds
    omega

theorem Within.spans {e : Elem} {stop : ℕ} (h : Within a i stop e) :
    ∃ tag i2 j, Spans a i tag i2 j stop := by
  cases h with
  | leaf hspans | pieces hspans | seq hspans | set hspans => exact ⟨_, _, _, hspans⟩

theorem Within.bounds {e : Elem} {stop : ℕ} (h : Within a i stop e) :
    i < stop ∧ stop ≤ a.length := by
  obtain ⟨tag, i2, j, hspans⟩ := h.spans
  have hbounds := hspans.bounds
  omega

theorem uint7loop_shorter {k k' num x : ℕ} (h : uint7loop a k i num = (.ok, j, x))
    (hj : j ≤ i + k') : uint7loop a k' i num = (.ok, j, x) := by
  induction k generalizing i k' num with
  | zero => cases h
  | succ k ih =>
    have hbounds := uint7loop_bounds h
    obtain ⟨k', rfl⟩ : ∃ m, k' = m + 1 := ⟨k' - 1, by omega⟩
    simp only [uint7loop] at h ⊢
    split_ifs at h ⊢ with hbig hmore
    · cases (Prod.mk.inj h).1
    · exact ih h (by omega)
    · exact h

theorem objidloop_le {n k : ℕ} {iend : ℤ} {lva subids : List ℕ}
    (h : objidloop a n iend k i lva = (.ok, j, subids)) : i ≤ j := by
  induction k generalizing i lva with
  | zero =>
    obtain ⟨rfl, -⟩ := Prod.mk.inj (Prod.mk.inj h).2
    exact le_rfl
  | succ k ih =>
    rw [objidloop] at h
    split_ifs at h with hlt
    · split at h
      · next i' x hx => exact (uint7loop_bounds hx).1.le.trans (ih h)
      · next err i' x hne hx =>
        obtain rfl := (Prod.mk.inj h).1
        exact (hne rfl).elim
    · obtain ⟨rfl, -⟩ := Prod.mk.inj (Prod.mk.inj h).2
      exact le_rfl

theorem objidloop_own {n k k' iend : ℕ} {lva subids : List ℕ}
    (h : objidloop a n iend k i lva = (.ok, iend, subids)) (hk : iend - i ≤ k') :
    objidloop a iend iend k' i lva = (.ok, iend, subids) := by
  induction k generalizing i k' lva with
  | zero =>
    obtain ⟨rfl, rfl⟩ := Prod.mk.inj (Prod.mk.inj h).2
    cases k' <;> simp [objidloop]
  | succ k ih =>
    rw [objidloop] at h
    split_ifs at h with hlt
    · obtain ⟨k', rfl⟩ : ∃ m, k' = m + 1 := ⟨k' - 1, by omega⟩
      split at h
      · next i' x hx =>
        have hle := objidloop_le h
        have hbounds := uint7loop_bounds hx
        have hown : uint7_decode a i iend = (.ok, i', x) :=
          uint7loop_shorter hx (by omega)
        rw [objidloop, if_pos hlt, hown]
        exact ih h (by omega)
      · next err i' x hne hx =>
        obtain rfl := (Prod.mk.inj h).1
        exact (hne rfl).elim
    · obtain ⟨hi, rfl⟩ := Prod.mk.inj (Prod.mk.inj h).2
      obtain rfl := hi
      cases k' <;> simp [objidloop]

theorem bytesof_length {m : ℕ} (hle : i + m ≤ a.length) : (bytesof a i (i + m)).length = m := by
  rw [bytesof, List.length_take, List.length_drop]
  omega

theorem slice_bytesof {m : ℕ} (hle : i + m ≤ a.length) :
    slice a i m = some (bytesof a i (i + m)) := by
  rw [slice, if_pos (by omega), bytesof, Nat.add_sub_cancel_left, Int.toNat_natCast]

theorem int_decode_signed {m : ℕ} (hm : m ≤ 4) (hle : i + m ≤ a.length) :
    int_decode a i (i + m) m false = (.ok, i + m, signed (bytesof a i (i + m))) := by
  have hlen := bytesof_length hle
  have hbytes : (a.drop i).take m = bytesof a i (i + m) := by
    rw [bytesof, Nat.add_sub_cancel_left]
  have hnot : ¬ (4 < m ∨ (false : Bool) = true ∧ m = 4 ∧ 128 ≤ getb a i) := by
    rintro (hlong | ⟨hfalse, -⟩)
    · omega
    · exact nomatch hfalse
  rw [int_decode, if_pos (by omega), if_neg hnot, hbytes]
  simp only [signed, true_and]
  cases hbs : bytesof a i (i + m) with
  | nil =>
    rw [hbs] at hlen
    obtain rfl : m = 0 := hlen.symm
    simp [intloop]
  | cons b bs =>
    rw [hbs, List.length_cons] at hlen
    have hget : getb a i = b.toNat := by
      have hi : i < a.length := by omega
      have hdrop := List.drop_eq_getElem_cons hi
      rw [bytesof, hdrop, Nat.add_sub_cancel_left, ← hlen, List.take_succ_cons] at hbs
      rw [getb, List.getD_eq_getElem _ _ hi, (List.cons.inj hbs).1]
    have hlt := BigEndian.value_lt (b :: bs)
    have hvalue := BigEndian.value_cons b bs
    have hrest := BigEndian.value_lt bs
    rw [intloop_eq (by simp), hget]
    rw [List.length_cons] at hlt ⊢
    have hm4 : bs.length = 0 ∨ bs.length = 1 ∨ bs.length = 2 ∨ bs.length = 3 := by omega
    have hb := b.toNat_lt
    congr 2
    rcases hm4 with h4 | h4 | h4 | h4 <;> rw [h4] at hlt hvalue hrest ⊢ <;> subst hlen <;>
      simp only [h4, List.head?_cons, Option.mem_def, Option.some.injEq, exists_eq_left'] <;>
      split_ifs <;> norm_num [Int.bmod_def] at * <;> split_ifs <;> omega

section Ends

variable {α β : Type} {P : ℕ → α → Prop} {Q : ℕ → β → Prop}

theorem Ends.error {err : Err} (herr : err ≠ .ok) : Ends P (some (err, i, none)) :=
  ⟨err, i, none, rfl, fun h => absurd h herr⟩

theorem Ends.ok {x : α} (h : P i x) : Ends P (some (.ok, i, some x)) :=
  ⟨.ok, i, some x, rfl, fun _ => ⟨x, rfl, h⟩⟩

theorem Ends.made {x : α} (h : Ends P (some (.ok, i, some x))) : P i x := by
  obtain ⟨err, j, y, hout, hmade⟩ := h
  obtain ⟨rfl, hrest⟩ := Prod.mk.inj (Option.some.inj hout)
  obtain ⟨rfl, rfl⟩ := Prod.mk.inj hrest
  obtain ⟨z, hz, hP⟩ := hmade rfl
  exact Option.some.inj hz ▸ hP

theorem Ends.map {out : Out α} {f : α → β} (h : Ends P out) (hPQ : ∀ j x, P j x → Q j (f x)) :
    Ends Q (out.map fun (err, i, x) => (err, i, x.map f)) := by
  obtain ⟨err, j, x, rfl, hmade⟩ := h
  refine ⟨err, j, x.map f, rfl, fun herr => ?_⟩
  obtain ⟨y, rfl, hP⟩ := hmade herr
  exact ⟨f y, rfl, hPQ _ _ hP⟩

theorem Ends.of_map {out : Out α} {f : α → β}
    (h : Ends Q (out.map fun (err, i, x) => (err, i, x.map f))) :
    Ends (fun j x => Q j (f x)) out := by
  obtain ⟨err, j, x, hout, hmade⟩ := h
  obtain ⟨⟨err', j', y⟩, rfl, hy⟩ := Option.map_eq_some_iff.mp hout
  obtain ⟨rfl, hrest⟩ := Prod.mk.inj hy
  obtain ⟨rfl, rfl⟩ := Prod.mk.inj hrest
  refine ⟨err', j', y, rfl, fun herr => ?_⟩
  obtain ⟨z, hz, hQ⟩ := hmade herr
  obtain ⟨x, rfl, rfl⟩ := Option.map_eq_some_iff.mp hz
  exact ⟨x, rfl, hQ⟩

end Ends

def Owns (a : List UInt8) (i j : ℕ) (kind : Kind) (constr : Bool) (stop : ℕ) (f : Tag → Elem) :
    Prop :=
  stop = j ∧ ∃ v, f = (.elem · v) ∧ own a i j kind constr = some v

section own

variable {m : ℕ} {kind : Kind} {constr : Bool} {r : ℕ → Out Elem}

theorem add_of_lt {x y : ℤ} (hx : 0 ≤ x + y) (hlt : x + y < 2 ^ 31) : add x y = x + y := by
  rw [add, Int.bmod_def]
  split_ifs <;> omega

theorem bytes_own {f : List UInt8 → Value} (hle : i + m ≤ a.length)
    (hown : own a i (i + m) kind constr = some (f (bytesof a i (i + m)))) :
    Ends (Owns a i (i + m) kind constr) (bytes_decode a i m f) := by
  rw [bytes_decode, slice_bytesof hle]
  exact .ok ⟨by simp, _, rfl, hown⟩

theorem octet_own {n : ℕ} (hle : i + m ≤ a.length) :
    octet_decode a n r i m false = some (.ok, i + m, some (bytesof a i (i + m))) := by
  rw [octet_decode, if_pos ⟨by omega, rfl⟩, slice_bytesof hle]
  rfl

theorem value_own (hle : i + m ≤ a.length) (hmax : a.length < 2 ^ 31)
    (hleaf : constr = true → kind.loops = false)
    (hbool : m = 1 → constr = false → kind = .boolean → getb a i = getb a 0)
    (hbits : m = 1 → constr = false → kind = .bitstring → getb a 0 = 0 → getb a i = 0) :
    Ends (Owns a i (i + m) kind constr) (value_decode a a.length r i m kind constr) := by
  have hadd : add i m = i + m := add_of_lt (by omega) (by omega)
  have hprim (h : kind.loops = true) : constr = false := by
    cases constr with
    | true => exact nomatch (hleaf rfl).symm.trans h
    | false => rfl
  unfold value_decode
  rw [if_neg (by omega), if_neg (by rw [hadd]; omega)]
  cases kind with
  | eoc =>
    dsimp only
    split_ifs with hm
    · exact .ok ⟨by omega, _, rfl, if_pos (by omega)⟩
    · exact .error nofun
  | boolean =>
    dsimp only
    split_ifs with hconstr hm
    · exact .error nofun
    · exact .error nofun
    · obtain rfl : constr = false := by simpa using hconstr
      refine .ok ⟨by omega, _, rfl, ?_⟩
      rw [own, if_pos (by omega), hbool (by omega) rfl rfl]
  | integer =>
    dsimp only
    split_ifs with hconstr hfour hwrap
    · exact .error nofun
    · omega
    · obtain rfl : constr = false := by simpa using hconstr
      rw [Int.toNat_natCast, int_decode_signed (by omega) hle]
      refine .ok ⟨rfl, _, rfl, ?_⟩
      rw [own, if_pos (by omega)]
    · obtain rfl : constr = false := by simpa using hconstr
      exact bytes_own hle (by rw [own, if_neg (by omega)])
  | bitstring =>
    dsimp only
    by_cases hconstr : constr = true
    · rw [if_pos hconstr, if_neg (by omega)]
      exact .error nofun
    obtain rfl : constr = false := by simpa using hconstr
    rw [if_neg Bool.false_ne_true]
    split_ifs with hshort hone hpast hseven hbig
    · have hzero := hbits (by omega) rfl rfl hone.2
      refine .ok ⟨by omega, _, rfl, ?_⟩
      rw [own, if_pos (by omega), hzero, bytesof, show i + m - (i + 1) = 0 by omega]
      rfl
    · exact .error nofun
    · omega
    · exact .error nofun
    · exact .error nofun
    · have hrest := slice_bytesof (a := a) (i := i + 1) (m := m - 1) (by omega)
      rw [show ((m - 1 : ℕ) : ℤ) = m - 1 by omega, show i + 1 + (m - 1) = i + m by omega] at hrest
      rw [hrest]
      refine .ok ⟨by omega, _, rfl, ?_⟩
      rw [own, if_pos (by omega)]
  | octets | string =>
    obtain rfl := hprim rfl
    rw [octet_own hle]
    exact .ok ⟨rfl, _, rfl, rfl⟩
  | null =>
    dsimp only
    split_ifs with hconstr hm
    · exact .error nofun
    · exact .error nofun
    · obtain rfl : constr = false := by simpa using hconstr
      exact .ok ⟨by omega, _, rfl, if_pos (by omega)⟩
  | objid =>
    dsimp only
    split_ifs with hconstr hm
    · exact .error nofun
    · exact .error nofun
    obtain rfl : constr = false := by simpa using hconstr
    rw [hadd]
    split
    · next k subids hloop =>
      split_ifs with hk
      · exact .error nofun
      · obtain rfl : k = i + m := by omega
        have hloop' := objidloop_own (by exact_mod_cast hloop) (le_refl (i + m - i))
        refine .ok ⟨rfl, _, rfl, ?_⟩
        rw [own, if_pos (by omega), hloop']
        exact if_pos rfl
    · next err k subids hne hloop => exact .error hne
  | external | other => exact bytes_own hle rfl
  | real =>
    dsimp only
    split_ifs with hconstr
    · exact .error nofun
    · obtain rfl : constr = false := by simpa using hconstr
      exact bytes_own hle rfl
  | sequence | set =>
    obtain rfl := hprim rfl
    exact .error nofun

end own

end Infernode.Asn1
