import Infernode.Cases.Stmt
import Infernode.Limbo.Utf

/-!
# Cases on strings

The compiler orders the labels by their bytes, the search compares runes. Both compare the
first difference and then the lengths, and UTF-8 keeps the order of the runes. The runes of
a label are those of characters; a value may have any. A label that is one constant has no
upper bound in the table.
-/

namespace Infernode.Cases

open Dis (int int_eq readrunes countrunes)
open Limbo (Str bytes)

def memcmp : List ℤ → List ℤ → ℤ
  | a :: s, b :: t => if a < b then -1 else if b < a then 1 else memcmp s t
  | _, _ => 0

def stringcmp (s t : List ℤ) : ℤ :=
  if memcmp s t = 0 then s.length - t.length else memcmp s t

def ofbytes (b : List UInt8) : List ℤ := b.map fun x => (x.toNat : ℤ)

def symcmp (s t : Str) : ℤ := stringcmp (ofbytes (bytes s)) (ofbytes (bytes t))

def strorder : Order Str := ⟨symcmp, fun _ _ => false⟩

/-- A word of a table of strings; `nil` is no string. -/
inductive Cell
  | num (n : ℤ)
  | str (s : List ℤ)
  | nil
  deriving DecidableEq

def c2string (b : List UInt8) : List ℤ :=
  (readrunes (countrunes b.length b) b).map fun r : ℕ => (r : ℤ)

def strrow (base : ℕ) (arms : List (Arm Str)) (lab : Label Str) : Option (List Cell) :=
  lab.inst.map fun node =>
    [.str (c2string (bytes lab.start)),
      if lab.single then .nil else .str (c2string (bytes lab.stop)),
      .num (int (armpc base arms node))]

def casecomstr (base : ℕ) (arms : List (Arm Str)) : Option (List Cell) := do
  let labs ← checklabels strorder arms
  let labs ← setarms strorder nofill 0 labs arms
  let rows ← labs.mapM (strrow base arms)
  some (.num (int labs.length) :: rows.flatten ++ [.num (int (wildpc base arms))])

def numAt (words : List Cell) (i : ℕ) : Option ℤ :=
  match words[i]? with
  | some (.num n) => some n
  | _ => none

def strAt (words : List Cell) (i : ℕ) : Option (Option (List ℤ)) :=
  match words[i]? with
  | some (.str s) => some (some s)
  | some .nil => some none
  | _ => none

def casecloop (words : List Cell) (v : List ℤ) (e t n : ℕ) : Option ℕ :=
  if n = 0 then some e
  else
    match strAt words (t + n / 2 * 3) with
    | none => none
    | some sl =>
      if stringcmp v (sl.getD []) = 0 then some (t + n / 2 * 3 + 2)
      else if stringcmp v (sl.getD []) < 0 then casecloop words v e t (n / 2)
      else
        match strAt words (t + n / 2 * 3 + 1) with
        | none => none
        | some none => casecloop words v e (t + n / 2 * 3 + 3) (n - (n / 2 + 1))
        | some (some sh) =>
          if 0 < stringcmp v sh then casecloop words v e (t + n / 2 * 3 + 3) (n - (n / 2 + 1))
          else some (t + n / 2 * 3 + 2)
termination_by n

def casecscan (words : List Cell) (v : List ℤ) : ℕ → ℕ → Option ℕ
  | t, 0 => some t
  | t, n + 1 =>
    match strAt words t, strAt words (t + 1) with
    | some sl, some none =>
      if stringcmp (sl.getD []) v = 0 then some (t + 2) else casecscan words v (t + 3) n
    | some sl, some (some sh) =>
      if stringcmp (sl.getD []) v ≤ 0 ∧ 0 ≤ stringcmp sh v then some (t + 2)
      else casecscan words v (t + 3) n
    | _, _ => none

def casec (words : List Cell) (v : List ℤ) : Option ℤ :=
  match numAt words 0 with
  | none => none
  | some n =>
    (if 2 < casecount n then casecloop words v (1 + casecount n * 3) 1 (casecount n)
      else casecscan words v 1 (casecount n)).bind (numAt words)

theorem memcmp_cons (a b : ℤ) (s t : List ℤ) : memcmp (a :: s) (b :: t) =
    if a < b then -1 else if b < a then 1 else memcmp s t := rfl

theorem stringcmp_cons (a : ℤ) (s t : List ℤ) :
    stringcmp (a :: s) (a :: t) = stringcmp s t := by
  simp [stringcmp, memcmp_cons]

theorem stringcmp_lt (s t : List ℤ) : stringcmp s t < 0 ↔ s < t := by
  induction s generalizing t with
  | nil =>
    cases t with
    | nil => simp [stringcmp, memcmp]
    | cons b t =>
      simp [stringcmp, memcmp]
      omega
  | cons a s ih =>
    cases t with
    | nil =>
      simp [stringcmp, memcmp]
      omega
    | cons b t =>
      rw [List.cons_lt_cons_iff]
      rcases lt_trichotomy a b with hlt | rfl | hgt
      · simp [stringcmp, memcmp_cons, hlt]
      · rw [stringcmp_cons, ih]
        simp
      · have hne : ¬a < b := not_lt.mpr hgt.le
        simp [stringcmp, memcmp_cons, hne, hgt, hgt.ne']

theorem stringcmp_neg (s t : List ℤ) : stringcmp t s = -stringcmp s t := by
  induction s generalizing t with
  | nil => cases t <;> simp [stringcmp, memcmp]
  | cons a s ih =>
    cases t with
    | nil => simp [stringcmp, memcmp]
    | cons b t =>
      rcases lt_trichotomy a b with hlt | rfl | hgt
      · simp [stringcmp, memcmp_cons, hlt, hlt.not_gt]
      · rw [stringcmp_cons, stringcmp_cons, ih]
      · simp [stringcmp, memcmp_cons, hgt, hgt.not_gt]

theorem stringcmp_gt (s t : List ℤ) : 0 < stringcmp s t ↔ t < s := by
  rw [← stringcmp_lt, stringcmp_neg s t]
  omega

theorem stringcmp_eq (s t : List ℤ) : stringcmp s t = 0 ↔ s = t := by
  have hlt := stringcmp_lt s t
  have hgt := stringcmp_gt s t
  constructor
  · intro h
    refine le_antisymm (not_lt.mp fun hts => ?_) (not_lt.mp fun hst => ?_)
    · have := hgt.mpr hts
      omega
    · have := hlt.mpr hst
      omega
  · rintro rfl
    simp only [lt_irrefl, iff_false] at hlt hgt
    omega

def runes (s : Str) : List ℤ := s.map fun c => (c.toNat : ℤ)

theorem c2string_bytes (s : Str) : c2string (bytes s) = runes s := by
  have hread := Limbo.readrunes_bytes s []
  rw [List.append_nil] at hread
  rw [c2string, Limbo.countrunes_bytes s _ (Limbo.bytes_length_le s), hread, List.map_map]
  rfl

theorem ofbytes_encode (c : Char) : ofbytes (String.utf8EncodeChar c) =
    if c.toNat ≤ 0x7f then [(c.toNat : ℤ)]
    else if c.toNat ≤ 0x7ff then [(c.toNat : ℤ) / 64 + 0xc0, (c.toNat : ℤ) % 64 + 0x80]
    else if c.toNat ≤ 0xffff then
      [(c.toNat : ℤ) / 4096 + 0xe0, (c.toNat : ℤ) / 64 % 64 + 0x80, (c.toNat : ℤ) % 64 + 0x80]
    else
      [(c.toNat : ℤ) / 262144 + 0xf0, (c.toNat : ℤ) / 4096 % 64 + 0x80,
        (c.toNat : ℤ) / 64 % 64 + 0x80, (c.toNat : ℤ) % 64 + 0x80] := by
  have hc : c.val.toNat = c.toNat := rfl
  have hvalid : c.toNat < 0xD800 ∨ 0xDFFF < c.toNat ∧ c.toNat < 0x110000 := c.valid
  simp only [String.utf8EncodeChar, hc, ofbytes]
  generalize c.toNat = v at *
  split_ifs with h1 h2 h3
  · simp [UInt8.toNat_ofNat']
    omega
  · simp [UInt8.toNat_ofNat']
    omega
  · simp [UInt8.toNat_ofNat']
    omega
  · simp [UInt8.toNat_ofNat']
    omega

theorem encode_lt {c d : Char} (h : c < d) (s t : List ℤ) :
    ofbytes (String.utf8EncodeChar c) ++ s < ofbytes (String.utf8EncodeChar d) ++ t := by
  have hlt : c.toNat < d.toNat := h
  rw [ofbytes_encode, ofbytes_encode]
  generalize c.toNat = v at *
  generalize d.toNat = w at *
  split_ifs <;> simp only [List.cons_append, List.cons_lt_cons_iff] <;> omega

theorem bytes_strictMono : StrictMono fun s : Str => ofbytes (bytes s) := by
  intro s t h
  induction s generalizing t with
  | nil =>
    cases t with
    | nil => exact absurd h (lt_irrefl _)
    | cons d t =>
      obtain ⟨b, bs, hbs⟩ := List.exists_cons_of_ne_nil (String.utf8EncodeChar_ne_nil (c := d))
      simp [Limbo.bytes_cons, ofbytes, hbs]
  | cons c s ih =>
    cases t with
    | nil => exact absurd h (List.not_lt_nil _)
    | cons d t =>
      simp only [Limbo.bytes_cons, ofbytes, List.map_append]
      rcases List.cons_lt_cons_iff.mp h with hlt | ⟨rfl, hlt⟩
      · exact encode_lt hlt _ _
      · have hrest := ih hlt
        simp only [ofbytes] at hrest
        induction (String.utf8EncodeChar c).map fun x => (x.toNat : ℤ) with
        | nil => exact hrest
        | cons b bs ihb => exact List.cons_lt_cons_iff.mpr (.inr ⟨rfl, ihb⟩)

theorem strorder_lawful : strorder.Lawful where
  lt := fun s t => (stringcmp_lt _ _).trans bytes_strictMono.lt_iff_lt
  gt := fun s t => (stringcmp_gt _ _).trans bytes_strictMono.lt_iff_lt
  joins := fun s t h => by simp [strorder] at h

theorem runes_strictMono : StrictMono runes := by
  intro s t h
  induction s generalizing t with
  | nil =>
    cases t with
    | nil => exact absurd h (lt_irrefl _)
    | cons d t => simp [runes]
  | cons c s ih =>
    cases t with
    | nil => exact absurd h (List.not_lt_nil _)
    | cons d t =>
      rcases List.cons_lt_cons_iff.mp h with hlt | ⟨rfl, hlt⟩
      · exact List.cons_lt_cons_iff.mpr (.inl (Int.ofNat_lt.mpr hlt))
      · exact List.cons_lt_cons_iff.mpr (.inr ⟨rfl, ih hlt⟩)

end Infernode.Cases
