import Infernode.Lib.Runs

/-!
# Reading a directory

`Styxserver.read` of a directory of a `Nametree`, with the position that a fid keeps between
its reads. An entry is the bytes that `packdir` gives for it.
-/

namespace Infernode.Styx

open Lib

structure Entry where
  bytes : List UInt8
  pos : 0 < bytes.length
  deriving DecidableEq

def Entry.packdirsize (d : Entry) : ℕ := d.bytes.length

def pack (ds : List Entry) : List UInt8 := ds.flatMap (·.bytes)

def int (x : ℤ) : ℤ := x.bmod (2 ^ 32)

def DIRREADSIZE : ℕ := 49 + 4 * 20

def readdir (dir : List Entry) (offset count : ℕ) : List Entry := (dir.drop offset).take count

/-- Where `Dread` is: `offset`, `index`, what is left of `m.count`, and `a[0:p]`. -/
structure Scan where
  offset : ℤ
  index : ℕ
  count : ℕ
  data : List UInt8
  deriving DecidableEq

def batch (moffset : ℤ) : List Entry → Scan → Scan × Bool
  | [], s => (s, false)
  | d :: ds, s =>
    let offset := int (s.offset + d.packdirsize)
    if offset < moffset then batch moffset ds ⟨offset, s.index + 1, s.count, s.data⟩
    else if s.count < d.packdirsize then (s, true)
    else batch moffset ds
      ⟨offset, s.index + 1, s.count - d.packdirsize, s.data ++ d.bytes⟩

/-- `Dread`, `none` if it goes on for longer than it is given. -/
def dread (dir : List Entry) (moffset : ℤ) : ℕ → Scan → Option Scan
  | 0, _ => none
  | n + 1, s =>
    let d := readdir dir s.index ((s.count + DIRREADSIZE - 1) / DIRREADSIZE)
    if d = [] then some s
    else
      let (s, full) := batch moffset d s
      if full then some s else dread dir moffset n s

structure Fid where
  offset : ℤ
  index : ℕ
  deriving DecidableEq

def read (dir : List Entry) (c : Fid) (moffset count : ℕ) : Option (List UInt8 × Fid) :=
  if count = 0 then some ([], c)
  else do
    let c := if int moffset ≠ c.offset then ⟨0, 0⟩ else c
    let s ← dread dir (int moffset) (dir.length + 1) ⟨c.offset, c.index, count, []⟩
    return (s.data, ⟨s.offset, s.index⟩)

def fit : List Entry → ℕ → List Entry
  | [], _ => []
  | d :: ds, count => if d.packdirsize ≤ count then d :: fit ds (count - d.packdirsize) else []

/-- What is returned is the longest run of whole entries that fits, from the one that begins
at the offset on. -/
def Longest (dir : List Entry) (moffset count : ℕ) (data : List UInt8) : Prop :=
  ∀ before ds, dir = before ++ ds → (pack before).length = moffset → data = pack (fit ds count)

structure Reader where
  fid : Fid
  returned : List (List UInt8)
  deriving DecidableEq

def step (dir : List Entry) (r : Option Reader) (m : ℕ × ℕ) : Option Reader := do
  let r ← r
  let (data, c) ← read dir r.fid m.1 m.2
  return ⟨c, r.returned ++ [data]⟩

def opened : Option Reader := some ⟨⟨0, 0⟩, []⟩

def Onwards (r : Option Reader) (m : ℕ × ℕ) : Prop :=
  ∀ r' ∈ r, m.1 = 0 ∨ (m.1 : ℤ) = r'.fid.offset

@[simp] theorem pack_nil : pack [] = [] := rfl

@[simp] theorem pack_cons (d : Entry) (ds : List Entry) : pack (d :: ds) = d.bytes ++ pack ds := rfl

@[simp] theorem pack_append (ds es : List Entry) : pack (ds ++ es) = pack ds ++ pack es := by
  simp [pack]

theorem int_eq {x : ℤ} (h₀ : 0 ≤ x) (h : x < 2 ^ 31) : int x = x :=
  Int.bmod_eq_of_le (by omega) (by omega)

theorem fit_zero (ds : List Entry) : fit ds 0 = [] := by
  cases ds with
  | nil => rfl
  | cons d ds =>
    have := d.pos
    exact if_neg (not_le.2 this)

def At (dir : List Entry) (c : Fid) : Prop :=
  c.index ≤ dir.length ∧ c.offset = (pack (dir.take c.index)).length

theorem batch_fit {moffset : ℤ} {ds rest : List Entry} {s : Scan} (h₀ : 0 ≤ s.offset)
    (hm : moffset ≤ s.offset) (hmax : s.offset + (pack (ds ++ rest)).length < 2 ^ 31) :
    (batch moffset ds s).1.data ++ pack (fit (if (batch moffset ds s).2 then [] else rest)
        (batch moffset ds s).1.count) = s.data ++ pack (fit (ds ++ rest) s.count) ∧
      ∃ k, (batch moffset ds s).1.index = s.index + k ∧ k ≤ ds.length ∧
        (batch moffset ds s).1.offset = s.offset + (pack (ds.take k)).length ∧
        ((batch moffset ds s).2 = false → k = ds.length) ∧
        (batch moffset ds s).1.offset + s.data.length =
          s.offset + (batch moffset ds s).1.data.length := by
  induction ds generalizing s with
  | nil => exact ⟨rfl, 0, rfl, le_rfl, by simp [batch], fun _ => rfl, rfl⟩
  | cons d ds ih =>
    have hpos := d.pos
    simp only [List.cons_append, pack_cons, List.length_append] at hmax
    have hint : int (s.offset + d.packdirsize) = s.offset + d.packdirsize :=
      int_eq (by omega) (by simp only [Entry.packdirsize]; omega)
    by_cases hfit : s.count < d.packdirsize
    · have hb : batch moffset (d :: ds) s = (s, true) := by
        simp only [batch, hint]
        rw [if_neg (by omega), if_pos hfit]
      rw [hb]
      exact ⟨by simp [fit, not_le.2 hfit], 0, rfl, Nat.zero_le _, by simp, by simp, rfl⟩
    · have hb : batch moffset (d :: ds) s = batch moffset ds ⟨s.offset + d.packdirsize,
          s.index + 1, s.count - d.packdirsize, s.data ++ d.bytes⟩ := by
        simp only [batch, hint]
        rw [if_neg (by omega), if_neg hfit]
      have hsize : (d.packdirsize : ℤ) = d.bytes.length := rfl
      obtain ⟨hdata, k, hindex, hk, hoffset, hall, hlen⟩ := @ih ⟨s.offset + d.packdirsize,
        s.index + 1, s.count - d.packdirsize, s.data ++ d.bytes⟩ (by simp only; omega)
        (by simp only; omega) (by simp only; omega)
      rw [hb]
      refine ⟨?_, k + 1, by rw [hindex]; simp only; omega, by simpa using hk, ?_, fun h => by
        simp [hall h], ?_⟩
      · rw [hdata]
        simp [fit, not_lt.1 hfit]
      · rw [hoffset, List.take_succ_cons, pack_cons, List.length_append]
        simp only
        omega
      · simp only [List.length_append] at hlen
        omega

theorem readdir_split (dir : List Entry) (index count : ℕ) :
    dir.drop index = readdir dir index count ++ dir.drop (index + (readdir dir index count).length)
      := by
  simp only [readdir]
  conv_lhs => rw [← List.take_append_drop count (dir.drop index)]
  congr 1
  rw [List.drop_drop, List.length_take, List.length_drop]
  rcases le_total count (dir.length - index) with h | h
  · rw [min_eq_left h]
  · rw [min_eq_right h, List.drop_eq_nil_of_le (by omega), List.drop_eq_nil_of_le (by omega)]

theorem pack_take_add (dir : List Entry) (i k : ℕ) :
    pack (dir.take (i + k)) = pack (dir.take i) ++ pack ((dir.drop i).take k) := by
  rw [List.take_add, pack_append]

theorem dread_fit {dir : List Entry} (hmax : (pack dir).length < 2 ^ 31) {moffset : ℤ} {n : ℕ}
    {s : Scan} (hm : moffset ≤ s.offset) (hat : At dir ⟨s.offset, s.index⟩)
    (hn : dir.length - s.index < n) :
    ∃ s', dread dir moffset n s = some s' ∧ At dir ⟨s'.offset, s'.index⟩ ∧
      s'.data = s.data ++ pack (fit (dir.drop s.index) s.count) ∧
      s'.offset + s.data.length = s.offset + s'.data.length := by
  induction n generalizing s with
  | zero => omega
  | succ n ih =>
    obtain ⟨hle, hoff⟩ := hat
    simp only at hle hoff
    have hsplit := readdir_split dir s.index ((s.count + DIRREADSIZE - 1) / DIRREADSIZE)
    generalize hd : readdir dir s.index ((s.count + DIRREADSIZE - 1) / DIRREADSIZE) = d at hsplit
    simp only [dread, hd]
    by_cases hnil : d = []
    · rw [if_pos hnil]
      refine ⟨s, rfl, ⟨hle, hoff⟩, ?_, rfl⟩
      have hfit : fit (dir.drop s.index) s.count = [] := by
        rcases Nat.eq_zero_or_pos s.count with hc | hc
        · rw [hc, fit_zero]
        · have hlen := congrArg List.length hd
          have hcount : 0 < (s.count + DIRREADSIZE - 1) / DIRREADSIZE :=
            Nat.div_pos (by simp only [DIRREADSIZE]; omega) (by decide)
          simp only [readdir, List.length_take, List.length_drop, hnil, List.length_nil] at hlen
          rw [List.drop_eq_nil_of_le (by omega)]
          rfl
      rw [hfit]
      simp
    · rw [if_neg hnil]
      have hlen : (pack (dir.take s.index)).length + (pack (dir.drop s.index)).length =
          (pack dir).length := by
        rw [← List.length_append, ← pack_append, List.take_append_drop]
      obtain ⟨hdata, k, hindex, hk, hoffset, hall, hdlen⟩ := @batch_fit moffset d
        (dir.drop (s.index + d.length)) s (by omega) hm (by
          rw [← hsplit]
          omega)
      have hdle : s.index + d.length ≤ dir.length := by
        have := congrArg List.length hsplit
        simp only [List.length_drop, List.length_append] at this
        have := List.length_pos_iff.2 hnil
        omega
      have htake : d.take k = (dir.drop s.index).take k := by
        rw [hsplit, List.take_append_of_le_length hk]
      generalize batch moffset d s = b at hdata hindex hoffset hall hdlen
      have hat' : At dir ⟨b.1.offset, b.1.index⟩ := by
        refine ⟨by simp only; omega, ?_⟩
        simp only
        rw [hindex, pack_take_add, List.length_append, hoffset, hoff, htake]
        push_cast
        rfl
      rcases hb : b.2 with _ | _
      · rw [if_neg (by simp)]
        have hkl := hall hb
        have hpos := List.length_pos_iff.2 hnil
        obtain ⟨s', hs', hat'', hdata', hlen'⟩ := @ih b.1 (by omega) hat' (by omega)
        refine ⟨s', hs', hat'', ?_, by omega⟩
        rw [hb, if_neg (by simp)] at hdata
        rw [hdata', hindex, hkl, hdata, ← hsplit]
      · rw [if_pos rfl]
        refine ⟨b.1, rfl, hat', ?_, hdlen⟩
        rw [hb, if_pos rfl] at hdata
        simpa [fit, ← hsplit] using hdata

theorem before_unique {before ds : List Entry} {k : ℕ} (hk : k ≤ (before ++ ds).length)
    (h : (pack before).length = (pack ((before ++ ds).take k)).length) :
    (before ++ ds).drop k = ds := by
  induction before generalizing k with
  | nil =>
    cases ds with
    | nil => simp
    | cons d ds =>
      cases k with
      | zero => rfl
      | succ k =>
        have := d.pos
        simp only [pack_nil, List.nil_append, List.take_succ_cons, pack_cons,
          List.length_append, List.length_nil] at h
        omega
  | cons d before ih =>
    cases k with
    | zero =>
      have := d.pos
      simp only [pack_cons, List.take_zero, pack_nil, List.length_append, List.length_nil] at h
      omega
    | succ k =>
      simp only [List.cons_append, List.take_succ_cons, pack_cons, List.length_append] at h
      exact ih (by simpa using hk) (by omega)

theorem read_longest {dir : List Entry} (hmax : (pack dir).length < 2 ^ 31) {c : Fid}
    (hat : At dir c) {moffset : ℕ} (count : ℕ) (hm : moffset = 0 ∨ (moffset : ℤ) = c.offset) :
    ∃ data c', read dir c moffset count = some (data, c') ∧ At dir c' ∧
      Longest dir moffset count data ∧ (0 < count → c'.offset = moffset + data.length) := by
  by_cases hcount : count = 0
  · refine ⟨[], c, if_pos hcount, hat, fun before ds _ _ => ?_, fun h => absurd hcount (by omega)⟩
    rw [hcount, fit_zero]
    rfl
  have htotal : (pack (dir.take c.index)).length ≤ (pack dir).length := by
    conv_rhs => rw [← List.take_append_drop c.index dir]
    rw [pack_append, List.length_append]
    omega
  have hoff := hat.2
  have hint : int moffset = moffset := int_eq (by omega) (by omega)
  have hbegin : At dir ⟨0, 0⟩ := ⟨Nat.zero_le _, by simp⟩
  obtain ⟨c₀, hc₀, hat₀, hoff₀⟩ : ∃ c₀, (if int moffset ≠ c.offset then ⟨0, 0⟩ else c) = c₀ ∧
      At dir c₀ ∧ c₀.offset = moffset := by
    by_cases hsame : int moffset = c.offset
    · exact ⟨c, if_neg (not_not.2 hsame), hat, hsame.symm.trans hint⟩
    · refine ⟨⟨0, 0⟩, if_pos hsame, hbegin, ?_⟩
      rcases hm with rfl | hm
      · rfl
      · exact absurd (hint.trans hm) hsame
  obtain ⟨s', hs', hat', hdata, hlen⟩ := @dread_fit dir hmax (int moffset) (dir.length + 1)
    ⟨c₀.offset, c₀.index, count, []⟩ (by simp only; omega) hat₀ (by simp only; omega)
  simp only [List.nil_append, List.length_nil] at hdata hlen
  refine ⟨s'.data, ⟨s'.offset, s'.index⟩, ?_, hat', fun before ds hdir hbefore => ?_, fun _ => ?_⟩
  · simp only [read, if_neg hcount, hc₀, hs']
    rfl
  · subst hdir
    have hsize : (pack before).length = (pack ((before ++ ds).take c₀.index)).length := by
      have := hat₀.2
      omega
    rw [hdata, before_unique hat₀.1 hsize]
  · simp only
    omega

/-- In every run of reads of a directory of less than 2^31 bytes, each at the beginning or where
the last one ended, the next such read ends and returns the longest run of whole entries that
fits, and the fid is then where that ends. -/
theorem read_exact {dir : List Entry} (hmax : (pack dir).length < 2 ^ 31) {ms : List (ℕ × ℕ)}
    (h : Always (step dir) Onwards opened ms) :
    ∃ r, ms.foldl (step dir) opened = some r ∧ At dir r.fid ∧
      ∀ m : ℕ × ℕ, Onwards (some r) m → ∃ data c', read dir r.fid m.1 m.2 = some (data, c') ∧
        Longest dir m.1 m.2 data ∧ (0 < m.2 → c'.offset = m.1 + data.length) := by
  obtain ⟨r, hr, hat⟩ : ∃ r, ms.foldl (step dir) opened = some r ∧ At dir r.fid := by
    refine h.invariant (fun o => ∃ r, o = some r ∧ At dir r.fid) ?_
      ⟨_, rfl, Nat.zero_le _, by simp⟩
    rintro _ m ⟨r, rfl, hat⟩ hm
    obtain ⟨data, c', hread, hat', -, -⟩ := read_longest hmax hat m.2 (hm r rfl)
    exact ⟨⟨c', r.returned ++ [data]⟩, by simp [step, hread], hat'⟩
  refine ⟨r, hr, hat, fun m hm => ?_⟩
  obtain ⟨data, c', hread, -, hlong, hend⟩ := read_longest hmax hat m.2 (hm r rfl)
  exact ⟨data, c', hread, hlong, hend⟩

def pair : List Entry := [⟨List.replicate 50 0, by decide⟩, ⟨List.replicate 50 1, by decide⟩]

theorem read_exact_pair : ∃ r, [(0, 50)].foldl (step pair) opened = some r ∧ At pair r.fid ∧
    ∀ m : ℕ × ℕ, Onwards (some r) m → ∃ data c', read pair r.fid m.1 m.2 = some (data, c') ∧
      Longest pair m.1 m.2 data ∧ (0 < m.2 → c'.offset = m.1 + data.length) :=
  read_exact (by decide) ⟨fun _ _ => .inl rfl, trivial⟩

/-- The second entry is read again at its offset, and the first is returned. -/
theorem reread_wrong : ∃ r, [(0, 50), (50, 50), (50, 50)].foldl (step pair) opened = some r ∧
    r.returned = [List.replicate 50 0, List.replicate 50 1, List.replicate 50 0] ∧
    ¬ Longest pair 50 50 (List.replicate 50 0) := by
  refine ⟨_, rfl, by decide, fun h => ?_⟩
  have := h [⟨List.replicate 50 0, by decide⟩] [⟨List.replicate 50 1, by decide⟩] rfl (by decide)
  exact absurd this (by decide)

end Infernode.Styx
