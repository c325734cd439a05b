import Infernode.Lib.BigEndian

/-!
# Stat entries

`statcheck`, `statcheckbuf`, `convM2D`, `sizeD2M` and `convD2M`, and their use in `dirpackage` and
`chandirstat`. Memory is bytes by address. A `ulong` has 64 bits, and a stat entry has 32 of the
version, the mode and the times.
-/

namespace Infernode.Styx.Stat

open Lib.BigEndian

abbrev Mem := ℕ → UInt8

def peek (M : Mem) (a n : ℕ) : List UInt8 := (List.range n).map fun i => M (a + i)

def poke (M : Mem) (a : ℕ) (l : List UInt8) : Mem :=
  fun i => if a ≤ i then l.getD (i - a) (M i) else M i

def STATFIXLEN : ℕ := 49

def pbit : ℕ → ℕ → List UInt8
  | 0, _ => []
  | n + 1, v => UInt8.ofNat v :: pbit n (v / 256)

def gbit (l : List UInt8) : ℕ := lowvalue l

abbrev Cstr := { s : List UInt8 // 0 ∉ s }

structure Fixed where
  type : UInt16
  dev : UInt32
  qtype : UInt8
  vers : UInt64
  path : UInt64
  mode : UInt64
  atime : UInt64
  mtime : UInt64
  length : UInt64
  deriving DecidableEq

structure Dir where
  fixed : Fixed
  name : Option Cstr
  uid : Option Cstr
  gid : Option Cstr
  muid : Option Cstr

def str (s : Option Cstr) : List UInt8 := (s.map Subtype.val).getD []

def Dir.sv (d : Dir) : List (List UInt8) := [str d.name, str d.uid, str d.gid, str d.muid]

def total (sv : List (List UInt8)) : ℕ := (sv.map List.length).sum

def sizeD2M (d : Dir) : ℕ := STATFIXLEN + total d.sv

def Fixed.bytes (d : Fixed) : List UInt8 :=
  pbit 2 d.type.toNat ++ pbit 4 d.dev.toNat ++ pbit 1 d.qtype.toNat ++ pbit 4 d.vers.toNat ++
    pbit 8 d.path.toNat ++ pbit 4 d.mode.toNat ++ pbit 4 d.atime.toNat ++ pbit 4 d.mtime.toNat ++
      pbit 8 d.length.toNat

/-- The loop over the strings, with `room` bytes left; `none` is the return of 0. -/
def putstrs : ℕ → List (List UInt8) → Option (List UInt8)
  | _, [] => some []
  | room, s :: sv =>
    if room < s.length + 2 then none
    else do
      let l ← putstrs (room - (s.length + 2)) sv
      return pbit 2 s.length ++ s ++ l

def convD2M (d : Dir) (nbuf : ℕ) : ℕ × List UInt8 :=
  let ss := STATFIXLEN + total d.sv
  if nbuf < 2 then (0, [])
  else if nbuf < ss then (2, pbit 2 (ss - 2))
  else
    let l := pbit 2 (ss - 2) ++ d.fixed.bytes
    match putstrs (nbuf - l.length) d.sv with
    | none => (0, l)
    | some strs => if ss ≠ (l ++ strs).length then (0, l ++ strs) else (ss, l ++ strs)

def checkstrs : ℕ → List UInt8 → Bool
  | 0, buf => buf = []
  | i + 1, buf =>
    if buf.length < 2 then false
    else
      let n := gbit (buf.take 2)
      if (buf.drop 2).length < n then false else checkstrs i ((buf.drop 2).drop n)

def statcheck (buf : List UInt8) : Bool :=
  if buf.length < STATFIXLEN ∨ buf.length ≠ 2 + gbit (buf.take 2) then false
  else checkstrs 4 (buf.drop (STATFIXLEN - 4 * 2))

/-- `none` is -1. -/
def statcheckbuf (buf : List UInt8) : Option ℕ :=
  if buf.length < 2 then none
  else
    let nbuf := 2 + gbit (buf.take 2)
    if buf.length < nbuf ∨ statcheck (buf.take nbuf) = false then none else some nbuf

def gbit32dontcare (l : List UInt8) : UInt64 :=
  if gbit l = 0xFFFFFFFF then UInt64.ofNat (2 ^ 64 - 1) else UInt64.ofNat (gbit l)

def getstrs (ebuf : ℕ) : ℕ → Mem → ℕ → Option ℕ → Option (List ℕ × ℕ) × Mem
  | 0, M, p, _ => (some ([], p), M)
  | i + 1, M, p, strs =>
    if ebuf < p + 2 then (none, M)
    else
      let ns := gbit (peek M p 2)
      let p := p + 2
      if ebuf < p + ns then (none, M)
      else
        match strs with
        | none => getstrs ebuf i M (p + ns) none
        | some strs =>
          let M := poke M strs (peek M p ns ++ [0])
          match getstrs ebuf i M (p + ns) (some (strs + ns + 1)) with
          | (none, M) => (none, M)
          | (some (sv, p), M) => (some (strs :: sv, p), M)

def getfixed (M : Mem) (p : ℕ) : Fixed where
  type := UInt16.ofNat (gbit (peek M (p + 2) 2))
  dev := UInt32.ofNat (gbit (peek M (p + 4) 4))
  qtype := UInt8.ofNat (gbit (peek M (p + 8) 1))
  vers := UInt64.ofNat (gbit (peek M (p + 9) 4))
  path := UInt64.ofNat (gbit (peek M (p + 13) 8))
  mode := gbit32dontcare (peek M (p + 21) 4)
  atime := gbit32dontcare (peek M (p + 25) 4)
  mtime := gbit32dontcare (peek M (p + 29) 4)
  length := UInt64.ofNat (gbit (peek M (p + 33) 8))

def convM2D (M : Mem) (buf nbuf : ℕ) (strs : Option ℕ) : ℕ × Option (Fixed × List ℕ) × Mem :=
  if nbuf < STATFIXLEN then (0, none, M)
  else
    match getstrs (buf + nbuf) 4 M (buf + 41) strs with
    | (none, M') => (0, none, M')
    | (some (sv, p), M') => (p - buf, some (getfixed M buf, sv), M')

def entries : ℕ → List UInt8 → Option (List ℕ)
  | _, [] => some []
  | 0, _ => none
  | k + 1, buf => do
    let m ← statcheckbuf buf
    let ms ← entries k (buf.drop m)
    return m :: ms

def packloop : ℕ → Mem → ℕ → ℕ → ℕ → ℕ → Except String (List (Fixed × List ℕ)) × Mem
  | 0, M, _, _, _, _ => (.error "bad directory entry", M)
  | k + 1, M, buf, ebuf, n, s =>
    if ebuf ≤ buf then (.ok [], M)
    else
      let m := 2 + gbit (peek M buf 2)
      if n = 0 then (.error "bad directory entry", M)
      else
        match convM2D M buf m (some s) with
        | (m', some d, M) =>
          if m' ≠ m then (.error "bad directory entry", M)
          else
            match packloop k M (buf + m) ebuf (n - 1) (s + m) with
            | (.ok ds, M) => (.ok (d :: ds), M)
            | (.error e, M) => (.error e, M)
        | (_, none, M) => (.error "bad directory entry", M)

def dirpackage (M : Mem) (buf ts strs : ℕ) : Except String (List (Fixed × List ℕ)) × Mem :=
  match entries ts (peek M buf ts) with
  | none => (.error "bad directory format", M)
  | some ms => packloop (ts + 1) M buf (buf + ts) ms.length strs

def DIRSIZE : ℕ := STATFIXLEN + 32 * 4

/-- The device's `stat` into a buffer of `nd` bytes: what it stores, unless it raises. -/
abbrev Devstat := ℕ → Option (List UInt8)

/-- The tries of `chandirstat`, `k` at most: the size of the buffer, and what `convM2D` makes of
it. The buffer is at `buf`, and the strings go into it. -/
def chandirstat (stat : Devstat) (M : Mem) (buf : ℕ) :
    ℕ → ℕ → Option (ℕ × ℕ × Option (Fixed × List ℕ) × Mem)
  | 0, _ => none
  | k + 1, nd =>
    match stat nd with
    | none => none
    | some l =>
      let M' := poke M buf l
      if l.length < 2 then none
      else
        let nd' := gbit (peek M' buf 2) + 2
        if nd' ≤ l.length then some (nd, convM2D M' buf l.length (some buf))
        else chandirstat stat M buf k nd'

section Bytes

variable {M : Mem} {a a' n v i : ℕ} {l : List UInt8}

@[simp] theorem peek_length (M : Mem) (a n : ℕ) : (peek M a n).length = n := by simp [peek]

theorem peek_congr {M' : Mem} (h : ∀ i < n, M (a + i) = M' (a + i)) : peek M a n = peek M' a n :=
  List.map_congr_left fun i hi => h i (List.mem_range.1 hi)

theorem peek_add (M : Mem) (a m n : ℕ) : peek M a (m + n) = peek M a m ++ peek M (a + m) n := by
  simp only [peek, List.range_add, List.map_append, List.map_map]
  congr 2
  funext i
  simp [Nat.add_assoc]

theorem poke_outside (h : i < a ∨ a + l.length ≤ i) : poke M a l i = M i := by
  simp only [poke]
  split_ifs with hi
  · exact List.getD_eq_default _ _ (by omega)
  · rfl

theorem peek_poke (M : Mem) (a : ℕ) (l : List UInt8) : peek (poke M a l) a l.length = l := by
  refine List.ext_getElem (peek_length _ _ _) fun i hi hi' => ?_
  simp [peek, poke, hi']

theorem peek_poke_outside (h : a' + n ≤ a ∨ a + l.length ≤ a') :
    peek (poke M a l) a' n = peek M a' n :=
  peek_congr fun i hi => poke_outside (by omega)

@[simp] theorem pbit_length (n v : ℕ) : (pbit n v).length = n := by
  induction n generalizing v with
  | zero => rfl
  | succ n ih => rw [pbit, List.length_cons, ih]

theorem gbit_pbit (n v : ℕ) : gbit (pbit n v) = v % 256 ^ n := by
  induction n generalizing v with
  | zero => simp [pbit, gbit, lowvalue, Nat.mod_one]
  | succ n ih =>
    have hrest : lowvalue (pbit n (v / 256)) = v / 256 % 256 ^ n := ih (v / 256)
    have hmul : v % 256 ^ (n + 1) = v % 256 + 256 * (v / 256 % 256 ^ n) := by
      rw [pow_succ', Nat.mod_mul]
    rw [pbit, gbit, lowvalue, hrest, UInt8.toNat_ofNat', hmul]

theorem gbit_pbit_of_lt (h : v < 256 ^ n) : gbit (pbit n v) = v := by
  rw [gbit_pbit, Nat.mod_eq_of_lt h]

theorem pbit_gbit (l : List UInt8) : pbit l.length (gbit l) = l := by
  induction l with
  | nil => rfl
  | cons b l ih =>
    have hb : b.toNat < 256 := b.toNat_lt
    have hlow : UInt8.ofNat (b.toNat + 256 * lowvalue l) = b := by
      refine UInt8.toNat_inj.1 ?_
      rw [UInt8.toNat_ofNat']
      omega
    have hhigh : (b.toNat + 256 * lowvalue l) / 256 = gbit l := by
      rw [gbit]
      omega
    rw [List.length_cons, pbit, gbit, lowvalue, hlow, hhigh, ih]

theorem gbit_lt (l : List UInt8) : gbit l < 256 ^ l.length := lowvalue_lt l

end Bytes

section Check

variable {buf rest : List UInt8} {k m : ℕ} {sv : List (List UInt8)}

def counted (sv : List (List UInt8)) : List UInt8 :=
  sv.flatMap fun s => pbit 2 s.length ++ s

/-- An entry: the length of what follows the count, 39 bytes and four strings. -/
def Entry (e : List UInt8) : Prop :=
  ∃ c fixed sv, e = pbit 2 c ++ fixed ++ counted sv ∧ e.length = 2 + c ∧ c < 2 ^ 16 ∧
    fixed.length = 39 ∧ sv.length = 4 ∧ ∀ s ∈ sv, s.length < 2 ^ 16

@[simp] theorem counted_cons (s : List UInt8) (sv : List (List UInt8)) :
    counted (s :: sv) = pbit 2 s.length ++ s ++ counted sv := rfl

theorem counted_length (sv : List (List UInt8)) :
    (counted sv).length = total sv + 2 * sv.length := by
  induction sv with
  | nil => rfl
  | cons s sv ih =>
    rw [counted_cons, List.length_append, List.length_append, pbit_length, ih, total, total,
      List.map_cons, List.sum_cons, List.length_cons]
    omega

theorem checkstrs_iff : checkstrs k rest = true ↔
    ∃ sv, sv.length = k ∧ (∀ s ∈ sv, s.length < 2 ^ 16) ∧ rest = counted sv := by
  induction k generalizing rest with
  | zero =>
    simp only [checkstrs, decide_eq_true_eq, List.length_eq_zero_iff]
    constructor
    · rintro rfl
      exact ⟨[], rfl, by simp, rfl⟩
    · rintro ⟨_, rfl, -, rfl⟩
      rfl
  | succ k ih =>
    simp only [checkstrs]
    constructor
    · intro h
      split_ifs at h with h2 hn
      obtain ⟨sv, rfl, hlt, hrest⟩ := ih.1 h
      have htake : (rest.take 2).length = 2 := List.length_take_of_le (not_lt.1 h2)
      have hslen : ((rest.drop 2).take (gbit (rest.take 2))).length = gbit (rest.take 2) :=
        List.length_take_of_le (not_lt.1 hn)
      have hbound := gbit_lt (rest.take 2)
      rw [htake] at hbound
      refine ⟨(rest.drop 2).take (gbit (rest.take 2)) :: sv, rfl, ?_, ?_⟩
      · intro s hs
        obtain rfl | hs := List.mem_cons.1 hs
        · rw [hslen]
          exact hbound
        · exact hlt s hs
      · have hpbit := pbit_gbit (rest.take 2)
        rw [htake] at hpbit
        rw [counted_cons, hslen, hpbit, ← hrest, List.append_assoc, List.take_append_drop,
          List.take_append_drop]
    · rintro ⟨sv, hlen, hlt, rfl⟩
      obtain ⟨s, sv, rfl⟩ := List.exists_cons_of_length_eq_add_one hlen
      have hs : s.length < 256 ^ 2 := hlt s List.mem_cons_self
      have htake : (counted (s :: sv)).take 2 = pbit 2 s.length := by
        rw [counted_cons, List.append_assoc]
        exact List.take_left' (pbit_length 2 _)
      have hdrop : (counted (s :: sv)).drop 2 = s ++ counted sv := by
        rw [counted_cons, List.append_assoc]
        exact List.drop_left' (pbit_length 2 _)
      have htwo : ¬(counted (s :: sv)).length < 2 := by
        rw [counted_length, List.length_cons]
        omega
      rw [if_neg htwo, htake, gbit_pbit_of_lt hs, hdrop, if_neg (by simp), List.drop_left]
      exact ih.2 ⟨sv, by simpa using hlen, fun s hs => hlt s (List.mem_cons_of_mem _ hs), rfl⟩

theorem statcheck_iff (e : List UInt8) : statcheck e = true ↔ Entry e := by
  rw [statcheck]
  constructor
  · intro h
    split_ifs at h with hlen
    rw [not_or, not_lt, not_not, STATFIXLEN] at hlen
    obtain ⟨sv, hsv, hlt, hrest⟩ := checkstrs_iff.1 h
    have htake : (e.take 2).length = 2 := List.length_take_of_le (by omega)
    have hbound := gbit_lt (e.take 2)
    rw [htake] at hbound
    refine ⟨gbit (e.take 2), (e.drop 2).take 39, sv, ?_, hlen.2, hbound, ?_, hsv, hlt⟩
    · have hpbit := pbit_gbit (e.take 2)
      rw [htake] at hpbit
      have hdrop : e.drop (STATFIXLEN - 4 * 2) = (e.drop 2).drop 39 := by
        rw [List.drop_drop]
        rfl
      rw [hpbit, ← hrest, hdrop, List.append_assoc, List.take_append_drop,
        List.take_append_drop]
    · rw [List.length_take, List.length_drop]
      omega
  · rintro ⟨c, fixed, sv, he, hlen, hc, hfixed, hsv, hstr⟩
    have htotal : e.length = 2 + 39 + (counted sv).length := by
      rw [he, List.length_append, List.length_append, pbit_length, hfixed]
    have hcounted := counted_length sv
    have htake : e.take 2 = pbit 2 c := by
      rw [he, List.append_assoc]
      exact List.take_left' (pbit_length 2 _)
    have hdrop : e.drop (STATFIXLEN - 4 * 2) = counted sv := by
      rw [he]
      refine List.drop_left' ?_
      rw [List.length_append, pbit_length, hfixed]
      rfl
    rw [if_neg, hdrop]
    · exact checkstrs_iff.2 ⟨sv, hsv, hstr, rfl⟩
    · rw [htake, gbit_pbit_of_lt hc, STATFIXLEN]
      omega

theorem statcheckbuf_iff : statcheckbuf buf = some m ↔
    ∃ e rest, buf = e ++ rest ∧ Entry e ∧ m = e.length := by
  simp only [statcheckbuf]
  constructor
  · intro h
    split_ifs at h with h2 hbad
    rw [not_or, not_lt, Bool.not_eq_false] at hbad
    obtain rfl := Option.some.inj h
    refine ⟨_, _, (List.take_append_drop _ buf).symm, (statcheck_iff _).1 hbad.2, ?_⟩
    rw [List.length_take_of_le hbad.1]
  · rintro ⟨e, rest, rfl, hentry, rfl⟩
    have hcheck := (statcheck_iff e).2 hentry
    obtain ⟨c, fixed, sv, he, hlen, hc, -, -, -⟩ := hentry
    have htake : (e ++ rest).take 2 = pbit 2 c := by
      rw [List.take_append_of_le_length (by omega), he, List.append_assoc]
      exact List.take_left' (pbit_length 2 _)
    have hcount : 2 + gbit ((e ++ rest).take 2) = e.length := by
      rw [htake, gbit_pbit_of_lt hc, hlen]
    have htwo : ¬(e ++ rest).length < 2 := by
      rw [List.length_append]
      omega
    rw [if_neg htwo, hcount, List.take_left, hcheck, if_neg]
    simp

end Check

section Reading

variable {M M' : Mem} {a buf ebuf k n p strs : ℕ} {e : List UInt8} {sv : List (List UInt8)}

theorem peek_sub (M : Mem) (a : ℕ) {o : ℕ} (h : o + k ≤ n) :
    peek M (a + o) k = ((peek M a n).drop o).take k := by
  obtain ⟨r, rfl⟩ := Nat.exists_eq_add_of_le h
  rw [peek_add, peek_add, List.append_assoc, List.drop_left' (peek_length _ _ _),
    List.take_left' (peek_length _ _ _)]

theorem getstrs_succ (h2 : p + 2 ≤ ebuf) (hn : p + 2 + gbit (peek M p 2) ≤ ebuf) :
    getstrs ebuf (k + 1) M p (some strs) =
      (((getstrs ebuf k (poke M strs (peek M (p + 2) (gbit (peek M p 2)) ++ [0]))
        (p + 2 + gbit (peek M p 2)) (some (strs + gbit (peek M p 2) + 1))).1.map
          fun r => (strs :: r.1, r.2)),
        (getstrs ebuf k (poke M strs (peek M (p + 2) (gbit (peek M p 2)) ++ [0]))
          (p + 2 + gbit (peek M p 2)) (some (strs + gbit (peek M p 2) + 1))).2) := by
  rw [getstrs, if_neg (not_lt.2 h2)]
  simp only [if_neg (not_lt.2 hn)]
  generalize getstrs ebuf k _ _ (some _) = r
  obtain ⟨- | ⟨sv, q⟩, M'⟩ := r <;> rfl

theorem getstrs_frame (hp : p ≤ ebuf) {i : ℕ} (hi : i < strs ∨ strs + (ebuf - p) ≤ i) :
    (getstrs ebuf k M p (some strs)).2 i = M i := by
  induction k generalizing M p strs with
  | zero => rfl
  | succ k ih =>
    by_cases h2 : ebuf < p + 2
    · rw [getstrs, if_pos h2]
    by_cases hn : ebuf < p + 2 + gbit (peek M p 2)
    · rw [getstrs, if_neg h2]
      simp only [if_pos hn]
    rw [getstrs_succ (not_lt.1 h2) (not_lt.1 hn)]
    have hlen : (peek M (p + 2) (gbit (peek M p 2)) ++ [0]).length = gbit (peek M p 2) + 1 := by
      rw [List.length_append, peek_length]
      rfl
    rw [ih (by omega) (by omega), poke_outside (by rw [hlen]; omega)]

theorem getstrs_counted (hsv : ∀ s ∈ sv, s.length < 2 ^ 16)
    (hpeek : peek M p (counted sv).length = counted sv) (hp : p + (counted sv).length ≤ ebuf)
    (hstrs : strs ≤ p + 1 ∨ ebuf ≤ strs) :
    ∃ addrs M', getstrs ebuf sv.length M p (some strs) =
      (some (addrs, p + (counted sv).length), M') ∧
        List.Forall₂ (fun a s => peek M' a (s.length + 1) = s ++ [0]) addrs sv := by
  induction sv generalizing M p strs with
  | nil => exact ⟨[], M, rfl, .nil⟩
  | cons s sv ih =>
    have hlen : (counted (s :: sv)).length = 2 + (s.length + (counted sv).length) := by
      rw [counted_cons, List.length_append, List.length_append, pbit_length, Nat.add_assoc]
    rw [hlen] at hp hpeek
    rw [peek_add, peek_add, counted_cons, List.append_assoc] at hpeek
    obtain ⟨hcount, hpeek⟩ := List.append_inj hpeek (by simp)
    obtain ⟨hs, hrest⟩ := List.append_inj hpeek (by simp)
    have hns : gbit (peek M p 2) = s.length := by
      rw [hcount]
      exact gbit_pbit_of_lt (hsv s List.mem_cons_self)
    have hput : (s ++ [(0 : UInt8)]).length = s.length + 1 := by simp
    obtain ⟨addrs, M', hget, hall⟩ := @ih (poke M strs (s ++ [0])) (p + 2 + s.length)
      (strs + s.length + 1) (fun s hs => hsv s (List.mem_cons_of_mem _ hs))
      (by rw [peek_poke_outside (by rw [hput]; omega), hrest]) (by omega) (by omega)
    refine ⟨strs :: addrs, M', ?_, .cons ?_ hall⟩
    · rw [List.length_cons, getstrs_succ (by omega) (by rw [hns]; omega), hns, hs, hget, hlen]
      simp only [Option.map_some, Prod.mk.injEq, Option.some.injEq, true_and, and_true]
      omega
    · have hkeep : peek M' strs (s.length + 1) =
          peek (poke M strs (s ++ [0])) strs (s.length + 1) := by
        refine peek_congr fun i hi => ?_
        have := @getstrs_frame (poke M strs (s ++ [0])) ebuf sv.length (p + 2 + s.length)
          (strs + s.length + 1) (by omega) (strs + i) (.inl (by omega))
        rwa [hget] at this
      rw [hkeep, ← hput, peek_poke]

theorem convM2D_frame (M : Mem) (buf n strs : ℕ) {i : ℕ} (hi : i < strs ∨ strs + n ≤ i) :
    (convM2D M buf n (some strs)).2.2 i = M i := by
  rw [convM2D]
  split_ifs with hn
  · rfl
  rw [STATFIXLEN] at hn
  have hframe := @getstrs_frame M (buf + n) 4 (buf + 41) strs (by omega) i (by omega)
  generalize getstrs (buf + n) 4 M (buf + 41) (some strs) = r at hframe
  obtain ⟨- | ⟨sv, q⟩, M'⟩ := r <;> exact hframe

theorem convM2D_counted {c : ℕ} {fixed : List UInt8} (hpeek : peek M buf e.length = e)
    (hsplit : e = pbit 2 c ++ fixed ++ counted sv) (hfixed : fixed.length = 39)
    (hsv : sv.length = 4) (hstr : ∀ s ∈ sv, s.length < 2 ^ 16)
    (hstrs : strs ≤ buf ∨ buf + e.length ≤ strs) :
    ∃ addrs M', convM2D M buf e.length (some strs) =
      (e.length, some (getfixed M buf, addrs), M') ∧
        List.Forall₂ (fun a s => peek M' a (s.length + 1) = s ++ [0]) addrs sv := by
  have htotal : e.length = 41 + (counted sv).length := by
    rw [hsplit, List.length_append, List.length_append, pbit_length, hfixed]
  have hbytes : peek M (buf + 41) (counted sv).length = counted sv := by
    rw [peek_sub M buf (by omega : 41 + (counted sv).length ≤ e.length), hpeek, hsplit,
      List.drop_left' (by rw [List.length_append, pbit_length, hfixed]), List.take_length]
  obtain ⟨addrs, M', hget, hall⟩ := @getstrs_counted M (buf + e.length) (buf + 41) strs sv hstr
    hbytes (by omega) (by omega)
  have hcounted := counted_length sv
  refine ⟨addrs, M', ?_, hall⟩
  rw [hsv] at hget
  rw [convM2D, if_neg (by rw [STATFIXLEN]; omega), hget]
  simp only [Prod.mk.injEq, and_true]
  omega

theorem convM2D_entry (hpeek : peek M buf e.length = e) (he : Entry e)
    (hstrs : strs ≤ buf ∨ buf + e.length ≤ strs) :
    ∃ addrs M', convM2D M buf e.length (some strs) =
      (e.length, some (getfixed M buf, addrs), M') := by
  obtain ⟨c, fixed, sv, hsplit, -, -, hfixed, hsv, hstr⟩ := he
  obtain ⟨addrs, M', hconv, -⟩ := convM2D_counted hpeek hsplit hfixed hsv hstr hstrs
  exact ⟨addrs, M', hconv⟩

end Reading

section Writing

variable {M : Mem} {buf k n s strs room : ℕ} {d : Dir} {sv : List (List UInt8)} {ms : List ℕ}

theorem putstrs_eq (h : (counted sv).length ≤ room) : putstrs room sv = some (counted sv) := by
  induction sv generalizing room with
  | nil => rfl
  | cons s sv ih =>
    have hlen : (counted (s :: sv)).length = s.length + 2 + (counted sv).length := by
      rw [counted_cons, List.length_append, List.length_append, pbit_length]
      omega
    rw [hlen] at h
    rw [putstrs, if_neg (by omega), ih (by omega)]
    rfl

theorem bytes_length (d : Fixed) : d.bytes.length = 39 := by
  simp only [Fixed.bytes, List.length_append, pbit_length]

theorem sv_length (d : Dir) : d.sv.length = 4 := rfl

theorem convD2M_eq (d : Dir) : convD2M d (sizeD2M d) =
    (sizeD2M d, pbit 2 (sizeD2M d - 2) ++ d.fixed.bytes ++ counted d.sv) := by
  have hcounted := counted_length d.sv
  rw [sv_length] at hcounted
  have hfix : STATFIXLEN = 49 := rfl
  have hlen : (pbit 2 (STATFIXLEN + total d.sv - 2) ++ d.fixed.bytes).length = 41 := by
    rw [List.length_append, pbit_length, bytes_length]
  have hall : (pbit 2 (STATFIXLEN + total d.sv - 2) ++ d.fixed.bytes ++ counted d.sv).length =
      STATFIXLEN + total d.sv := by
    rw [List.length_append, hlen]
    omega
  have hput : putstrs (STATFIXLEN + total d.sv - 41) d.sv = some (counted d.sv) :=
    putstrs_eq (by omega)
  have hroom : ¬STATFIXLEN + total d.sv < 2 := by omega
  simp only [convD2M, sizeD2M, if_neg hroom, lt_irrefl, if_false, hlen, hput, hall, ne_eq,
    not_true_eq_false]

theorem entry_convD2M (h : total d.sv < 2 ^ 16 - STATFIXLEN) : Entry (convD2M d (sizeD2M d)).2 := by
  have hcounted := counted_length d.sv
  rw [sv_length] at hcounted
  have hsize : sizeD2M d = 49 + total d.sv := rfl
  rw [STATFIXLEN] at h
  rw [convD2M_eq]
  refine ⟨sizeD2M d - 2, d.fixed.bytes, d.sv, rfl, ?_, by omega, bytes_length _, rfl, ?_⟩
  · rw [List.length_append, List.length_append, pbit_length, bytes_length]
    omega
  · intro s hs
    have hle : s.length ≤ total d.sv := List.single_le_sum (by simp) _ (List.mem_map_of_mem hs)
    omega

/-- What is left of 32 bits, where all of them set stands for a `ulong` with all bits set. -/
def widen (v : UInt64) : UInt64 :=
  if v.toNat % 2 ^ 32 = 0xFFFFFFFF then UInt64.ofNat (2 ^ 64 - 1)
  else UInt64.ofNat (v.toNat % 2 ^ 32)

def Fixed.narrow (d : Fixed) : Fixed :=
  { d with
    vers := UInt64.ofNat (d.vers.toNat % 2 ^ 32)
    mode := widen d.mode
    atime := widen d.atime
    mtime := widen d.mtime }

theorem getfixed_eq (c : ℕ) (d : Fixed) (h : peek M buf 41 = pbit 2 c ++ d.bytes) :
    getfixed M buf = d.narrow := by
  have hsub : ∀ o k, o + k ≤ 41 → peek M (buf + o) k = ((pbit 2 c ++ d.bytes).drop o).take k :=
    fun o k hok => by rw [← h, ← peek_sub M buf hok]
  have htype : peek M (buf + 2) 2 = pbit 2 d.type.toNat := hsub 2 2 (by norm_num)
  have hdev : peek M (buf + 4) 4 = pbit 4 d.dev.toNat := hsub 4 4 (by norm_num)
  have hqtype : peek M (buf + 8) 1 = pbit 1 d.qtype.toNat := hsub 8 1 (by norm_num)
  have hvers : peek M (buf + 9) 4 = pbit 4 d.vers.toNat := hsub 9 4 (by norm_num)
  have hpath : peek M (buf + 13) 8 = pbit 8 d.path.toNat := hsub 13 8 (by norm_num)
  have hmode : peek M (buf + 21) 4 = pbit 4 d.mode.toNat := hsub 21 4 (by norm_num)
  have hatime : peek M (buf + 25) 4 = pbit 4 d.atime.toNat := hsub 25 4 (by norm_num)
  have hmtime : peek M (buf + 29) 4 = pbit 4 d.mtime.toNat := hsub 29 4 (by norm_num)
  have hlength : peek M (buf + 33) 8 = pbit 8 d.length.toNat := hsub 33 8 (by norm_num)
  have hwiden : ∀ v : UInt64, gbit32dontcare (pbit 4 v.toNat) = widen v := fun v => by
    rw [gbit32dontcare, gbit_pbit, widen]
    rfl
  rw [getfixed, htype, hdev, hqtype, hvers, hpath, hmode, hatime, hmtime, hlength, hwiden, hwiden,
    hwiden, gbit_pbit_of_lt d.type.toNat_lt, gbit_pbit_of_lt d.dev.toNat_lt,
    gbit_pbit_of_lt d.qtype.toNat_lt, gbit_pbit, gbit_pbit_of_lt d.path.toNat_lt,
    gbit_pbit_of_lt d.length.toNat_lt, UInt16.ofNat_toNat, UInt32.ofNat_toNat, UInt8.ofNat_toNat,
    UInt64.ofNat_toNat, UInt64.ofNat_toNat]
  rfl

/-- A version, a mode and times that 32 bits hold, or `~0` of the mode or a time. -/
def Fixed.Fits (d : Fixed) : Prop :=
  d.vers.toNat < 2 ^ 32 ∧ ∀ v ∈ [d.mode, d.atime, d.mtime],
    v.toNat < 0xFFFFFFFF ∨ v.toNat = 2 ^ 64 - 1

theorem widen_eq_iff (v : UInt64) : widen v = v ↔ v.toNat < 0xFFFFFFFF ∨ v.toNat = 2 ^ 64 - 1 := by
  have hlt := v.toNat_lt
  have hmod : v.toNat % 2 ^ 32 < 2 ^ 64 := (Nat.mod_lt _ (by norm_num)).trans (by norm_num)
  rw [← UInt64.toNat_inj, widen]
  split_ifs with h
  · rw [UInt64.toNat_ofNat', Nat.mod_eq_of_lt (by norm_num)]
    omega
  · rw [UInt64.toNat_ofNat', Nat.mod_eq_of_lt hmod]
    omega

theorem narrow_eq_iff (d : Fixed) : d.narrow = d ↔ d.Fits := by
  have hlt := d.vers.toNat_lt
  have hvers : UInt64.ofNat (d.vers.toNat % 2 ^ 32) = d.vers ↔ d.vers.toNat < 2 ^ 32 := by
    have hmod : d.vers.toNat % 2 ^ 32 < 2 ^ 64 :=
      (Nat.mod_lt _ (by norm_num)).trans (by norm_num)
    rw [← UInt64.toNat_inj, UInt64.toNat_ofNat', Nat.mod_eq_of_lt hmod]
    omega
  simp only [Fixed.Fits, List.forall_mem_cons, ← widen_eq_iff, ← hvers]
  constructor
  · intro h
    exact ⟨congrArg Fixed.vers h, congrArg Fixed.mode h, congrArg Fixed.atime h,
      congrArg Fixed.mtime h, by simp⟩
  · rintro ⟨hv, hm, ha, ht, -⟩
    rw [Fixed.narrow, hv, hm, ha, ht]

end Writing

section Packing

variable {M : Mem} {buf k n s : ℕ} {ms : List ℕ} {stat : Devstat}

theorem entry_size {e : List UInt8} (he : Entry e) (hpeek : peek M buf e.length = e) :
    49 ≤ e.length ∧ 2 + gbit (peek M buf 2) = e.length := by
  obtain ⟨c, fixed, sv, hsplit, hlen, hc, hfixed, hsv, -⟩ := he
  have htotal : e.length = 41 + (counted sv).length := by
    rw [hsplit, List.length_append, List.length_append, pbit_length, hfixed]
  have hcounted := counted_length sv
  have htwo : peek M buf 2 = pbit 2 c := by
    have := @peek_sub 2 e.length M buf 0 (by omega)
    rw [Nat.add_zero] at this
    rw [this, hpeek, List.drop_zero, hsplit, List.append_assoc]
    exact List.take_left' (pbit_length 2 _)
  rw [htwo, gbit_pbit_of_lt hc]
  omega

theorem packloop_eq {f : ℕ} (hms : entries f (peek M buf n) = some ms) (hk : n < k)
    (hapart : s + n ≤ buf ∨ buf + n ≤ s) :
    ∃ ds M', packloop k M buf (buf + n) ms.length s = (.ok ds, M') ∧ ds.length = ms.length ∧
      ∀ i, i < s ∨ s + n ≤ i → M' i = M i := by
  induction k generalizing M buf n s ms f with
  | zero => omega
  | succ k ih =>
    rw [packloop]
    obtain rfl | hpos := Nat.eq_zero_or_pos n
    · have hnil : ms = [] := by
        have : peek M buf 0 = [] := rfl
        rw [this] at hms
        cases f <;> exact (Option.some.inj hms).symm
      subst hnil
      exact ⟨[], M, if_pos le_rfl, rfl, fun i _ => rfl⟩
    have hne : peek M buf n ≠ [] := by
      rw [← List.length_pos_iff, peek_length]
      exact hpos
    obtain ⟨b, bs, hbs⟩ := List.exists_cons_of_ne_nil hne
    obtain ⟨f, rfl⟩ : ∃ f', f = f' + 1 := by
      cases f with
      | zero =>
        rw [hbs] at hms
        cases hms
      | succ f => exact ⟨f, rfl⟩
    have hstep : entries (f + 1) (peek M buf n) = (do
        let m ← statcheckbuf (peek M buf n)
        let ms ← entries f ((peek M buf n).drop m)
        return m :: ms) := by
      rw [hbs]
      rfl
    rw [hstep] at hms
    simp only [Option.bind_eq_bind, Option.bind_eq_some_iff, Option.pure_def,
      Option.some.injEq] at hms
    obtain ⟨m, hm, ms', hms', rfl⟩ := hms
    obtain ⟨e, rest, hsplit, he, rfl⟩ := statcheckbuf_iff.1 hm
    obtain ⟨r, hr⟩ : ∃ r, n = e.length + r := ⟨rest.length, by
      rw [← List.length_append, ← hsplit, peek_length]⟩
    rw [hr, peek_add] at hsplit
    obtain ⟨hpeek, hrest⟩ := List.append_inj hsplit (peek_length _ _ _)
    obtain ⟨hlarge, hcount⟩ := entry_size he hpeek
    obtain ⟨addrs, M', hconv⟩ := @convM2D_entry M buf s e hpeek he (by omega)
    have hframe : ∀ i, i < s ∨ s + e.length ≤ i → M' i = M i := fun i hi => by
      have := convM2D_frame M buf e.length s hi
      rwa [hconv] at this
    have hafter : peek M' (buf + e.length) r = peek M (buf + e.length) r :=
      peek_congr fun i hi => hframe _ (by omega)
    have hdrop : (peek M buf n).drop e.length = peek M' (buf + e.length) r := by
      rw [hr, peek_add, List.drop_left' (peek_length _ _ _), hafter]
    rw [hdrop] at hms'
    obtain ⟨ds, M'', hpack, hlen, hframe'⟩ :=
      @ih M' (buf + e.length) r (s + e.length) ms' f hms' (by omega) (by omega)
    refine ⟨(getfixed M buf, addrs) :: ds, M'', ?_, by rw [List.length_cons, hlen]; rfl, ?_⟩
    · have hend : buf + n = buf + e.length + r := by omega
      rw [if_neg (by omega)]
      simp only [hcount, hconv, List.length_cons, Nat.add_one_sub_one, hend, hpack,
        Nat.add_one_ne_zero, if_false, ne_eq, not_true_eq_false]
    · intro i hi
      rw [hframe' i (by omega), hframe i (by omega)]

theorem dirpackage_eq {ts strs : ℕ} (hms : entries ts (peek M buf ts) = some ms)
    (hapart : strs + ts ≤ buf ∨ buf + ts ≤ strs) :
    ∃ ds M', dirpackage M buf ts strs = (.ok ds, M') ∧ ds.length = ms.length ∧
      ∀ i, i < strs ∨ strs + ts ≤ i → M' i = M i := by
  rw [dirpackage, hms]
  exact packloop_eq hms (Nat.lt_succ_self ts) hapart

theorem chandirstat_frame (hstat : ∀ nd l, stat nd = some l → l.length ≤ nd) {nd nd' : ℕ}
    {r : ℕ × Option (Fixed × List ℕ) × Mem} (h : chandirstat stat M buf k nd = some (nd', r)) :
    ∀ i, i < buf ∨ buf + nd' ≤ i → r.2.2 i = M i := by
  induction k generalizing nd with
  | zero => simp [chandirstat] at h
  | succ k ih =>
    rw [chandirstat] at h
    obtain hnone | ⟨l, hl⟩ := Option.eq_none_or_eq_some (stat nd)
    · rw [hnone] at h
      simp at h
    rw [hl] at h
    simp only at h
    split_ifs at h with h2 hfit
    · have hle := hstat nd l hl
      obtain ⟨rfl, rfl⟩ := Prod.mk.inj (Option.some.inj h)
      intro i hi
      rw [convM2D_frame _ _ _ _ (by omega), poke_outside (by omega)]
    · exact ih h

end Packing

section Exact

variable {M : Mem} {buf m n strs : ℕ} {d : Dir}

theorem total_lt (h : total d.sv < 2 ^ 16 - STATFIXLEN) : ∀ s ∈ d.sv, s.length < 2 ^ 16 := by
  intro s hs
  have hle : s.length ≤ total d.sv := List.single_le_sum (by simp) _ (List.mem_map_of_mem hs)
  rw [STATFIXLEN] at h
  omega

theorem convD2M_decodes (h : total d.sv < 2 ^ 16 - STATFIXLEN)
    (hpeek : peek M buf (sizeD2M d) = (convD2M d (sizeD2M d)).2)
    (hstrs : strs ≤ buf ∨ buf + sizeD2M d ≤ strs) :
    ∃ addrs M', convM2D M buf (sizeD2M d) (some strs) =
      (sizeD2M d, some (d.fixed.narrow, addrs), M') ∧
        List.Forall₂ (fun a s => peek M' a (s.length + 1) = s ++ [0]) addrs d.sv := by
  obtain ⟨e, he⟩ : ∃ e, e = (convD2M d (sizeD2M d)).2 := ⟨_, rfl⟩
  have hcode : e = pbit 2 (sizeD2M d - 2) ++ d.fixed.bytes ++ counted d.sv :=
    he.trans (congrArg Prod.snd (convD2M_eq d))
  have hlen : sizeD2M d = e.length := by
    rw [he, ← hpeek, peek_length]
  rw [← he, hlen] at hpeek
  rw [hlen] at hstrs
  obtain ⟨addrs, M', hconv, hall⟩ := convM2D_counted hpeek hcode (bytes_length _) (sv_length d)
    (total_lt h) hstrs
  refine ⟨addrs, M', ?_, hall⟩
  rw [hlen, hconv, getfixed_eq (sizeD2M d - 2) d.fixed]
  have hle : 0 + 41 ≤ e.length := by
    rw [← hlen, sizeD2M, STATFIXLEN]
    omega
  have hsub := @peek_sub 41 e.length M buf 0 hle
  rw [Nat.add_zero] at hsub
  rw [hsub, hpeek, List.drop_zero, hcode]
  refine List.take_left' ?_
  rw [List.length_append, pbit_length, bytes_length]

/-- What is encoded is accepted and decoded to what 32 bits keep of it; what is accepted is an
entry, which is decoded whole and inside of the string area. -/
theorem stat_exact (d : Dir) (M : Mem) (buf strs : ℕ) (bytes : List UInt8) :
    (total d.sv < 2 ^ 16 - STATFIXLEN →
      (convD2M d (sizeD2M d)).1 = sizeD2M d ∧ statcheck (convD2M d (sizeD2M d)).2 = true ∧
      (d.fixed.narrow = d.fixed ↔ d.fixed.Fits) ∧
      (peek M buf (sizeD2M d) = (convD2M d (sizeD2M d)).2 →
        strs ≤ buf ∨ buf + sizeD2M d ≤ strs →
        ∃ addrs M', convM2D M buf (sizeD2M d) (some strs) =
          (sizeD2M d, some (d.fixed.narrow, addrs), M') ∧
            List.Forall₂ (fun a s => peek M' a (s.length + 1) = s ++ [0]) addrs d.sv)) ∧
    (∀ m, statcheckbuf bytes = some m ↔ ∃ e rest, bytes = e ++ rest ∧ Entry e ∧ m = e.length) ∧
    (∀ n m, statcheckbuf (peek M buf n) = some m → strs ≤ buf ∨ buf + m ≤ strs →
      ∃ r M', convM2D M buf m (some strs) = (m, some r, M') ∧
        ∀ i, i < strs ∨ strs + m ≤ i → M' i = M i) ∧
    (∀ ts ms, entries ts (peek M buf ts) = some ms → strs + ts ≤ buf ∨ buf + ts ≤ strs →
      ∃ ds M', dirpackage M buf ts strs = (.ok ds, M') ∧ ds.length = ms.length ∧
        ∀ i, i < strs ∨ strs + ts ≤ i → M' i = M i) ∧
    ∀ stat : Devstat, (∀ nd l, stat nd = some l → l.length ≤ nd) →
      ∀ nd r, chandirstat stat M buf 2 DIRSIZE = some (nd, r) →
        ∀ i, i < buf ∨ buf + nd ≤ i → r.2.2 i = M i := by
  refine ⟨fun h => ⟨by rw [convD2M_eq], (statcheck_iff _).2 (entry_convD2M h), narrow_eq_iff _,
    fun hpeek hstrs => convD2M_decodes h hpeek hstrs⟩, fun m => statcheckbuf_iff,
    fun n m hm hstrs => ?_, fun ts ms hms hapart => dirpackage_eq hms hapart,
    fun stat hstat nd r h => chandirstat_frame hstat h⟩
  obtain ⟨e, rest, hsplit, he, rfl⟩ := statcheckbuf_iff.1 hm
  obtain ⟨k, hk⟩ : ∃ k, n = e.length + k := ⟨rest.length, by
    rw [← List.length_append, ← hsplit, peek_length]⟩
  rw [hk, peek_add] at hsplit
  obtain ⟨hpeek, -⟩ := List.append_inj hsplit (peek_length _ _ _)
  obtain ⟨addrs, M', hconv⟩ := convM2D_entry hpeek he hstrs
  refine ⟨_, M', hconv, fun i hi => ?_⟩
  have := convM2D_frame M buf e.length strs hi
  rwa [hconv] at this

def wide : Dir where
  fixed := ⟨0, 0, 0, 0, 0, UInt64.ofNat (2 ^ 32), 0, 0, 0⟩
  name := none
  uid := none
  gid := none
  muid := none

theorem wide_narrowed : ¬((convM2D (poke (fun _ => 0) 0 (convD2M wide (sizeD2M wide)).2) 0
    (sizeD2M wide) (some 100)).2.1.map Prod.fst = some wide.fixed) := by decide

end Exact

end Infernode.Styx.Stat
