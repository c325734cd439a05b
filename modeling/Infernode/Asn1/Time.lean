import Infernode.Lib.Calendar
import Infernode.Asn1.Encode
import Infernode.Limbo.Token

/-!
# The times of certificates

`decode_time` and `pack_time` of `x509.b`, with the calendar functions under them. A text is
read from the front, and a character that is not there would raise. No int overflows over the
years 0 to 9999.
-/

namespace Infernode.Asn1.Time

open Limbo (Str isdigit digitval bytes bytes_append string string_bytes)
open Dis (int)
open Lib.Calendar

def leap (year : ℤ) : Prop :=
  year.tmod 4 = 0 ∧ (year.tmod 100 ≠ 0 ∨ year.tmod 400 = 0)

instance (year : ℤ) : Decidable (leap year) := inferInstanceAs (Decidable (_ ∧ _))

def monthdays (year mon : ℤ) : ℤ :=
  if mon = 2 then if leap year then 29 else 28
  else if mon = 4 ∨ mon = 6 ∨ mon = 9 ∨ mon = 11 then 30 else 31

def days_from_civil (year mon mday : ℤ) : ℤ :=
  let year := if mon ≤ 2 then year - 1 else year
  let era := (if year < 0 then year - 399 else year).tdiv 400
  let yoe := year - era * 400
  let mp := (mon + 9).tmod 12
  let doy := (153 * mp + 2).tdiv 5 + mday - 1
  let doe := yoe * 365 + yoe.tdiv 4 - yoe.tdiv 100 + doy
  era * 146097 + doe - 719468

def civil_from_days (z : ℤ) : ℤ × ℤ × ℤ :=
  let z := z + 719468
  let era := (if z < 0 then z - 146096 else z).tdiv 146097
  let doe := z - era * 146097
  let yoe := (doe - doe.tdiv 1460 + doe.tdiv 36524 - doe.tdiv 146096).tdiv 365
  let y := yoe + era * 400
  let doy := doe - (365 * yoe + yoe.tdiv 4 - yoe.tdiv 100)
  let mp := (5 * doy + 2).tdiv 153
  let d := doy - (153 * mp + 2).tdiv 5 + 1
  let m := if mp + 3 > 12 then mp + 3 - 12 else mp + 3
  (if m ≤ 2 then y + 1 else y, m, d)

/-- The days from 1970-01-01 to a date. -/
def epoch (d : Date) : ℤ :=
  d.number - Date.number ⟨1970, 1, 1, Nat.one_pos, by norm_num, Nat.one_pos, monthdays_pos 1970 1⟩

theorem epoch_eq (d : Date) : epoch d = d.number - 719528 := by
  have hbefore : (before 1970 : ℤ) = 719528 := by
    rw [before_eq]
    norm_num
  have hnumber : ∀ h1 h2 h3 h4, Date.number ⟨1970, 1, 1, h1, h2, h3, h4⟩ = before 1970 := by
    intros
    rw [Date.number, monthsbefore, Finset.Ico_self, Finset.sum_empty, Nat.sub_self]
    rw [add_zero, add_zero]
  rw [epoch, hnumber, hbefore]

theorem monthdays_eq (y m : ℕ) : monthdays y m = Lib.Calendar.monthdays y m := by
  have hleap : leap y ↔ Leap y := by
    rw [leap, Leap, Int.tmod_eq_emod_of_nonneg (by omega), Int.tmod_eq_emod_of_nonneg (by omega),
      Int.tmod_eq_emod_of_nonneg (by omega)]
    omega
  rw [monthdays, Lib.Calendar.monthdays]
  simp only [hleap]
  norm_cast

theorem tdiv_floor (x : ℤ) {n : ℤ} (hn : 0 < n) :
    (if x < 0 then x - (n - 1) else x).tdiv n = x / n := by
  split_ifs with hx
  · have hneg : x - (n - 1) = -(-x + (n - 1)) := by ring
    rw [hneg, Int.neg_tdiv, Int.tdiv_eq_ediv_of_nonneg (by omega)]
    have h1 := Int.emod_add_mul_ediv x n
    have h2 := Int.emod_add_mul_ediv (-x + (n - 1)) n
    have h3 := Int.emod_nonneg x hn.ne'
    have h4 := Int.emod_lt_of_pos x hn
    have h5 := Int.emod_nonneg (-x + (n - 1)) hn.ne'
    have h6 := Int.emod_lt_of_pos (-x + (n - 1)) hn
    nlinarith
  · exact Int.tdiv_eq_ediv_of_nonneg (not_lt.1 hx)

/-- The day of the years that begin in March. -/
def marchday (year doy : ℤ) : ℤ := 365 * year + year / 4 - year / 100 + year / 400 + doy

theorem marchday_era (year doy : ℤ) : marchday year doy =
    year / 400 * 146097 + ((year - year / 400 * 400) * 365 + (year - year / 400 * 400) / 4 -
      (year - year / 400 * 400) / 100 + doy) := by
  have h4 : year / 4 = 100 * (year / 400) + (year - year / 400 * 400) / 4 := by omega
  have h100 : year / 100 = 4 * (year / 400) + (year - year / 400 * 400) / 100 := by omega
  rw [marchday, h4, h100]
  generalize (year - year / 400 * 400) / 4 = a
  generalize (year - year / 400 * 400) / 100 = b
  omega

theorem marchday_add (year doy : ℤ) : marchday year doy = marchday year 0 + doy := by
  rw [marchday, marchday, add_zero]

theorem before_march (y : ℕ) : (before y : ℤ) = 366 + marchday (y - 1) 0 ∧
    (before y : ℤ) + yeardays y = 366 + marchday y 0 := by
  have hnext := before_eq (y + 1)
  rw [before_succ] at hnext
  push_cast at hnext
  rw [add_sub_cancel_right] at hnext
  rw [before_eq y] at hnext ⊢
  refine ⟨?_, hnext.trans ?_⟩
  · rw [marchday]
    ring
  · rw [marchday]
    ring

/-- The year and the month, where the year begins in March. -/
def marchyear (year mon : ℤ) : ℤ := if mon ≤ 2 then year - 1 else year

def marchmonth (mon : ℤ) : ℤ := (mon + 9) % 12

theorem days_from_civil_march (year mon mday : ℤ) (hm : 1 ≤ mon) : days_from_civil year mon mday =
    marchday (marchyear year mon) ((153 * marchmonth mon + 2) / 5 + mday - 1) - 719468 := by
  have hera := tdiv_floor (marchyear year mon) (n := 400) (by norm_num)
  have hpos : 0 ≤ marchyear year mon - marchyear year mon / 400 * 400 := by omega
  have hmp : 0 ≤ 153 * marchmonth mon + 2 := by
    rw [marchmonth]
    omega
  norm_num at hera
  rw [marchday_era, ← hera, ← Int.tdiv_eq_ediv_of_nonneg hmp]
  rw [← hera] at hpos
  rw [← Int.tdiv_eq_ediv_of_nonneg hpos, ← Int.tdiv_eq_ediv_of_nonneg hpos, marchmonth,
    ← Int.tmod_eq_emod_of_nonneg (by omega)]
  rfl

theorem months_march {m : ℕ} (y : ℕ) (hm : 1 ≤ m) (hm' : m ≤ 12) : (monthsbefore y m : ℤ) + 306 =
    (153 * marchmonth m + 2) / 5 + if m ≤ 2 then 0 else yeardays y := by
  rw [monthsbefore_eq y hm (by omega), yeardays]
  by_cases hleap : Leap y
  · simp only [if_pos hleap]
    interval_cases m <;> rfl
  · simp only [if_neg hleap]
    interval_cases m <;> rfl

theorem epoch_march (d : Date) : epoch d = marchday (marchyear d.year d.month)
    ((153 * marchmonth d.month + 2) / 5 + d.day - 1) - 719468 := by
  obtain ⟨y, m, day, hm, hm', hday, hday'⟩ := d
  obtain ⟨hbefore, hnext⟩ := before_march y
  have hmonths := months_march y hm hm'
  have hnumber : ((before y + monthsbefore y m + (day - 1) : ℕ) : ℤ) =
      before y + monthsbefore y m + day - 1 := by omega
  simp only [epoch_eq, Date.number, hnumber]
  rw [marchday_add, marchyear]
  split_ifs at hmonths ⊢ with h h' h'
  · omega
  · omega
  · omega
  · omega

theorem days_from_civil_eq (d : Date) : days_from_civil d.year d.month d.day = epoch d := by
  have hm := d.month_pos
  rw [days_from_civil_march _ _ _ (by omega), epoch_march]

theorem yoe_eq {yoe doy : ℤ} (h : 0 ≤ yoe) (h' : yoe < 400) (hd : 0 ≤ doy) (hd' : doy ≤ 365)
    (hleap : doy = 365 → (yoe + 1) % 4 = 0 ∧ ((yoe + 1) % 100 ≠ 0 ∨ (yoe + 1) % 400 = 0))
    {doe : ℤ} (hdoe : doe = yoe * 365 + yoe / 4 - yoe / 100 + doy) :
    (doe - doe / 1460 + doe / 36524 - doe / 146096) / 365 = yoe ∧ 0 ≤ doe ∧ doe < 146097 := by
  obtain ⟨c, q, r, rfl, hc, hq, hr⟩ : ∃ c q r : ℤ, yoe = 100 * c + 4 * q + r ∧
      (0 ≤ c ∧ c ≤ 3) ∧ (0 ≤ q ∧ q ≤ 24) ∧ 0 ≤ r ∧ r ≤ 3 :=
    ⟨yoe / 100, yoe % 100 / 4, yoe % 4, by omega, by omega, by omega, by omega⟩
  have hquarter : (100 * c + 4 * q + r) / 4 = 25 * c + q := by omega
  have hcentury : (100 * c + 4 * q + r) / 100 = c := by omega
  have hlast : doy = 365 → r = 3 ∧ (q ≠ 24 ∨ c = 3) := by
    intro hdoy
    obtain ⟨h4, h100⟩ := hleap hdoy
    omega
  clear hleap
  rw [hquarter, hcentury] at hdoe
  have hf : doe / 1460 = 25 * c + q + if 1460 ≤ 24 * c + q + 365 * r + doy then 1 else 0 := by
    split_ifs <;> omega
  have hg : doe / 36524 = c + if 36524 ≤ 1461 * q + 365 * r + doy then 1 else 0 := by
    split_ifs <;> omega
  have hi : doe / 146096 = if 146096 ≤ doe then 1 else 0 := by
    split_ifs <;> omega
  rw [hf, hg, hi]
  clear hf hg hi hquarter hcentury
  refine ⟨?_, by omega, by omega⟩
  rw [Int.ediv_eq_iff_of_pos (by norm_num)]
  split_ifs <;> omega

/-- The day of a date in the year that begins in March. -/
def doyof (d : Date) : ℤ := (153 * marchmonth d.month + 2) / 5 + d.day - 1

theorem doyof_spec (d : Date) : 0 ≤ doyof d ∧ doyof d ≤ 365 ∧
    (doyof d = 365 → d.month ≤ 2 ∧ Leap d.year) ∧
    (5 * doyof d + 2) / 153 = marchmonth d.month := by
  obtain ⟨y, m, day, hm, hm', hday, hday'⟩ := d
  simp only [doyof, marchmonth]
  rw [Lib.Calendar.monthdays] at hday'
  by_cases hleap : Leap y
  · simp only [if_pos hleap] at hday'
    interval_cases m <;> norm_num [hleap] at hday' ⊢ <;> omega
  · simp only [if_neg hleap] at hday'
    interval_cases m <;> norm_num [hleap] at hday' ⊢ <;> omega

theorem civil_from_days_eq (d : Date) : civil_from_days (epoch d) =
    ((d.year : ℤ), (d.month : ℤ), (d.day : ℤ)) := by
  obtain ⟨hdoy, hdoy', hlast, hmonth⟩ := doyof_spec d
  have hm := d.month_pos
  have hm' := d.month_le
  set year := marchyear d.year d.month with hyear
  have hleap : doyof d = 365 → (year - year / 400 * 400 + 1) % 4 = 0 ∧
      ((year - year / 400 * 400 + 1) % 100 ≠ 0 ∨ (year - year / 400 * 400 + 1) % 400 = 0) := by
    intro h
    obtain ⟨hfeb, h4, h100⟩ := hlast h
    rw [marchyear, if_pos (by omega)] at hyear
    have hmod : (year - year / 400 * 400 + 1) % 400 = d.year % 400 := by omega
    omega
  obtain ⟨hyoe, hpos, hlt⟩ := yoe_eq (show 0 ≤ year - year / 400 * 400 by omega) (by omega)
    hdoy hdoy' hleap rfl
  generalize hyoedef : year - year / 400 * 400 = yoe at hyoe hpos hlt
  generalize hdoe : yoe * 365 + yoe / 4 - yoe / 100 + doyof d = doe at hyoe hpos hlt
  have hz : epoch d + 719468 = year / 400 * 146097 + doe := by
    rw [epoch_march, ← hyear, ← doyof, marchday_era, hyoedef, hdoe]
    ring
  have hera := tdiv_floor (epoch d + 719468) (n := 146097) (by norm_num)
  norm_num at hera
  have hdiv : (epoch d + 719468) / 146097 = year / 400 := by omega
  have hrest : epoch d + 719468 - year / 400 * 146097 = doe := by omega
  have hyoe0 : 0 ≤ yoe := by omega
  have hnum : 0 ≤ doe - doe / 1460 + doe / 36524 - doe / 146096 := by omega
  have hdoyeq : doe - (365 * yoe + yoe / 4 - yoe / 100) = doyof d := by omega
  simp only [civil_from_days, hera, hdiv, hrest]
  rw [Int.tdiv_eq_ediv_of_nonneg hpos, Int.tdiv_eq_ediv_of_nonneg hpos,
    Int.tdiv_eq_ediv_of_nonneg hpos, Int.tdiv_eq_ediv_of_nonneg hnum, hyoe,
    Int.tdiv_eq_ediv_of_nonneg hyoe0, Int.tdiv_eq_ediv_of_nonneg hyoe0, hdoyeq,
    Int.tdiv_eq_ediv_of_nonneg (by omega : 0 ≤ 5 * doyof d + 2), hmonth]
  have hmp : 0 ≤ 153 * marchmonth d.month + 2 := by
    rw [marchmonth]
    omega
  have hmon : (if marchmonth d.month + 3 > 12 then marchmonth d.month + 3 - 12
      else marchmonth d.month + 3) = d.month := by
    rw [marchmonth]
    split_ifs <;> omega
  have hwhole : yoe + year / 400 * 400 = year := by omega
  rw [hmon, hwhole, Int.tdiv_eq_ediv_of_nonneg hmp, doyof]
  refine Prod.ext ?_ (Prod.ext rfl ?_)
  · change (if (d.month : ℤ) ≤ 2 then year + 1 else year) = d.year
    rw [hyear, marchyear]
    split_ifs <;> omega
  · change (153 * marchmonth d.month + 2) / 5 + (d.day : ℤ) - 1 -
      (153 * marchmonth d.month + 2) / 5 + 1 = d.day
    ring

theorem exists_epoch {n : ℕ} {z : ℤ} (h : -719528 ≤ z) (h' : z < before n - 719528) :
    ∃ d : Date, d.year < n ∧ epoch d = z := by
  obtain ⟨d, hd, hnumber⟩ := exists_date (y := n) (n := (z + 719528).toNat) (by omega)
  refine ⟨d, hd, ?_⟩
  rw [epoch_eq, hnumber]
  omega

/-- What would raise is none. -/
def get2 : Str → Option ℤ
  | a0 :: a1 :: _ =>
    some (if isdigit a0 ∧ isdigit a1 then digitval a0 * 10 + digitval a1 else -1)
  | _ => none

def isdigits (s : Str) (n : ℕ) : Bool := n ≤ s.length && (s.take n).all isdigit

def zoned (sign zh zm : ℤ) (s : Str) : Option ℤ :=
  if s ≠ [] ∨ zh > 23 ∨ zm > 59 then none else some (sign * (zh * 60 + zm) * 60)

/-- The offset of the zone: a syntax error is an inner none. -/
def zone (utc : Bool) : Str → Option (Option ℤ)
  | [] => some (if utc then none else some 0)
  | c :: s =>
    if c = 'Z' then some (if s = [] then some 0 else none)
    else if c = '+' ∨ c = '-' then
      let sign := if c = '-' then -1 else 1
      if isdigits s 2 = false then some none
      else do
        let zh ← get2 s
        let s := s.drop 2
        if s ≠ [] ∨ utc then
          if isdigits s 2 = false then some none
          else
            let zm ← get2 s
            return zoned sign zh zm (s.drop 2)
        else return zoned sign zh 0 s
    else some none

def fraction (utc : Bool) : Str → Option Str
  | c :: s =>
    if utc = false ∧ (c = '.' ∨ c = ',') then
      if isdigits s 1 = false then none else some (s.dropWhile isdigit)
    else some (c :: s)
  | [] => some []

/-- The minutes and the seconds, and what follows. -/
def clock (utc : Bool) (s : Str) : Option (Option (ℤ × ℤ × Str)) :=
  if utc ∨ isdigits s 2 then do
    let min ← get2 s
    if min < 0 ∨ min > 59 then some none
    else
      let s := s.drop 2
      if isdigits s 2 then
        let sec ← get2 s
        if sec < 0 ∨ sec > 60 then some none
        else return (fraction utc (s.drop 2)).map fun s => (min, sec, s)
      else return some (min, 0, s)
  else some (some (0, 0, s))

def decodefrom (utc : Bool) (year : ℤ) (s : Str) : Option (Option ℤ) := do
  let mon ← get2 s
  if mon < 1 ∨ mon > 12 then return none
  let mday ← get2 (s.drop 2)
  if mday < 1 ∨ mday > monthdays year mon then return none
  let hour ← get2 (s.drop 4)
  if hour < 0 ∨ hour > 23 then return none
  let some (min, sec, s) ← clock utc (s.drop 6) | return none
  let some tzoff ← zone utc s | return none
  return some (days_from_civil year mon mday * 86400 + (hour * 3600 + min * 60 + sec) - tzoff)

/-- A syntax error is an inner none; the format is UTCTime or GeneralizedTime. -/
def decode_time (date : Str) (utc : Bool) : Option (Option ℤ) :=
  if utc then
    if date.length < 11 then some none
    else do
      let year ← get2 date
      if year < 0 then return none
      decodefrom utc (if year < 50 then year + 2000 else year + 1900) (date.drop 2)
  else if date.length < 10 then some none
  else do
    let c ← get2 date
    let y ← get2 (date.drop 2)
    if c < 0 ∨ y < 0 then return none
    decodefrom utc (c * 100 + y) (date.drop 4)

def put2 (n : ℤ) : List UInt8 := [byte (n.tdiv 10 + 48), byte (n.tmod 10 + 48)]

structure Tm where
  year : ℤ
  mon : ℤ
  mday : ℤ
  hour : ℤ
  min : ℤ
  sec : ℤ

def bgmt (t : ℤ) : Tm :=
  let days := t.tdiv 86400
  let secs := int (t - days * 86400)
  let (secs, days) := if secs < 0 then (secs + 86400, days - 1) else (secs, days)
  let (y, m, d) := civil_from_days (int days)
  ⟨y - 1900, m - 1, d, secs.tdiv 3600, (secs.tdiv 60).tmod 60, secs.tmod 60⟩

def packfrom (date : List UInt8) (tm : Tm) : Str :=
  string (date ++ put2 (tm.mon + 1) ++ put2 tm.mday ++ put2 tm.hour ++ put2 tm.min ++
    put2 tm.sec ++ [byte 'Z'.toNat])

def pack_time (t : ℤ) (utc : Bool) : Option Str :=
  let tm := bgmt t
  let year := tm.year + 1900
  if utc then
    if year < 1950 ∨ year > 2049 then none else some (packfrom (put2 (year.tmod 100)) tm)
  else if year < 0 ∨ year > 9999 then none
  else some (packfrom (put2 (year.tdiv 100) ++ put2 (year.tmod 100)) tm)

/-- A number of two digits. -/
def two (n : ℕ) : Str := [Nat.digitChar (n / 10), Nat.digitChar (n % 10)]

inductive Year : Bool → Str → ℕ → Prop
  | utc {y} (h : 1950 ≤ y) (h' : y ≤ 2049) : Year true (two (y % 100)) y
  | generalized {y} (h : y ≤ 9999) : Year false (two (y / 100) ++ two (y % 100)) y

inductive Clock : Bool → Str → ℕ → ℕ → Prop
  | hours : Clock false [] 0 0
  | minutes {utc min} (h : min ≤ 59) : Clock utc (two min) min 0
  | seconds {utc min sec} (h : min ≤ 59) (h' : sec ≤ 60) : Clock utc (two min ++ two sec) min sec
  | fractional {min sec c f} (h : min ≤ 59) (h' : sec ≤ 60) (hc : c = '.' ∨ c = ',') (hf : f ≠ [])
      (hdigits : f.all isdigit = true) : Clock false (two min ++ (two sec ++ c :: f)) min sec

inductive Sign : Char → ℤ → Prop
  | plus : Sign '+' 1
  | minus : Sign '-' (-1)

inductive Zone : Bool → Str → ℤ → Prop
  | none : Zone false [] 0
  | gmt {utc} : Zone utc ['Z'] 0
  | hours {c sign zh} (hc : Sign c sign) (h : zh ≤ 23) :
      Zone false (c :: two zh) (sign * (zh : ℕ) * 3600)
  | minutes {utc c sign zh zm} (hc : Sign c sign) (h : zh ≤ 23) (h' : zm ≤ 59) :
      Zone utc (c :: (two zh ++ two zm)) (sign * ((zh : ℕ) * 60 + (zm : ℕ)) * 60)

def Follows (utc : Bool) (y : ℕ) (s : Str) (t : ℤ) : Prop :=
  ∃ (d : Date) (hour min sec : ℕ) (c z : Str) (off : ℤ), d.year = y ∧ hour ≤ 23 ∧
    Clock utc c min sec ∧ Zone utc z off ∧
    s = two d.month ++ (two d.day ++ (two hour ++ (c ++ z))) ∧
    t = epoch d * 86400 + (hour * 3600 + min * 60 + sec) - off

def Denotes (utc : Bool) (s : Str) (t : ℤ) : Prop :=
  ∃ (w : Str) (y : ℕ) (r : Str), Year utc w y ∧ s = w ++ r ∧ Follows utc y r t

def Representable (utc : Bool) (t : ℤ) : Prop :=
  ∃ (w : Str) (d : Date) (hour min sec : ℕ), Year utc w d.year ∧ hour ≤ 23 ∧ min ≤ 59 ∧
    sec ≤ 59 ∧ t = epoch d * 86400 + (hour * 3600 + min * 60 + sec)

variable {utc : Bool} {s w z : Str} {n y min sec : ℕ} {off t : ℤ}

theorem two_digits (hn : n < 100) : isdigit (Nat.digitChar (n / 10)) = true ∧
    isdigit (Nat.digitChar (n % 10)) = true ∧
    digitval (Nat.digitChar (n / 10)) * 10 + digitval (Nat.digitChar (n % 10)) = n := by
  obtain ⟨h1, h2⟩ := Limbo.digitChar_digit (d := n / 10) (by omega)
  obtain ⟨h3, h4⟩ := Limbo.digitChar_digit (d := n % 10) (by omega)
  exact ⟨h1, h3, by omega⟩

theorem get2_two (hn : n < 100) (z : Str) : get2 (two n ++ z) = some (n : ℤ) := by
  obtain ⟨h1, h2, h3⟩ := two_digits hn
  simp only [two, List.cons_append, List.nil_append, get2, h1, h2]
  simp only [and_self, if_true, Option.some.injEq]
  exact_mod_cast h3

theorem isdigits_two (hn : n < 100) (z : Str) : isdigits (two n ++ z) 2 = true := by
  obtain ⟨h1, h2, h3⟩ := two_digits hn
  simp [isdigits, two, h1, h2]

theorem digit_eq {c : Char} (h : isdigit c = true) :
    digitval c < 10 ∧ Nat.digitChar (digitval c) = c := by
  have hc : Char.ofNat c.toNat = c := Char.ofNat_toNat c
  obtain ⟨h0, h9⟩ : 48 ≤ c.toNat ∧ c.toNat ≤ 57 := by
    simpa [isdigit, Char.le_def, UInt32.le_iff_toNat_le] using h
  rw [← hc]
  generalize c.toNat = k at h0 h9
  interval_cases k <;> decide

theorem get2_cases (h : 2 ≤ s.length) : (∃ n < 100, ∃ z, s = two n ++ z) ∨
    get2 s = some (-1) ∧ isdigits s 2 = false := by
  match s, h with
  | a0 :: a1 :: z, _ =>
    by_cases hdigits : isdigit a0 = true ∧ isdigit a1 = true
    · obtain ⟨h0, h0'⟩ := digit_eq hdigits.1
      obtain ⟨h1, h1'⟩ := digit_eq hdigits.2
      refine .inl ⟨digitval a0 * 10 + digitval a1, by omega, z, ?_⟩
      have hdiv : (digitval a0 * 10 + digitval a1) / 10 = digitval a0 := by omega
      have hmod : (digitval a0 * 10 + digitval a1) % 10 = digitval a1 := by omega
      rw [two, hdiv, hmod, h0', h1']
      rfl
    · refine .inr ⟨by rw [get2, if_neg hdigits], ?_⟩
      simpa [isdigits] using hdigits

theorem isdigits_iff : isdigits s 2 = true ↔ ∃ n < 100, ∃ z, s = two n ++ z := by
  constructor
  · intro h
    have hlen : 2 ≤ s.length := by
      rw [isdigits, Bool.and_eq_true, decide_eq_true_eq] at h
      exact h.1
    exact (get2_cases hlen).resolve_right fun hnot => by simp [hnot.2] at h
  · rintro ⟨n, hn, z, rfl⟩
    exact isdigits_two hn z

theorem drop_two (n : ℕ) (z : Str) : (two n ++ z).drop 2 = z := List.drop_left' rfl

theorem zoned_eq {sign zh zm : ℤ} {s : Str} : zoned sign zh zm s = some off ↔
    s = [] ∧ zh ≤ 23 ∧ zm ≤ 59 ∧ off = sign * (zh * 60 + zm) * 60 := by
  rw [zoned]
  split_ifs with h
  · refine ⟨nofun, ?_⟩
    rintro ⟨rfl, hzh, hzm, -⟩
    simp at h
    omega
  · simp only [not_or, not_not, not_lt] at h
    simp only [h, true_and, Option.some.injEq]
    exact eq_comm

theorem Zone.run (h : Zone utc s off) : zone utc s = some (some off) := by
  cases h with
  | none | gmt => rfl
  | @hours c sign zh hc h =>
    have hz := isdigits_two (n := zh) (by omega) []
    have hg := get2_two (n := zh) (by omega) []
    rw [List.append_nil] at hz hg
    have hd : (two zh).drop 2 = [] := rfl
    have hzoned : ∀ sign : ℤ, zoned sign zh 0 [] = some (sign * zh * 3600) := fun sign =>
      zoned_eq.2 ⟨rfl, by omega, by norm_num, by ring⟩
    cases hc <;> simp [zone, hz, hg, hd, hzoned]
  | @minutes utc c sign zh zm hc h h' =>
    have hz := isdigits_two (n := zh) (by omega) (two zm)
    have hg := get2_two (n := zh) (by omega) (two zm)
    have hz' := isdigits_two (n := zm) (by omega) []
    have hg' := get2_two (n := zm) (by omega) []
    rw [List.append_nil] at hz' hg'
    have hd : (two zm).drop 2 = [] := rfl
    have hne : two zm ≠ [] := nofun
    have hzoned : ∀ sign : ℤ, zoned sign zh zm [] = some (sign * (zh * 60 + zm) * 60) := fun sign =>
      zoned_eq.2 ⟨rfl, by omega, by omega, rfl⟩
    cases hc <;> simp [zone, hz, hg, hz', hg', drop_two, hd, hne, hzoned]

theorem zone_spec (utc : Bool) (s : Str) : zone utc s ≠ none ∧
    ∀ off, zone utc s = some (some off) → Zone utc s off := by
  cases s with
  | nil =>
    cases utc with
    | true => exact ⟨nofun, nofun⟩
    | false =>
      refine ⟨nofun, fun off h => ?_⟩
      obtain rfl : 0 = off := by simpa [zone] using h
      exact .none
  | cons c s =>
    have hsgn : c = '+' ∨ c = '-' → Sign c (if c = '-' then -1 else 1) := by
      rintro (rfl | rfl)
      · exact .plus
      · exact .minus
    rw [zone]
    generalize (if c = '-' then (-1 : ℤ) else 1) = sign at hsgn ⊢
    split_ifs with hZ hs hsign hdigits
    · subst hZ hs
      refine ⟨nofun, fun off h => ?_⟩
      obtain rfl : 0 = off := by simpa using h
      exact .gmt
    · exact ⟨nofun, nofun⟩
    · exact ⟨nofun, nofun⟩
    · obtain ⟨zh, hzh, r, rfl⟩ := isdigits_iff.1 (by simpa using hdigits)
      simp only [get2_two hzh, drop_two, Option.bind_eq_bind, Option.bind_some]
      by_cases hmore : r ≠ [] ∨ utc = true
      · rw [if_pos hmore]
        by_cases hdigits' : isdigits r 2 = false
        · rw [if_pos hdigits']
          exact ⟨nofun, nofun⟩
        · obtain ⟨zm, hzm, r', rfl⟩ := isdigits_iff.1 (by simpa using hdigits')
          simp only [if_neg hdigits', get2_two hzm, drop_two, Option.bind_some, Option.pure_def]
          refine ⟨nofun, fun off h => ?_⟩
          obtain ⟨rfl, hzh', hzm', rfl⟩ := zoned_eq.1 (Option.some.inj h)
          rw [List.append_nil]
          exact .minutes (hsgn hsign) (by omega) (by omega)
      · rw [if_neg hmore, Option.pure_def]
        simp only [not_or, not_not, Bool.not_eq_true] at hmore
        obtain ⟨rfl, rfl⟩ := hmore
        refine ⟨nofun, fun off h => ?_⟩
        obtain ⟨-, hzh', -, rfl⟩ := zoned_eq.1 (Option.some.inj h)
        rw [List.append_nil]
        have hoff : sign * ((zh : ℤ) * 60 + 0) * 60 = sign * zh * 3600 := by ring
        rw [hoff]
        exact .hours (hsgn hsign) (by omega)
    · exact ⟨nofun, nofun⟩

theorem Zone.head (h : Zone utc z off) :
    ∀ c ∈ z.head?, isdigit c = false ∧ c ≠ '.' ∧ c ≠ ',' := by
  have hsign : ∀ {c sign}, Sign c sign → isdigit c = false ∧ c ≠ '.' ∧ c ≠ ',' := by
    intro c sign hc
    cases hc <;> decide
  cases h with
  | none => exact nofun
  | gmt =>
    rintro c ⟨⟩
    decide
  | hours hc | minutes hc =>
    rintro c ⟨⟩
    exact hsign hc

theorem isdigits_head (hz : ∀ c ∈ z.head?, isdigit c = false) (n : ℕ) :
    isdigits z (n + 1) = false := by
  cases z with
  | nil => rfl
  | cons c z => simp [isdigits, hz c rfl]

theorem fraction_spec {r : Str} (h : fraction utc s = some r) :
    s = r ∨ utc = false ∧ ∃ c f, (c = '.' ∨ c = ',') ∧ f ≠ [] ∧ f.all isdigit = true ∧
      s = c :: (f ++ r) := by
  cases s with
  | nil => exact .inl (by simpa [fraction] using h)
  | cons c s =>
    rw [fraction] at h
    split_ifs at h with hc hdigit
    · refine .inr ⟨hc.1, c, s.takeWhile isdigit, hc.2, ?_, ?_, ?_⟩
      · cases s with
        | nil => simp [isdigits] at hdigit
        | cons d s =>
          have hd : isdigit d = true := by simpa [isdigits] using hdigit
          simp [hd]
      · exact List.all_eq_true.2 fun _ => List.mem_takeWhile_imp
      · rw [← Option.some.inj h, List.takeWhile_append_dropWhile]
    · exact .inl (Option.some.inj h)

theorem Clock.run {c : Str} (h : Clock utc c min sec) (hz : Zone utc z off) :
    clock utc (c ++ z) = some (some ((min : ℤ), (sec : ℤ), z)) := by
  have hend := isdigits_head (fun c hc => (hz.head c hc).1) 1
  cases h with
  | hours => simp [clock, hend]
  | minutes h =>
    simp only [clock, isdigits_two (show min < 100 by omega), get2_two (show min < 100 by omega),
      drop_two, hend]
    simp [h]
  | seconds h h' =>
    have hfrac : fraction utc z = some z := by
      cases z with
      | nil => rfl
      | cons c z => rw [fraction, if_neg (by simp [hz.head c rfl])]
    simp only [List.append_assoc, clock, isdigits_two (show min < 100 by omega),
      get2_two (show min < 100 by omega), drop_two, isdigits_two (show sec < 100 by omega),
      get2_two (show sec < 100 by omega)]
    simp [h.not_gt, h'.not_gt, (Int.natCast_nonneg _).not_gt, hfrac]
  | @fractional _ _ c f h h' hc hf hdigits =>
    have hfrac : fraction false (c :: (f ++ z)) = some z := by
      have hone : isdigits (f ++ z) 1 = true := by
        cases f with
        | nil => exact absurd rfl hf
        | cons d f => simpa [isdigits] using (List.all_eq_true.1 hdigits d (by simp))
      have hdrop : z.dropWhile isdigit = z := by
        cases z with
        | nil => rfl
        | cons c z => simp [(hz.head c rfl).1]
      rw [fraction, if_pos ⟨rfl, hc⟩, if_neg (by simp [hone]),
        List.dropWhile_append_of_pos (List.all_eq_true.1 hdigits), hdrop]
    simp only [List.append_assoc, List.cons_append, clock,
      isdigits_two (show min < 100 by omega), get2_two (show min < 100 by omega), drop_two,
      isdigits_two (show sec < 100 by omega), get2_two (show sec < 100 by omega)]
    simp [h.not_gt, h'.not_gt, (Int.natCast_nonneg _).not_gt, hfrac]

theorem clock_spec (hs : utc = true → 2 ≤ s.length) : clock utc s ≠ none ∧
    ∀ {m c r}, clock utc s = some (some (m, c, r)) →
      ∃ (w : Str) (min sec : ℕ), s = w ++ r ∧ Clock utc w min sec ∧ m = min ∧ c = sec := by
  by_cases hmin : utc = true ∨ isdigits s 2 = true
  · have hlen : 2 ≤ s.length := by
      rcases hmin with h | h
      · exact hs h
      · rw [isdigits, Bool.and_eq_true, decide_eq_true_eq] at h
        exact h.1
    rw [clock, if_pos hmin]
    rcases get2_cases hlen with ⟨min, hlt, z, rfl⟩ | ⟨hget, -⟩
    · simp only [get2_two hlt, drop_two, Option.bind_eq_bind, Option.bind_some]
      split_ifs with hbad hsec
      · exact ⟨nofun, nofun⟩
      · obtain ⟨sec, hlt', r', rfl⟩ := isdigits_iff.1 hsec
        simp only [get2_two hlt', drop_two, Option.bind_some]
        split_ifs with hbad'
        · exact ⟨nofun, nofun⟩
        · refine ⟨nofun, fun {m c r} h => ?_⟩
          obtain ⟨r'', hr, heq⟩ := Option.map_eq_some_iff.1 (Option.some.inj h)
          obtain ⟨rfl, rfl, rfl⟩ : (min : ℤ) = m ∧ (sec : ℤ) = c ∧ r'' = r := by simpa using heq
          rcases fraction_spec hr with rfl | ⟨rfl, d, f, hd, hf, hdigits, rfl⟩
          · exact ⟨two min ++ two sec, min, sec, by rw [List.append_assoc],
              .seconds (by omega) (by omega), rfl, rfl⟩
          · exact ⟨two min ++ (two sec ++ d :: f), min, sec, by simp,
              .fractional (by omega) (by omega) hd hf hdigits, rfl, rfl⟩
      · refine ⟨nofun, fun {m c r} h => ?_⟩
        obtain ⟨rfl, rfl, rfl⟩ : (min : ℤ) = m ∧ 0 = c ∧ z = r := by simpa using h
        exact ⟨two min, min, 0, rfl, .minutes (by omega), rfl, rfl⟩
    · rw [hget]
      exact ⟨nofun, nofun⟩
  · rw [clock, if_neg hmin]
    refine ⟨nofun, fun {m c r} h => ?_⟩
    obtain ⟨rfl, rfl, rfl⟩ : 0 = m ∧ 0 = c ∧ s = r := by simpa using h
    obtain rfl : utc = false := by simpa using fun h => hmin (.inl h)
    exact ⟨[], 0, 0, rfl, .hours, rfl, rfl⟩

theorem monthdays_le (y m : ℕ) : Lib.Calendar.monthdays y m ≤ 31 := by
  rw [Lib.Calendar.monthdays]
  split_ifs <;> omega

theorem Follows.run (h : Follows utc y s t) : decodefrom utc y s = some (some t) := by
  obtain ⟨d, hour, min, sec, c, z, off, rfl, hhour, hc, hz, rfl, ht⟩ := h
  rw [ht]
  have hm := d.month_pos
  have hm' := d.month_le
  have hd := d.day_pos
  have hd' := d.day_le
  have h31 := monthdays_le d.year d.month
  have hmon : ¬((d.month : ℤ) < 1 ∨ (d.month : ℤ) > 12) := by omega
  have hday : ¬((d.day : ℤ) < 1 ∨ (d.day : ℤ) > monthdays d.year d.month) := by
    rw [monthdays_eq]
    omega
  have hhr : ¬((hour : ℤ) < 0 ∨ (hour : ℤ) > 23) := by omega
  have hdrop : ∀ (n : ℕ) (z : Str) (k : ℕ), (two n ++ z).drop (k + 2) = z.drop k :=
    fun _ _ _ => rfl
  simp only [decodefrom, get2_two (show d.month < 100 by omega), drop_two,
    get2_two (show d.day < 100 by omega), hdrop _ _ 2, hdrop _ _ 4,
    get2_two (show hour < 100 by omega), hc.run hz, hz.run, Option.bind_eq_bind, Option.bind_some,
    if_neg hmon, if_neg hday, if_neg hhr, days_from_civil_eq]
  rfl

theorem decodefrom_spec (utc : Bool) (y : ℕ) (h6 : 6 ≤ s.length) (h8 : utc = true → 8 ≤ s.length) :
    decodefrom utc y s ≠ none ∧ ∀ t, decodefrom utc y s = some (some t) → Follows utc y s t := by
  have hlen : ∀ n, (two n).length = 2 := fun _ => rfl
  have hdrop : ∀ (n : ℕ) (z : Str) (k : ℕ), (two n ++ z).drop (k + 2) = z.drop k :=
    fun _ _ _ => rfl
  rcases get2_cases (s := s) (by omega) with ⟨mon, hmon, s, rfl⟩ | ⟨hget, -⟩
  swap
  · simp [decodefrom, hget]
  rw [List.length_append, hlen] at h6 h8
  rcases get2_cases (s := s) (by omega) with ⟨mday, hmday, s, rfl⟩ | ⟨hget, -⟩
  swap
  · simp [decodefrom, get2_two hmon, drop_two, hget]
  rw [List.length_append, hlen] at h6 h8
  rcases get2_cases (s := s) (by omega) with ⟨hour, hhour, s, rfl⟩ | ⟨hget, -⟩
  swap
  · simp [decodefrom, get2_two hmon, drop_two, get2_two hmday, hdrop _ _ 2, hget]
  rw [List.length_append, hlen] at h6 h8
  have h2 : utc = true → 2 ≤ s.length := fun h => by have := h8 h; omega
  obtain ⟨hclock, hclock'⟩ := clock_spec h2
  simp only [decodefrom, get2_two hmon, drop_two, get2_two hmday, hdrop _ _ 2, hdrop _ _ 4,
    get2_two hhour, Option.bind_eq_bind, Option.bind_some]
  split_ifs with hm hd hh
  · exact ⟨nofun, nofun⟩
  · exact ⟨nofun, nofun⟩
  · exact ⟨nofun, nofun⟩
  match hrun : clock utc s with
  | none => exact absurd hrun hclock
  | some none => exact ⟨nofun, nofun⟩
  | some (some (m, c, r)) =>
    obtain ⟨w, min, sec, rfl, hw, rfl, rfl⟩ := hclock' hrun
    obtain ⟨hzone, hzone'⟩ := zone_spec utc r
    simp only [Option.bind_some]
    match hrun' : zone utc r with
    | none => exact absurd hrun' hzone
    | some none => exact ⟨nofun, nofun⟩
    | some (some off) =>
      refine ⟨nofun, fun t h => ?_⟩
      rw [monthdays_eq] at hd
      let d : Date := ⟨y, mon, mday, by omega, by omega, by omega, by omega⟩
      refine ⟨d, hour, min, sec, w, r, off, rfl, by omega, hw, hzone' off hrun', rfl, ?_⟩
      rw [← days_from_civil_eq]
      simpa using h.symm

theorem Follows.length {r : Str} (h : Follows utc y r t) :
    6 ≤ r.length ∧ (utc = true → 9 ≤ r.length) := by
  obtain ⟨d, hour, min, sec, c, z, off, -, -, hc, hz, rfl, -⟩ := h
  have hlen : ∀ n, (two n).length = 2 := fun _ => rfl
  simp only [List.length_append, hlen]
  refine ⟨by omega, ?_⟩
  rintro rfl
  have hc2 : 2 ≤ c.length := by
    cases hc with
    | minutes => exact le_rfl
    | seconds => rw [List.length_append, hlen]; omega
  have hz1 : 1 ≤ z.length := by
    cases hz <;> simp
  omega

theorem Denotes.run (h : Denotes utc s t) : decode_time s utc = some (some t) := by
  obtain ⟨w, y, r, hw, rfl, hr⟩ := h
  obtain ⟨hlen, hlen'⟩ := hr.length
  have htwo : ∀ n, (two n).length = 2 := fun _ => rfl
  cases hw with
  | utc h h' =>
    have hshort : ¬(two (y % 100) ++ r).length < 11 := by
      rw [List.length_append, htwo]
      have := hlen' rfl
      omega
    have hneg : ¬((y % 100 : ℕ) : ℤ) < 0 := by omega
    have hyear : (if ((y % 100 : ℕ) : ℤ) < 50 then ((y % 100 : ℕ) : ℤ) + 2000
        else ((y % 100 : ℕ) : ℤ) + 1900) = y := by
      split_ifs <;> omega
    rw [decode_time, if_pos rfl, if_neg hshort, get2_two (by omega), drop_two]
    simp only [Option.bind_eq_bind, Option.bind_some, if_neg hneg, hyear, hr.run]
  | generalized h =>
    have hshort : ¬(two (y / 100) ++ two (y % 100) ++ r).length < 10 := by
      rw [List.length_append, List.length_append, htwo, htwo]
      omega
    have hneg : ¬(((y / 100 : ℕ) : ℤ) < 0 ∨ ((y % 100 : ℕ) : ℤ) < 0) := by omega
    have hyear : ((y / 100 : ℕ) : ℤ) * 100 + ((y % 100 : ℕ) : ℤ) = y := by omega
    have hdrop : (two (y / 100) ++ (two (y % 100) ++ r)).drop 4 = r := rfl
    rw [decode_time, if_neg (by simp), if_neg hshort, List.append_assoc, hdrop,
      get2_two (by omega), drop_two, get2_two (by omega)]
    simp only [Option.bind_eq_bind, Option.bind_some, if_neg hneg, hyear, hr.run]

theorem decode_time_spec (utc : Bool) (s : Str) : decode_time s utc ≠ none ∧
    ∀ t, decode_time s utc = some (some t) → Denotes utc s t := by
  have htwo : ∀ n, (two n).length = 2 := fun _ => rfl
  cases utc with
  | true =>
    rw [decode_time, if_pos rfl]
    split_ifs with hshort
    · exact ⟨nofun, nofun⟩
    rcases get2_cases (s := s) (by omega) with ⟨n, hn, r, rfl⟩ | ⟨hget, -⟩
    swap
    · rw [hget]
      exact ⟨nofun, nofun⟩
    rw [List.length_append, htwo] at hshort
    obtain ⟨y, h, h', rfl, hyear⟩ : ∃ y : ℕ, 1950 ≤ y ∧ y ≤ 2049 ∧ n = y % 100 ∧
        (if (n : ℤ) < 50 then (n : ℤ) + 2000 else (n : ℤ) + 1900) = y := by
      refine ⟨if n < 50 then n + 2000 else n + 1900, ?_⟩
      split_ifs <;> omega
    have hneg : ¬((y % 100 : ℕ) : ℤ) < 0 := by omega
    obtain ⟨hnone, hfollows⟩ :=
      decodefrom_spec true y (s := r) (by omega) (by omega)
    rw [get2_two (by omega), drop_two]
    simp only [Option.bind_eq_bind, Option.bind_some, if_neg hneg, hyear]
    exact ⟨hnone, fun t ht => ⟨_, y, r, .utc h h', rfl, hfollows t ht⟩⟩
  | false =>
    rw [decode_time, if_neg (by simp)]
    split_ifs with hshort
    · exact ⟨nofun, nofun⟩
    rcases get2_cases (s := s) (by omega) with ⟨c, hc, r, rfl⟩ | ⟨hget, -⟩
    swap
    · obtain ⟨y, hy⟩ : ∃ y, get2 (s.drop 2) = some y := by
        rcases get2_cases (s := s.drop 2) (by rw [List.length_drop]; omega) with
          ⟨n, hn, z, heq⟩ | ⟨hget', -⟩
        · exact ⟨n, heq ▸ get2_two hn z⟩
        · exact ⟨-1, hget'⟩
      rw [hget, hy]
      exact ⟨nofun, nofun⟩
    rw [List.length_append, htwo] at hshort
    rcases get2_cases (s := r) (by omega) with ⟨n, hn, r, rfl⟩ | ⟨hget, -⟩
    swap
    · rw [get2_two hc, drop_two, hget]
      simp
    rw [List.length_append, htwo] at hshort
    obtain ⟨hnone, hfollows⟩ :=
      decodefrom_spec false (c * 100 + n) (s := r) (by omega) (by simp)
    have hneg : ¬((c : ℤ) < 0 ∨ (n : ℤ) < 0) := by omega
    have hdrop : (two c ++ (two n ++ r)).drop 4 = r := rfl
    rw [get2_two hc, drop_two, get2_two hn, hdrop]
    simp only [Option.bind_eq_bind, Option.bind_some, if_neg hneg]
    push_cast at hnone hfollows
    refine ⟨hnone, fun t ht => ⟨two c ++ two n, c * 100 + n, r, ?_, ?_, hfollows t ht⟩⟩
    · have hw := Year.generalized (y := c * 100 + n) (by omega)
      rwa [show (c * 100 + n) / 100 = c by omega, show (c * 100 + n) % 100 = n by omega] at hw
    · rw [List.append_assoc]

theorem put2_two : ∀ n < 100, put2 (n : ℕ) = bytes (two n) := by
  decide

theorem epoch_range (d : Date) (h : d.year < 10000) : -719528 ≤ epoch d ∧ epoch d < 2932897 := by
  have hlt := d.number_lt h
  have hbefore : (before 10000 : ℤ) = 3652425 := by
    rw [before_eq]
    norm_num
  rw [epoch_eq]
  omega

theorem tdiv_days {e s : ℤ} (hs : 0 ≤ s) (hs' : s < 86400) :
    (e * 86400 + s).tdiv 86400 = e ∧ (0 ≤ e ∨ s = 0) ∨
      (e * 86400 + s).tdiv 86400 = e + 1 ∧ 0 < s := by
  rcases Int.lt_or_le (e * 86400 + s) 0 with hneg | hpos
  · have hpos : 0 ≤ -(e * 86400 + s) := by omega
    have hround := Int.neg_tdiv (a := -(e * 86400 + s)) (b := 86400)
    rw [neg_neg, Int.tdiv_eq_ediv_of_nonneg hpos] at hround
    omega
  · rw [Int.tdiv_eq_ediv_of_nonneg hpos]
    omega

theorem bgmt_eq (d : Date) {hour : ℕ} (hd : d.year < 10000) (hhour : hour ≤ 23) (hmin : min ≤ 59)
    (hsec : sec ≤ 59) : bgmt (epoch d * 86400 + (hour * 3600 + min * 60 + sec)) =
      ⟨d.year - 1900, d.month - 1, d.day, hour, min, sec⟩ := by
  obtain ⟨hlow, hhigh⟩ := epoch_range d hd
  have hcivil := civil_from_days_eq d
  generalize epoch d = e at hlow hhigh hcivil ⊢
  have hint : ∀ v : ℤ, -719529 ≤ v → v < 2932898 → int v = v := fun v h h' =>
    Int.bmod_eq_of_le (by omega) (by omega)
  obtain ⟨s, hs⟩ : ∃ s : ℤ, s = hour * 3600 + min * 60 + sec := ⟨_, rfl⟩
  rw [← hs]
  have hdivs : s.tdiv 3600 = hour ∧ (s.tdiv 60).tmod 60 = min ∧ s.tmod 60 = sec := by
    rw [Int.tdiv_eq_ediv_of_nonneg (by omega), Int.tdiv_eq_ediv_of_nonneg (by omega),
      Int.tmod_eq_emod_of_nonneg (by omega), Int.tmod_eq_emod_of_nonneg (by omega)]
    omega
  have hdays : ∀ days, days = (e * 86400 + s).tdiv 86400 →
      (if int (e * 86400 + s - days * 86400) < 0 then
        (int (e * 86400 + s - days * 86400) + 86400, days - 1)
      else (int (e * 86400 + s - days * 86400), days)) = (s, e) := by
    intro days hdays
    rcases tdiv_days (e := e) (s := s) (by omega) (by omega) with ⟨h, -⟩ | ⟨h, hpos⟩
    · obtain rfl := hdays.trans h
      rw [add_sub_cancel_left, hint s (by omega) (by omega), if_neg (by omega)]
    · obtain rfl := hdays.trans h
      have hsecs : e * 86400 + s - (e + 1) * 86400 = s - 86400 := by ring
      rw [hsecs, hint _ (by omega) (by omega), if_pos (by omega), sub_add_cancel,
        add_sub_cancel_right]
  simp only [bgmt, hdays _ rfl, hint e (by omega) (by omega), hcivil, hdivs]

theorem pack_time_denotes (h : Representable utc t) :
    ∃ s, pack_time t utc = some s ∧ Denotes utc s t := by
  obtain ⟨w, d, hour, min, sec, hw, hhour, hmin, hsec, ht⟩ := h
  rw [ht]
  have hm := d.month_le
  have hd := d.day_le
  have h31 := monthdays_le d.year d.month
  have hyear : d.year < 10000 := by
    cases hw <;> omega
  have hZ : [byte 'Z'.toNat] = bytes ['Z'] := by decide
  have hfrom : ∀ w, packfrom (bytes w) (bgmt (epoch d * 86400 + (hour * 3600 + min * 60 + sec))) =
      w ++ (two d.month ++ (two d.day ++ (two hour ++ (two min ++ two sec ++ ['Z'])))) := by
    intro w
    rw [bgmt_eq d hyear hhour hmin hsec, packfrom]
    simp only [sub_add_cancel]
    rw [put2_two _ (by omega), put2_two _ (by omega), put2_two _ (by omega),
      put2_two _ (by omega), put2_two _ (by omega), hZ]
    simp only [← bytes_append, string_bytes, List.append_assoc]
  have hyr : (bgmt (epoch d * 86400 + (hour * 3600 + min * 60 + sec))).year + 1900 = d.year := by
    rw [bgmt_eq d hyear hhour hmin hsec]
    exact sub_add_cancel _ _
  have hdiv : (d.year : ℤ).tdiv 100 = (d.year / 100 : ℕ) := (Int.ofNat_tdiv _ _).symm
  have hmod : (d.year : ℤ).tmod 100 = (d.year % 100 : ℕ) := (Int.ofNat_tmod _ _).symm
  refine ⟨w ++ (two d.month ++ (two d.day ++ (two hour ++ (two min ++ two sec ++ ['Z'])))), ?_,
    w, d.year, _, hw, rfl, d, hour, min, sec, two min ++ two sec, ['Z'], 0, rfl, hhour,
    .seconds hmin (by omega), .gmt, rfl, (sub_zero _).symm⟩
  rw [← hfrom, pack_time]
  simp only [hyr, hdiv, hmod, put2_two _ (show d.year / 100 < 100 by omega),
    put2_two _ (show d.year % 100 < 100 by omega), ← bytes_append]
  cases hw with
  | utc h h' => rw [if_pos rfl, if_neg (by omega)]
  | generalized h => rw [if_neg (by simp), if_neg (by omega)]

/-- The times of certificates are exact: a text is decoded when it is of its format, to the
seconds of its instant from the epoch, and without looking past its end; the dates of the years
0 to 9999 and their days are turned into each other; and an instant comes back from its text. -/
theorem times_exact :
    (∀ utc s, decode_time s utc ≠ none ∧
      ∀ t, decode_time s utc = some (some t) ↔ Denotes utc s t) ∧
    Set.BijOn (fun d : Date => days_from_civil d.year d.month d.day) {d | d.year ≤ 9999}
      (Set.Ico (-719528) 2932897) ∧
    (∀ d : Date, days_from_civil d.year d.month d.day = epoch d ∧
      civil_from_days (epoch d) = ((d.year : ℤ), (d.month : ℤ), (d.day : ℤ))) ∧
    ∀ utc t, Representable utc t →
      ∃ s, pack_time t utc = some s ∧ decode_time s utc = some (some t) := by
  have hbefore : (before 10000 : ℤ) = 3652425 := by
    rw [before_eq]
    norm_num
  refine ⟨fun utc s => ?_, ⟨?_, ?_, ?_⟩, fun d => ⟨days_from_civil_eq d, civil_from_days_eq d⟩, ?_⟩
  · obtain ⟨hnone, hdenotes⟩ := decode_time_spec utc s
    exact ⟨hnone, fun t => ⟨hdenotes t, Denotes.run⟩⟩
  · intro d (hd : d.year ≤ 9999)
    obtain ⟨hlow, hhigh⟩ := epoch_range d (by omega)
    simpa only [days_from_civil_eq] using ⟨hlow, hhigh⟩
  · intro d _ d' _ h
    have heq : epoch d = epoch d' := by simpa only [days_from_civil_eq] using h
    have hcivil := civil_from_days_eq d
    rw [heq, civil_from_days_eq d'] at hcivil
    simp only [Prod.mk.injEq, Nat.cast_inj] at hcivil
    exact (Date.ext hcivil.1 hcivil.2.1 hcivil.2.2).symm
  · rintro z ⟨hlow, hhigh⟩
    obtain ⟨d, hd, hz⟩ := exists_epoch (n := 10000) hlow (by omega)
    have hd' : d.year ≤ 9999 := by omega
    exact ⟨d, hd', (days_from_civil_eq d).trans hz⟩
  · intro utc t h
    obtain ⟨s, hs, hdenotes⟩ := pack_time_denotes h
    exact ⟨s, hs, hdenotes.run⟩

end Infernode.Asn1.Time
