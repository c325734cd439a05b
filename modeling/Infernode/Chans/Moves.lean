import Infernode.Chans.Offset

/-!
# How calls move the offset

A call moves the offset of its channel as the manual has it exactly where `pread` gets no
bytes, `read` is not of a union that has more, and the device counts no less than 0 and
no more than it was asked for. The offset then never wraps either.
-/

namespace Infernode.Chans

open Lib

inductive Call
  | kread (chan : Bool) (n : Vlong) (dev : Option Vlong)
  | kpread (chan : Bool) (n off : Vlong) (dev : Option Vlong)
  | kwrite (chan : Bool) (n : Vlong) (dev : Option Vlong)
  | kpwrite (chan : Bool) (n off : Vlong) (dev : Option Vlong)
  | kseek (chan : Bool) (off : Vlong) (whence : ℤ) (stat : Option Vlong)

def exec (c : Chan) : Call → Answer × Chan
  | .kread chan n dev => kread c chan n dev
  | .kpread chan n off dev => kpread c chan n off dev
  | .kwrite chan n dev => kwrite c chan n dev
  | .kpwrite chan n off dev => kpwrite c chan n off dev
  | .kseek chan off whence stat => kseek c chan off whence stat

def step (c : Chan) (call : Call) : Chan := (exec c call).2

def opened (qtdir : Bool) (umh : Option (List Mount)) (pipe : Bool) : Chan :=
  { offset := zero, dri := 0, pos := unionrewind, qtdir := qtdir, umh := umh, pipe := pipe }

def bytes : Answer → ℤ
  | .ok m => max m.val 0
  | .error _ => 0

def base (c : Chan) (whence : ℤ) (stat : Option Vlong) : ℤ :=
  if whence = 0 then 0 else if whence = 1 then c.offset.val else (stat.getD zero).val

def Moves (c : Chan) (call : Call) : Prop :=
  let (a, c') := exec c call
  0 ≤ c'.offset.val ∧
    match call with
    | .kread .. | .kwrite .. => c'.offset.val = c.offset.val + bytes a
    | .kpread .. | .kpwrite .. => c'.offset.val = c.offset.val
    | .kseek _ off whence stat =>
      match a with
      | .ok r => r.val = c'.offset.val ∧ c'.offset.val = base c whence stat + off.val
      | .error _ => c'.offset.val = c.offset.val

def Clear (c : Chan) : Call → Prop
  | .kread chan n dev =>
    chan → 0 ≤ n.val →
      match union c with
      | some mounts => size (unionread mounts c.pos n.val.toNat).1 = 0
      | none => ∀ m, dev = some m → 0 ≤ m.val ∧ c.offset.val + m.val ≤ vlongmax
  | .kpread chan n off dev =>
    chan → 0 ≤ n.val → union c = none → 0 ≤ off.val → ∀ m, dev = some m → m.val = 0
  | .kwrite chan n dev =>
    chan → c.qtdir = false → 0 ≤ n.val →
      ∀ m, dev = some m → 0 ≤ m.val ∧ m.val ≤ n.val ∧ c.offset.val + m.val ≤ vlongmax
  | .kpwrite .. | .kseek .. => True

variable {c : Chan} {chan : Bool} {n off : Vlong} {dev stat : Option Vlong} {whence : ℤ}

theorem Vlong.wrap_eq_iff (x y : ℤ) (hlo : -2 ^ 63 ≤ y) (hhi : y < 2 ^ 63) :
    (wrap x).val = y ↔ (x - y) % 2 ^ 64 = 0 := by
  simp only [wrap, Int.bmod]
  split <;> omega

theorem Vlong.wrap_self (x : ℤ) (hlo : -2 ^ 63 ≤ x) (hhi : x < 2 ^ 63) : (wrap x).val = x :=
  (wrap_eq_iff x x hlo hhi).mpr (by simp)

theorem Vlong.add_sub (a b : Vlong) : (a.add b).sub b = a := by
  refine Vlong.ext ((wrap_eq_iff _ _ a.lo a.hi).mpr ?_)
  have hsum := (wrap_eq_iff (a.val + b.val) _ (a.add b).lo (a.add b).hi).mp rfl
  omega

theorem Vlong.add_sub_sub (a n m : Vlong) : (a.add n).sub (n.sub m) = a.add m := by
  have hsum := (wrap_eq_iff (a.val + n.val) _ (a.add n).lo (a.add n).hi).mp rfl
  have hdiff := (wrap_eq_iff (n.val - m.val) _ (n.sub m).lo (n.sub m).hi).mp rfl
  have hto := (wrap_eq_iff (a.val + m.val) _ (a.add m).lo (a.add m).hi).mp rfl
  refine Vlong.ext ((wrap_eq_iff _ _ (a.add m).lo (a.add m).hi).mpr ?_)
  omega

theorem seekadd_ok {a b r : Vlong} (h : seekadd a b = .ok r) : r.val = a.val + b.val := by
  unfold seekadd vlongmax at h
  have ha := a.lo
  have ha' := a.hi
  have hb := b.lo
  have hb' := b.hi
  split at h
  · cases h
  split at h
  · cases h
  cases h
  exact Vlong.wrap_self _ (by omega) (by omega)

theorem restart_offset (c : Chan) (offp : Option Vlong) :
    (restart c offp (offp.getD c.offset)).offset = c.offset := by
  unfold restart
  split
  case isTrue h =>
    split
    case isTrue hnone =>
      rw [Option.isNone_iff_eq_none.mp hnone] at h
      exact (Vlong.ext h).symm
    · rfl
  · rfl

theorem devread_spec (offp dev : Option Vlong) (hoff : 0 ≤ (offp.getD c.offset).val) :
    (devread c offp dev).1 = dev.elim (.error .Eio) .ok ∧
      (devread c offp dev).2.offset = dev.elim c.offset c.offset.add := by
  have hstay := restart_offset c offp
  simp only [devread, if_neg (not_lt.mpr hoff)]
  cases dev with
  | none => exact ⟨rfl, hstay⟩
  | some m => exact ⟨rfl, by rw [hstay]; rfl⟩

theorem devread_negative (offp dev : Option Vlong) (hoff : (offp.getD c.offset).val < 0) :
    devread c offp dev = (.error .Enegoff, c) := by
  simp only [devread, if_pos hoff]

theorem add_moves (hpos : 0 ≤ c.offset.val) {m : Vlong} :
    (0 ≤ (c.offset.add m).val ∧ (c.offset.add m).val = c.offset.val + max m.val 0) ↔
      0 ≤ m.val ∧ c.offset.val + m.val ≤ vlongmax := by
  have hm := m.lo
  have hm' := m.hi
  have ho := c.offset.hi
  have hfit := (c.offset.add m).hi
  simp only [vlongmax]
  constructor
  · rintro ⟨-, heq⟩
    have hsum := (Vlong.wrap_eq_iff (c.offset.val + m.val) _ (c.offset.add m).lo hfit).mp rfl
    rw [heq] at hsum hfit
    omega
  · rintro ⟨hm0, hle⟩
    have hsum : (c.offset.add m).val = c.offset.val + m.val :=
      Vlong.wrap_self _ (by omega) (by omega)
    omega

theorem kread_moves (hpos : 0 ≤ c.offset.val) :
    Moves c (.kread chan n dev) ↔ Clear c (.kread chan n dev) := by
  simp only [Moves, Clear, exec, kread, rread]
  cases chan with
  | false => simp [hpos, bytes]
  | true =>
    by_cases hn : n.val < 0
    · simp [hn, hpos, bytes, not_le.mpr hn]
    have hn' : 0 ≤ n.val := not_lt.mp hn
    simp only [not_true_eq_false, if_false, if_neg hn, hn', true_imp_iff]
    cases hu : union c with
    | some mounts =>
      have hfits := unionread_fits mounts c.pos n.val.toNat
      have hn := n.hi
      have hbytes : bytes (.ok (.wrap (size (unionread mounts c.pos n.val.toNat).1))) =
          size (unionread mounts c.pos n.val.toNat).1 := by
        rw [bytes, Vlong.wrap_self _ (by omega) (by omega)]
        exact max_eq_left (Int.natCast_nonneg _)
      simp only [hbytes, hpos, true_and]
      omega
    | none =>
      obtain ⟨hanswer, hoffset⟩ := devread_spec none dev hpos
      simp only [hanswer, hoffset]
      cases dev with
      | none => simp [hpos, bytes]
      | some m => simpa [bytes] using add_moves hpos

theorem kpread_moves (hpos : 0 ≤ c.offset.val) :
    Moves c (.kpread chan n off dev) ↔ Clear c (.kpread chan n off dev) := by
  simp only [Moves, Clear, exec, kpread, rread]
  cases chan with
  | false => simp [hpos]
  | true =>
    by_cases hn : n.val < 0
    · simp [hn, hpos, not_le.mpr hn]
    have hn' : 0 ≤ n.val := not_lt.mp hn
    simp only [not_true_eq_false, if_false, if_neg hn, hn', true_imp_iff]
    cases hu : union c with
    | some mounts => simp [hpos]
    | none =>
      by_cases hoff : off.val < 0
      · rw [devread_negative (some off) dev hoff]
        simp [hpos, not_le.mpr hoff]
      obtain ⟨-, hoffset⟩ := devread_spec (c := c) (some off) dev (not_lt.mp hoff)
      simp only [hoffset, not_lt.mp hoff, true_imp_iff]
      cases dev with
      | none => simp [hpos]
      | some m =>
        have hm := m.lo
        have hm' := m.hi
        have hsum := Vlong.wrap_eq_iff (c.offset.val + m.val) c.offset.val c.offset.lo c.offset.hi
        simp only [Option.elim_some, Vlong.add, Option.some.injEq, forall_eq', hsum]
        constructor
        · rintro ⟨-, heq⟩
          omega
        · intro hzero
          have hsame := hsum.mpr (by omega)
          omega

theorem kwrite_moves (hpos : 0 ≤ c.offset.val) :
    Moves c (.kwrite chan n dev) ↔ Clear c (.kwrite chan n dev) := by
  simp only [Moves, Clear, exec, kwrite, rwrite]
  cases chan with
  | false => simp [hpos, bytes]
  | true =>
    cases hdir : c.qtdir with
    | true => simp [hpos, bytes]
    | false =>
      by_cases hn : n.val < 0
      · simp [hn, hpos, bytes, not_le.mpr hn]
      have hn' : 0 ≤ n.val := not_lt.mp hn
      simp only [not_true_eq_false, if_false, if_neg hn, hn', true_imp_iff, Option.isNone_none,
        if_true, Bool.false_eq_true, devwrite, if_neg (not_lt.mpr hpos), true_and]
      cases dev with
      | none => simp [hpos, bytes, Vlong.add_sub]
      | some m =>
        simp only [Option.some.injEq, forall_eq']
        by_cases hlt : m.val < n.val
        · have hmoves := add_moves hpos (m := m)
          simp only [if_pos hlt, Vlong.add_sub_sub, bytes, hmoves, hlt.le, true_and]
        · have hadd := Vlong.wrap_eq_iff (c.offset.val + n.val) _ (c.offset.add n).lo
            (c.offset.add n).hi
          have hfits := (c.offset.add n).hi
          have hm := m.hi
          have hsum := hadd.mp rfl
          simp only [if_neg hlt, bytes, vlongmax]
          constructor
          · rintro ⟨hge, heq⟩
            rw [heq] at hsum hfits
            omega
          · rintro ⟨-, hle, hmax⟩
            have hval : (c.offset.add n).val = c.offset.val + n.val :=
              Vlong.wrap_self _ (by omega) (by omega)
            omega

theorem kpwrite_moves (hpos : 0 ≤ c.offset.val) : Moves c (.kpwrite chan n off dev) := by
  simp only [Moves, exec, kpwrite, rwrite, devwrite]
  split_ifs <;> cases dev <;> simp_all

theorem seekto_ok {a : Answer} {r : Vlong}
    (h : (do let off ← a; if off.val < 0 then .error .Enegoff else .ok off) = Except.ok r) :
    a = .ok r ∧ 0 ≤ r.val := by
  cases a with
  | error e => cases h
  | ok b =>
    by_cases hneg : b.val < 0
    · simp [bind, Except.bind, hneg] at h
    · simp only [bind, Except.bind, if_neg hneg] at h
      cases h
      exact ⟨rfl, not_lt.mp hneg⟩

theorem kseekto_ok {r : Vlong} (h : kseekto c off whence stat = .ok r) :
    0 ≤ r.val ∧ r.val = base c whence stat + off.val := by
  unfold kseekto at h
  split at h
  · cases h
  split at h
  case isTrue hzero =>
    subst hzero
    split at h
    · split at h
      · cases h
      case isFalse hoff =>
        cases h
        simp only [base, if_true]
        omega
    · split at h
      · cases h
      case isFalse hoff =>
        cases h
        simp only [base, if_true]
        omega
  case isFalse hzero =>
    split at h
    case isTrue hone =>
      subst hone
      split at h
      · cases h
      obtain ⟨hsum, hpos⟩ := seekto_ok h
      exact ⟨hpos, by simpa [base] using seekadd_ok hsum⟩
    case isFalse hone =>
      split at h
      case isTrue htwo =>
        split at h
        · cases h
        split at h
        · cases h
        case h_2 length =>
          obtain ⟨hsum, hpos⟩ := seekto_ok h
          exact ⟨hpos, by simpa [base, hzero, hone] using seekadd_ok hsum⟩
      · cases h

theorem kseek_moves (hpos : 0 ≤ c.offset.val) : Moves c (.kseek chan off whence stat) := by
  simp only [Moves, exec, kseek]
  cases chan with
  | false => exact ⟨hpos, rfl⟩
  | true =>
    simp only [not_true_eq_false, if_false]
    cases h : kseekto c off whence stat with
    | error e => exact ⟨hpos, rfl⟩
    | ok r =>
      obtain ⟨hge, hsum⟩ := kseekto_ok h
      exact ⟨hge, rfl, hsum⟩

theorem moves_iff (hpos : 0 ≤ c.offset.val) (call : Call) : Moves c call ↔ Clear c call := by
  cases call with
  | kread chan n dev => exact kread_moves hpos
  | kpread chan n off dev => exact kpread_moves hpos
  | kwrite chan n dev => exact kwrite_moves hpos
  | kpwrite chan n off dev => exact iff_of_true (kpwrite_moves hpos) trivial
  | kseek chan off whence stat => exact iff_of_true (kseek_moves hpos) trivial

/-- In a run of calls on a channel from its `open` each call moves the offset as it is to
exactly if each finds what it must. -/
theorem offset_kept (qtdir : Bool) (umh : Option (List Mount)) (pipe : Bool) (calls : List Call) :
    Always step Moves (opened qtdir umh pipe) calls ↔
      Always step Clear (opened qtdir umh pipe) calls :=
  always_congr (fun c => 0 ≤ c.offset.val) (fun _ call hpos => moves_iff hpos call)
    (fun _ call hpos hclear => ((moves_iff hpos call).mpr hclear).1) (le_refl _) calls

def ten : Vlong := ⟨10, by norm_num, by norm_num⟩

/-- `pread` of ten bytes. -/
theorem offset_moved :
    ¬Always step Moves (opened false none false) [.kpread true ten zero (some ten)] := by
  intro h
  exact absurd h.1.2 (by decide)

end Infernode.Chans
