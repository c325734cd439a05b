import Infernode.Audit.Verify

/-!
# Arithmetic of the Dis machine

The instructions of `xec.c` and `string.c` that compute bytes, ints, bigs and fixed-point numbers.
An int is kept in a 64-bit slot. What C leaves undefined, a division that cannot be made or a
shift past the width, is a `trap`.
-/

namespace Infernode.Xec

open Limbo (Str decimal isdigit decvalue)
open Audit (dec isspace)

inductive Outcome (α : Type)
  | ok (a : α)
  | exZdiv
  | exBounds
  | exNilref
  | trap
  | spins

def Outcome.bind {α β : Type} (x : Outcome α) (f : α → Outcome β) : Outcome β :=
  match x with
  | .ok a => f a
  | .exZdiv => .exZdiv
  | .exBounds => .exBounds
  | .exNilref => .exNilref
  | .trap => .trap
  | .spins => .spins

instance : Monad Outcome where
  pure := .ok
  bind := Outcome.bind

def CW (v : ℤ) : ℤ := v.bmod (2 ^ 32)

def wrap (v : ℤ) : ℤ := v.bmod (2 ^ 64)

def byte (v : ℤ) : ℤ := v % 2 ^ 8

def quot (x y : ℤ) : Outcome ℤ :=
  if y = 0 ∨ (x = -2 ^ 63 ∧ y = -1) then .trap else .ok (wrap (x.tdiv y))

def rem (x y : ℤ) : Outcome ℤ :=
  if y = 0 ∨ (x = -2 ^ 63 ∧ y = -1) then .trap else .ok (wrap (x.tmod y))

def shl (w x n : ℤ) : Outcome ℤ :=
  if 0 ≤ n ∧ n < w then .ok (wrap (x * 2 ^ n.toNat)) else .trap

def shr (w x n : ℤ) : Outcome ℤ :=
  if 0 ≤ n ∧ n < w then .ok (wrap (x / 2 ^ n.toNat)) else .trap

def addb (m s : ℤ) : ℤ := byte (m + s)
def subb (m s : ℤ) : ℤ := byte (m - s)
def mulb (m s : ℤ) : ℤ := byte (m * s)
def andb (m s : ℤ) : ℤ := byte (m.land s)
def orb (m s : ℤ) : ℤ := byte (m.lor s)
def xorb (m s : ℤ) : ℤ := byte (m.xor s)

def divb (m s : ℤ) : Outcome ℤ := do
  if s = 0 then .exZdiv
  else
    let q ← quot m s
    pure (byte q)

def modb (m s : ℤ) : Outcome ℤ := do
  if s = 0 then .exZdiv
  else
    let q ← rem m s
    pure (byte q)

def shlb (m s : ℤ) : Outcome ℤ := do
  let r ← shl 32 m s
  pure (byte r)

def shrb (m s : ℤ) : Outcome ℤ := do
  let r ← shr 32 m s
  pure (byte r)

def addw (m s : ℤ) : ℤ := CW (wrap (m + s))
def subw (m s : ℤ) : ℤ := CW (wrap (m - s))
def mulw (m s : ℤ) : ℤ := CW (wrap (m * s))
def andw (m s : ℤ) : ℤ := CW (m.land s)
def orw (m s : ℤ) : ℤ := CW (m.lor s)
def xorw (m s : ℤ) : ℤ := CW (m.xor s)

def divw (m s : ℤ) : Outcome ℤ := do
  if s = 0 then .exZdiv
  else
    let q ← quot (CW m) (CW s)
    pure (CW q)

def modw (m s : ℤ) : Outcome ℤ := do
  if s = 0 then .exZdiv
  else
    let q ← rem (CW m) (CW s)
    pure (CW q)

def shlw (m s : ℤ) : ℤ := CW (wrap (m % 2 ^ 32 * 2 ^ (s % 64).toNat))
def shrw (m s : ℤ) : ℤ := CW (CW m / 2 ^ (s % 64).toNat)
def lsrw (m s : ℤ) : ℤ := CW (m % 2 ^ 32 / 2 ^ (s % 64).toNat)

def addl (m s : ℤ) : ℤ := wrap (m + s)
def subl (m s : ℤ) : ℤ := wrap (m - s)
def mull (m s : ℤ) : ℤ := wrap (m * s)
def andl (m s : ℤ) : ℤ := wrap (m.land s)
def orl (m s : ℤ) : ℤ := wrap (m.lor s)
def xorl (m s : ℤ) : ℤ := wrap (m.xor s)

def divl (m s : ℤ) : Outcome ℤ :=
  if s = 0 then .exZdiv else if s = -1 then .ok (wrap (-m)) else quot m s

def modl (m s : ℤ) : Outcome ℤ :=
  if s = 0 then .exZdiv else if s = -1 then .ok 0 else rem m s

def shll (m s : ℤ) : Outcome ℤ := shl 64 m s
def shrl (m s : ℤ) : Outcome ℤ := shr 64 m s

def lsrl (m s : ℤ) : Outcome ℤ := shr 64 (m % 2 ^ 64) s

def exploop : ℕ → ℤ → ℤ → ℤ → Outcome ℤ
  | 0, _, _, _ => .spins
  | k + 1, x, n, r =>
    let r := if n % 2 = 1 then wrap (r * x) else r
    if n / 2 = 0 then .ok r else exploop k (wrap (x * x)) (n / 2) r

def iexpl (m s : ℤ) : Outcome ℤ := do
  let r ← exploop 64 m (if s < 0 then wrap (-s) else s) 1
  if s < 0 then quot 1 r else pure r

def iexpw (m s : ℤ) : Outcome ℤ := do
  let r ← iexpl m s
  pure (CW r)

def scale (r p : ℤ) : Outcome ℤ := if 0 ≤ p then shl 64 r p else shr 64 r (wrap (-p))

def fixed (r p a : ℤ) : Outcome ℤ := do
  let r ← scale r p
  let q ← quot r a
  pure (CW q)

def mulx (x y p : ℤ) : Outcome ℤ := do
  let r ← scale (wrap (x * y)) p
  pure (CW r)

def divx (x y p : ℤ) : Outcome ℤ := fixed x p y

def cvtxx (x p : ℤ) : Outcome ℤ := do
  let r ← scale x p
  pure (CW r)

def mulx0 (x y p a : ℤ) : Outcome ℤ :=
  if x = 0 ∨ y = 0 then .ok 0 else fixed (wrap (x * y)) p a

def divx0 (x y p b : ℤ) : Outcome ℤ := if x = 0 then .ok 0 else fixed (wrap (b * x)) p y

def cvtxx0 (x p a : ℤ) : Outcome ℤ := if x = 0 then .ok 0 else fixed x p a

def vnz (p : ℤ) : Bool := p / 2 % 2 = 1
def wnz (p : ℤ) : Bool := p % 2 = 1

def below (on : Bool) (p : ℤ) : Outcome ℤ := do
  if on then
    let u ← shl 64 1 (wrap (-p))
    pure (wrap (u - 1))
  else pure 0

def differ (x y : ℤ) : Bool := (0 ≤ x && y < 0) || (x < 0 && 0 ≤ y)

def mulx1 (x y p a : ℤ) : Outcome ℤ := do
  if x = 0 ∨ y = 0 then pure 0
  else
    let v := if vnz p then (if differ x y then wrap (-wrap (a - 1)) else wrap (a - 1)) else 0
    let w ← below (wnz p && ((!vnz p && ((0 < x && y < 0) || (x < 0 && 0 < y))) ||
      (vnz p && ((0 < x && 0 < y) || (x < 0 && y < 0))))) (p / 4)
    let r ← scale (wrap (wrap (x * y) + w)) (p / 4)
    let q ← quot (wrap (r + v)) a
    pure (CW q)

def divx1 (x y p b : ℤ) : Outcome ℤ := do
  if x = 0 then pure 0
  else
    let v := if vnz p then (if differ x y then -1 else 1) else 0
    let w ← below (wnz p && x ≤ 0) (p / 4)
    let s ← scale (wrap (wrap (b * x) + w)) (p / 4)
    let q ← quot s y
    pure (CW (wrap (q + v)))

def cvtxx1 (x p a : ℤ) : Outcome ℤ := do
  if x = 0 then pure 0
  else
    let v := if vnz p then (if x < 0 then wrap (-wrap (a - 1)) else wrap (a - 1)) else 0
    let w ← below (wnz p && ((!vnz p && x < 0) || (vnz p && 0 < x))) (p / 4)
    let r ← scale (wrap (x + w)) (p / 4)
    let q ← quot (wrap (r + v)) a
    pure (CW q)

def strtol (s : Str) : ℤ :=
  match s.dropWhile isspace with
  | '-' :: s => -decvalue (s.takeWhile isdigit)
  | '+' :: s => decvalue (s.takeWhile isdigit)
  | s => decvalue (s.takeWhile isdigit)

def saturate (lo hi v : ℤ) : ℤ := max lo (min v hi)

def strtoint (s : Str) : ℤ :=
  saturate (-0x7FFFFFFF - 1) 0x7FFFFFFF (saturate (-2 ^ 63) (2 ^ 63 - 1) (strtol s))

inductive Wop
  | addw | subw | mulw | divw | modw | andw | orw | xorw | shlw | shrw | lsrw | iexpw

inductive Lop
  | addl | subl | mull | divl | modl | andl | orl | xorl

inductive Lwop
  | shll | shrl | lsrl | iexpl

inductive Bop
  | addb | subb | mulb | divb | modb | andb | orb | xorb

inductive Bwop
  | shlb | shrb

inductive Xop
  | mulx | divx | cvtxx | mulx0 | divx0 | cvtxx0 | mulx1 | divx1 | cvtxx1

def Wop.run : Wop → ℤ → ℤ → Outcome ℤ
  | .addw, m, s => .ok (Xec.addw m s)
  | .subw, m, s => .ok (Xec.subw m s)
  | .mulw, m, s => .ok (Xec.mulw m s)
  | .divw, m, s => Xec.divw m s
  | .modw, m, s => Xec.modw m s
  | .andw, m, s => .ok (Xec.andw m s)
  | .orw, m, s => .ok (Xec.orw m s)
  | .xorw, m, s => .ok (Xec.xorw m s)
  | .shlw, m, s => .ok (Xec.shlw m s)
  | .shrw, m, s => .ok (Xec.shrw m s)
  | .lsrw, m, s => .ok (Xec.lsrw m s)
  | .iexpw, m, s => Xec.iexpw m s

def Lop.run : Lop → ℤ → ℤ → Outcome ℤ
  | .addl, m, s => .ok (Xec.addl m s)
  | .subl, m, s => .ok (Xec.subl m s)
  | .mull, m, s => .ok (Xec.mull m s)
  | .divl, m, s => Xec.divl m s
  | .modl, m, s => Xec.modl m s
  | .andl, m, s => .ok (Xec.andl m s)
  | .orl, m, s => .ok (Xec.orl m s)
  | .xorl, m, s => .ok (Xec.xorl m s)

def Lwop.run : Lwop → ℤ → ℤ → Outcome ℤ
  | .shll, m, s => Xec.shll m s
  | .shrl, m, s => Xec.shrl m s
  | .lsrl, m, s => Xec.lsrl m s
  | .iexpl, m, s => Xec.iexpl m s

def Bop.run : Bop → ℤ → ℤ → Outcome ℤ
  | .addb, m, s => .ok (Xec.addb m s)
  | .subb, m, s => .ok (Xec.subb m s)
  | .mulb, m, s => .ok (Xec.mulb m s)
  | .divb, m, s => Xec.divb m s
  | .modb, m, s => Xec.modb m s
  | .andb, m, s => .ok (Xec.andb m s)
  | .orb, m, s => .ok (Xec.orb m s)
  | .xorb, m, s => .ok (Xec.xorb m s)

def Bwop.run : Bwop → ℤ → ℤ → Outcome ℤ
  | .shlb, m, s => Xec.shlb m s
  | .shrb, m, s => Xec.shrb m s

def Xop.run (m s dtmp stmp : ℤ) : Xop → Outcome ℤ
  | .mulx => Xec.mulx m s dtmp
  | .divx => Xec.divx m s dtmp
  | .cvtxx => Xec.cvtxx s m
  | .mulx0 => Xec.mulx0 m s dtmp stmp
  | .divx0 => Xec.divx0 m s dtmp stmp
  | .cvtxx0 => Xec.cvtxx0 s m stmp
  | .mulx1 => Xec.mulx1 m s dtmp stmp
  | .divx1 => Xec.divx1 m s dtmp stmp
  | .cvtxx1 => Xec.cvtxx1 s m stmp

/-- An instruction with its slots, each of the type that the instruction takes it for. Of the
conversions from reals, what the cast of the rounded real to a big gives. -/
inductive Inst
  | w (op : Wop) (s m d : ℕ)
  | l (op : Lop) (s m d : ℕ)
  | lw (op : Lwop) (s m d : ℕ)
  | b (op : Bop) (s m d : ℕ)
  | bw (op : Bwop) (s m d : ℕ)
  | x (op : Xop) (s m d : ℕ)
  | movb (s d : ℕ)
  | movw (s d : ℕ)
  | movl (s d : ℕ)
  | cvtbw (s d : ℕ)
  | cvtwb (s d : ℕ)
  | cvtws (s d : ℕ)
  | cvtsw (s d : ℕ)
  | cvtwl (s d : ℕ)
  | cvtlw (s d : ℕ)
  | cvtfw (v : ℤ) (d : ℕ)
  | cvtfl (v : ℤ) (d : ℕ)
  | cvtfx (v : ℤ) (d : ℕ)
  | cvtcw (s d : ℕ)
  | cvtcl (s d : ℕ)
  | cvtwc (s d : ℕ)
  | cvtlc (s d : ℕ)
  | lenc (s d : ℕ)
  | lena (s d : ℕ)
  | lenl (s d : ℕ)
  | indc (s m d : ℕ)

structure State where
  w : ℕ → ℤ
  l : ℕ → ℤ
  b : ℕ → ℤ
  sh : ℕ → ℤ
  c : ℕ → Option Str
  alen : ℕ → ℕ
  llen : ℕ → ℕ

def NREG : ℕ := 5
def IBY2WD : ℕ := 8
def Stmp : ℕ := NREG * IBY2WD
def Dtmp : ℕ := (NREG + 2) * IBY2WD

def State.setw (σ : State) (d : ℕ) (v : ℤ) : State := { σ with w := Function.update σ.w d v }
def State.setl (σ : State) (d : ℕ) (v : ℤ) : State := { σ with l := Function.update σ.l d v }
def State.setb (σ : State) (d : ℕ) (v : ℤ) : State := { σ with b := Function.update σ.b d v }
def State.setsh (σ : State) (d : ℕ) (v : ℤ) : State := { σ with sh := Function.update σ.sh d v }

def State.print (σ : State) (d : ℕ) (v : ℤ) : State :=
  { σ with c := Function.update σ.c d (some (dec v)) }

def step (σ : State) : Inst → Outcome State
  | .w op s m d => do return σ.setw d (← op.run (σ.w m) (σ.w s))
  | .l op s m d => do return σ.setl d (← op.run (σ.l m) (σ.l s))
  | .lw op s m d => do return σ.setl d (← op.run (σ.l m) (σ.w s))
  | .b op s m d => do return σ.setb d (← op.run (σ.b m) (σ.b s))
  | .bw op s m d => do return σ.setb d (← op.run (σ.b m) (σ.w s))
  | .x op s m d => do return σ.setw d (← op.run (σ.w m) (σ.w s) (σ.w Dtmp) (σ.w Stmp))
  | .movb s d => .ok (σ.setb d (σ.b s))
  | .movw s d => .ok (σ.setw d (σ.w s))
  | .movl s d => .ok (σ.setl d (σ.l s))
  | .cvtbw s d => .ok (σ.setw d (σ.b s))
  | .cvtwb s d => .ok (σ.setb d (byte (σ.w s)))
  | .cvtws s d => .ok (σ.setsh d ((σ.w s).bmod (2 ^ 16)))
  | .cvtsw s d => .ok (σ.setw d (σ.sh s))
  | .cvtwl s d => .ok (σ.setl d (σ.w s))
  | .cvtlw s d => .ok (σ.setw d (CW (σ.l s)))
  | .cvtfw v d => .ok (σ.setw d (CW v))
  | .cvtfl v d => .ok (σ.setl d (wrap v))
  | .cvtfx v d => .ok (σ.setw d (CW v))
  | .cvtcw s d => .ok (σ.setw d (((σ.c s).map strtoint).getD 0))
  | .cvtcl s d =>
    .ok (σ.setl d (((σ.c s).map fun t => saturate (-2 ^ 63) (2 ^ 63 - 1) (strtol t)).getD 0))
  | .cvtwc s d => .ok (σ.print d (CW (σ.w s)))
  | .cvtlc s d => .ok (σ.print d (σ.l s))
  | .lenc s d => .ok (σ.setw d (((σ.c s).map fun t => (t.length : ℤ)).getD 0))
  | .lena s d => .ok (σ.setw d (σ.alen s))
  | .lenl s d => .ok (σ.setw d (σ.llen s))
  | .indc s m d =>
    match σ.c s with
    | none => .exNilref
    | some t =>
      -- the index is unsigned
      match t[(σ.w m % 2 ^ 64).toNat]? with
      | none => .exBounds
      | some ch => .ok (σ.setw d ch.toNat)

end Infernode.Xec
