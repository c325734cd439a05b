import Infernode.Tls.Record

/-!
# Connections after the handshake

`Conn.read`, `Conn.write` and `Conn.close`. What a read puts into its buffer is its result,
`none` standing for -1; a closed connection is one with no state.
-/

namespace Infernode.Tls

open Limbo (Str lit)

theorem ensure_length (n : ℕ) (input : List (Option UInt8)) :
    (ensure n input).2.length ≤ input.length := by
  induction n generalizing input with
  | zero => exact le_rfl
  | succ n ih =>
    match input with
    | [] => exact le_rfl
    | none :: input => simp [ensure]
    | some b :: input =>
      have hle := ih input
      simp only [ensure, List.length_cons]
      omega

theorem ensure_some {n : ℕ} {input rest : List (Option UInt8)} {bs : List UInt8}
    (h : ensure n input = (some bs, rest)) : bs.length = n ∧ input = bs.map some ++ rest := by
  induction n generalizing input bs with
  | zero =>
    simp only [ensure, Prod.mk.injEq, Option.some.injEq] at h
    obtain ⟨rfl, rfl⟩ := h
    exact ⟨rfl, rfl⟩
  | succ n ih =>
    match input with
    | [] => simp [ensure] at h
    | none :: input => simp [ensure] at h
    | some b :: input =>
      simp only [ensure, Prod.mk.injEq, Option.map_eq_some_iff] at h
      obtain ⟨⟨bs', hbs, rfl⟩, hrest⟩ := h
      obtain ⟨hlen, hin⟩ := ih (Prod.ext hbs hrest)
      exact ⟨by simp [hlen], by simp [hin]⟩

theorem ensure_append (bs : List UInt8) (rest : List (Option UInt8)) :
    ensure bs.length (bs.map some ++ rest) = (some bs, rest) := by
  induction bs with
  | nil => rfl
  | cons b bs ih => simp [ensure, ih]

theorem rawrecord_shorter (input : List (Option UInt8)) :
    (rawrecord input).2.length ≤ input.length ∧
      ((rawrecord input).2.length = input.length → input = []) := by
  have hfive : ∀ input, (ensure 5 input).2.length ≤ input.length ∧
      ((ensure 5 input).2.length = input.length → input = []) := by
    intro input
    match input with
    | [] => exact ⟨le_rfl, fun _ => rfl⟩
    | none :: input => simp [ensure]
    | some b :: input =>
      have hle := ensure_length 4 input
      simp only [ensure, List.length_cons]
      exact ⟨by omega, by omega⟩
  obtain ⟨hle, heq⟩ := hfive input
  rw [rawrecord]
  split
  · next ctype v w hi lo rest h =>
    rw [h] at hle heq
    have hrest := ensure_length (get16 hi lo) rest
    split_ifs
    · exact ⟨hle, heq⟩
    · split <;> next hp =>
        rw [hp] at hrest
        simp only at hle heq hrest ⊢
        exact ⟨by omega, fun h => heq (by omega)⟩
  · next rest _ h =>
    rw [show (ensure 5 input).2 = rest from congrArg Prod.snd h] at hle heq
    exact ⟨hle, heq⟩

theorem decrypt_record_state (A : Aead) (cs : State) (key : List UInt8) (ctype : UInt8)
    (c : List UInt8) : (decrypt_record A cs key ctype c).2 = cs ∨
      (decrypt_record A cs key ctype c).2 = cs.opened := by
  rw [decrypt_record]
  split
  · exact .inl rfl
  · split
    · exact .inl rfl
    · exact .inr rfl

theorem readrecord_state (A : Aead) (cs : State) :
    (readrecord A cs).2 = cs.setinput (rawrecord cs.fd.input).2 ∨
      (readrecord A cs).2 = (cs.setinput (rawrecord cs.fd.input).2).opened := by
  simp only [readrecord]
  split
  · exact .inl rfl
  next ctype payload _ =>
  split_ifs
  · exact .inl rfl
  split
  · exact .inl rfl
  next key _ =>
  have hdec := decrypt_record_state A (cs.setinput (rawrecord cs.fd.input).2) key ctype payload
  split <;> next hd =>
    rw [hd] at hdec
    try split_ifs
    all_goals exact hdec

theorem readrecord_input (A : Aead) (cs : State) :
    (readrecord A cs).2.fd.input = (rawrecord cs.fd.input).2 := by
  rcases readrecord_state A cs with h | h <;> rw [h] <;> rfl

theorem readrecord_ok {A : Aead} {cs cs' : State} {f : UInt8 × List UInt8}
    (h : readrecord A cs = (.ok f, cs')) : cs'.fd.input.length < cs.fd.input.length := by
  have hin := readrecord_input A cs
  rw [h] at hin
  rw [show cs'.fd.input = _ from hin]
  obtain ⟨hle, heq⟩ := rawrecord_shorter cs.fd.input
  refine lt_of_le_of_ne hle fun he => ?_
  have hnil := heq he
  simp [readrecord, hnil, rawrecord, ensure] at h

def State.keep (cs : State) (data : List UInt8) (n : ℕ) : State :=
  { cs with rbuf := data, roff := n, rlen := data.length - n }

def readloop (A : Aead) (n : ℕ) (cs : State) : Option (List UInt8) × State :=
  match h : readrecord A cs with
  | (.error _, cs') => (none, cs')
  | (.ok (ctype, data), cs') =>
    if ctype = CT_APPLICATION_DATA then
      (some (data.take n), if n < data.length then cs'.keep data n else cs')
    else if ctype = CT_ALERT then
      (if 2 ≤ data.length ∧ data[1]? = some ALERT_CLOSE_NOTIFY then some [] else none, cs')
    -- such as NewSessionTicket and KeyUpdate
    else if ctype = CT_HANDSHAKE then readloop A n cs'
    else (none, cs')
  termination_by cs.fd.input.length
  decreasing_by exact readrecord_ok h

def State.read (A : Aead) (n : ℕ) (cs : State) : Option (List UInt8) × State :=
  if 0 < cs.rlen then
    let m := min cs.rlen n
    (some ((cs.rbuf.drop cs.roff).take m), { cs with roff := cs.roff + m, rlen := cs.rlen - m })
  else readloop A n cs

def writeloop (A : Aead) (buf : List UInt8) (cs : State) : Bool × State :=
  if _h : buf = [] then (true, cs)
  else
    match writerecord A cs CT_APPLICATION_DATA (buf.take MAXRECORD) with
    | (some _, cs') => (false, cs')
    | (none, cs') => writeloop A (buf.drop MAXRECORD) cs'
  termination_by buf.length
  decreasing_by
    have hpos : 0 < buf.length := List.length_pos_iff.mpr _h
    rw [List.length_drop]
    exact Nat.sub_lt hpos (by decide)

theorem rawrecord_next (input : List (Option UInt8)) (h : input ≠ []) :
    (rawrecord input).2.length < input.length :=
  lt_of_le_of_ne (rawrecord_shorter input).1 fun he => h ((rawrecord_shorter input).2 he)

/-- The records that come, `none` for one that is too large or cut off. -/
def rawrecords (input : List (Option UInt8)) : List (Option (UInt8 × List UInt8)) :=
  if _h : input = [] then []
  else (rawrecord input).1.toOption :: rawrecords (rawrecord input).2
  termination_by input.length
  decreasing_by exact rawrecord_next input _h

/-- The connection's state, which stays here when `close` makes it nil. -/
structure Conn where
  st : State
  closed : Bool

def Conn.read (A : Aead) (c : Conn) (n : ℕ) : Option (List UInt8) × Conn :=
  if c.closed then (none, c)
  else ((c.st.read A n).1, { c with st := (c.st.read A n).2 })

def Conn.write (A : Aead) (c : Conn) (buf : List UInt8) : Option ℕ × Conn :=
  if c.closed then (none, c)
  else (if (writeloop A buf c.st).1 then some buf.length else none,
    { c with st := (writeloop A buf c.st).2 })

def Conn.close (A : Aead) (c : Conn) : Option Str × Conn :=
  if c.closed then (some (lit "tls: connection closed"), c)
  else (none, ⟨(writerecord A c.st CT_ALERT [ALERT_WARNING, ALERT_CLOSE_NOTIFY]).2, true⟩)

inductive Op
  | read (n : ℕ)
  | write (buf : List UInt8)
  | close

def Conn.step (A : Aead) (c : Conn) : Op → List UInt8 × Conn
  | .read n => ((c.read A n).1.getD [], (c.read A n).2)
  | .write buf => ([], (c.write A buf).2)
  | .close => ([], (c.close A).2)

def Conn.run (A : Aead) (c : Conn) : List Op → List UInt8 × Conn
  | [] => ([], c)
  | op :: ops => ((c.step A op).1 ++ ((c.step A op).2.run A ops).1, ((c.step A op).2.run A ops).2)

end Infernode.Tls
