import Infernode.Limbo.Str

/-!
# The line of a tool call

The fields of a `TOOL:` line are escaped so that no `:` stands in one unescaped and no line
break at all; the reader splits at the first two unescaped `:` and undoes the escapes.
-/

namespace Infernode.Bridge

open Limbo

def escapechar (c : Char) : Str :=
  if c = '\\' then lit "\\\\" else if c = '\n' then lit "\\n" else if c = ':' then lit "\\:"
  else [c]

def escapefield (s : Str) : Str := s.flatMap escapechar

def unescapechar (c : Char) : Option Char :=
  if c = '\\' then some '\\' else if c = 'n' then some '\n' else if c = ':' then some ':'
  else none

def unescapefield : Str → Str
  | [] => []
  | [c] => [c]
  | c :: d :: s =>
    if c = '\\' then
      match unescapechar d with
      | some e => e :: unescapefield s
      | none => c :: unescapefield (d :: s)
    else c :: unescapefield (d :: s)

def encodetool (id name args : Str) : Str :=
  lit "TOOL:" ++ escapefield id ++ lit ":" ++ escapefield name ++ lit ":" ++ escapefield args

def delim : Str → Option ℕ
  | [] => none
  | [c] => if c = ':' then some 0 else none
  | c :: d :: s =>
    if c = '\\' then (delim s).map (· + 2)
    else if c = ':' then some 0
    else (delim (d :: s)).map (· + 1)

def nextdelim (s : Str) (p : ℕ) : Option ℕ := (delim (s.drop p)).map (p + ·)

def parsetoolline (s : Str) : Str × Str × Str :=
  match nextdelim s 0 with
  | none => (unescapefield s, [], [])
  | some c1 =>
    let id := unescapefield (s.take c1)
    match nextdelim s (c1 + 1) with
    | none => (id, unescapefield (s.drop (c1 + 1)), [])
    | some c2 =>
      (id, unescapefield ((s.take c2).drop (c1 + 1)), unescapefield (s.drop (c2 + 1)))

variable {s t : Str} {c : Char}

theorem escapefield_cons (c : Char) (s : Str) :
    escapefield (c :: s) = escapechar c ++ escapefield s := rfl

theorem escapechar_cases (c : Char) :
    (escapechar c = [c] ∧ c ≠ '\\' ∧ c ≠ ':' ∧ c ≠ '\n') ∨
    ∃ d, escapechar c = ['\\', d] ∧ unescapechar d = some c ∧ d ≠ '\n' := by
  rw [escapechar]
  split_ifs with hslash hline hcolon
  · exact .inr ⟨'\\', rfl, by rw [hslash]; rfl, by decide⟩
  · exact .inr ⟨'n', rfl, by rw [hline]; rfl, by decide⟩
  · exact .inr ⟨':', rfl, by rw [hcolon]; rfl, by decide⟩
  · exact .inl ⟨rfl, hslash, hcolon, hline⟩

theorem unescapefield_cons (hc : c ≠ '\\') (s : Str) :
    unescapefield (c :: s) = c :: unescapefield s := by
  cases s with
  | nil => rfl
  | cons d s => rw [unescapefield, if_neg hc]

theorem unescapefield_escaped {d : Char} (hd : unescapechar d = some c) (s : Str) :
    unescapefield ('\\' :: d :: s) = c :: unescapefield s := by
  rw [unescapefield, if_pos rfl, hd]

theorem unescapefield_escapefield (s : Str) : unescapefield (escapefield s) = s := by
  induction s with
  | nil => rfl
  | cons c s ih =>
    rw [escapefield_cons]
    rcases escapechar_cases c with ⟨hc, hslash, -, -⟩ | ⟨d, hc, hd, -⟩
    · rw [hc, List.singleton_append, unescapefield_cons hslash, ih]
    · rw [hc, List.cons_append, List.singleton_append, unescapefield_escaped hd, ih]

theorem escapefield_line (s : Str) : '\n' ∉ escapefield s := by
  induction s with
  | nil => exact List.not_mem_nil
  | cons c s ih =>
    rw [escapefield_cons, List.mem_append]
    rintro (hmem | hmem)
    · rcases escapechar_cases c with ⟨hc, -, -, hline⟩ | ⟨d, hc, -, hd⟩
      · rw [hc, List.mem_singleton] at hmem
        exact hline hmem.symm
      · rw [hc] at hmem
        simp only [List.mem_cons, List.not_mem_nil, or_false] at hmem
        rcases hmem with hslash | hmem
        · exact absurd hslash (by decide)
        · exact hd hmem.symm
    · exact ih hmem

theorem delim_cons (hslash : c ≠ '\\') (hcolon : c ≠ ':') (s : Str) :
    delim (c :: s) = (delim s).map (· + 1) := by
  cases s with
  | nil => exact if_neg hcolon
  | cons d s => rw [delim, if_neg hslash, if_neg hcolon]

theorem delim_escapefield (s t : Str) :
    delim (escapefield s ++ ':' :: t) = some (escapefield s).length := by
  induction s with
  | nil =>
    cases t with
    | nil => rfl
    | cons d t => rfl
  | cons c s ih =>
    rw [escapefield_cons]
    rcases escapechar_cases c with ⟨hc, hslash, hcolon, -⟩ | ⟨d, hc, -, -⟩
    · rw [hc, List.singleton_append, List.cons_append, delim_cons hslash hcolon, ih]
      rfl
    · rw [hc, List.cons_append, List.singleton_append, List.cons_append, List.cons_append,
        delim, if_pos rfl, ih]
      rfl

theorem parsetoolline_fields (id name args : Str) :
    parsetoolline (escapefield id ++ ':' :: (escapefield name ++ ':' :: escapefield args)) =
      (id, name, args) := by
  have hfirst : nextdelim
      (escapefield id ++ ':' :: (escapefield name ++ ':' :: escapefield args)) 0 =
      some (escapefield id).length := by
    rw [nextdelim, List.drop_zero, delim_escapefield, Option.map_some, Nat.zero_add]
  have hrest : (escapefield id ++ ':' :: (escapefield name ++ ':' :: escapefield args)).drop
      ((escapefield id).length + 1) = escapefield name ++ ':' :: escapefield args := by
    rw [← List.drop_drop, List.drop_left]
    rfl
  have hsecond : nextdelim
      (escapefield id ++ ':' :: (escapefield name ++ ':' :: escapefield args))
      ((escapefield id).length + 1) =
      some ((escapefield id).length + 1 + (escapefield name).length) := by
    rw [nextdelim, hrest, delim_escapefield, Option.map_some]
  rw [parsetoolline, hfirst]
  dsimp only
  rw [hsecond]
  dsimp only
  have hname : ((escapefield id ++ ':' :: (escapefield name ++ ':' :: escapefield args)).take
      ((escapefield id).length + 1 + (escapefield name).length)).drop
      ((escapefield id).length + 1) = escapefield name := by
    rw [List.drop_take, hrest, Nat.add_sub_cancel_left, List.take_left]
  have hargs : (escapefield id ++ ':' :: (escapefield name ++ ':' :: escapefield args)).drop
      ((escapefield id).length + 1 + (escapefield name).length + 1) = escapefield args := by
    rw [show (escapefield id).length + 1 + (escapefield name).length + 1 =
      (escapefield id).length + 1 + ((escapefield name).length + 1) from Nat.add_assoc _ _ _,
      ← List.drop_drop, hrest, ← List.drop_drop, List.drop_left]
    rfl
  rw [hname, hargs, List.take_left, unescapefield_escapefield, unescapefield_escapefield,
    unescapefield_escapefield]

theorem parsetoolline_encodetool (id name args : Str) :
    parsetoolline ((encodetool id name args).drop 5) = (id, name, args) := by
  have hdrop : (encodetool id name args).drop 5 =
      escapefield id ++ ':' :: (escapefield name ++ ':' :: escapefield args) := by
    rw [encodetool]
    simp only [List.append_assoc]
    rfl
  rw [hdrop, parsetoolline_fields]

theorem encodetool_line (id name args : Str) : '\n' ∉ encodetool id name args := by
  have hid := escapefield_line id
  have hname := escapefield_line name
  have hargs := escapefield_line args
  have htool : '\n' ∉ lit "TOOL:" := by decide
  have hcolon : '\n' ∉ lit ":" := by decide
  simp only [encodetool, List.mem_append]
  tauto

theorem encodetool_prefixed (id name args : Str) :
    prefixed (encodetool id name args) (lit "TOOL:") = true := by
  rw [prefixed_iff, encodetool]
  simp only [List.append_assoc]
  exact ⟨_, rfl⟩

end Infernode.Bridge
