import Infernode.Dis.TextCodes
import Infernode.Limbo.Utf

/-!
# Git objects

A hash is twenty bytes, written in forty hex digits. A commit and a tag are read as lines of
text, a tree as entries of a mode, a name and a hash. A hash that was never set has no bytes
and is written as the null hash; it is the null hash here.
-/

namespace Infernode.Git

open Dis (int)
open Limbo (Str lit string)

abbrev Hash := Fin 20 → UInt8

def nullhash : Hash := fun _ => 0

def hexdigit (v : ℕ) : Char :=
  if v < 10 then Char.ofNat (48 + v) else Char.ofNat (97 + (v - 10))

def Hash.hex (h : Hash) : Str :=
  (List.finRange 20).flatMap fun i => [hexdigit ((h i).toNat / 16), hexdigit ((h i).toNat % 16)]

/-- `none` is the -1 of a character that is no hex digit. -/
def hexval (c : Char) : Option ℕ :=
  if '0' ≤ c ∧ c ≤ '9' then some (c.toNat - 48)
  else if 'a' ≤ c ∧ c ≤ 'f' then some (c.toNat - 97 + 10)
  else if 'A' ≤ c ∧ c ≤ 'F' then some (c.toNat - 65 + 10)
  else none

def parsehash (s : Str) : Except Str Hash :=
  if s.length < 40 then .error (lit "short hash string")
  else if ∀ i : Fin 20, (hexval (s.getD (2 * i) ' ')).isSome ∧
      (hexval (s.getD (2 * i + 1) ' ')).isSome then
    .ok fun i => UInt8.ofNat ((hexval (s.getD (2 * i) ' ')).getD 0 * 16 +
      (hexval (s.getD (2 * i + 1) ' ')).getD 0)
  else .error (lit "bad hex in hash")

def OBJ_COMMIT : ℕ := 1
def OBJ_TREE : ℕ := 2
def OBJ_BLOB : ℕ := 3
def OBJ_TAG : ℕ := 4

def typenum (name : Str) : ℕ :=
  if name = lit "commit" then OBJ_COMMIT
  else if name = lit "tree" then OBJ_TREE
  else if name = lit "blob" then OBJ_BLOB
  else if name = lit "tag" then OBJ_TAG
  else 0

def splitline : Str → Str × Str
  | [] => ([], [])
  | '\n' :: s => ([], s)
  | '\r' :: '\n' :: s => ([], s)
  | c :: s => (c :: (splitline s).1, (splitline s).2)

def splitfirst (sep : Char) : Str → Str × Str
  | [] => ([], [])
  | c :: s => if c = sep then ([], s) else (c :: (splitfirst sep s).1, (splitfirst sep s).2)

theorem splitline_length (s : Str) :
    (splitline s).1.length + (splitline s).2.length ≤ s.length := by
  fun_induction splitline s with
  | case1 => simp
  | case2 s => simp
  | case3 s =>
    simp only [List.length_nil, List.length_cons]
    omega
  | case4 c s h1 h2 ih =>
    simp only [List.length_cons]
    omega

structure Commit where
  tree : Hash
  parents : List Hash
  author : Str
  committer : Str
  msg : Str

def commitloop (s : Str) (c : Commit) : Except Str Commit :=
  if _h : (splitline s).1 = [] then .ok { c with msg := (splitline s).2 }
  else
    let key := (splitfirst ' ' (splitline s).1).1
    let val := (splitfirst ' ' (splitline s).1).2
    if key = lit "tree" then
      match parsehash val with
      | .error err => .error (lit "bad tree hash: " ++ err)
      | .ok h => commitloop (splitline s).2 { c with tree := h }
    else if key = lit "parent" then
      match parsehash val with
      | .error err => .error (lit "bad parent hash: " ++ err)
      | .ok h => commitloop (splitline s).2 { c with parents := h :: c.parents }
    else if key = lit "author" then commitloop (splitline s).2 { c with author := val }
    else if key = lit "committer" then commitloop (splitline s).2 { c with committer := val }
    else commitloop (splitline s).2 c
termination_by s.length
decreasing_by
  all_goals
    have hlen := splitline_length s
    have hpos := List.length_pos_of_ne_nil _h
    omega

def parsecommit (data : List UInt8) : Except Str Commit := do
  let c ← commitloop (string data) ⟨nullhash, [], [], [], []⟩
  .ok { c with parents := c.parents.reverse }

structure Tag where
  obj : Hash
  otype : ℕ
  name : Str
  tagger : Str
  msg : Str

def tagloop (s : Str) (t : Tag) : Except Str Tag :=
  if _h : (splitline s).1 = [] then .ok { t with msg := (splitline s).2 }
  else
    let key := (splitfirst ' ' (splitline s).1).1
    let val := (splitfirst ' ' (splitline s).1).2
    if key = lit "object" then
      match parsehash val with
      | .error err => .error (lit "bad tag object hash: " ++ err)
      | .ok h => tagloop (splitline s).2 { t with obj := h }
    else if key = lit "type" then tagloop (splitline s).2 { t with otype := typenum val }
    else if key = lit "tag" then tagloop (splitline s).2 { t with name := val }
    else if key = lit "tagger" then tagloop (splitline s).2 { t with tagger := val }
    else tagloop (splitline s).2 t
termination_by s.length
decreasing_by
  all_goals
    have hlen := splitline_length s
    have hpos := List.length_pos_of_ne_nil _h
    omega

def parsetag (data : List UInt8) : Except Str Tag :=
  tagloop (string data) ⟨nullhash, 0, [], [], []⟩

structure TreeEntry where
  mode : ℤ
  name : Str
  hash : Hash

/-- The digits of a mode, in an int; `none` where one is not octal. -/
def octal (mode : ℤ) : List UInt8 → Option ℤ
  | [] => some mode
  | b :: data =>
    if b.toNat < 48 ∨ 55 < b.toNat then none else octal (int (mode * 8 + (b.toNat - 48))) data

def hashat (data : List UInt8) : Hash := fun i => data.getD i 0

def parseentry (data : List UInt8) : Except Str (TreeEntry × List UInt8) :=
  match data.dropWhile (· ≠ 32) with
  | [] => .error (lit "malformed tree: no space")
  | _ :: rest =>
    match octal 0 (data.takeWhile (· ≠ 32)) with
    | none => .error (lit "bad octal in tree mode")
    | some mode =>
      match rest.dropWhile (· ≠ 0) with
      | [] => .error (lit "malformed tree: no null")
      | _ :: after =>
        if after.length < 20 then .error (lit "malformed tree: short hash")
        else .ok (⟨mode, string (rest.takeWhile (· ≠ 0)), hashat after⟩, after.drop 20)

theorem parseentry_length {data rest : List UInt8} {e : TreeEntry}
    (h : parseentry data = .ok (e, rest)) : rest.length < data.length := by
  rw [parseentry] at h
  split at h
  · cases h
  rename_i b1 rest1 hsp
  split at h
  · cases h
  split at h
  · cases h
  rename_i b2 after hnul
  split_ifs at h with hshort
  rw [Except.ok.injEq, Prod.mk.injEq] at h
  have hlen1 := (List.dropWhile_sublist (l := data) (· ≠ 32)).length_le
  have hlen2 := (List.dropWhile_sublist (l := rest1) (· ≠ 0)).length_le
  rw [hsp, List.length_cons] at hlen1
  rw [hnul, List.length_cons] at hlen2
  rw [← h.2, List.length_drop]
  omega

def parsetree (data : List UInt8) : Except Str (List TreeEntry) :=
  if data = [] then .ok []
  else
    match _h : parseentry data with
    | .error err => .error err
    | .ok (e, rest) => (parsetree rest).map (e :: ·)
termination_by data.length
decreasing_by exact parseentry_length _h

theorem hexval_hexdigit {v : ℕ} (hv : v < 16) : hexval (hexdigit v) = some v := by
  revert v
  decide

theorem pairs_get {α β : Type} (f g : α → β) (l : List α) (i : ℕ) :
    (l.flatMap fun x => [f x, g x])[2 * i]? = l[i]?.map f ∧
      (l.flatMap fun x => [f x, g x])[2 * i + 1]? = l[i]?.map g := by
  induction l generalizing i with
  | nil => simp
  | cons x l ih =>
    cases i with
    | zero => simp
    | succ i =>
      rw [show 2 * (i + 1) = 2 * i + 2 by ring]
      simpa using ih i

theorem hex_get (h : Hash) (i : Fin 20) :
    h.hex.getD (2 * i) ' ' = hexdigit ((h i).toNat / 16) ∧
      h.hex.getD (2 * i + 1) ' ' = hexdigit ((h i).toNat % 16) := by
  have hi : (List.finRange 20)[(i : ℕ)]? = some i := by simp
  have hpair := pairs_get (fun i => hexdigit ((h i).toNat / 16))
    (fun i => hexdigit ((h i).toNat % 16)) (List.finRange 20) i
  rw [hi] at hpair
  rw [Hash.hex, List.getD_eq_getElem?_getD, List.getD_eq_getElem?_getD, hpair.1, hpair.2]
  exact ⟨rfl, rfl⟩

theorem hex_length (h : Hash) : h.hex.length = 40 := by
  simp [Hash.hex, List.length_flatMap]

theorem parsehash_hex (h : Hash) (s : Str) : parsehash (h.hex ++ s) = .ok h := by
  have hlen := hex_length h
  have hget (i : Fin 20) : (h.hex ++ s).getD (2 * i) ' ' = hexdigit ((h i).toNat / 16) ∧
      (h.hex ++ s).getD (2 * i + 1) ' ' = hexdigit ((h i).toNat % 16) := by
    have hi := i.2
    rw [List.getD_append _ _ _ _ (by omega), List.getD_append _ _ _ _ (by omega)]
    exact hex_get h i
  have hval (i : Fin 20) := hexval_hexdigit (v := (h i).toNat / 16)
    (by have := (h i).toNat_lt; omega)
  have hval' (i : Fin 20) := hexval_hexdigit (v := (h i).toNat % 16) (Nat.mod_lt _ (by norm_num))
  rw [parsehash, if_neg (by rw [List.length_append]; omega)]
  rw [if_pos fun i => by rw [(hget i).1, (hget i).2, hval, hval']; exact ⟨rfl, rfl⟩]
  congr 1
  funext i
  rw [(hget i).1, (hget i).2, hval, hval', Option.getD_some, Option.getD_some,
    Nat.div_add_mod']
  exact UInt8.ofNat_toNat

theorem hex_injective : Function.Injective Hash.hex := by
  intro h h' heq
  have hparse := parsehash_hex h []
  rw [heq, parsehash_hex h' [], Except.ok.injEq] at hparse
  exact hparse.symm

end Infernode.Git
