import Infernode.Bridge.Reply
import Infernode.Limbo.Token
import Infernode.Tools.Files

/-!
# The arguments of a native call

A native call of `edit` or `write` gives a JSON object, which `toolargs` makes into one string
and the tool reads again. The texts of an edit are quoted, a quote in them escaped with a
backslash; the content of a write goes as it is; a list of edits goes as the JSON that it
was. The reader of JSON and the text of a value that is no string are parameters.
-/

namespace Infernode.Bridge

open Limbo
open Tools (dropnl)

inductive JValue
  | object (mem : List (Str × JValue))
  | array (a : List JValue)
  | string (s : Str)
  | other (t : Str)

variable (readjson : Str → Except Str JValue) (text : JValue → Str)

def JValue.val : JValue → Str
  | .string s => s
  | v => text v

def JValue.mem : JValue → List (Str × JValue)
  | .object mem => mem
  | _ => []

def JValue.last (jv : JValue) (name : Str) : Str :=
  (((jv.mem.filter fun m => m.1 = name).getLast?).map fun m => m.2.val text).getD []

def jget (jv : JValue) (key : Str) : Option JValue := jv.mem.lookup key

def editquotechar (c : Char) : Str := if c = '"' then ['\\', '"'] else [c]

def editquote (s : Str) : Str := ['"'] ++ s.flatMap editquotechar ++ ['"']

def editargs (inputjson : Str) : Str :=
  match readjson inputjson with
  | .ok (.object mem) =>
    let jv := JValue.object mem
    match jget jv (lit "args") with
    | some v => v.val text
    | none =>
      let path := jv.last text (lit "path")
      if (jget jv (lit "edits")).isSome then lit "-j " ++ path ++ lit " " ++ inputjson
      else
        let all := jv.last text (lit "all")
        lit "-r " ++ path ++ lit " " ++ editquote (jv.last text (lit "old")) ++ lit " " ++
          editquote (jv.last text (lit "new")) ++
          if all = lit "true" ∨ all = lit "all" ∨ all = lit "1" then lit " all" else []
  | _ => inputjson

def addword (result word : Str) : Str := (if result = [] then [] else result ++ [' ']) ++ word

def extracttoolargs (inputjson : Str) : Str :=
  match readjson inputjson with
  | .ok (.object mem) =>
    let jv := JValue.object mem
    let hascmd := (jget jv (lit "command")).isSome
    let hasargs := (jget jv (lit "args")).isSome
    let argsval := jv.last text (lit "args")
    let others := (mem.filter fun m => m.1 ≠ lit "command" ∧ m.1 ≠ lit "args").map
      fun m => m.2.val text
    if hasargs ∧ mem.length = 1 then argsval
    else
      let result := if hascmd then jv.last text (lit "command") else []
      let result := if hasargs then addword result argsval else result
      others.foldl addword result
  | _ => inputjson

def writeargs (inputjson : Str) : Str :=
  match readjson inputjson with
  | .ok (.object mem) =>
    let jv := JValue.object mem
    match jget jv (lit "args") with
    | some v => v.val text
    | none =>
      let path := jv.last text (lit "path")
      if path = [] then extracttoolargs readjson text inputjson
      else lit "-r " ++ path ++ lit " " ++ jv.last text (lit "content") ++ lit "\n"
  | _ => inputjson

def findheredoc : Str → Option ℕ
  | c :: d :: s =>
    if c = '<' ∧ d = '<' ∧ s.head? ≠ some '<' then some 0
    else (findheredoc (d :: s)).map (· + 1)
  | _ => none

def space (c : Char) : Bool := c = ' ' ∨ c = '\t'

def heredocdelim (first : Str) (markerpos : ℕ) : Str :=
  let word := ((first.drop (markerpos + 2)).dropWhile space).takeWhile fun c => !space c
  if word = [] then lit "EOF" else word

def firstline (args : Str) : Str := args.takeWhile fun c => c ≠ '\n'

def otherlines (args : Str) : List Str := splitlines (args.drop ((firstline args).length + 1))

def parseheredoc (first : Str) (markerpos : ℕ) (lines : List Str) : Str :=
  let argsbefore := strip (first.take markerpos)
  let content :=
    (lines.takeWhile fun l => strip l ≠ heredocdelim first markerpos).foldl addline []
  argsbefore ++ (if argsbefore ≠ [] ∧ content ≠ [] then lit " " else []) ++ content

def lastline (lines : List Str) : Str :=
  lines.foldl (fun last l => if strip l ≠ [] then strip l else last) []

/-- The last line of the arguments is the delimiter of a heredoc that the first begins. -/
def Heredoc (args : Str) (markerpos : ℕ) : Prop :=
  '\n' ∈ args ∧ lastline (otherlines args) = heredocdelim (firstline args) markerpos

instance (args : Str) (markerpos : ℕ) : Decidable (Heredoc args markerpos) :=
  inferInstanceAs (Decidable (_ ∧ _))

def nativeheredoc (args : Str) : Str :=
  match findheredoc (firstline args) with
  | none => args
  | some markerpos =>
    if Heredoc args markerpos then parseheredoc (firstline args) markerpos (otherlines args)
    else args

def Literal (args : Str) : Prop :=
  ∀ markerpos ∈ findheredoc (firstline args), ¬Heredoc args markerpos

instance (args : Str) : Decidable (Literal args) :=
  inferInstanceAs (Decidable (∀ markerpos ∈ findheredoc (firstline args), _))

def quoted (quote : Char) : Str → Str × Str
  | [] => ([], [])
  | [c] => if c = quote then ([], []) else ([c], [])
  | c :: d :: s =>
    if c = '\\' ∧ d = quote then (quote :: (quoted quote s).1, (quoted quote s).2)
    else if c = quote then ([], d :: s)
    else (c :: (quoted quote (d :: s)).1, (quoted quote (d :: s)).2)

def parseone (s : Str) : Str × Str :=
  match s.dropWhile space with
  | [] => ([], [])
  | c :: s =>
    if c = '"' ∨ c = '\'' then quoted c s
    else ((c :: s).takeWhile fun c => !space c, (c :: s).dropWhile fun c => !space c)

structure Change where
  old : Str
  new : Str
  all : Bool
  deriving DecidableEq

def parseargs (s : Str) : Str × Change :=
  let (path, s) := parseone s
  if path = [] then ([], ⟨[], [], false⟩)
  else
    let (old, s) := parseone s
    if old = [] then (path, ⟨[], [], false⟩)
    else
      let (new, s) := parseone s
      (path, ⟨old, new, (parseone s).1 = lit "all"⟩)

def jstr (jv : JValue) (key : Str) : Str := ((jget jv key).map (JValue.val text)).getD []

def onechange (missing : Str) (jv : JValue) : Except Str Change :=
  let old := jstr text jv (lit "old")
  if old = [] then .error missing
  else
    let all := jstr text jv (lit "all")
    .ok ⟨old, jstr text jv (lit "new"), all = lit "all" ∨ all = lit "true" ∨ all = lit "1"⟩

def changesfrom (i : ℕ) : List JValue → Except Str (List Change)
  | [] => .ok []
  | jv :: a => (changesfrom (i + 1) a).bind fun changes =>
    (onechange text (lit "edits[" ++ decimal i ++ lit "] has no old text") jv).map (· :: changes)

def parsechanges : ℕ → Str → Except Str (List Change)
  | 0, _ => .error (lit "too deep")
  | depth + 1, js =>
    match readjson js with
    | .error err => .error (lit "arguments are not JSON: " ++ err)
    | .ok jv =>
      let single (changes : List Change) : Except Str (List Change) :=
        if (jget jv (lit "old")).isSome then 
          (onechange text (lit "no search text specified") jv).map (· :: changes)
        else if changes = [] then .error (lit "no change given: send old and new, or edits")
        else .ok changes
      match jget jv (lit "edits") with
      | none => single []
      | some (.array a) => (changesfrom text 0 a).bind single
      | some (.string s) => parsechanges depth (lit "\x7b\"edits\":" ++ s ++ lit "\x7d")
      | some _ => .error (lit "edits must be a list of \x7bold, new\x7d")

def editread (depth : ℕ) (args : Str) : Except Str (Str × List Change × Bool) :=
  if 3 < args.length ∧ prefixed args (lit "-j ") then
    let (path, rest) := parseone (args.drop 3)
    (parsechanges readjson text depth rest).map fun changes => (path, changes, true)
  else if 3 < args.length ∧ prefixed args (lit "-r ") then
    let (path, change) := parseargs (args.drop 3)
    .ok (path, [change], true)
  else
    let (path, change) := parseargs args
    .ok (path, [change], false)

def separates (c : Char) : Bool := c = ' ' ∨ c = '\t' ∨ c = '\n'

def rawargs (s : Str) : Str × Str :=
  (s.takeWhile fun c => !separates c, (s.dropWhile fun c => !separates c).drop 1)

def writeread (args : Str) : Option (Str × Str) :=
  if 3 < args.length ∧ prefixed args (lit "-r ") then some (rawargs (args.drop 3)) else none

end Infernode.Bridge
