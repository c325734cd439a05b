import Infernode.Veltro.Grant
import Infernode.Tools.Known
import Infernode.Limbo.Token

/-!
# What a tools9p may use

The tools, the delegation budget and the path grants of a server, and the commands of
its ctl file that change the grants. A server carries what its option parsing and these
commands check: every tool is known, and every path granted passes `validatepath` and is
neither privileged nor the scratch.
-/

namespace Infernode.Delegate

open Limbo Veltro.Grant
open Tools (Registry)

inductive Perm
  | ro
  | rw
  deriving DecidableEq

def Perm.text : Perm → Str
  | .ro => "ro"
  | .rw => "rw"

def permof (s : Str) : Option Perm :=
  if s = lit "ro" then some .ro else if s = lit "rw" then some .rw else none

structure BoundPath where
  path : Str
  perm : Perm
  deriving DecidableEq

inductive Access
  | cow
  | bound (perm : Perm)
  deriving DecidableEq

def scratch : Str := "/tmp/veltro/scratch"

def lastspace (s : Str) : ℕ → Option ℕ
  | 0 => none
  | i + 1 => if s[i + 1]? = some ' ' then some (i + 1) else lastspace s i

def permtail (c : Char) (s : Str) : Option Perm :=
  if 3 < s.length ∧ s[s.length - 3]? = some c then permof (s.drop (s.length - 2)) else none

def splitpathperm (s : Str) : Str × Perm :=
  match permtail ':' s with
  | some perm => (s.take (s.length - 3), perm)
  | none =>
    match lastspace s (s.length - 1) with
    | none => (s, .rw)
    | some i =>
      match permof (s.drop (i + 1)) with
      | some perm => (s.take i, perm)
      | none => (s, .rw)

def baselinepath (p : Str) : Bool :=
  withinany ["/lib/veltro", "/lib/certs", "/dis/veltro", "/dev/time", "/dev/cons", "/dev/null"] p

def bindpathallowed (path : Str) : Bool := grantpathallowed path []

def Grantable (path : Str) : Prop :=
  validatepath path = none ∧ bindpathallowed path = true ∧ path ≠ scratch

instance (path : Str) : Decidable (Grantable path) := inferInstanceAs (Decidable (_ ∧ _ ∧ _))

structure Server where
  reg : Registry
  budget : List Str
  extpaths : List Str
  boundpaths : List BoundPath
  provisionstates : List (ℕ × Str)
  verbose : Bool
  known : reg.Known
  extgrants : ∀ p ∈ extpaths, Grantable p
  grants : ∀ b ∈ boundpaths, Grantable b.path

def findboundpath (boundpaths : List BoundPath) (path : Str) : Option BoundPath :=
  boundpaths.find? fun b => b.path = path

def narrower (path : Str) (best : Str × Perm) (b : BoundPath) : Str × Perm :=
  if within b.path path ∧
      (best.1.length < b.path.length ∨ b.path.length = best.1.length ∧ b.perm = .ro) then
    (b.path, b.perm)
  else best

def pathperm (boundpaths : List BoundPath) (path : Str) : Access :=
  if path = scratch then .cow else .bound (boundpaths.foldl (narrower path) ([], .ro)).2

def policyroot (path : Str) : Bool :=
  decide (asciilower path ∈ (["/dev", "/dis", "/env", "/lib", "/n", "/n/local", "/prog", "/tmp",
    "/tmp/veltro", "/tool", "/mnt", "/chan", "/fd", "/phone", "/net", "/net.alt"].map lit))

structure Tree where
  stat : Str → Bool
  up : ∀ root path, within root path = true → stat path = true → stat root = true

def grantcovers (tree : Tree) (grant path : Str) : Bool :=
  within grant path && (grant == path || !policyroot grant) && tree.stat path

namespace Server

def toolavailable (S : Server) (name : Str) : Bool :=
  (S.reg.findtool name).isSome || (S.reg.findalltool name).isSome

def childbudget (S : Server) : List Str := (S.budget.filter S.toolavailable).reverse

def childpathallowed (tree : Tree) (S : Server) (path : Str) : Bool :=
  if !grantpathallowed path [] then false
  else if path = lit "/mnt/msg/draft" ∨ path = lit "/mnt/msg/flag" then
    decide (path ∈ S.extpaths) || (findboundpath S.boundpaths path).isSome
  else
    (S.extpaths.any fun ep => grantcovers tree ep path) ||
      S.boundpaths.any fun bp => grantcovers tree bp.path path

def setbound (path : Str) (perm : Perm) : List BoundPath → List BoundPath
  | [] => []
  | b :: bs => if b.path = path then { b with perm := perm } :: bs else b :: setbound path perm bs

theorem setbound_path (path : Str) (perm : Perm) (bs : List BoundPath) :
    (setbound path perm bs).map (·.path) = bs.map (·.path) := by
  induction bs with
  | nil => rfl
  | cons c bs ih =>
    rw [setbound]
    split_ifs <;> simp [ih]

theorem setbound_grants (S : Server) (path : Str) (perm : Perm) :
    ∀ b ∈ setbound path perm S.boundpaths, Grantable b.path := by
  intro b hb
  have hmem := List.mem_map_of_mem (f := (·.path)) hb
  rw [setbound_path] at hmem
  obtain ⟨b', hb', hp⟩ := List.mem_map.mp hmem
  exact hp ▸ S.grants b' hb'

def bindpath (S : Server) (rest : Str) : Server × Option Str :=
  let bp := splitpathperm rest
  match hv : validatepath bp.1 with
  | some perr => (S, some ("invalid path: " ++ lit perr))
  | none =>
    if ha : bindpathallowed bp.1 = false then
      (S, some ("privileged path not bindable: " ++ bp.1))
    else if hs : bp.1 = scratch then
      (S, some "activity scratch is an implicit cow capability")
    else if (findboundpath S.boundpaths bp.1).isSome then
      ({ S with boundpaths := setbound bp.1 bp.2 S.boundpaths
                grants := setbound_grants S bp.1 bp.2 }, none)
    else
      ({ S with boundpaths := ⟨bp.1, bp.2⟩ :: S.boundpaths
                grants := List.forall_mem_cons.mpr
                  ⟨⟨hv, by simpa using ha, hs⟩, S.grants⟩ }, none)

def unbindpath (S : Server) (p : Str) : Server × Option Str :=
  match validatepath p with
  | some perr => (S, some ("invalid path: " ++ lit perr))
  | none =>
    ({ S with boundpaths := (S.boundpaths.filter fun b => b.path ≠ p).reverse
              grants := fun b hb => S.grants b (by simp_all) }, none)

def setperm (S : Server) (rest : Str) : Server × Option Str :=
  let sp := splitpathperm rest
  match validatepath sp.1 with
  | some perr => (S, some ("invalid path: " ++ lit perr))
  | none =>
    if (findboundpath S.boundpaths sp.1).isSome then
      ({ S with boundpaths := setbound sp.1 sp.2 S.boundpaths
                grants := setbound_grants S sp.1 sp.2 }, none)
    else (S, some ("path not bound: " ++ sp.1))

end Server

inductive Ctl where
  | bindpath (rest : Str)
  | unbindpath (p : Str)
  | setperm (rest : Str)

def Server.ctl (S : Server) : Ctl → Server
  | .bindpath rest => (S.bindpath rest).1
  | .unbindpath p => (S.unbindpath p).1
  | .setperm rest => (S.setperm rest).1

/-!
## A provision request

`provisionparse` reads `<id> [tools=<csv>] [paths=<csv>]`, refuses what the server may not
hand on, and makes the argument list of the child. `provisionwrite` is what a write of such
a request comes to: a refusal, or a child that is started.
-/

def parseactivityid (s : Str) : Except Str ℕ :=
  if s = [] then .error "missing activity id"
  else if s.all isdigit = false then .error "activity id must be decimal digits"
  -- an int that wrapped to a negative one
  else if 2 ^ 31 ≤ decvalue s % 2 ^ 32 then .error "invalid activity id"
  else .ok (decvalue s % 2 ^ 32)

def validtoolchar (c : Char) : Bool :=
  ('a' ≤ c && c ≤ 'z') || isdigit c || c == '-' || c == '_' || c == '.'

def validtooltoken (name : Str) : Bool := name ≠ [] && name.all validtoolchar

structure Attrs where
  toolsarg : Str
  pathsarg : Str
  seentools : Bool
  seenpaths : Bool
  deriving DecidableEq

def parseattrs : List Str → Attrs → Except Str Attrs
  | [], attrs => .ok attrs
  | tok :: toks, attrs =>
    if 6 < tok.length ∧ tok.take 6 = lit "tools=" then
      if attrs.seentools then .error "duplicate tools= attr"
      else parseattrs toks { attrs with seentools := true, toolsarg := tok.drop 6 }
    else if 6 < tok.length ∧ tok.take 6 = lit "paths=" then
      if attrs.seenpaths then .error "duplicate paths= attr"
      else parseattrs toks { attrs with seenpaths := true, pathsarg := tok.drop 6 }
    else .error ("unknown attr " ++ tok)

def basics : List Str := ["read", "list", "find", "search", "grep"].map lit

def explicitrw (raw : Str) : Bool :=
  decide (permtail ':' raw = some .rw ∨ permtail ' ' raw = some .rw)

def asked (raw : Str) : Option BoundPath :=
  let pp := splitpathperm raw
  if within scratch pp.1 then none
  else if !explicitrw raw && baselinepath pp.1 then none
  else some ⟨pp.1, pp.2⟩

def capped (boundpaths : List BoundPath) (b : BoundPath) : BoundPath :=
  if pathperm boundpaths b.path = .bound .ro then { b with perm := .ro } else b

namespace Server

def parsetools (S : Server) : List Str → List Str → Except Str (List Str)
  | [], toollist => .ok toollist
  | tname :: ttoks, toollist =>
    if !validtooltoken tname then .error ("invalid tool name " ++ tname)
    else if !inlist tname S.childbudget || !S.toolavailable tname then
      .error ("denied tool " ++ tname ++ " (not in delegation budget)")
    else parsetools S ttoks (tname :: toollist)

def addbasics (S : Server) : List Str → List Str → List Str
  | [], toollist => toollist
  | bl :: bls, toollist =>
    addbasics S bls
      (if (S.reg.findtool bl).isSome && !inlist bl toollist then bl :: toollist else toollist)

def parsepaths (tree : Tree) (S : Server) : List Str → List BoundPath → Except Str (List BoundPath)
  | [], pathcaps => .ok pathcaps
  | raw :: ptoks, pathcaps =>
    if raw = [] then .error "empty path in paths="
    else
      match validatepath (splitpathperm raw).1 with
      | some perr =>
        .error ("denied invalid path " ++ (splitpathperm raw).1 ++ ": " ++ lit perr)
      | none =>
        match asked raw with
        | none => parsepaths tree S ptoks pathcaps
        | some b =>
          if !S.childpathallowed tree b.path then
            .error ("denied path " ++ b.path ++ " (outside this agent's grants)")
          else parsepaths tree S ptoks (capped S.boundpaths b :: pathcaps)

end Server

def mountpoint (id : ℕ) : Str := "/tool." ++ decimal id

def grantarg (bp : BoundPath) : Str := bp.path ++ ":" ++ bp.perm.text

def childargs (verbose : Bool) (id : ℕ) (toollist : List Str) (pathcaps : List BoundPath) :
    List Str :=
  let rargs := toollist.foldl (fun rargs t => t :: rargs) []
  let rargs := pathcaps.foldl (fun rargs bp => lit "-p" :: grantarg bp :: rargs) rargs
  let rargs := lit "-r" :: lit "child" :: lit "-a" :: decimal id :: lit "-m" :: mountpoint id :: rargs
  lit "tools9p" :: if verbose then lit "-v" :: rargs else rargs

structure Child where
  id : ℕ
  mpt : Str
  rargs : List Str
  deriving DecidableEq

def Server.provisionparse (tree : Tree) (S : Server) (args : Str) : Except Str Child :=
  match tokenize args [' '] with
  | [] => .error "no activity id"
  | idstr :: toks =>
    match parseactivityid idstr with
    | .error iderr => .error ("invalid id " ++ idstr ++ ": " ++ iderr)
    | .ok id =>
      match parseattrs toks ⟨[], [], false, false⟩ with
      | .error e => .error e
      | .ok attrs =>
        match S.parsetools (tokenize attrs.toolsarg [',']) [] with
        | .error e => .error e
        | .ok toollist =>
          match S.parsepaths tree (tokenize attrs.pathsarg [',']) [] with
          | .error e => .error e
          | .ok pathcaps =>
            .ok ⟨id, mountpoint id, childargs S.verbose id (S.addbasics basics toollist) pathcaps⟩

inductive Outcome
  | refused (err : Str)
  | started (child : Child)
  deriving DecidableEq

def replacestate (id : ℕ) (state : Str) : List (ℕ × Str) → Option (List (ℕ × Str))
  | [] => none
  | ps :: pss =>
    if ps.1 = id then some ((id, state) :: pss) else (replacestate id state pss).map (ps :: ·)

def setprovisionstate (id : ℕ) (state : Str) (states : List (ℕ × Str)) : List (ℕ × Str) :=
  (replacestate id state states).getD ((id, state) :: states)

def Server.provisionwrite (tree : Tree) (S : Server) (args : Str) : Server × Outcome :=
  match S.provisionparse tree args with
  | .error e => (S, .refused ("provision refused: " ++ e))
  | .ok child =>
    ({ S with provisionstates := setprovisionstate child.id "starting" S.provisionstates }, .started child)

end Infernode.Delegate
