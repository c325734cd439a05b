import Infernode.Limbo.Utf

/-!
# The tools of tools9p

The active tools and the pool of inactive ones, and the commands that move a tool between
them. An active tool has a block of `TOOL_STRIDE` qids, from its own one on. A result is
kept with the tool whose module gave it.
-/

namespace Infernode.Tools

open Limbo

def Qtoolbase : ℕ := 100
def TOOL_STRIDE : ℕ := 5
def Qtool_dir : ℕ := 0
def Qtool_ctl : ℕ := 1
def Qtool_doc : ℕ := 2
def Qtool_schema : ℕ := 3
def Qtool_run : ℕ := 4

structure Result where
  tool : Str
  data : List UInt8
  deriving DecidableEq

structure ToolInfo where
  name : Str
  mod : Bool
  qid : ℕ
  result : Option Result
  deriving DecidableEq

def toolnames : List Str :=
  ["read", "list", "find", "search", "write", "edit", "exec", "launch", "spawn", "xenith",
    "present", "gap", "diff", "json", "webfetch", "git", "grep", "memory", "todo", "websearch",
    "browse", "charon", "gps", "gpu", "say", "hear", "vision", "editor", "shell", "fractal",
    "man", "matrix", "window", "task", "plan", "wiki", "keyring", "wallet", "payfetch", "limbo",
    "sms", "dial", "contacts"].map lit

structure Registry where
  tools : List ToolInfo
  alltools : List ToolInfo
  vers : ℕ
  deriving DecidableEq

def findin (tools : List ToolInfo) (name : Str) : Option ToolInfo :=
  tools.find? fun ti => ti.name = asciilower name

def Registry.findtool (r : Registry) (name : Str) : Option ToolInfo := findin r.tools name

def Registry.findalltool (r : Registry) (name : Str) : Option ToolInfo := findin r.alltools name

def toolqtype (qid : ℕ) : ℕ × ℕ :=
  let off := qid - Qtoolbase
  (Qtoolbase + off / TOOL_STRIDE * TOOL_STRIDE, off % TOOL_STRIDE)

def Registry.findtoolbyqid (r : Registry) (qid : ℕ) : Option ToolInfo :=
  if qid < Qtoolbase then none
  else r.tools.find? fun ti => ti.qid = (toolqtype qid).1

def Registry.nextqid (r : Registry) : ℕ :=
  r.tools.foldl (fun maxqid ti => max maxqid ti.qid) (Qtoolbase - TOOL_STRIDE) + TOOL_STRIDE

inductive Refusal
  | unknown
  | notloaded
  deriving DecidableEq

def Registry.ctladd (r : Registry) (name : Str) : Registry × Option Refusal :=
  let lname := asciilower name
  if (r.findtool lname).isSome then (r, none)
  else
    match r.findalltool lname with
    | none => (r, some .unknown)
    | some ti =>
      if ti.mod = false then (r, some .notloaded)
      else
        ({ tools := { ti with qid := r.nextqid } :: r.tools
           alltools := (r.alltools.filter fun t => t.name ≠ ti.name).reverse
           vers := r.vers + 1 }, none)

def Registry.ctlremove (r : Registry) (name : Str) : Registry :=
  let lname := asciilower name
  { tools := (r.tools.filter fun t => t.name ≠ lname).reverse
    alltools := ((r.tools.filter fun t => t.name = lname).map fun t =>
      { t with qid := 0 }).reverse ++ r.alltools
    vers := r.vers + 1 }

def Registry.setresult (r : Registry) (name : Str) (result : Result) : Registry :=
  let set := fun ti : ToolInfo => if ti.name = name then { ti with result := some result } else ti
  { r with tools := r.tools.map set, alltools := r.alltools.map set }

def initloop (loads : Str → Bool) : List Str → ℕ → List ToolInfo → List ToolInfo
  | [], _, tools => tools
  | arg :: args, qid, tools =>
    let name := asciilower arg
    if name ∉ toolnames then initloop loads args qid tools
    else if (findin tools name).isSome then initloop loads args qid tools
    else initloop loads args (qid + TOOL_STRIDE) (⟨name, loads name, qid, none⟩ :: tools)

def inittools (loads : Str → Bool) (args : List Str) : Registry :=
  let tools := (initloop loads args Qtoolbase []).reverse
  { tools := tools
    alltools := ((toolnames.filter fun name => (findin tools name).isNone).map fun name =>
      ⟨name, loads name, 0, none⟩).reverse
    vers := 0 }

/-!
## The files of tools9p

The tree that `navigator` answers for, the fids of styxservers, and the requests that
`serveloop` takes. A fid is an object: a call that runs keeps the object, also when its
number has been given to another. The navigator answers a directory read with one reply
for each entry and a nil one at the end, and its reader stops at the first nil; a reply
that nobody takes stops the navigator, and with it the server. What the files of the root
hold that no tool stands behind is left out.
-/

def Qroot : ℕ := 0
def Qtools : ℕ := 1
def Qhelp : ℕ := 2
def Qregistry : ℕ := 3
def Qctl : ℕ := 4
def Qpaths : ℕ := 5
def Qbudget : ℕ := 6
def Qactivity : ℕ := 7
def Qprovision : ℕ := 8
def Qmeta : ℕ := 9
def Qmetarole : ℕ := 10
def Qmetaxenith : ℕ := 11
def Qmetaactid : ℕ := 12
def Qmetanodevs : ℕ := 13
def Qgrantable : ℕ := 14
def Qns : ℕ := 15
def Qevent : ℕ := 16
def Qview : ℕ := 17

def TYPE (path : ℕ) : ℕ := path % 2 ^ 16

structure Dir where
  path : ℕ
  vers : ℕ
  isdir : Bool
  name : Str
  perm : ℕ
  deriving DecidableEq

def fixedfiles : List (ℕ × Str × Bool × ℕ) :=
  [(Qroot, lit "/", true, 0o755), (Qtools, lit "tools", false, 0o444),
    (Qgrantable, lit "grantable", false, 0o444), (Qhelp, lit "help", false, 0o644),
    (Qregistry, lit "_registry", false, 0o444), (Qctl, lit "ctl", false, 0o644),
    (Qpaths, lit "paths", false, 0o444), (Qbudget, lit "budget", false, 0o444),
    (Qactivity, lit "activity", false, 0o444), (Qprovision, lit "provision", false, 0o644),
    (Qmeta, lit "meta", true, 0o555), (Qmetarole, lit "role", false, 0o444),
    (Qmetaxenith, lit "xenith", false, 0o444), (Qmetaactid, lit "actid", false, 0o444),
    (Qmetanodevs, lit "nodevs", false, 0o444), (Qns, lit "ns", false, 0o444),
    (Qevent, lit "event", false, 0o444), (Qview, lit "view", false, 0o644)]

def toolfiles : List (ℕ × Str × Bool × ℕ) :=
  [(Qtool_ctl, lit "ctl", false, 0o644), (Qtool_doc, lit "doc", false, 0o444),
    (Qtool_schema, lit "schema", false, 0o444), (Qtool_run, lit "run", false, 0o644)]

def toolfile (p vers : ℕ) (ti : ToolInfo) (suboff : ℕ) : Option Dir :=
  if suboff = Qtool_dir then some ⟨p, vers, true, ti.name, 0o755⟩
  else (toolfiles.lookup suboff).map fun (name, isdir, perm) => ⟨p, vers, isdir, name, perm⟩

def Registry.dirgen (r : Registry) (p : ℕ) : Option Dir :=
  match fixedfiles.lookup (TYPE p) with
  | some (name, isdir, perm) => some ⟨p, r.vers, isdir, name, perm⟩
  | none =>
    (r.findtoolbyqid (TYPE p)).bind fun ti => toolfile p r.vers ti (toolqtype (TYPE p)).2

def rootfiles : List (Str × ℕ) :=
  [(lit "tools", Qtools), (lit "grantable", Qgrantable), (lit "help", Qhelp),
    (lit "_registry", Qregistry), (lit "ctl", Qctl), (lit "paths", Qpaths),
    (lit "budget", Qbudget), (lit "activity", Qactivity), (lit "meta", Qmeta), (lit "ns", Qns),
    (lit "event", Qevent), (lit "view", Qview)]

def metafiles : List (Str × ℕ) :=
  [(lit "role", Qmetarole), (lit "xenith", Qmetaxenith), (lit "actid", Qmetaactid),
    (lit "nodevs", Qmetanodevs)]

def subfiles : List (Str × ℕ) :=
  [(lit "ctl", Qtool_ctl), (lit "doc", Qtool_doc), (lit "schema", Qtool_schema),
    (lit "run", Qtool_run)]

inductive Err
  | Ebadfid
  | Eopen
  | Einuse
  | Enotfound
  | Enotdir
  | Eperm
  | Ebadarg
  | Enotopen
  | Eaccess
  | Etoolarge
  | Efailed
  | Erefused (why : Refusal)
  deriving DecidableEq

def Registry.navwalk (r : Registry) (path : ℕ) (name : Str) : Except Err ℕ :=
  let qtype := TYPE path
  if qtype = Qroot then
    if name = lit ".." then .ok path
    else
      match rootfiles.lookup name with
      | some p => .ok p
      | none =>
        if name = lit "provision" then
          if (r.findtool (lit "task")).isNone then .error .Enotfound else .ok Qprovision
        else
          match r.findtool name with
          | none => .error .Enotfound
          | some ti => .ok ti.qid
  else if qtype = Qmeta then
    if name = lit ".." then .ok Qroot
    else
      match metafiles.lookup name with
      | some p => .ok p
      | none => .error .Enotfound
  else if qtype ≥ Qtoolbase then
    if (toolqtype qtype).2 ≠ Qtool_dir then .error .Enotdir
    else if name = lit ".." then .ok Qroot
    else
      match subfiles.lookup name with
      | some suboff => .ok (qtype + suboff)
      | none => .error .Enotfound
  else .error .Enotdir

def Registry.walk1 (r : Registry) (path : ℕ) (name : Str) : Except Err Dir :=
  match r.dirgen path with
  | none => .error .Enotfound
  | some d =>
    if d.isdir = false then .error .Enotdir
    else
      match r.navwalk d.path name with
      | .error e => .error e
      | .ok p =>
        match r.dirgen p with
        | none => .error .Enotfound
        | some d => .ok d

def Registry.rootlist (r : Registry) : List ℕ :=
  [Qtools, Qhelp, Qregistry, Qctl, Qpaths, Qbudget, Qactivity, Qmeta, Qgrantable, Qns, Qevent,
    Qview] ++ (if (r.findtool (lit "task")).isSome then [Qprovision] else []) ++
    r.tools.map ToolInfo.qid

def sent (i count k : ℕ) : List ℕ → List ℕ
  | [] => []
  | p :: ps =>
    if i ≤ k ∧ 0 < count then p :: sent (i + 1) (count - 1) (k + 1) ps
    else sent i count (k + 1) ps

/-- What `navigator` answers a `Readdir` with, up to the nil at its end. -/
def Registry.replies (r : Registry) (path i count : ℕ) : List (Option Dir) :=
  let qtype := TYPE path
  if qtype = Qroot then (sent i count 0 r.rootlist).map r.dirgen
  else if qtype = Qmeta then
    (sent i count 0 [Qmetarole, Qmetaxenith, Qmetaactid, Qmetanodevs]).map r.dirgen
  else if qtype ≥ Qtoolbase ∧ (toolqtype qtype).2 = Qtool_dir then
    (sent i count 0 (subfiles.map fun f => qtype + f.2)).map r.dirgen
  else []

/-- `tool` is the tool whose directory the fid was walked into; the code does not have it. -/
structure Fid where
  path : ℕ
  isdir : Bool
  isopen : Bool
  mode : ℕ
  data : Option Result
  tool : Option Str
  deriving DecidableEq

inductive Callreply
  | write
  | read
  | none
  deriving DecidableEq

structure Call where
  cr : Callreply
  tool : Str
  fid : Option ℕ
  args : Str
  deriving DecidableEq

structure Server where
  reg : Registry
  obj : ℕ → Fid
  next : ℕ
  fids : ℕ → Option ℕ
  pendingargs : List (ℕ × List UInt8)
  calls : List Call
  owed : Bool
  hung : Bool

inductive Request
  | attach (fid : ℕ)
  | walk (fid newfid : ℕ) (names : List Str)
  | open (fid mode : ℕ)
  | read (fid i count : ℕ)
  | write (fid : ℕ) (data : List UInt8)
  | stat (fid : ℕ)
  | clunk (fid : ℕ)
  | remove (fid : ℕ)
  | done (k : ℕ) (out : List UInt8) (ok : Bool)

inductive Answer
  | error (e : Err)
  | ok
  | dir (d : Dir)
  | dirs (ds : List Dir)
  | result (r : Result)
  | doc (tool : Str)
  | schema (tool : Str)
  | later
  | hang
  deriving DecidableEq

def MAXARGS : ℕ := 1024 * 1024

abbrev Iounit := ℕ

def Server.fid (s : Server) (fid : ℕ) : Option Fid := (s.fids fid).map s.obj

def Server.setobj (s : Server) (o : ℕ) (f : Fid) : Server :=
  { s with obj := Function.update s.obj o f }

def Server.newfid (s : Server) (fid : ℕ) (f : Fid) : Server :=
  { s with
    obj := Function.update s.obj s.next f
    next := s.next + 1
    fids := Function.update s.fids fid (some s.next) }

def Server.delfid (s : Server) (fid : ℕ) : Server :=
  { s with fids := Function.update s.fids fid none }

def Server.takeargs (s : Server) (fid : ℕ) : Server × Option (List UInt8) :=
  ({ s with pendingargs := (s.pendingargs.filter fun p => p.1 ≠ fid).reverse },
    ((s.pendingargs.filter fun p => p.1 = fid).getLast?).map Prod.snd)

def Server.keepargs (s : Server) (fid : ℕ) (b : List UInt8) : Server :=
  { s with pendingargs := (fid, b) :: s.pendingargs }

def catargs (a : Option (List UInt8)) (b : List UInt8) : List UInt8 := a.getD [] ++ b

def dropnl (data : Str) : Str := if data.getLast? = some '\n' then data.dropLast else data

def argstring (b : List UInt8) : Str := dropnl (string b)

def Server.nav (s : Server) (k : Server × Answer) : Server × Answer :=
  if s.owed then ({ s with hung := true }, .hang) else k

def walkedtool (r : Registry) (f : Fid) (name : Str) (d : Dir) : Option Str :=
  if TYPE f.path = Qroot then
    if name = lit ".." ∨ (rootfiles.lookup name).isSome ∨ name = lit "provision" then none
    else (r.findtool name).map ToolInfo.name
  else if d.path = Qroot then none else f.tool

def Registry.walkfid (r : Registry) : Fid → List Str → List Dir × Except Err Fid
  | f, [] => ([], .ok f)
  | f, name :: names =>
    match r.walk1 f.path name with
    | .error e => ([], .error e)
    | .ok d =>
      let f := { f with path := d.path, isdir := d.isdir, tool := walkedtool r f name d }
      (d :: (r.walkfid f names).1, (r.walkfid f names).2)

def Server.attach (s : Server) (fid : ℕ) : Server × Answer :=
  if (s.fids fid).isSome then (s, .error .Einuse)
  else (s.newfid fid ⟨Qroot, true, false, 0, none, none⟩, .ok)

def Server.place (s : Server) (fid newfid o : ℕ) (f : Fid) : Server :=
  if newfid = fid then s.setobj o f else s.newfid newfid f

def Server.walk (s : Server) (fid newfid : ℕ) (names : List Str) : Server × Answer :=
  match s.fids fid with
  | none => (s, .error .Ebadfid)
  | some o =>
    let f := s.obj o
    if f.isopen then (s, .error .Eopen)
    else if newfid ≠ fid ∧ (s.fids newfid).isSome then (s, .error .Einuse)
    else if names = [] then (s.place fid newfid o f, .dirs [])
    else
      s.nav <|
        match s.reg.walkfid f names with
        | ([], .error e) => (s, .error e)
        | (ds, .error _) => (s, .dirs ds)
        | (ds, .ok f') => (s.place fid newfid o f', .dirs ds)

def openmode (o : ℕ) : Option ℕ := if o &&& 0xaf > 2 then none else some (o &&& 0xaf)

def Server.open (s : Server) (fid mode : ℕ) : Server × Answer :=
  match s.fids fid with
  | none => (s, .error .Ebadfid)
  | some o =>
    match openmode mode with
    | none => (s, .error .Ebadarg)
    | some mode =>
      (s.setobj o { s.obj o with data := none, isopen := true, mode := mode }, .ok)

def Server.begin (s : Server) (c : Call) : Server := { s with calls := s.calls ++ [c] }

/-- A directory read from entry `i` on that has room for `count`. The reader takes the
replies up to the first nil; the nil at the end is after them. -/
def Server.readdir (s : Server) (path i count : ℕ) : Server × Answer :=
  if count = 0 then (s, .dirs [])
  else
    s.nav <|
      let replies := s.reg.replies path i count
      ({ s with owed := replies.any Option.isNone },
        .dirs (replies.takeWhile Option.isSome).reduceOption)

def noresult (ti : ToolInfo) : Result :=
  ⟨ti.name, bytes (lit "error: no result (write arguments first)")⟩

def Server.readtool (s : Server) (fid o : ℕ) (ti : ToolInfo) (suboff : ℕ) : Server × Answer :=
  if suboff = Qtool_dir then (s, .error .Eperm)
  else if suboff = Qtool_doc then (s, .doc ti.name)
  else if suboff = Qtool_schema then (s, .schema ti.name)
  else
    let (s, args) := s.takeargs fid
    match args, (s.obj o).data, ti.result with
    | some args, _, _ => (s.begin ⟨.read, ti.name, some o, argstring args⟩, .later)
    | none, some r, _ => (s, .result r)
    | none, none, some r => (s, .result r)
    | none, none, none =>
      ({ s with reg := s.reg.setresult ti.name (noresult ti) }, .result (noresult ti))

def Server.read (s : Server) (fid i count : ℕ) : Server × Answer :=
  match s.fids fid with
  | none => (s, .error .Ebadfid)
  | some o =>
    let c := s.obj o
    if c.isopen = false then (s, .error .Enotopen)
    else if c.mode ≠ 0 ∧ c.mode ≠ 2 then (s, .error .Eaccess)
    else if c.isdir then s.readdir c.path i count
    else if TYPE c.path < Qtoolbase then (s, .ok)
    else
      match s.reg.findtoolbyqid (TYPE c.path) with
      | none => (s, .error .Enotfound)
      | some ti => s.readtool fid o ti (toolqtype (TYPE c.path)).2

def Server.ctl (s : Server) (data : Str) : Server × Answer :=
  if data.length > 4 ∧ lit "add " <+: data then
    match s.reg.ctladd (data.drop 4) with
    | (r, none) => ({ s with reg := r }, .ok)
    | (_, some e) => (s, .error (.Erefused e))
  else if data.length > 7 ∧ lit "remove " <+: data then
    ({ s with reg := s.reg.ctlremove (data.drop 7) }, .ok)
  else (s, .ok)

def Server.writetool (iounit : Iounit) (s : Server) (fid o : ℕ) (ti : ToolInfo)
    (data : List UInt8) : Server × Answer :=
  let (s, kept) := s.takeargs fid
  let args := catargs kept data
  if args.length > MAXARGS then (s, .error .Etoolarge)
  else if data.length ≥ iounit then (s.keepargs fid args, .ok)
  else (s.begin ⟨.write, ti.name, some o, argstring args⟩, .later)

def Server.write (iounit : Iounit) (s : Server) (fid : ℕ) (data : List UInt8) :
    Server × Answer :=
  match s.fids fid with
  | none => (s, .error .Ebadfid)
  | some o =>
    let c := s.obj o
    if c.isopen = false then (s, .error .Enotopen)
    else if c.isdir then (s, .error .Eperm)
    else if c.mode ≠ 1 ∧ c.mode ≠ 2 then (s, .error .Eaccess)
    else if TYPE c.path = Qctl then s.ctl (dropnl (string data))
    else if TYPE c.path < Qtoolbase then (s, .ok)
    else
      let suboff := (toolqtype (TYPE c.path)).2
      if suboff ≠ Qtool_ctl ∧ suboff ≠ Qtool_run then (s, .error .Eperm)
      else
        match s.reg.findtoolbyqid (TYPE c.path) with
        | none => (s, .error .Enotfound)
        | some ti => s.writetool iounit fid o ti data

def Server.stat (s : Server) (fid : ℕ) : Server × Answer :=
  match s.fids fid with
  | none => (s, .error .Ebadfid)
  | some o =>
    s.nav <|
      match s.reg.dirgen (s.obj o).path with
      | none => (s, .error .Enotfound)
      | some d => (s, .dir d)

def Server.clunk (s : Server) (fid : ℕ) : Server × Answer :=
  let (s, args) := s.takeargs fid
  match s.fids fid with
  | none => (s, .error .Ebadfid)
  | some o =>
    let s :=
      match args, s.reg.findtoolbyqid (TYPE (s.obj o).path) with
      | some args, some ti => s.begin ⟨.none, ti.name, none, argstring args⟩
      | _, _ => s
    (s.delfid fid, .ok)

def Server.remove (s : Server) (fid : ℕ) : Server × Answer :=
  match s.fids fid with
  | none => (s, .error .Ebadfid)
  | some _ => (s.delfid fid, .error .Eperm)

def Registry.exectool (r : Registry) (name : Str) (out : List UInt8) : List UInt8 :=
  if (r.findtool name).isNone then bytes (lit "error: unknown tool: " ++ name) else out

/-- A call ends: its result is set and its caller answered. `ok` is false when the call
could not be made and `out` says why. -/
def Server.done (s : Server) (k : ℕ) (out : List UInt8) (ok : Bool) : Server × Answer :=
  match s.calls[k]? with
  | none => (s, .ok)
  | some c =>
    let r : Result := ⟨c.tool, if ok then s.reg.exectool c.tool out else out⟩
    let s := { s with calls := s.calls.eraseIdx k, reg := s.reg.setresult c.tool r }
    let s := match c.fid with
      | none => s
      | some o => s.setobj o { s.obj o with data := some r }
    (s, match c.cr, ok with
      | .none, _ => .ok
      | _, false => .error .Efailed
      | .write, true => .ok
      | .read, true => .result r)

def Server.serve (iounit : Iounit) (s : Server) (m : Request) : Server × Answer :=
  if s.hung then (s, .hang)
  else
    match m with
    | .attach fid => s.nav (s.attach fid)
    | .walk fid newfid names => s.walk fid newfid names
    | .open fid mode => s.open fid mode
    | .read fid i count => s.read fid i count
    | .write fid data => s.write iounit fid data
    | .stat fid => s.stat fid
    | .clunk fid => s.clunk fid
    | .remove fid => s.remove fid
    | .done k out ok => s.done k out ok

def Server.start (loads : Str → Bool) (args : List Str) : Server :=
  ⟨inittools loads args, fun _ => ⟨0, false, false, 0, none, none⟩, 0, fun _ => none, [], [],
    false, false⟩

def Server.run (iounit : Iounit) (s : Server) (ms : List Request) : Server :=
  ms.foldl (fun s m => (s.serve iounit m).1) s

end Infernode.Tools
