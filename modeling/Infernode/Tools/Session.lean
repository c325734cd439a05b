import Infernode.Tools.Files

/-!
# The calls of a session

Clients write to the files of tools through the mnt device, which sends what one write
gives in parts of at most `iounit` bytes, the next when the last was taken, and stops at the
first that is refused. Beside the server a session remembers whole writes and whole calls:
which were made, in what order, with what arguments, and which request each answers. The
server has none of that to go by.
-/

namespace Infernode.Tools

open Limbo

/-- A client's write that the mnt device has sent `taken` bytes of, and not the last part. -/
structure Cwrite where
  fid : ℕ
  data : List UInt8
  taken : ℕ
  deriving DecidableEq

structure Ran where
  obj : ℕ
  tag : Option ℕ
  args : Str
  deriving DecidableEq

structure Session where
  srv : Server
  going : List Cwrite
  written : List (ℕ × List UInt8)
  refused : List (List UInt8)
  begun : List Ran
  running : List Ran
  ended : List (Ran × Result)
  sent : ℕ
  answers : List (ℕ × Answer)

inductive Event
  | write (fid : ℕ) (data : List UInt8)
  | next (k : ℕ)
  | msg (m : Request)

def Server.pending (s : Server) (fid : ℕ) : Option (List UInt8) := (s.takeargs fid).2

def Session.objof (s : Session) (fid : ℕ) : ℕ := (s.srv.fids fid).getD 0

def Request.fid : Request → ℕ
  | .attach fid => fid
  | .walk fid _ _ => fid
  | .open fid _ => fid
  | .read fid _ _ => fid
  | .write fid _ => fid
  | .stat fid => fid
  | .clunk fid => fid
  | .remove fid => fid
  | .done _ _ _ => 0

def Session.send (iounit : Iounit) (s : Session) (m : Request) : Session × Answer :=
  let (srv, a) := s.srv.serve iounit m
  let new := (srv.calls.drop s.srv.calls.length).map fun c =>
    Ran.mk (s.objof m.fid) (if c.cr = .none then none else some s.sent) c.args
  ({ s with
      srv := srv
      begun := s.begun ++ new
      running := s.running ++ new
      sent := s.sent + 1
      answers := if a = .later then s.answers else s.answers ++ [(s.sent, a)] }, a)

def Answer.refusal : Answer → Bool
  | .error _ => true
  | .hang => true
  | _ => false

def Session.twrite (iounit : Iounit) (s : Session) (w : Cwrite) (rest : List Cwrite) :
    Session :=
  let part := (w.data.drop w.taken).take iounit
  let (s', a) := s.send iounit (.write w.fid part)
  let taken := w.taken + part.length
  if a.refusal then { s' with going := rest, refused := s.refused ++ [w.data] }
  else if taken < w.data.length then { s' with going := ⟨w.fid, w.data, taken⟩ :: rest }
  else { s' with going := rest, written := s.written ++ [(s.objof w.fid, w.data)] }

def Session.done (iounit : Iounit) (s : Session) (k : ℕ) (out : List UInt8) (ok : Bool) :
    Session :=
  match s.srv.calls[k]?, s.running[k]? with
  | some c, some r =>
    let (srv, a) := s.srv.serve iounit (.done k out ok)
    { s with
      srv := srv
      running := s.running.eraseIdx k
      ended := s.ended ++ [(r, ⟨c.tool, out⟩)]
      answers := s.answers ++ r.tag.toList.map fun t => (t, a) }
  | _, _ => s

def Session.step (iounit : Iounit) (s : Session) : Event → Session
  | .write fid data => s.twrite iounit ⟨fid, data, 0⟩ s.going
  | .next k =>
    match s.going[k]? with
    | none => s
    | some w => s.twrite iounit w (s.going.eraseIdx k)
  | .msg (.done k out ok) => s.done iounit k out ok
  | .msg m => (s.send iounit m).1

def Session.start (loads : Str → Bool) (args : List Str) : Session :=
  ⟨Server.start loads args, [], [], [], [], [], [], 0, []⟩

def Session.run (iounit : Iounit) (s : Session) (es : List Event) : Session :=
  es.foldl (Session.step iounit) s

def on (o : ℕ) (rs : List Ran) : List Ran := rs.filter fun r => r.obj = o

def Session.partly (s : Session) (fid : ℕ) : Prop := fid ∈ s.going.map Cwrite.fid

instance (s : Session) (fid : ℕ) : Decidable (s.partly fid) :=
  inferInstanceAs (Decidable (fid ∈ s.going.map Cwrite.fid))

def Session.held (s : Session) (fid : ℕ) : List Str :=
  if s.partly fid then [] else (s.srv.pending fid).toList.map argstring

def Session.called (s : Session) (o : ℕ) : List Str := (on o s.begun).map Ran.args

def Session.asked (s : Session) (o : ℕ) : List Str :=
  (s.written.filter fun p => p.1 = o).map fun p => argstring p.2

def Session.lastresult (s : Session) (o : ℕ) : Option Result :=
  ((s.ended.filter fun p => p.1.obj = o).getLast?).map Prod.snd

def Opened (s : Server) (fid : ℕ) (mode : ℕ → Prop) : Prop :=
  ∃ f, s.fid fid = some f ∧ f.isopen = true ∧ f.isdir = false ∧ mode f.mode ∧
    Qtoolbase ≤ TYPE f.path ∧
    ((toolqtype (TYPE f.path)).2 = Qtool_ctl ∨ (toolqtype (TYPE f.path)).2 = Qtool_run) ∧
    (s.reg.findtoolbyqid (TYPE f.path)).isSome = true

/-- What a request that is no part of a client's write must not do. A tool whose call is
kept or runs is active, and the call can be made. -/
def Apart (s : Session) : Request → Prop
  | .open fid _ => ∀ f, s.srv.fid fid = some f → f.isopen = false
  | .read fid i count => ∀ f, s.srv.fid fid = some f →
      (f.isdir = true → 0 < count → ∀ d ∈ s.srv.reg.replies f.path i count, d.isSome = true) ∧
      (f.mode = 0 ∨ f.mode = 2 → ¬s.partly fid)
  | .write fid _ => ∀ f, s.srv.fid fid = some f → TYPE f.path < Qtoolbase
  | .clunk fid => ¬s.partly fid ∧ ((s.srv.pending fid).isSome = true →
      ∀ f, s.srv.fid fid = some f → (s.srv.reg.findtoolbyqid (TYPE f.path)).isSome = true)
  | .remove fid => s.srv.pending fid = none
  | .done k _ ok => ok = true ∧
      ∀ c, s.srv.calls[k]? = some c → (s.srv.reg.findtool c.tool).isSome = true
  | _ => True

def Fits (s : Session) : Event → Prop
  | .write fid _ => Opened s.srv fid (fun m => m = 1 ∨ m = 2) ∧ s.srv.pending fid = none ∧
      ∀ o, s.srv.fids fid = some o → o ∉ s.running.map Ran.obj
  | .next k => ∀ w, s.going[k]? = some w → Opened s.srv w.fid (fun m => m = 1 ∨ m = 2)
  | .msg m => Apart s m

end Infernode.Tools
