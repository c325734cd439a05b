import Infernode.Limbo.Token
import Infernode.Limbo.Utf
import Infernode.Lib.HashChain

/-!
# Audit records

The text of a record as `auditfs.b` seals it and as `replay` and `verifychain` read
it back. `canon` is what is hashed; the stored line has the hash before the message.
`sprint` prints a string up to its first NUL, so a record keeps of its fields what
`printed` gives.
-/

namespace Infernode.Audit

open Limbo Lib

def printed (s : Str) : Str :=
  s.takeWhile (fun c => decide (c ≠ '\x00'))

def dec (n : ℤ) : Str :=
  if n < 0 then '-' :: decimal n.natAbs else decimal n.natAbs

def isspace (c : Char) : Bool :=
  c = ' ' || ('\t' ≤ c && c ≤ '\r')

def strtoint (s : Str) : ℤ :=
  let s := s.dropWhile isspace
  let v : ℤ :=
    match s with
    | '-' :: s => -decvalue (s.takeWhile isdigit)
    | '+' :: s => decvalue (s.takeWhile isdigit)
    | s => decvalue (s.takeWhile isdigit)
  max (-2 ^ 31) (min v (2 ^ 31 - 1))

def int (n : ℤ) : ℤ := n.bmod (2 ^ 32)

def hexchars : Str := "0123456789abcdef"

def hex (h : List UInt8) : Str :=
  h.flatMap fun b => [hexchars.getD (b.toNat / 16) '0', hexchars.getD (b.toNat % 16) '0']

def hexval (c : Char) : ℕ :=
  if '0' ≤ c ∧ c ≤ '9' then c.toNat - '0'.toNat
  else if 'a' ≤ c ∧ c ≤ 'f' then c.toNat - 'a'.toNat + 10
  else if 'A' ≤ c ∧ c ≤ 'F' then c.toNat - 'A'.toNat + 10
  else 0

def unhex : Str → List UInt8
  | hi :: lo :: s => UInt8.ofNat (hexval hi * 16 + hexval lo) :: unhex s
  | _ => []

def clean1 (s : Str) : Str :=
  let r := s.map fun c => if c = ' ' ∨ c = '\t' ∨ c = '\n' then '_' else c
  if r = [] then ['-'] else r

def cleannl (s : Str) : Str :=
  s.map fun c => if c = '\n' ∨ c = '\r' then ' ' else c

def stripnl (s : Str) : Str :=
  if s.getLast? = some '\n' then s.dropLast else s

structure Rec where
  seq : ℤ
  time : ℤ
  source : Str
  event : Str
  msg : Str
  deriving DecidableEq

def canon (r : Rec) : Str :=
  dec r.seq ++ ' ' :: dec r.time ++ ' ' :: printed r.source ++ ' ' :: printed r.event ++
    ' ' :: printed r.msg

def recline (r : Rec) (hash : List UInt8) : Str :=
  dec r.seq ++ ' ' :: dec r.time ++ ' ' :: printed r.source ++ ' ' :: printed r.event ++
    ' ' :: hex hash ++ ' ' :: printed r.msg

def parserec (line : Str) : Option (Rec × Str) :=
  match tokenize line [' '] with
  | seqf :: tf :: source :: event :: hashf :: toks =>
    some (⟨strtoint seqf, strtoint tf, source, event, join toks⟩, hashf)
  | _ => none

def GENESIS : Str := "infernode-audit-v1"

def Rec.printed (r : Rec) : Rec :=
  { r with source := Audit.printed r.source, event := Audit.printed r.event,
           msg := Audit.printed r.msg }

def Rec.Worded (r : Rec) : Prop :=
  ' ' ∉ r.source ∧ ' ' ∉ r.event

/-!
## Reading a log back

`replay` of `auditfs.b` and `verifychain` of `auditverify.b`: each recomputes the
chain over the lines of a log. `hash` is `keyring->sha256`. The public key is what it
verifies: the signature of a text.
-/

variable (hash : List UInt8 → List UInt8)

def genesis : List UInt8 := hash (bytes GENESIS)

def extend (prev record : List UInt8) : List UInt8 :=
  HashChain.extend hash prev record

def replayfrom (prev : List UInt8) (last : ℤ) : List Str → List UInt8 × ℤ × ℤ
  | [] => (prev, last, -1)
  | line :: lines =>
    match parserec line with
    | none => (prev, last, int (last + 1))
    | some (r, hashf) =>
      let h := extend hash prev (bytes (canon r))
      if hex h ≠ hashf then (prev, last, r.seq) else replayfrom h r.seq lines

def replay (data : Str) : List UInt8 × ℤ × ℤ :=
  replayfrom hash (genesis hash) 0 (tokenize data ['\n'])

structure Fault where
  nrec : ℤ
  ncheck : ℕ
  nsig : ℕ
  msg : Str
  deriving DecidableEq

structure Verdict where
  ok : Bool
  nrec : ℤ
  ncheck : ℕ
  nsig : ℕ
  msg : Str
  deriving DecidableEq

def Fault.verdict (f : Fault) : Verdict :=
  ⟨false, f.nrec, f.ncheck, f.nsig, f.msg⟩

abbrev PK := List UInt8 → Str → Bool

def splitkv (s : Str) : Str × Str :=
  (s.takeWhile (fun c => decide (c ≠ '=')), (s.dropWhile (fun c => decide (c ≠ '='))).tail)

structure Check where
  head : Str
  cseq : Str
  sig : Str
  deriving DecidableEq

def Check.put (c : Check) (tok : Str) : Check :=
  let (k, v) := splitkv tok
  if k = lit "head" then { c with head := v }
  else if k = lit "seq" then { c with cseq := v }
  else if k = lit "sig" then { c with sig := v }
  else c

def parsecheck (msg : Str) : Check :=
  (tokenize msg [' ']).foldl Check.put ⟨[], [], []⟩

def checkcontent (head cseq : Str) : Str :=
  lit "audit-checkpoint " ++ printed head ++ ' ' :: printed cseq

structure Progress where
  prev : List UInt8
  nrec : ℤ
  ncheck : ℕ
  nsig : ℕ
  anchored : Bool
  deriving DecidableEq

def Progress.fault (p : Progress) (msg : Str) : Fault :=
  ⟨p.nrec, p.ncheck, p.nsig, msg⟩

def Progress.checkpoint (p : Progress) (pk : Option PK) (seqf : ℤ) (recmsg : Str) :
    Except Fault Progress :=
  let p := { p with ncheck := p.ncheck + 1 }
  let c := parsecheck recmsg
  if c.head ≠ hex p.prev then
    .error (p.fault (lit "checkpoint head mismatch at seq " ++ dec seqf))
  else
    match pk with
    | none => .ok p
    | some verify =>
      if c.sig = [] then
        .error (p.fault (lit "unsigned checkpoint at seq " ++ dec seqf ++
          lit " (signature required with -k)"))
      else if verify (unhex c.sig) (checkcontent c.head c.cseq) = false then
        .error (p.fault (lit "bad checkpoint signature at seq " ++ dec seqf))
      else .ok { p with nsig := p.nsig + 1 }

def Progress.check (p : Progress) (pk : Option PK) (r : Rec) : Except Fault Progress :=
  if r.event = lit "checkpoint" then p.checkpoint pk r.seq r.msg else .ok p

def Progress.line (p : Progress) (pk : Option PK) (anchorhash : Str) (anchorseq : ℤ) (line : Str) :
    Except Fault Progress :=
  match parserec line with
  | none => .error (p.fault (lit "malformed record after seq " ++ dec p.nrec))
  | some (r, hashf) =>
    let h := extend hash p.prev (bytes (canon r))
    if hex h ≠ hashf then .error (p.fault (lit "broken at seq " ++ dec r.seq))
    else do
      let p ← p.check pk r
      let p := { p with prev := h, nrec := r.seq }
      if r.seq = anchorseq then
        if hashf ≠ anchorhash then
          .error (p.fault (lit "anchor mismatch at seq " ++ dec r.seq ++
            lit " (history rewritten)"))
        else .ok { p with anchored := true }
      else .ok p

def Progress.start (anchorhash : Str) (anchorseq : ℤ) : Progress :=
  ⟨genesis hash, 0, 0, 0, decide (anchorseq = 0 ∧ anchorhash = hex (genesis hash))⟩

def Progress.finish (p : Progress) (pk : Option PK) (anchorseq : ℤ) : Verdict :=
  if anchorseq ≥ 0 ∧ p.anchored = false then
    (p.fault (lit "chain does not reach anchor seq " ++ dec anchorseq ++
      lit " (truncated?)")).verdict
  else if pk.isSome ∧ p.nsig = 0 then
    (p.fault "no signed checkpoints (chain is not attributable to the audit key)").verdict
  else ⟨true, p.nrec, p.ncheck, p.nsig, []⟩

def verifylines (data : Str) (pk : Option PK) (anchorhash : Str) (anchorseq : ℤ) :
    Except Fault Progress :=
  (tokenize data ['\n']).foldlM (fun p line => p.line hash pk anchorhash anchorseq line)
    (Progress.start hash anchorhash anchorseq)

def verifychain (data : Str) (pk : Option PK) (anchorhash : Str) (anchorseq : ℤ) : Verdict :=
  match verifylines hash data pk anchorhash anchorseq with
  | .error f => f.verdict
  | .ok p => p.finish pk anchorseq

def readfd (pieces : List (List UInt8)) : Str :=
  pieces.flatMap string

end Infernode.Audit
