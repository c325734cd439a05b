import Infernode.Lib.Runs
import Infernode.Wallet.Execute

/-!
# The wallet server

The requests of `wallet9p.b` as steps of one server: proposals and their
queue, the results bound to fids, the waiting reads and the event readers.
`time n` is what the n-th reading of the clock says. Requests are taken after
their text is split into fields; a read or write that styxservers itself
refuses never gets here. The log is what happened, newest first; `Queue` is
the part of the server that the expiry of a proposal touches.
-/

namespace Infernode.Wallet
open Infernode.Limbo

abbrev MAXPENDING : ℕ := 100
abbrev PENDTTL : ℤ := 900

def wrap32 (n : ℤ) : ℤ := (n + 2 ^ 31) % 2 ^ 32 - 2 ^ 31

def intstr (n : ℤ) : Str := if n < 0 then '-' :: decimal n.natAbs else decimal n.natAbs

structure AcctState where
  id : ℕ
  acct : Account
  deriving DecidableEq

inductive Kind
  | pay
  | x402
  deriving DecidableEq

structure PendingPay where
  id : ℤ
  kind : Kind
  acct : Str
  amount : Str
  recipient : Str
  token : Str
  agent : Str
  created : ℤ
  network : Str
  tokenname : Str
  tokenver : Str
  timeout : ℕ
  resource : Str
  result : Option Str
  deriving DecidableEq

structure Tread where
  tag : ℕ
  fid : ℕ
  offset : ℕ
  count : ℕ
  deriving DecidableEq

structure FidResult where
  fid : ℕ
  result : Str
  told : Bool
  wait : Option Tread
  deriving DecidableEq

structure EvFid where
  fid : ℕ
  q : List Str
  rd : Option Tread
  deriving DecidableEq

inductive File
  | pay
  | authorize
  deriving DecidableEq

inductive Log
  | proposed (f : File) (fid : ℕ) (id : ℤ)
  | executed (id : ℤ)
  | resolved (id : ℤ) (result : Str)
  | asked (m : Tread)
  | told (f : File) (m : Tread) (text : Str)
  | posted (msg : Str)
  | event (m : Tread) (msg : Str)
  | refused (m : Tread) (err : Str)
  | dropped (m : Tread)
  | clunked (fid : ℕ)
  deriving DecidableEq

structure Queue where
  pendingpays : List PendingPay
  nextpendingid : ℤ
  ticks : ℕ
  log : List Log
  deriving DecidableEq

structure Server where
  accounts : List AcctState
  books : Books
  activenetwork : ℕ
  queue : Queue
  paystates : List FidResult
  authstates : List FidResult
  evfids : List EvFid

def networks : List NetworkConfig :=
  [⟨"Ethereum Sepolia", "https://ethereum-sepolia-rpc.publicnode.com",
      "0x1c7D4B196Cb0C7B01d743Fbc6116a902379C7238", 11155111⟩,
    ⟨"Base Sepolia", "https://sepolia.base.org",
      "0x036CbD53842c5426634e7929541eC2318f3dCF7e", 84532⟩,
    ⟨"Ethereum Mainnet", "https://eth.llamarpc.com",
      "0xA0b86991c6218b36c1d19D4a2e9Eb0cE3606eB48", 1⟩,
    ⟨"Base", "https://mainnet.base.org",
      "0x833589fCD6eDb6E08f4c7C32D4f71b54bdA02913", 8453⟩]

def getnetwork (s : Server) : NetworkConfig :=
  (networks[s.activenetwork]?).getD (networks.headD ⟨[], [], [], 0⟩)

def caip2 (net : NetworkConfig) : Str := "eip155:" ++ decimal net.chainid

def setnetwork (s : Server) (name : Str) : Server :=
  match networks.findIdx? (·.name = name) with
  | some i => { s with activenetwork := i }
  | none => s

def findacct (s : Server) (name : Str) : Option Account :=
  (s.accounts.find? (·.acct.name = name)).map (·.acct)

def findacctbyid (s : Server) (aid : ℕ) : Option Account :=
  (s.accounts.find? (·.id = aid)).map (·.acct)

def findpending (id : ℤ) (pendingpays : List PendingPay) : Option PendingPay :=
  pendingpays.find? (·.id = id)

def setresult (id : ℤ) (r : Str) : List PendingPay → List PendingPay
  | [] => []
  | pp :: l => if pp.id = id then { pp with result := some r } :: l else pp :: setresult id r l

def Queue.resolve (Q : Queue) (id : ℤ) (r : Str) : Queue :=
  { Q with pendingpays := setresult id r Q.pendingpays, log := .resolved id r :: Q.log }

def lapsed (t : ℤ) (pp : PendingPay) : Bool :=
  t ≤ 0 || pp.created ≤ 0 || t > pp.created + PENDTTL

def Queue.tick (Q : Queue) : Queue := { Q with ticks := Q.ticks + 1 }

def checkpendingexpiry (time : ℕ → ℤ) (Q : Queue) (id : ℤ) : Queue :=
  match findpending id Q.pendingpays with
  | none => Q
  | some pp =>
    if pp.result ≠ none then Q
    else if lapsed (time Q.ticks) pp then Q.tick.resolve id "expired"
    else Q.tick

def expireall (time : ℕ → ℤ) : List PendingPay → ℕ → List Log → List PendingPay × ℕ × List Log
  | [], n, log => ([], n, log)
  | pp :: l, n, log =>
    if pp.result ≠ none then
      let r := expireall time l n log
      (pp :: r.1, r.2)
    else if lapsed (time n) pp then
      let r := expireall time l (n + 1) (.resolved pp.id "expired" :: log)
      ({ pp with result := some "expired" } :: r.1, r.2)
    else
      let r := expireall time l (n + 1) log
      (pp :: r.1, r.2)

def Queue.expireall (time : ℕ → ℤ) (Q : Queue) : Queue :=
  let r := Wallet.expireall time Q.pendingpays Q.ticks Q.log
  { Q with pendingpays := r.1, ticks := r.2.1, log := r.2.2 }

def live (pendingpays : List PendingPay) : ℕ := pendingpays.countP (·.result = none)

def prune : ℕ → List PendingPay → List PendingPay
  | _, [] => []
  | kept, pp :: l =>
    if pp.result = none ∨ kept < MAXPENDING then pp :: prune (kept + 1) l else prune kept l

def Queue.insert (Q : Queue) (np : PendingPay) : Queue :=
  { Q with
    pendingpays := np :: prune 0 Q.pendingpays
    nextpendingid := wrap32 (Q.nextpendingid + 1) }

def ispending (r : Str) : Bool := 8 < r.length && prefixed r "pending:"

def resolvefidresult (time : ℕ → ℤ) (Q : Queue) (s : Str) : Queue × Str :=
  if s = [] then (Q, [])
  else if ispending s = false then (Q, s)
  else
    match strint (s.drop 8) with
    | none => (Q, "error:bad pending id")
    | some id =>
      match findpending id Q.pendingpays with
      | none => (Q, "expired")
      | some _ =>
        let Q := checkpendingexpiry time Q id
        match (findpending id Q.pendingpays).bind (·.result) with
        | none => (Q, s)
        | some r => (Q, if 9 < r.length ∧ prefixed r "approved:" then r.drop 9 else r)

def states (s : Server) : File → List FidResult
  | .pay => s.paystates
  | .authorize => s.authstates

def setstates (s : Server) (f : File) (l : List FidResult) : Server :=
  match f with
  | .pay => { s with paystates := l }
  | .authorize => { s with authstates := l }

def getfidresult (l : List FidResult) (fid : ℕ) : Option FidResult := l.find? (·.fid = fid)

def updatefid (fid : ℕ) (g : FidResult → FidResult) : List FidResult → List FidResult
  | [] => []
  | fr :: l => if fr.fid = fid then g fr :: l else fr :: updatefid fid g l

def setfidresult (s : Server) (f : File) (fid : ℕ) (result : Str) : Server :=
  match getfidresult (states s f) fid with
  | some _ =>
    setstates s f (updatefid fid (fun fr => { fr with result := result, told := false })
      (states s f))
  | none => setstates s f (⟨fid, result, false, none⟩ :: states s f)

def Queue.say (Q : Queue) (e : Log) : Queue := { Q with log := e :: Q.log }

def readresult (time : ℕ → ℤ) (s : Server) (f : File) (m : Tread) : Server :=
  match getfidresult (states s f) m.fid with
  | none => { s with queue := s.queue.say (.told f m []) }
  | some fr =>
    if fr.result = [] then { s with queue := s.queue.say (.told f m []) }
    else
      let (Q, r) := resolvefidresult time s.queue fr.result
      let s := { s with queue := Q }
      if ispending r then
        if fr.told ∧ m.offset = 0 then
          setstates s f (updatefid m.fid (fun fr => { fr with wait := some m }) (states s f))
        else
          { setstates s f (updatefid m.fid (fun fr => { fr with told := true }) (states s f)) with
            queue := s.queue.say (.told f m (r ++ ['\n'])) }
      else { s with queue := s.queue.say (.told f m (r ++ ['\n'])) }

def wakeresult (time : ℕ → ℤ) (f : File) (fr : FidResult) (Q : Queue) : FidResult × Queue :=
  match fr.wait with
  | none => (fr, Q)
  | some m =>
    let (Q, r) := resolvefidresult time Q fr.result
    if ispending r then (fr, Q)
    else ({ fr with wait := none }, Q.say (.told f m (r ++ ['\n'])))

def wakelist (time : ℕ → ℤ) (f : File) : List FidResult → Queue → List FidResult × Queue
  | [], Q => ([], Q)
  | fr :: l, Q =>
    let (fr, Q) := wakeresult time f fr Q
    let (l, Q) := wakelist time f l Q
    (fr :: l, Q)

def wakeresults (time : ℕ → ℤ) (s : Server) : Server :=
  let (pay, Q) := wakelist time .pay s.paystates s.queue
  let (auth, Q) := wakelist time .authorize s.authstates Q
  { s with paystates := pay, authstates := auth, queue := Q }

def tellevent (msg : Str) : List EvFid → Queue → List EvFid × Queue
  | [], Q => ([], Q)
  | ef :: l, Q =>
    match ef.rd with
    | some m =>
      let (l, Q) := tellevent msg l (Q.say (.event m msg))
      ({ ef with rd := none } :: l, Q)
    | none =>
      let (l, Q) := tellevent msg l Q
      ((if inlist msg ef.q then ef else { ef with q := ef.q ++ [msg] }) :: l, Q)

def postevent (time : ℕ → ℤ) (s : Server) (msg : Str) : Server :=
  let s := wakeresults time s
  let (l, Q) := tellevent msg s.evfids (s.queue.say (.posted msg))
  { s with evfids := l, queue := Q }

def newpending (time : ℕ → ℤ) (s : Server) (kind : Kind) (acct amount recipient token : Str) :
    Server × Except Str ℤ :=
  let t := time s.queue.ticks
  let Q := s.queue.tick
  if t ≤ 0 then
    ({ s with queue := Q }, .error (lit "no time source: cannot queue a payment for approval"))
  else
    let Q := Q.expireall time
    if live Q.pendingpays ≥ MAXPENDING then
      ({ s with queue := Q }, .error ("pending queue full (" ++ decimal (live Q.pendingpays) ++
        lit " awaiting approval): approve or deny before submitting more"))
    else
      let np : PendingPay := ⟨Q.nextpendingid, kind, acct, amount, recipient, token, "agent", t,
        [], [], [], 0, [], none⟩
      (postevent time { s with queue := Q.insert np } "pending", .ok np.id)

def fillpending (s : Server) (g : PendingPay → PendingPay) : Server :=
  { s with queue := { s.queue with pendingpays := s.queue.pendingpays.modifyHead g } }

def propose (s : Server) (f : File) (fid : ℕ) (id : ℤ) : Server :=
  let s := setfidresult s f fid ("pending:" ++ intstr id)
  { s with queue := s.queue.say (.proposed f fid id) }

def validatepay (s : Server) (acct : Account) (token amount recipient : Str) : Except Str Unit := do
  reject (validamount amount = false) "invalid payment amount"
  if acct.accttype = .stripe then
    reject (recipient = [] ∨ 256 < recipient.length ∨ hascontrol recipient)
      "invalid payment description"
    reject ((strint amount).filter (0 < ·) = none)
      ("invalid amount (cents, up to 9 digits): " ++ amount)
    refuse (budgeterr s.books.budgets acct "USD" (dectobe amount)) ""
  else
    reject (acct.accttype ≠ .eth) "only ETH and Stripe accounts can send payments"
    let amt ← need (dectobe amount) ("invalid amount (must be integer base units): " ++ amount)
    let _ ← need (strtoaddr recipient) ("invalid recipient address: " ++ recipient)
    refuse (budgeterr s.books.budgets acct (if token = lit "usdc" then "USDC" else "ETH")
      (some amt)) ""

def Enotfound : Str := "file not found"

def paytoken (acct : Account) (usdc : Bool) : Str :=
  if acct.accttype = .stripe then "usd-cents" else if usdc then "usdc" else "eth"

def writepay (time : ℕ → ℤ) (s : Server) (fid aid : ℕ) (usdc : Bool) (amount recipient : Str) :
    Server × Option Str :=
  match findacctbyid s aid with
  | none => (s, some Enotfound)
  | some acct =>
    if acct.accttype = .stripe ∧ usdc then
      (s, some "pay: Stripe accounts cannot send USDC")
    else
      match validatepay s acct (paytoken acct usdc) amount recipient with
      | .error err => (s, some err)
      | .ok () =>
        match newpending time s .pay acct.name amount recipient (paytoken acct usdc) with
        | (s, .error err) => (s, some ("pay: " ++ err))
        | (s, .ok id) =>
          let s := fillpending s fun pp => { pp with network := caip2 (getnetwork s) }
          (propose s .pay fid id, none)

def writeauthorize (time : ℕ → ℤ) (s : Server) (fid aid : ℕ) (areq : AuthReq) :
    Server × Option Str :=
  match findacctbyid s aid with
  | none => (s, some Enotfound)
  | some acct =>
    match validateauth (getnetwork s) acct areq s.books.budgets with
    | .error err => (s, some ("authorize: " ++ err))
    | .ok () =>
      match newpending time s .x402 acct.name areq.amount areq.payto areq.asset with
      | (s, .error err) => (s, some ("authorize: " ++ err))
      | (s, .ok id) =>
        let s := fillpending s fun pp => { pp with
          network := areq.network
          tokenname := areq.tokenname
          tokenver := areq.tokenver
          timeout := areq.timeout
          resource := areq.resource }
        (propose s .authorize fid id, none)

def execute (env : Env) (net : NetworkConfig) (acct : Account) (pp : PendingPay) (B : Books) :
    Books × Except Str Str :=
  match pp.kind with
  | .x402 =>
    executex402 env net acct ⟨pp.network, pp.token, pp.recipient, pp.amount, pp.timeout,
      pp.tokenname, pp.tokenver, pp.resource⟩ B
  | .pay =>
    if pp.token = lit "usdc" then executeerc20 env net acct pp.amount pp.recipient B
    else executepayment env net acct pp.amount pp.recipient B

def executelabel (pp : PendingPay) : Str :=
  match pp.kind with
  | .x402 => "authorize: "
  | .pay => "pay: "

def notfound (id : ℤ) : Str := "pending payment not found: " ++ intstr id

def admission (time : ℕ → ℤ) (s : Server) (id : ℤ) : Server × Except Str (Account × PendingPay) :=
  match findpending id s.queue.pendingpays with
  | none => (s, .error (notfound id))
  | some pp =>
    if pp.result ≠ none then (s, .error (notfound id))
    else
      let s := { s with queue := checkpendingexpiry time s.queue id }
      if (findpending id s.queue.pendingpays).bind (·.result) ≠ none then
        (s, .error ("pending payment expired: " ++ intstr id))
      else
        match findacct s pp.acct with
        | none => (s, .error ("account not found: " ++ pp.acct))
        | some acct =>
          let active := caip2 (getnetwork s)
          if pp.network ≠ [] ∧ pp.network ≠ active then
            ({ s with queue := s.queue.resolve id "error:network changed since proposal" },
              .error ("payment " ++ intstr id ++ lit " was proposed on " ++ pp.network ++
                lit " but the active network is now " ++ active ++ lit "; it was not executed"))
          else (s, .ok (acct, pp))

def approvepending0 (time : ℕ → ℤ) (env : Env) (s : Server) (id : ℤ) : Server × Option Str :=
  match admission time s id with
  | (s, .error err) => (s, some err)
  | (s, .ok (acct, pp)) =>
    let (B, r) := execute env (getnetwork s) acct pp s.books
    let s := { s with books := B, queue := s.queue.say (.executed id) }
    match r with
    | .error err =>
      ({ s with queue := s.queue.resolve id ("error:" ++ err) }, some (executelabel pp ++ err))
    | .ok res => ({ s with queue := s.queue.resolve id ("approved:" ++ res) }, none)

def approvepending (time : ℕ → ℤ) (env : Env) (s : Server) (id : ℤ) : Server × Option Str :=
  let (s, err) := approvepending0 time env s id
  (postevent time s "pending", err)

def denypending (time : ℕ → ℤ) (s : Server) (id : ℤ) : Server × Option Str :=
  match (findpending id s.queue.pendingpays).filter (·.result = none) with
  | none => (s, some (notfound id))
  | some _ => (postevent time { s with queue := s.queue.resolve id "denied" } "pending", none)

def writebudget (s : Server) (aid : ℕ) (maxpertx maxpersess currency : Str) :
    Server × Option Str :=
  match findacctbyid s aid with
  | none => (s, some Enotfound)
  | some acct =>
    if dectobe maxpertx = none ∨ dectobe maxpersess = none ∨
        ¬(currency = lit "USDC" ∨ currency = lit "ETH" ∨ currency = lit "USD") then
      (s, some "usage: budget <maxpertx> <maxpersess> USDC|ETH|USD (integer base units)")
    else
      ({ s with
        books := s.books.setbudget acct.name
          ⟨dectobe maxpertx, dectobe maxpersess, none, currency⟩ }, none)

def writegasbudget (s : Server) (aid : ℕ) (maxpertx maxpersess : Str) : Server × Option Str :=
  match findacctbyid s aid with
  | none => (s, some Enotfound)
  | some acct =>
    if dectobe maxpertx = none ∨ dectobe maxpersess = none ∨ acct.accttype ≠ .eth then
      (s, some "usage: gasbudget <maxpertx> <maxpersess> (ETH accounts, wei)")
    else
      ({ s with
        books := s.books.setfeebudget acct.name
          ⟨dectobe maxpertx, dectobe maxpersess, none, ()⟩ }, none)

def addaccount (s : Server) (acct : Account) : Server × Option Str :=
  if findacct s acct.name ≠ none then (s, some ("account exists: " ++ acct.name))
  else ({ s with accounts := ⟨s.accounts.length, acct⟩ :: s.accounts }, none)

def readpending (time : ℕ → ℤ) (s : Server) : Server :=
  { s with queue := s.queue.expireall time }

def readfile (time : ℕ → ℤ) (s : Server) (f : File) (aid : ℕ) (m : Tread) : Server :=
  let s := { s with queue := s.queue.say (.asked m) }
  match findacctbyid s aid with
  | none => { s with queue := s.queue.say (.refused m Enotfound) }
  | some _ => readresult time s f m

def updateev (fid : ℕ) (g : EvFid → EvFid) : List EvFid → List EvFid
  | [] => []
  | ef :: l => if ef.fid = fid then g ef :: l else ef :: updateev fid g l

def readevent (s : Server) (m : Tread) : Server :=
  let s := { s with queue := s.queue.say (.asked m) }
  match s.evfids.find? (·.fid = m.fid) with
  | none => { s with queue := s.queue.say (.refused m "event not open") }
  | some ef =>
    match ef.q with
    | msg :: _ =>
      { s with
        evfids := updateev m.fid (fun ef => { ef with q := ef.q.tail }) s.evfids
        queue := s.queue.say (.event m msg) }
    | [] => { s with evfids := updateev m.fid (fun ef => { ef with rd := some m }) s.evfids }

def drops (P : Tread → Bool) (reads : List (Option Tread)) : List Log :=
  reads.filterMap fun rd => (rd.filter P).map .dropped

def flush (s : Server) (oldtag : ℕ) : Server :=
  let hit : Tread → Bool := fun m => m.tag = oldtag
  { s with
    paystates := s.paystates.map fun fr => { fr with wait := fr.wait.filter (!hit ·) }
    authstates := s.authstates.map fun fr => { fr with wait := fr.wait.filter (!hit ·) }
    evfids := s.evfids.map fun ef => { ef with rd := ef.rd.filter (!hit ·) }
    queue := { s.queue with
      log := drops hit (s.paystates.map (·.wait) ++ s.authstates.map (·.wait) ++
        s.evfids.map (·.rd)) ++ s.queue.log } }

def clunk (s : Server) (fid : ℕ) : Server :=
  { s with
    paystates := (s.paystates.filter (·.fid ≠ fid)).reverse
    authstates := (s.authstates.filter (·.fid ≠ fid)).reverse
    evfids := (s.evfids.filter (·.fid ≠ fid)).reverse
    queue := { s.queue with
      log := .clunked fid :: drops (fun _ => true)
        ((s.paystates.filter (·.fid = fid)).map (·.wait) ++
          (s.authstates.filter (·.fid = fid)).map (·.wait) ++
          (s.evfids.filter (·.fid = fid)).map (·.rd)) ++ s.queue.log } }

def expire (time : ℕ → ℤ) (s : Server) (id : ℤ) : Server :=
  match (findpending id s.queue.pendingpays).filter (·.result = none) with
  | none => s
  | some _ =>
    let s := { s with queue := checkpendingexpiry time s.queue id }
    if (findpending id s.queue.pendingpays).bind (·.result) ≠ none then postevent time s "pending"
    else s

inductive Request
  | account (acct : Account)
  | network (name : Str)
  | budget (aid : ℕ) (maxpertx maxpersess currency : Str)
  | gasbudget (aid : ℕ) (maxpertx maxpersess : Str)
  | pay (fid aid : ℕ) (usdc : Bool) (amount recipient : Str)
  | authorize (fid aid : ℕ) (areq : AuthReq)
  | approve (id : ℤ) (env : Env)
  | deny (id : ℤ)
  | read (f : File) (aid : ℕ) (m : Tread)
  | readpending
  | openevent (fid : ℕ)
  | readevent (m : Tread)
  | flush (oldtag : ℕ)
  | clunk (fid : ℕ)
  | expire (id : ℤ)
  | call (c : Call)

/-- One request, and the error it is answered with if it is a write that
fails. The time of a proposal may be up, and other callers may reserve, at any
point. -/
def serve (time : ℕ → ℤ) (s : Server) : Request → Server × Option Str
  | .account acct => addaccount s acct
  | .network name => (setnetwork s name, none)
  | .budget aid maxpertx maxpersess currency => writebudget s aid maxpertx maxpersess currency
  | .gasbudget aid maxpertx maxpersess => writegasbudget s aid maxpertx maxpersess
  | .pay fid aid usdc amount recipient => writepay time s fid aid usdc amount recipient
  | .authorize fid aid areq => writeauthorize time s fid aid areq
  | .approve id env =>
    if id ≤ 0 then (s, some "approve: invalid id") else approvepending time env s id
  | .deny id => if id ≤ 0 then (s, some "deny: invalid id") else denypending time s id
  | .read f aid m => (readfile time s f aid m, none)
  | .readpending => (readpending time s, none)
  | .openevent fid => ({ s with evfids := ⟨fid, [], none⟩ :: s.evfids }, none)
  | .readevent m => (readevent s m, none)
  | .flush oldtag => (flush s oldtag, none)
  | .clunk fid => (clunk s fid, none)
  | .expire id => (expire time s id, none)
  | .call c => ({ s with books := s.books.call c }, none)

def step (time : ℕ → ℤ) (s : Server) (r : Request) : Server := (serve time s r).1

def Server.init (accts : List Account) : Server where
  accounts := accts.zipIdx.map fun a => ⟨a.2, a.1⟩
  books := ⟨[], [], []⟩
  activenetwork := 0
  queue := ⟨[], 1, 0, []⟩
  paystates := []
  authstates := []
  evfids := []

def run (time : ℕ → ℤ) (s : Server) (rs : List Request) : Server := rs.foldl (step time) s

end Infernode.Wallet
