import Infernode.Twofa.Slot

/-!
# A two-factor account

`twofaslot.b` over the two stores of an account: the factotum blob of secstore and the
slot files. A call comes with what it meets: how each of its steps ends, and where the
machine stops. A path is what it resolves to; `password` is the one that secstored knows
the account by.
-/

namespace Infernode.Twofa

open Limbo Lib

abbrev Key := List UInt8

structure Secstore where
  mkfilekey3 : Str → Str → Key
  mkfilekey2 : Str → Key
  mkfilekey : Str → Key
  mkkek2fa : Key → List UInt8 → Key
  encrypt3 : List UInt8 → Key → List UInt8 → Option (List UInt8)
  decrypt3 : List UInt8 → Key → Option Key → Option Key → Option (List UInt8)

abbrev Path := List Str

abbrev Files := Path → Option (List UInt8)

structure Account where
  blob : Option (List UInt8)
  files : Files

/-- How `create` and `write` of a file end; `cut` is how much was written, if the file
was created. -/
inductive Wrote
  | wrote
  | failed (cut : Option ℕ)
  | stopped (cut : Option ℕ)
  deriving DecidableEq

inductive Put
  | stored
  | failed
  | stopped (stored : Bool)
  deriving DecidableEq

abbrev Derive := Str → List UInt8 → Str → Except Str (List UInt8)

/-- What a call meets. `listing` is what `dirread` gives to `listslots`, `unlocks` and
`touch` are `twofa->derive` in `unlock` and, for each key in turn, in `writeslots`,
`removes` are the names that `removeslots` finds and can remove. -/
structure World where
  listing : List Str
  unlocks : Derive
  touch : ℕ → Derive
  hint : Wrote
  datakey : Option (List UInt8)
  random : ℕ → List UInt8
  connects : Bool
  gives : Bool
  makesdir : Bool
  writes : List Wrote
  put : Put
  removes : List Str
  stops : Bool
  errstr : Str

inductive Fault
  | failed (msg : Str)
  | stopped
  deriving DecidableEq

abbrev Call := Proc Account Fault

def fail {α : Type} (msg : Str) : Call α :=
  throw (.failed msg)

def Fault.under (name : Str) : Fault → Fault
  | .failed msg => .failed (name ++ msg)
  | .stopped => .stopped

def contains (s sub : Str) : Bool :=
  decide (sub <:+: s)

def ispinerr (e : Str) : Bool :=
  contains e "PIN_INVALID" || contains e "PIN_AUTH_INVALID" || contains e "PIN_BLOCKED" ||
    contains e "PIN_AUTH_BLOCKED" || contains e "UV_BLOCKED"

def resolve (dir : Path) (name : Str) : Path :=
  (tokenize name ['/']).foldl
    (fun path elem => if elem = lit "." then path else if elem = lit ".." then path.dropLast
      else path ++ [elem]) dir

def Slotbase : Str := "/usr/inferno/secstore"

def slotdir (user : Str) : Str :=
  Slotbase ++ '/' :: user ++ lit "/2fa"

def dirpath (user : Str) : Path :=
  resolve [] (slotdir user)

def Wrote.file (o : Wrote) (old : Option (List UInt8)) (content : List UInt8) :
    Option (List UInt8) :=
  match o with
  | .wrote => some content
  | .failed none => old
  | .failed (some k) => some (content.take k)
  | .stopped none => old
  | .stopped (some k) => some (content.take k)

def Account.write (s : Account) (path : Path) (o : Wrote) (content : List UInt8) : Account :=
  { s with files := Function.update s.files path (o.file (s.files path) content) }

def readfile (user : Str) (files : Files) (name : Str) : Option (List UInt8) :=
  files (dirpath user ++ [name])

def listslots (user : Str) (files : Files) (listing : List Str) : List Slot :=
  ((listing.filterMap fun name => (readfile user files name).bind readslot).filter
    fun s => s.kind ≠ []).reverse

def striplast (s : Str) : Str :=
  (s.reverse.dropWhile fun c => decide (c ∈ ['\n', '\r', ' '])).reverse

def readlastgood (user : Str) (files : Files) : Str :=
  match readfile user files ".lastgood" with
  | none => []
  | some file => striplast (string (file.take 512))

def frontload (slots : List Slot) (cred : Str) : List Slot :=
  let good := fun s : Slot => decide (s.kind = lit "key" ∧ s.cred = cred)
  if cred = [] then slots
  else
    match slots.find? good with
    | none => slots
    | some s => s :: slots.eraseP good

variable (S : Secstore) (user : Str)

def trykeys (rootkey : Key) (derive : Derive) (pin : Str) :
    List Slot → Str → Except Str (Str × List UInt8)
  | [], lastderr => .error lastderr
  | s :: slots, lastderr =>
    match s.wrap with
    | none => trykeys rootkey derive pin slots lastderr
    | some wrap =>
      if s.kind ≠ lit "key" then trykeys rootkey derive pin slots lastderr
      else
        match (fromhex s.salt).filter (·.length = 32) with
        | none => trykeys rootkey derive pin slots "bad salt in slot"
        | some salt =>
          match derive s.cred salt pin with
          | .error e => if ispinerr e then .error e else trykeys rootkey derive pin slots e
          | .ok R =>
            match S.decrypt3 wrap (S.mkkek2fa rootkey R) none none with
            | some DK => .ok (s.cred, DK)
            | none =>
              trykeys rootkey derive pin slots "slot wrap did not decrypt with derived key"

def tryrecovery (recoverypass : Str) (slots : List Slot) : Option (List UInt8) :=
  if recoverypass = [] then none
  else
    slots.findSome? fun s =>
      if s.kind ≠ lit "recovery" then none
      else s.wrap.bind fun wrap => S.decrypt3 wrap (S.mkfilekey3 user recoverypass) none none

def writelastgood (w : World) (cred : Str) : Call Unit := do
  modify fun s => s.write (dirpath user ++ [lit ".lastgood"]) w.hint (bytes (cred ++ ['\n']))
  match w.hint with
  | .stopped _ => throw .stopped
  | _ => pure ()

def unlock (w : World) (rootkey : Key) (recoverypass pin : Str) : Call (List UInt8) := do
  let s ← get
  let slots := frontload (listslots user s.files w.listing) (readlastgood user s.files)
  if slots = [] then fail "account has no 2fa slots"
  else
    match trykeys S rootkey w.unlocks pin slots [] with
    | .ok (cred, DK) => do
      writelastgood user w cred
      pure DK
    | .error lastderr =>
      match tryrecovery S user recoverypass slots with
      | some DK => pure DK
      | none =>
        if lastderr ≠ [] then fail (lit "security key: " ++ lastderr)
        else fail "no slot could unlock (key absent or wrong recovery passphrase)"

def keyrecs (w : World) (rootkey DK : Key) (pin : Str) :
    ℕ → List (Str × Str × Str) → List (Str × List UInt8) → Except Str (List (Str × List UInt8))
  | _, [], recs => .ok recs
  | i, (name, credhex, salthex) :: keys, recs =>
    match (fromhex salthex).filter (·.length = 32) with
    | none => .error (lit "bad salt for slot " ++ name)
    | some salt =>
      match w.touch i credhex salt pin with
      | .error e => .error (lit "derive " ++ name ++ lit ": " ++ e)
      | .ok R =>
        let kek := S.mkkek2fa rootkey R
        match S.encrypt3 DK kek (w.random (i + 1)) with
        | none => .error (lit "wrap " ++ name ++ lit " failed")
        | some wrap =>
          if S.decrypt3 wrap kek none none ≠ some DK then
            .error (lit "verify " ++ name ++ lit " failed")
          else
            keyrecs w rootkey DK pin (i + 1) keys
              ((name, bytes (slottext "key" credhex salthex wrap)) :: recs)

def recoveryrecs (w : World) (DK : Key) (recoverypass : Str) (n : ℕ)
    (recs : List (Str × List UInt8)) : Except Str (List (Str × List UInt8)) :=
  if recoverypass = [] then .ok recs
  else
    let kek := S.mkfilekey3 user recoverypass
    match S.encrypt3 DK kek (w.random (n + 1)) with
    | none => .error "wrap recovery failed"
    | some wrap =>
      if S.decrypt3 wrap kek none none ≠ some DK then .error "verify recovery failed"
      else .ok ((lit "recovery", bytes (slottext "recovery" "-" "-" wrap)) :: recs)

def writefiles (errstr : Str) : List (Str × List UInt8) → List Wrote → Call Unit
  | [], _ => pure ()
  | _ :: _, [] => throw .stopped
  | (name, content) :: recs, o :: os => do
    modify fun s => s.write (resolve (dirpath user) name) o content
    match o with
    | .wrote => writefiles errstr recs os
    | .failed none => fail (lit "create " ++ slotdir user ++ '/' :: name ++ lit ": " ++ errstr)
    | .failed (some _) => fail (lit "write " ++ slotdir user ++ '/' :: name ++ lit ": " ++ errstr)
    | .stopped _ => throw .stopped

def slotrecs (w : World) (rootkey DK : Key) (keys : List (Str × Str × Str))
    (recoverypass pin : Str) : Except Str (List (Str × List UInt8)) := do
  let recs ← keyrecs S w rootkey DK pin 0 keys []
  recoveryrecs S user w DK recoverypass keys.length recs

def writeslots (w : World) (rootkey DK : Key) (keys : List (Str × Str × Str))
    (recoverypass pin : Str) : Call Unit :=
  match slotrecs S user w rootkey DK keys recoverypass pin with
  | .error e => fail e
  | .ok recs =>
    if recs = [] then fail "no slots requested"
    else if w.makesdir = false then fail (lit "create " ++ slotdir user ++ lit ": " ++ w.errstr)
    else writefiles user w.errstr recs w.writes

def Account.without (s : Account) (paths : List Path) : Account :=
  { s with files := fun path => if path ∈ paths then none else s.files path }

def removeslots (w : World) : Call Unit := do
  modify fun s => s.without (w.removes.map fun name => dirpath user ++ [name])
  if w.stops then throw .stopped
  else pure ()

def putfile (w : World) (newfile : List UInt8) : Call Bool :=
  match w.put with
  | .stored => do
    modify fun s => { s with blob := some newfile }
    pure true
  | .failed => pure false
  | .stopped stored => do
    modify fun s => { s with blob := if stored then some newfile else s.blob }
    throw .stopped

variable (password : Str)

def enroll (w : World) (pass recoverypass : Str) (keys : List (Str × Str × Str)) (pin : Str) :
    Call Unit := do
  let rootkey := S.mkfilekey3 user pass
  if w.connects = false ∨ pass ≠ password then fail (lit "secstore connect: " ++ w.errstr)
  else
    let s ← get
    let plaintext := match (if w.gives then s.blob else none) with
      | some file =>
        S.decrypt3 file rootkey (some (S.mkfilekey2 pass)) (some (S.mkfilekey pass))
      | none => some []
    match plaintext with
    | none => fail "wrong password (cannot decrypt current factotum)"
    | some plaintext =>
      match w.datakey.filter (·.length = 32) with
      | none => fail "cannot generate data key"
      | some DK =>
        match (S.encrypt3 plaintext DK (w.random 0)).filter
            (fun newfile => S.decrypt3 newfile DK none none = some plaintext) with
        | none => fail "re-encrypt verification failed"
        | some newfile => do
          EStateM.adaptExcept (Fault.under "writeslots: ")
            (writeslots S user w rootkey DK keys recoverypass pin)
          if ← putfile w newfile then pure ()
          else do
            removeslots user w
            fail (lit "putfile factotum failed (rolled back): " ++ w.errstr)

def keyname (cred : Str) : Str :=
  lit "key-" ++ cred.take 16

def addkey (w : World) (pass recoverypass cred salthex newpin : Str) : Call Unit := do
  if recoverypass = [] then fail "addkey needs the recovery passphrase"
  else do
    let rootkey := S.mkfilekey3 user pass
    let DK ← EStateM.adaptExcept (Fault.under "cannot unlock with the recovery passphrase: ")
      (unlock S user w rootkey recoverypass [])
    writeslots S user w rootkey DK [(keyname cred, cred, salthex)] [] newpin

def disable (w : World) (pass recoverypass pin : Str) : Call Unit := do
  let s ← get
  if listslots user s.files w.listing = [] then pure ()
  else do
    let rootkey := S.mkfilekey3 user pass
    let DK ← EStateM.adaptExcept (Fault.under "cannot recover data key to disable: ")
      (unlock S user w rootkey recoverypass pin)
    if w.connects = false ∨ pass ≠ password then fail (lit "secstore connect: " ++ w.errstr)
    else
      match (if w.gives then s.blob else none) with
      | none => fail "no factotum blob to revert"
      | some file =>
        match S.decrypt3 file DK none none with
        | none => fail "decrypt factotum with data key failed"
        | some plaintext =>
          match (S.encrypt3 plaintext rootkey (w.random 0)).filter
              (fun newfile => S.decrypt3 newfile rootkey none none = some plaintext) with
          | none => fail "re-encrypt to password failed"
          | some newfile => do
            if ← putfile w newfile then removeslots user w
            else fail (lit "putfile factotum failed: " ++ w.errstr)

inductive Act
  | enroll (pass recoverypass : Str) (keys : List (Str × Str × Str)) (pin : Str)
  | addkey (pass recoverypass cred salthex newpin : Str)
  | disable (pass recoverypass pin : Str)

def call (w : World) : Act → Call Unit
  | .enroll pass recoverypass keys pin => enroll S user password w pass recoverypass keys pin
  | .addkey pass recoverypass cred salthex newpin =>
    addkey S user w pass recoverypass cred salthex newpin
  | .disable pass recoverypass pin => disable S user password w pass recoverypass pin

def step (s : Account) (a : World × Act) : Account :=
  match call S user password a.1 a.2 s with
  | .ok _ s' => s'
  | .error _ s' => s'

end Infernode.Twofa
