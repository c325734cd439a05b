import Infernode.Limbo.Str

/-!
# TLS records

The record layer of `tls.b`. The ciphers are the keyring's, an `Aead` here. Two fields of `State`
are not the source's: `used` keeps the key and the nonce of each encryption, `msgs` the messages
of the handshake.
-/

namespace Infernode.Tls

open Limbo (Str lit)

def CT_CHANGE_CIPHER_SPEC : UInt8 := 20
def CT_ALERT : UInt8 := 21
def CT_HANDSHAKE : UInt8 := 22
def CT_APPLICATION_DATA : UInt8 := 23

def ALERT_WARNING : UInt8 := 1
def ALERT_CLOSE_NOTIFY : UInt8 := 0

def TLS12 : ℕ := 0x0303
def TLS13 : ℕ := 0x0304

def TLS_CHACHA20_POLY1305_SHA256 : ℕ := 0x1303

def MAXRECORD : ℕ := 16384
def MAXFRAGMENT : ℕ := 16384 + 256
def RECVERSION : ℕ := 0x0303

/-- The keyring's ciphers. `none` is nil; a plaintext has the length of its ciphertext. -/
structure Aead where
  aesgcmsetup : List UInt8 → List UInt8 → Bool
  aesgcmencrypt : List UInt8 → List UInt8 → List UInt8 → List UInt8 →
    Option (List UInt8 × List UInt8)
  aesgcmdecrypt : List UInt8 → List UInt8 → List UInt8 → List UInt8 → List UInt8 →
    Option (List UInt8)
  ccpolyencrypt : List UInt8 → List UInt8 → List UInt8 → List UInt8 →
    Option (List UInt8 × List UInt8)
  ccpolydecrypt : List UInt8 → List UInt8 → List UInt8 → List UInt8 → List UInt8 →
    Option (List UInt8)
  aesgcm_length : ∀ key nonce ct aad tag, ∀ dat ∈ aesgcmdecrypt key nonce ct aad tag,
    dat.length = ct.length
  ccpoly_length : ∀ ct aad tag key nonce, ∀ dat ∈ ccpolydecrypt ct aad tag key nonce,
    dat.length = ct.length

/-- A descriptor: what its reads give, byte by byte, with `none` for a read that fails or gives
nothing, what was written to it, and which writes take all they are given. -/
structure Fd where
  input : List (Option UInt8)
  output : List (List UInt8)
  takes : ℕ → Bool

structure Msg where
  sent : Bool
  mtype : UInt8
  data : List UInt8
  deriving DecidableEq

structure State where
  fd : Fd
  version : ℕ
  suite : ℕ
  group : ℕ
  writekey : Option (List UInt8)
  writeiv : List UInt8
  readkey : Option (List UInt8)
  readiv : List UInt8
  writeseq : UInt64
  readseq : UInt64
  rbuf : List UInt8
  roff : ℕ
  rlen : ℕ
  tr256 : List UInt8
  tr384 : List UInt8
  cts : List UInt8
  sts : List UInt8
  servername : Str
  insecure : Bool
  hsencrypted : Bool
  hsbuf : Option (List UInt8)
  hsoff : ℕ
  eph_p384_priv : Option (List UInt8)
  eph_mlkem_sk : Option (List UInt8)
  eph_mlkem768_sk : Option (List UInt8)
  eph_p256_priv : Option (List UInt8)
  used : List (List UInt8 × List UInt8)
  msgs : List Msg

def put16 (val : ℕ) : List UInt8 := [UInt8.ofNat (val / 256), UInt8.ofNat val]

def put64 (val : UInt64) : List UInt8 :=
  (List.range 8).map fun i => (val >>> UInt64.ofNat (56 - i * 8)).toUInt8

def get16 (hi lo : UInt8) : ℕ := hi.toNat * 256 + lo.toNat

def isccpoly (suite : ℕ) : Bool := suite == TLS_CHACHA20_POLY1305_SHA256

def buildnonce (iv : List UInt8) (seq : UInt64) : List UInt8 :=
  iv.take 4 ++ List.zipWith (· ^^^ ·) (iv.drop 4) (put64 seq)

def ensure : ℕ → List (Option UInt8) → Option (List UInt8) × List (Option UInt8)
  | 0, input => (some [], input)
  | _ + 1, [] => (none, [])
  | _ + 1, none :: input => (none, input)
  | n + 1, some b :: input => ((ensure n input).1.map (b :: ·), (ensure n input).2)

def aad13 (ctype : UInt8) (n : ℕ) : List UInt8 := ctype :: (put16 RECVERSION ++ put16 n)

def aad12 (seq : UInt64) (ctype : UInt8) (n : ℕ) : List UInt8 :=
  put64 seq ++ ctype :: (put16 RECVERSION ++ put16 n)

def writeparams (cs : State) (ctype : UInt8) (n : ℕ) : List UInt8 × List UInt8 × List UInt8 :=
  if cs.version = TLS13 then ([], buildnonce cs.writeiv cs.writeseq, aad13 ctype (n + 16))
  else if !isccpoly cs.suite then
    (put64 cs.writeseq, cs.writeiv.take 4 ++ put64 cs.writeseq, aad12 cs.writeseq ctype n)
  else ([], buildnonce cs.writeiv cs.writeseq, aad12 cs.writeseq ctype n)

def Aead.seal (A : Aead) (suite : ℕ) (key nonce plaintext aad : List UInt8) :
    Except Str (List UInt8 × List UInt8) :=
  if isccpoly suite then
    (A.ccpolyencrypt plaintext aad key nonce).elim (.error (lit "tls: encrypt failed")) .ok
  else if !A.aesgcmsetup key nonce then .error (lit "tls: aesgcm setup failed")
  else (A.aesgcmencrypt key nonce plaintext aad).elim (.error (lit "tls: encrypt failed")) .ok

def Aead.unseal (A : Aead) (suite : ℕ) (key nonce ct aad tag : List UInt8) :
    Except Str (List UInt8) :=
  if isccpoly suite then
    (A.ccpolydecrypt ct aad tag key nonce).elim (.error (lit "tls: decrypt/auth failed")) .ok
  else if !A.aesgcmsetup key nonce then .error (lit "tls: aesgcm setup failed")
  else (A.aesgcmdecrypt key nonce ct aad tag).elim (.error (lit "tls: decrypt/auth failed")) .ok

def encrypt_record (A : Aead) (cs : State) (key : List UInt8) (ctype : UInt8)
    (plaintext : List UInt8) : Except Str (List UInt8) × State :=
  let (explicit, nonce, aad) := writeparams cs ctype plaintext.length
  match A.seal cs.suite key nonce plaintext aad with
  | .error err => (.error err, cs)
  | .ok (ct, tag) => (.ok (explicit ++ ct ++ tag),
      { cs with writeseq := cs.writeseq + 1, used := (key, nonce) :: cs.used })

def readparams (cs : State) (ctype : UInt8) (ciphertext : List UInt8) :
    Except Str (List UInt8 × List UInt8 × List UInt8 × List UInt8) :=
  if cs.version = TLS13 then
    if ciphertext.length < 16 then .error (lit "tls: ciphertext too short")
    else .ok (ciphertext.take (ciphertext.length - 16), ciphertext.drop (ciphertext.length - 16),
      buildnonce cs.readiv cs.readseq, aad13 ctype ciphertext.length)
  else if !isccpoly cs.suite then
    if ciphertext.length < 8 + 16 then .error (lit "tls: ciphertext too short")
    else
      let ctlen := ciphertext.length - 8 - 16
      .ok ((ciphertext.drop 8).take ctlen, (ciphertext.drop 8).drop ctlen,
        cs.readiv.take 4 ++ ciphertext.take 8, aad12 cs.readseq ctype ctlen)
  else
    if ciphertext.length < 16 then .error (lit "tls: ciphertext too short")
    else .ok (ciphertext.take (ciphertext.length - 16), ciphertext.drop (ciphertext.length - 16),
      buildnonce cs.readiv cs.readseq, aad12 cs.readseq ctype (ciphertext.length - 16))

def State.opened (cs : State) : State := { cs with readseq := cs.readseq + 1 }

def decrypt_record (A : Aead) (cs : State) (key : List UInt8) (ctype : UInt8)
    (ciphertext : List UInt8) : Except Str (List UInt8) × State :=
  match readparams cs ctype ciphertext with
  | .error err => (.error err, cs)
  | .ok (ct, tag, nonce, aad) =>
    match A.unseal cs.suite key nonce ct aad tag with
    | .error err => (.error err, cs)
    | .ok plaintext => (.ok plaintext, cs.opened)

def rawrecord (input : List (Option UInt8)) :
    Except Str (UInt8 × List UInt8) × List (Option UInt8) :=
  match ensure 5 input with
  | (some [ctype, _, _, hi, lo], rest) =>
    if MAXFRAGMENT < get16 hi lo then (.error (lit "tls: record too large"), rest)
    else
      match ensure (get16 hi lo) rest with
      | (some payload, rest') => (.ok (ctype, payload), rest')
      | (none, rest') => (.error (lit "tls: record payload read failed"), rest')
  | (_, rest) => (.error (lit "tls: record read failed"), rest)

def innerplaintext (plaintext : List UInt8) : Except Str (UInt8 × List UInt8) :=
  match plaintext.reverse.dropWhile (· == 0) with
  | [] => .error (lit "tls: empty inner plaintext")
  | ctype :: rest => .ok (ctype, rest.reverse)

def State.setinput (cs : State) (input : List (Option UInt8)) : State :=
  { cs with fd := { cs.fd with input := input } }

def readrecord (A : Aead) (cs : State) : Except Str (UInt8 × List UInt8) × State :=
  let (raw, rest) := rawrecord cs.fd.input
  let cs := cs.setinput rest
  match raw with
  | .error err => (.error err, cs)
  | .ok (ctype, payload) =>
    -- always in the clear
    if ctype = CT_CHANGE_CIPHER_SPEC then (.ok (ctype, payload), cs)
    else
      match cs.readkey with
      | none => (.ok (ctype, payload), cs)
      | some key =>
        match decrypt_record A cs key ctype payload with
        | (.error err, cs) => (.error err, cs)
        | (.ok plaintext, cs) =>
          if cs.version = TLS13 then (innerplaintext plaintext, cs)
          else (.ok (ctype, plaintext), cs)

def Fd.write (fd : Fd) (b : List UInt8) : Bool × Fd :=
  (fd.takes fd.output.length, { fd with output := fd.output ++ [b] })

def payload (A : Aead) (cs : State) (ctype : UInt8) (data : List UInt8) :
    Except Str (UInt8 × List UInt8) × State :=
  match cs.writekey with
  | none => (.ok (ctype, data), cs)
  | some key =>
    let (outer, plaintext) :=
      if cs.version = TLS13 then (CT_APPLICATION_DATA, data ++ [ctype]) else (ctype, data)
    match encrypt_record A cs key outer plaintext with
    | (.error err, cs) => (.error err, cs)
    | (.ok ciphertext, cs) => (.ok (outer, ciphertext), cs)

def writerecord (A : Aead) (cs : State) (ctype : UInt8) (data : List UInt8) :
    Option Str × State :=
  match payload A cs ctype data with
  | (.error err, cs) => (some err, cs)
  | (.ok (ctype, payload), cs) =>
    let (took, fd) := cs.fd.write
      (ctype :: (put16 RECVERSION ++ put16 payload.length ++ payload))
    (if took then none else some (lit "tls: write failed"), { cs with fd := fd })

end Infernode.Tls
