import Infernode.Tls.Record

/-!
# Keys and signatures

The functions of `tls.b` over the keyring, `x509` and `asn1`: hashes by cipher suite, the key
schedules of both versions, and the verification of a server's signature and certificates.
-/

namespace Infernode.Tls

open Limbo (Str lit asciilower)

inductive GeneralName
  | dNSName (str : Str)
  | iPAddress (ip : List UInt8)
  | other

inductive ExtClass
  | subjectAltName (names : List GeneralName)
  | other

structure RSAKey where
  modulus : ℕ
  modlen : ℕ
  exponent : ℕ

inductive PublicKey
  | RSA (pk : RSAKey)
  | EC (point : List UInt8)
  | other

structure Certificate where
  exts : List (List ℕ × Except Str ExtClass)
  subject : List (List (List ℕ × Str))
  pubkey : Except Str (Option PublicKey)

/-- What `tls.b` calls. `none` is nil or an exception that is caught. -/
structure Keyring extends Aead where
  sha256 : List UInt8 → List UInt8
  sha384 : List UInt8 → List UInt8
  sha512 : List UInt8 → List UInt8
  hmac_sha256 : List UInt8 → List UInt8 → List UInt8
  hmac_sha384 : List UInt8 → List UInt8 → List UInt8
  x25519 : List UInt8 → List UInt8 → Option (List UInt8)
  x25519_base : List UInt8 → List UInt8
  p256_make_point : List UInt8 → Option (List UInt8)
  p256_point_bytes : List UInt8 → Option (List UInt8)
  p256_ecdh : List UInt8 → List UInt8 → Option (List UInt8)
  p256_ecdsa_verify : List UInt8 → List UInt8 → List UInt8 → Bool
  p384_ecdh : List UInt8 → List UInt8 → Option (List UInt8)
  p384_ecdsa_verify : List UInt8 → List UInt8 → List UInt8 → Bool
  mlkem768_decaps : List UInt8 → List UInt8 → Option (List UInt8)
  mlkem1024_decaps : List UInt8 → List UInt8 → Option (List UInt8)
  rsa_encrypt : List UInt8 → RSAKey → Except Str (List UInt8)
  decodesigned : List UInt8 → Except Str (List UInt8)
  decodecert : List UInt8 → Except Str Certificate
  decodebigints : List UInt8 → Option (List (List UInt8))
  verify_certchain : List (List UInt8) → Except Str Unit
  ipparse : Str → Option (List UInt8)

def require (b : Bool) (err : Str) : Except Str Unit := if b then .ok () else .error err

def orerror {α : Type} (a : Option α) (err : Str) : Except Str α := a.elim (.error err) .ok

def TLS_ECDHE_RSA_WITH_AES_256_GCM_SHA384 : ℕ := 0xC030
def TLS_ECDHE_ECDSA_WITH_AES_256_GCM_SHA384 : ℕ := 0xC02C
def TLS_RSA_WITH_AES_256_GCM_SHA384 : ℕ := 0x009D
def TLS_AES_256_GCM_SHA384 : ℕ := 0x1302
def TLS_ECDHE_RSA_WITH_AES_128_GCM_SHA256 : ℕ := 0xC02F
def TLS_ECDHE_ECDSA_WITH_AES_128_GCM_SHA256 : ℕ := 0xC02B

def sha384suites : List ℕ :=
  [TLS_ECDHE_RSA_WITH_AES_256_GCM_SHA384, TLS_ECDHE_ECDSA_WITH_AES_256_GCM_SHA384,
    TLS_RSA_WITH_AES_256_GCM_SHA384, TLS_AES_256_GCM_SHA384]

def hashlength (suite : ℕ) : ℕ := if suite ∈ sha384suites then 48 else 32

def keylength (suite : ℕ) : ℕ := if suite ∈ sha384suites then 32 else 16

def isecdhe (suite : ℕ) : Bool :=
  suite ∈ [TLS_ECDHE_RSA_WITH_AES_128_GCM_SHA256, TLS_ECDHE_RSA_WITH_AES_256_GCM_SHA384,
    TLS_ECDHE_ECDSA_WITH_AES_128_GCM_SHA256, TLS_ECDHE_ECDSA_WITH_AES_256_GCM_SHA384]

section
variable (K : Keyring)

def Keyring.hmac_hash (suite : ℕ) (key data : List UInt8) : List UInt8 :=
  if hashlength suite = 48 then K.hmac_sha384 data key else K.hmac_sha256 data key

def Keyring.hash (suite : ℕ) (b : List UInt8) : List UInt8 :=
  if hashlength suite = 48 then K.sha384 b else K.sha256 b

def Keyring.prfloop (suite : ℕ) (secret labelseed : List UInt8) : ℕ → List UInt8 → List UInt8
  | 0, _ => []
  | n + 1, a =>
    let a' := K.hmac_hash suite secret a
    K.hmac_hash suite secret (a' ++ labelseed) ++ prfloop suite secret labelseed n a'

def Keyring.tls12_prf (suite : ℕ) (secret label seed : List UInt8) (n : ℕ) : List UInt8 :=
  (K.prfloop suite secret (label ++ seed) n (label ++ seed)).take n

def Keyring.hkdf_extract (suite : ℕ) (salt ikm : List UInt8) : List UInt8 :=
  K.hmac_hash suite salt ikm

def Keyring.expandloop (suite : ℕ) (prk info : List UInt8) : ℕ → ℕ → List UInt8 → List UInt8
  | 0, _, _ => []
  | n + 1, i, t =>
    let t' := K.hmac_hash suite prk (t ++ info ++ [UInt8.ofNat i])
    t' ++ expandloop suite prk info n (i + 1) t'

def Keyring.hkdf_expand (suite : ℕ) (prk info : List UInt8) (length : ℕ) : List UInt8 :=
  let hashlen := hashlength suite
  (K.expandloop suite prk info ((length + hashlen - 1) / hashlen) 1 []).take length

def s2b (s : String) : List UInt8 := s.toList.map fun c => UInt8.ofNat c.toNat

def Keyring.hkdf_expand_label (suite : ℕ) (secret : List UInt8) (label : String)
    (context : List UInt8) (length : ℕ) : List UInt8 :=
  let full := s2b "tls13 " ++ s2b label
  K.hkdf_expand suite secret (put16 length ++ UInt8.ofNat full.length :: full ++
    UInt8.ofNat context.length :: context) length

def Keyring.derivekeys (secret : List UInt8) (suite : ℕ) : List UInt8 × List UInt8 :=
  (K.hkdf_expand_label suite secret "key" [] (keylength suite),
    K.hkdf_expand_label suite secret "iv" [] 12)

def RSA_PKCS1_SHA256 : ℕ := 0x0401
def RSA_PKCS1_SHA384 : ℕ := 0x0501
def RSA_PKCS1_SHA512 : ℕ := 0x0601
def RSA_PSS_RSAE_SHA256 : ℕ := 0x0804
def RSA_PSS_RSAE_SHA384 : ℕ := 0x0805
def ECDSA_SECP256R1_SHA256 : ℕ := 0x0403
def ECDSA_SECP384R1_SHA384 : ℕ := 0x0503
def ECDSA_SHA512 : ℕ := 0x0603

def Keyring.hashbytes (msg : List UInt8) (hashlen : ℕ) : List UInt8 :=
  if hashlen = 48 then K.sha384 msg else if hashlen = 64 then K.sha512 msg else K.sha256 msg

def digestinfoprefix (hashlen : ℕ) : List UInt8 :=
  let (h, l) : UInt8 × UInt8 :=
    if hashlen = 48 then (2, 0x41) else if hashlen = 64 then (3, 0x51) else (1, 0x31)
  [0x30, l, 0x30, 0x0d, 0x06, 0x09, 0x60, 0x86, 0x48, 0x01, 0x65, 0x03, 0x04, 0x02, h, 0x05,
    0x00, 0x04, UInt8.ofNat hashlen]

def bytestoip (b : List UInt8) : ℕ := b.foldl (fun n x => n * 256 + x.toNat) 0

def iptobytes : ℕ → ℕ → List UInt8
  | 0, _ => []
  | k + 1, n => iptobytes k (n / 256) ++ [UInt8.ofNat n]

def RSAKey.open (key : RSAKey) (sig : List UInt8) : List UInt8 :=
  iptobytes key.modlen (bytestoip sig ^ key.exponent % key.modulus)

def pkcs1v15_verify (sig : List UInt8) (key : RSAKey) (digestinfo : List UInt8) : Bool :=
  let k := key.modlen
  if sig.length ≠ k ∨ k < digestinfo.length + 11 then false
  else if key.modulus ≤ bytestoip sig then false
  else key.open sig ==
    [0, 1] ++ List.replicate (k - 3 - digestinfo.length) 0xFF ++ 0 :: digestinfo

def Keyring.mgf1 (seed : List UInt8) (masklen hashlen : ℕ) : List UInt8 :=
  ((List.range masklen).flatMap fun c => K.hashbytes (seed ++ iptobytes 4 c) hashlen).take masklen

def Keyring.rsapss_verify (msghash sig : List UInt8) (key : RSAKey) : Except Str Unit := do
  let hashlen := msghash.length
  require (hashlen = 32 ∨ hashlen = 48) (lit "PSS: unsupported hash")
  require (sig.length = key.modlen) (lit "PSS: bad signature length")
  let em := key.open sig
  require (em.getLast? = some 0xBC) (lit "PSS: invalid trailer")
  let dblen := em.length - hashlen - 1
  require (hashlen < dblen) (lit "PSS: encoded message too short")
  let h := (em.drop dblen).take hashlen
  require ((em.headD 0) &&& 0x80 = 0) (lit "PSS: non-zero top bits")
  let db := match List.zipWith (· ^^^ ·) (em.take dblen) (K.mgf1 h dblen hashlen) with
    | b :: rest => (b &&& 0x7F) :: rest
    | [] => []
  let pslen := dblen - hashlen - 1
  require ((db.take pslen).all (· == 0)) (lit "PSS: non-zero padding")
  require (db.getD pslen 0 = 1) (lit "PSS: missing 0x01 separator")
  let salt := db.drop (dblen - hashlen)
  require (h = K.hashbytes (List.replicate 8 0 ++ msghash ++ salt) hashlen)
    (lit "PSS: hash mismatch")

def Keyring.leaf (certs : List (List UInt8)) (err : Str) : Except Str Certificate := do
  let leaf ← orerror certs.head? err
  let signed ← K.decodesigned leaf
  K.decodecert signed

def Keyring.extractrsakey (certs : List (List UInt8)) : Except Str RSAKey := do
  let cert ← K.leaf certs (lit "tls: no certificates")
  let pk ← cert.pubkey
  match pk with
  | none => .error (lit "tls: no public key")
  | some (.RSA key) => .ok key
  | some _ => .error (lit "tls: not an RSA public key")

def Keyring.extractecpointbytes (certs : List (List UInt8)) : Except Str (List UInt8) := do
  let cert ← K.leaf certs (lit "no certs")
  let pk ← cert.pubkey
  match pk with
  | none => .error (lit "no public key")
  | some (.EC point) => .ok point
  | some _ => .error (lit "not an EC key")

def justify (coordlen : ℕ) (b : List UInt8) : Option (List UInt8) :=
  let b := b.dropWhile (· == 0)
  if coordlen < b.length then none else some (List.replicate (coordlen - b.length) 0 ++ b)

def Keyring.parse_ecdsa_der_sig_n (sig : List UInt8) (coordlen : ℕ) : Option (List UInt8) :=
  match K.decodebigints sig with
  | some [r, s] =>
    (justify coordlen r).bind fun r => (justify coordlen s).map fun s => r ++ s
  | _ => none

def Keyring.verifyecdsa (pt : List UInt8) (scheme : ℕ) (digest sig : List UInt8) (tls13 : Bool) :
    Except Str Unit :=
  if pt.length = 65 then do
    require (!(tls13 && scheme ≠ ECDSA_SECP256R1_SHA256))
      (lit "ECDSA scheme does not match the P-256 key")
    let ecpt ← orerror (K.p256_make_point pt) (lit "invalid ECDSA P-256 key or signature")
    let raw ← orerror (K.parse_ecdsa_der_sig_n sig 32)
      (lit "invalid ECDSA P-256 key or signature")
    require (K.p256_ecdsa_verify ecpt digest raw) (lit "ECDSA-P256 verification failed")
  else if pt.length = 97 then do
    require (!(tls13 && scheme ≠ ECDSA_SECP384R1_SHA384))
      (lit "ECDSA scheme does not match the P-384 key")
    let raw ← orerror (K.parse_ecdsa_der_sig_n sig 48) (lit "invalid ECDSA P-384 signature")
    require (K.p384_ecdsa_verify pt digest raw) (lit "ECDSA-P384 verification failed")
  else .error (lit "unsupported EC key size")

def Keyring.verifyserversig (certs : List (List UInt8)) (scheme : ℕ) (msg sig : List UInt8)
    (tls13 : Bool) : Except Str Unit :=
  let hashlen := if scheme / 256 = 4 then 32 else if scheme / 256 = 5 then 48 else 64
  if scheme ∈ [RSA_PKCS1_SHA256, RSA_PKCS1_SHA384, RSA_PKCS1_SHA512] then do
    require (!tls13) (lit "RSA PKCS#1 v1.5 is not allowed in TLS 1.3")
    let key ← K.extractrsakey certs
    require (pkcs1v15_verify sig key ( digestinfoprefix hashlen ++ K.hashbytes msg hashlen))
      (lit "RSA signature verification failed")
  else if scheme ∈ [RSA_PSS_RSAE_SHA256, RSA_PSS_RSAE_SHA384] then do
    let hashlen := if scheme = RSA_PSS_RSAE_SHA256 then 32 else 48
    let key ← K.extractrsakey certs
    K.rsapss_verify (K.hashbytes msg hashlen) sig key
  else if scheme ∈ [ECDSA_SECP256R1_SHA256, ECDSA_SECP384R1_SHA384, ECDSA_SHA512] then do
    let pt ← K.extractecpointbytes certs
    K.verifyecdsa pt scheme (K.hashbytes msg hashlen) sig tls13
  else .error (lit "unsupported signature scheme")

def id_ce_subjectAltName : List ℕ := [2, 5, 29, 17]
def id_at_commonName : List ℕ := [2, 5, 4, 3]

def matchhostname (hostname pattern : Str) : Bool :=
  let h := asciilower hostname
  let p := asciilower pattern
  h == p || match p with
    | '*' :: '.' :: c :: rest => h.head? ≠ some '.' && h.dropWhile (· ≠ '.') == '.' :: c :: rest
    | _ => false

def Keyring.ipliteral (s : Str) : Option (List UInt8) :=
  if s = [] ∨ !(s.contains ':' || s.all fun c => c == '.' || ('0' ≤ c && c ≤ '9')) then none
  else K.ipparse s

def v4prefix : List UInt8 := List.replicate 10 0 ++ [0xFF, 0xFF]

def ipmatch (a b : List UInt8) : Bool :=
  if b.length = 4 then a == v4prefix ++ b else b.length = 16 && a == b

def sanmatch (hostname : Str) (addr : Option (List UInt8)) : GeneralName → Bool
  | .dNSName str => addr.isNone && matchhostname hostname str
  | .iPAddress ip => addr.any fun a => ipmatch a ip
  | .other => false

/-- `none` where the extensions decide nothing, with whether there was a SAN. -/
def sanloop (hostname : Str) (addr : Option (List UInt8)) :
    List (List ℕ × Except Str ExtClass) → Bool → Except Str (Bool × Bool)
  | [], checked => .ok (false, checked)
  | (oid, ext) :: rest, checked =>
    if oid ≠ id_ce_subjectAltName then sanloop hostname addr rest checked
    else
      match ext with
      | .error err => .error (lit "tls: hostname verify: bad subjectAltName: " ++ err)
      | .ok .other =>
        .error (lit "tls: hostname verify: subjectAltName decoded as another extension")
      | .ok (.subjectAltName names) =>
        if names.any (sanmatch hostname addr) then .ok (true, true)
        else sanloop hostname addr rest true

def Keyring.verifyhostname (hostname : Str) (certder : List UInt8) : Except Str Unit := do
  let cert ← K.leaf [certder] []
  let addr := K.ipliteral hostname
  let (found, checked) ← sanloop hostname addr cert.exts false
  if found then .ok ()
  else do
    require (!checked) (lit "tls: hostname does not match any subjectAltName")
    require addr.isNone (lit "tls: certificate names no IP address")
    require (cert.subject.any fun rdn => rdn.any fun ava =>
        ava.1 == id_at_commonName && matchhostname hostname ava.2)
      (lit "tls: hostname does not match certificate")

def Keyring.verifycerts (servername : Str) (certs : List (List UInt8)) : Except Str Unit := do
  let leaf ← orerror certs.head? (lit "tls: no server certificates")
  K.verify_certchain certs
  if servername = [] then .ok () else K.verifyhostname servername leaf

end

end Infernode.Tls
