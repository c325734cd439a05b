import Infernode.Limbo.Utf
import Infernode.Tls.Crypto

/-!
# Handshake messages

What the client of `tls.b` sends and how it reads what it gets.
-/

namespace Infernode.Tls

open Limbo (Str lit)

def HT_CLIENT_HELLO : UInt8 := 1
def HT_SERVER_HELLO : UInt8 := 2
def HT_ENCRYPTED_EXTENSIONS : UInt8 := 8
def HT_CERTIFICATE : UInt8 := 11
def HT_SERVER_KEY_EXCHANGE : UInt8 := 12
def HT_CERTIFICATE_REQUEST : UInt8 := 13
def HT_SERVER_HELLO_DONE : UInt8 := 14
def HT_CERTIFICATE_VERIFY : UInt8 := 15
def HT_CLIENT_KEY_EXCHANGE : UInt8 := 16
def HT_FINISHED : UInt8 := 20
def HT_MESSAGE_HASH : UInt8 := 254

def EXT_SERVER_NAME : ℕ := 0
def EXT_SUPPORTED_GROUPS : ℕ := 10
def EXT_SIGNATURE_ALGORITHMS : ℕ := 13
def EXT_SUPPORTED_VERSIONS : ℕ := 43
def EXT_COOKIE : ℕ := 44
def EXT_KEY_SHARE : ℕ := 51

def GROUP_SECP256R1 : ℕ := 0x0017
def GROUP_SECP384R1 : ℕ := 0x0018
def GROUP_X25519 : ℕ := 0x001D
def GROUP_X25519MLKEM768 : ℕ := 0x11EC
def GROUP_SECP384R1MLKEM1024 : ℕ := 0x11ED

def P384_POINTLEN : ℕ := 97
def MLKEM768_CTLEN : ℕ := 1088
def MLKEM1024_CTLEN : ℕ := 1568
def MAXHSMSG : ℕ := 2 ^ 18

structure Config where
  suites : List ℕ
  minver : ℕ
  maxver : ℕ
  servername : Str
  insecure : Bool

def put24 (val : ℕ) : List UInt8 :=
  [UInt8.ofNat (val / 65536), UInt8.ofNat (val / 256), UInt8.ofNat val]

def get24 (a b c : UInt8) : ℕ := (a.toNat * 256 + b.toNat) * 256 + c.toNat

def hsmsg (mtype : UInt8) (data : List UInt8) : List UInt8 := mtype :: (put24 data.length ++ data)

def buildext (etype : ℕ) (b : List UInt8) : List UInt8 := put16 etype ++ put16 b.length ++ b

def buildsniext (name : Str) : List UInt8 :=
  let b := Limbo.bytes name
  buildext EXT_SERVER_NAME (put16 (b.length + 3) ++ 0 :: (put16 b.length ++ b))

def buildsupportedgroups (groups : List ℕ) : List UInt8 :=
  buildext EXT_SUPPORTED_GROUPS (put16 (2 * groups.length) ++ groups.flatMap put16)

def buildsigalgsext : List UInt8 :=
  let algs := [ECDSA_SECP256R1_SHA256, ECDSA_SECP384R1_SHA384, RSA_PSS_RSAE_SHA256,
    RSA_PSS_RSAE_SHA384, RSA_PKCS1_SHA256, RSA_PKCS1_SHA384, RSA_PKCS1_SHA512]
  buildext EXT_SIGNATURE_ALGORITHMS (put16 (2 * algs.length) ++ algs.flatMap put16)

def buildsupportedversions (config : Config) : List UInt8 :=
  let versions := (if config.minver ≤ TLS12 then [TLS12] else []) ++
    if TLS13 ≤ config.maxver then [TLS13] else []
  buildext EXT_SUPPORTED_VERSIONS
    (UInt8.ofNat (2 * versions.length) :: versions.flatMap put16)

def buildkeyshare (shares : List (ℕ × List UInt8)) : List UInt8 :=
  let b := shares.flatMap fun s => put16 s.1 ++ put16 s.2.length ++ s.2
  buildext EXT_KEY_SHARE (put16 b.length ++ b)

def buildclienthello (config : Config) (random session_id : List UInt8) (groups : List ℕ)
    (shares : List (ℕ × List UInt8)) (cookie : Option (List UInt8)) : List UInt8 :=
  let sni := if config.servername = [] then [] else buildsniext config.servername
  let suppver := if TLS13 ≤ config.maxver then buildsupportedversions config else []
  let cookieext := cookie.elim [] fun c => buildext EXT_COOKIE (put16 c.length ++ c)
  let extlist := sni ++ buildsupportedgroups groups ++ buildsigalgsext ++ suppver ++ cookieext ++
    buildkeyshare shares
  put16 RECVERSION ++ random ++ UInt8.ofNat session_id.length :: session_id ++
    put16 (2 * config.suites.length) ++ config.suites.flatMap put16 ++ [1, 0] ++
    put16 extlist.length ++ extlist

structure ServerHello where
  random : List UInt8
  suite : ℕ
  version : ℕ
  group : ℕ
  share : Option (List UInt8)

def hellotruncated : Str := lit "tls: ServerHello extension truncated"

def helloexts (sh : ServerHello) : List UInt8 → Except Str ServerHello
  | t1 :: t2 :: l1 :: l2 :: rest =>
    let etype := get16 t1 t2
    let elen := get16 l1 l2
    if rest.length < elen then .error hellotruncated
    else
      let sh := match rest with
        | a :: b :: _ =>
          if etype = EXT_SUPPORTED_VERSIONS ∧ 2 ≤ elen then { sh with version := get16 a b }
          else sh
        | _ => sh
      let sh := match rest with
        | a :: b :: c :: d :: key =>
          if etype = EXT_KEY_SHARE ∧ 4 ≤ elen then
            { sh with
              group := get16 a b
              share := if get16 c d ≤ key.length then some (key.take (get16 c d)) else sh.share }
          else sh
        | _ => sh
      helloexts sh (rest.drop elen)
  | [] => .ok sh
  | _ => .error hellotruncated
  termination_by l => l.length
  decreasing_by
    simp only [List.length_drop, List.length_cons]
    omega

def parseserverhello (data : List UInt8) (config : Config) : Except Str ServerHello := do
  require (38 ≤ data.length) (lit "tls: ServerHello too short")
  let sid_len := (data.getD 34 0).toNat
  let rest := data.drop (35 + sid_len)
  require (35 + sid_len + 3 ≤ data.length) (lit "tls: ServerHello truncated")
  let suite := get16 (rest.getD 0 0) (rest.getD 1 0)
  require (rest.getD 2 0 = 0) (lit "tls: non-null compression")
  let sh : ServerHello :=
    ⟨(data.drop 2).take 32, suite, get16 (data.getD 0 0) (data.getD 1 0), 0, none⟩
  let sh ← match rest.drop 3 with
    | a :: b :: exts =>
      if exts.length < get16 a b then .error (lit "tls: ServerHello extensions truncated")
      else helloexts sh (exts.take (get16 a b))
    | _ => .ok sh
  require (suite ∈ config.suites) (lit "tls: server chose unsupported suite")
  require (sh.version = TLS12 ∨ sh.version = TLS13) (lit "tls: unsupported version")
  .ok sh

def HRRRANDOM : List UInt8 :=
  [0xcf, 0x21, 0xad, 0x74, 0xe5, 0x9a, 0x61, 0x11, 0xbe, 0x1d, 0x8c, 0x02, 0x1e, 0x65, 0xb8, 0x91,
    0xc2, 0xa2, 0x11, 0x16, 0x7a, 0xbb, 0x8c, 0x5e, 0x07, 0x9e, 0x09, 0xe2, 0xc8, 0xa8, 0x33, 0x9c]

def ishrr (shdata : List UInt8) : Bool :=
  34 ≤ shdata.length && (shdata.drop 2).take 32 == HRRRANDOM

def sharefor (shares : List (ℕ × List UInt8)) (group : ℕ) : Option (List UInt8) :=
  shares.lookup group

structure Retry where
  version : ℕ
  group : ℕ
  cookie : Option (List UInt8)
  seen : List ℕ

def hrrtruncated : Str := lit "tls: HelloRetryRequest extension truncated"

def hrrexts (r : Retry) : List UInt8 → Except Str Retry
  | t1 :: t2 :: l1 :: l2 :: rest =>
    let etype := get16 t1 t2
    let elen := get16 l1 l2
    if rest.length < elen then .error hrrtruncated
    else
      let w := get16 (rest.getD 0 0) (rest.getD 1 0)
      let next : Except Str Retry :=
        if etype = EXT_SUPPORTED_VERSIONS then
          if elen ≠ 2 then .error (lit "tls: bad supported_versions in HelloRetryRequest")
          else .ok { r with version := w }
        else if etype = EXT_KEY_SHARE then
          if elen ≠ 2 then .error (lit "tls: bad key_share in HelloRetryRequest")
          else .ok { r with group := w }
        else if etype = EXT_COOKIE then
          if elen < 3 ∨ w ≠ elen - 2 then .error (lit "tls: bad cookie in HelloRetryRequest")
          else .ok { r with cookie := some ((rest.take elen).drop 2) }
        else .error (lit "tls: HelloRetryRequest has extension we did not send")
      match next with
      | .error err => .error err
      | .ok r =>
        if etype ∈ r.seen then .error (lit "tls: HelloRetryRequest repeats extension")
        else hrrexts { r with seen := etype :: r.seen } (rest.drop elen)
  | [] => .ok r
  | _ => .error hrrtruncated
  termination_by l => l.length
  decreasing_by
    simp only [List.length_drop, List.length_cons]
    omega

def parsehrr (data session_id : List UInt8) (config : Config) (groups : List ℕ)
    (shares : List (ℕ × List UInt8)) : Except Str (ℕ × ℕ × Option (List UInt8)) := do
  require (38 ≤ data.length) (lit "tls: HelloRetryRequest too short")
  let sid_len := (data.getD 34 0).toNat
  let rest := data.drop (35 + sid_len)
  require (35 + sid_len + 3 ≤ data.length) (lit "tls: HelloRetryRequest truncated")
  require ((data.drop 35).take sid_len = session_id)
    (lit "tls: HelloRetryRequest does not echo our session id")
  let suite := get16 (rest.getD 0 0) (rest.getD 1 0)
  require (rest.getD 2 0 = 0) (lit "tls: non-null compression")
  require (5 ≤ rest.length) (lit "tls: HelloRetryRequest has no extensions")
  require (get16 (rest.getD 3 0) (rest.getD 4 0) = (rest.drop 5).length)
    (lit "tls: HelloRetryRequest extensions truncated")
  let r ← hrrexts ⟨0, 0, none, []⟩ (rest.drop 5)
  require (r.version = TLS13) (lit "tls: HelloRetryRequest is not TLS 1.3")
  require (suite / 256 = 0x13 ∧ suite ∈ config.suites)
    (lit "tls: HelloRetryRequest chose unsupported suite")
  if r.group ≠ 0 then do
    require (r.group ∈ groups) (lit "tls: HelloRetryRequest selected group, which we did not offer")
    require (sharefor shares r.group).isNone
      (lit "tls: HelloRetryRequest selected group, which we sent a share for")
    .ok (suite, r.group, r.cookie)
  else do
    require r.cookie.isSome (lit "tls: HelloRetryRequest asks for no change")
    .ok (suite, r.group, r.cookie)

def certtruncated : Str := lit "tls: certificate truncated"

def certloop : List UInt8 → Except Str (List (List UInt8))
  | a :: b :: c :: rest =>
    if rest.length < get24 a b c then .error certtruncated
    else (certloop (rest.drop (get24 a b c))).map (rest.take (get24 a b c) :: ·)
  | [] => .ok []
  | _ => .error certtruncated
  termination_by l => l.length
  decreasing_by
    simp only [List.length_drop, List.length_cons]
    omega

def parsecertificatemsg (data : List UInt8) : Except Str (List (List UInt8)) :=
  match data with
  | a :: b :: c :: rest =>
    if rest.length < get24 a b c then .error (lit "tls: Certificate msg truncated")
    else certloop (rest.take (get24 a b c))
  | _ => .error (lit "tls: Certificate msg too short")

def skipexts : List UInt8 → Except Str (List UInt8)
  | a :: b :: rest =>
    if rest.length < get16 a b then .error (lit "tls: certificate extensions truncated")
    else .ok (rest.drop (get16 a b))
  | l => .ok l

theorem skipexts_length {l rest : List UInt8} (h : skipexts l = .ok rest) :
    rest.length ≤ l.length := by
  unfold skipexts at h
  split at h
  · split_ifs at h
    obtain rfl := Except.ok.inj h
    simp only [List.length_drop, List.length_cons]
    omega
  · rw [Except.ok.inj h]

def certloop13 : List UInt8 → Except Str (List (List UInt8))
  | a :: b :: c :: rest =>
    if rest.length < get24 a b c then .error certtruncated
    else
      match _h : skipexts (rest.drop (get24 a b c)) with
      | .error err => .error err
      | .ok next => (certloop13 next).map (rest.take (get24 a b c) :: ·)
  | [] => .ok []
  | _ => .error certtruncated
  termination_by l => l.length
  decreasing_by
    have hle := skipexts_length _h
    simp only [List.length_drop, List.length_cons] at hle ⊢
    omega

def parsecertificatemsg13 (data : List UInt8) : Except Str (List (List UInt8)) :=
  if data.length < 4 then .error (lit "tls: Certificate msg too short")
  else
    match data.drop (1 + (data.getD 0 0).toNat) with
    | a :: b :: c :: rest =>
      if rest.length < get24 a b c then .error (lit "tls: Certificate msg truncated")
      else certloop13 (rest.take (get24 a b c))
    | _ => .error (lit "tls: Certificate msg truncated")

def ecparams (data : List UInt8) : Except Str (ℕ × List UInt8 × List UInt8 × List UInt8) :=
  match data with
  | curve_type :: c1 :: c2 :: point_len :: rest =>
    if curve_type ≠ 3 then .error (lit "tls: unsupported curve type")
    else if get16 c1 c2 ∉ [GROUP_X25519, GROUP_SECP256R1, GROUP_SECP384R1] then
      .error (lit "tls: unsupported named curve")
    else if rest.length < point_len.toNat then .error (lit "tls: EC point truncated")
    else .ok (get16 c1 c2, rest.take point_len.toNat, data.take (4 + point_len.toNat),
      rest.drop point_len.toNat)
  | _ => .error (lit "tls: ServerKeyExchange too short")

def Keyring.parseserverkeyexchange (K : Keyring) (data client_random server_random : List UInt8)
    (certs : List (List UInt8)) (insecure : Bool) : Except Str (ℕ × List UInt8) := do
  let (curve, point, params, rest) ← ecparams data
  if insecure then .ok (curve, point)
  else do
    require (certs ≠ []) (lit "tls: ServerKeyExchange before Certificate")
    match rest with
    | s1 :: s2 :: l1 :: l2 :: sig => do
      require (get16 l1 l2 = sig.length) (lit "tls: ServerKeyExchange signature length")
      K.verifyserversig certs (get16 s1 s2) (client_random ++ server_random ++ params) sig false
      .ok (curve, point)
    | _ => .error (lit "tls: ServerKeyExchange is not signed")

def certverifycontent (transcript_hash : List UInt8) : List UInt8 :=
  List.replicate 64 0x20 ++ s2b "TLS 1.3, server CertificateVerify" ++ 0 :: transcript_hash

def Keyring.verifycertverify_hash (K : Keyring) (data : List UInt8) (certs : List (List UInt8))
    (transcript_hash : List UInt8) : Except Str Unit :=
  match data with
  | s1 :: s2 :: l1 :: l2 :: rest => do
    require (get16 l1 l2 ≤ rest.length) (lit "tls: CertificateVerify truncated")
    require (certs ≠ []) (lit "tls: CertificateVerify without a server Certificate")
    K.verifyserversig certs (get16 s1 s2) (certverifycontent transcript_hash)
      (rest.take (get16 l1 l2)) true
  | _ => .error (lit "tls: CertificateVerify too short")

def Keyring.verifyfinished13_hash (K : Keyring) (suite : ℕ) (data secret hash : List UInt8) :
    Except Str Unit := do
  require (data.length = hashlength suite) (lit "tls: Finished wrong length")
  let key := K.hkdf_expand_label suite secret "finished" [] (hashlength suite)
  require (data = K.hmac_hash suite key hash) (lit "tls: server Finished verification failed")

end Infernode.Tls
