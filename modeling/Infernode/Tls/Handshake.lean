import Infernode.Limbo.Token
import Infernode.Tls.Conn
import Infernode.Tls.Messages

/-!
# The client's handshake

`client` of `tls.b` from ClientHello to Finished, in both versions. What is drawn at random is
in `Draws`. Of a handshake that fails nothing is kept.
-/

namespace Infernode.Tls

open Limbo (Str lit decimal)

/-- The random numbers, the key pairs and the policy that a handshake draws. The argument of a
key pair tells its calls apart. -/
structure Draws where
  client_random : List UInt8
  session_id : List UInt8
  x25519_priv : List UInt8
  premaster : List UInt8
  p384_keygen : ℕ → Option (List UInt8 × List UInt8)
  p256_keygen : ℕ → Option (List UInt8 × List UInt8)
  mlkem768_keygen : Option (List UInt8 × List UInt8)
  mlkem1024_keygen : Option (List UInt8 × List UInt8)
  cnsatls : Bool

def State.updatehash (cs : State) (m : Msg) : State :=
  { cs with
    tr256 := cs.tr256 ++ hsmsg m.mtype m.data
    tr384 := cs.tr384 ++ hsmsg m.mtype m.data
    msgs := cs.msgs ++ [m] }

def sendhsmsg (A : Aead) (cs : State) (mtype : UInt8) (data : List UInt8) : Except Str State :=
  match writerecord A (cs.updatehash ⟨true, mtype, data⟩) CT_HANDSHAKE (hsmsg mtype data) with
  | (some err, _) => .error err
  | (none, cs') => .ok cs'

def State.hsrest (cs : State) : List UInt8 := (cs.hsbuf.getD []).drop cs.hsoff

def State.hsskip (cs : State) (n : ℕ) : State :=
  if (cs.hsbuf.getD []).length ≤ cs.hsoff + n then { cs with hsbuf := none, hsoff := 0 }
  else { cs with hsoff := cs.hsoff + n }

def buffered (cs : State) : Option (Except Str (Msg × State)) :=
  match cs.hsrest with
  | mtype :: a :: b :: c :: rest =>
    let mlen := get24 a b c
    if MAXHSMSG < mlen then some (.error (lit "tls: handshake message too long"))
    else if mlen ≤ rest.length then
      let m : Msg := ⟨false, mtype, rest.take mlen⟩
      some (.ok (m, (cs.updatehash m).hsskip (4 + mlen)))
    else none
  | _ => none

def State.hskeep (cs : State) (payload : List UInt8) : State :=
  { cs with hsbuf := some (cs.hsrest ++ payload), hsoff := 0 }

def alerterr (p : List UInt8) : Str :=
  match p with
  | level :: desc :: _ => lit "tls: alert level=" ++ decimal level.toNat ++ lit " desc=" ++
      decimal desc.toNat
  | _ => lit "tls: received alert"

def readhsmsg (A : Aead) (cs : State) : Except Str (Msg × State) :=
  match buffered cs with
  | some r => r
  | none =>
    match _h : readrecord A cs with
    | (.error err, _) =>
      .error (if cs.hsrest = [] then err
        else if cs.hsrest.length < 4 then lit "tls: handshake message too short"
        else lit "tls: handshake message truncated")
    | (.ok (ctype, payload), cs') =>
      if ctype = CT_CHANGE_CIPHER_SPEC then readhsmsg A cs'
      else if ctype = CT_ALERT then .error (alerterr payload)
      else if ctype ≠ CT_HANDSHAKE then
        .error (lit "tls: expected handshake, got type " ++ decimal ctype.toNat)
      else readhsmsg A (cs'.hskeep payload)
  termination_by cs.fd.input.length
  decreasing_by
    · exact readrecord_ok _h
    · exact (readrecord_ok _h : cs'.fd.input.length < cs.fd.input.length)

theorem unseal_length {A : Aead} {suite : ℕ} {key nonce ct aad tag dat : List UInt8}
    (h : A.unseal suite key nonce ct aad tag = .ok dat) : dat.length = ct.length := by
  rw [Aead.unseal] at h
  split_ifs at h
  · cases hd : A.ccpolydecrypt ct aad tag key nonce with
    | none => simp [hd] at h
    | some d =>
      rw [hd] at h
      obtain rfl := Except.ok.inj h
      exact A.ccpoly_length _ _ _ _ _ _ hd
  · cases hd : A.aesgcmdecrypt key nonce ct aad tag with
    | none => simp [hd] at h
    | some d =>
      rw [hd] at h
      obtain rfl := Except.ok.inj h
      exact A.aesgcm_length _ _ _ _ _ _ hd

theorem decrypt_record_length {A : Aead} {cs cs' : State} {key : List UInt8} {ctype : UInt8}
    {c dat : List UInt8} (h : decrypt_record A cs key ctype c = (.ok dat, cs')) :
    dat.length ≤ c.length := by
  rw [decrypt_record] at h
  split at h
  · simp at h
  next ct tag nonce aad hparams =>
  split at h
  · simp at h
  next d hd =>
  obtain rfl : d = dat := by simpa using congrArg Prod.fst h
  rw [unseal_length hd]
  simp only [readparams] at hparams
  split_ifs at hparams <;>
    (obtain ⟨rfl, -⟩ := by simpa only [Except.ok.injEq, Prod.mk.injEq] using hparams
     simp only [List.length_take, List.length_drop]
     omega)

theorem innerplaintext_length {b dat : List UInt8} {ctype : UInt8}
    (h : innerplaintext b = .ok (ctype, dat)) : dat.length ≤ b.length := by
  rw [innerplaintext] at h
  have hle := (List.dropWhile_sublist (· == 0) (l := b.reverse)).length_le
  split at h
  · simp at h
  next t rest hr =>
  obtain ⟨-, rfl⟩ := by simpa only [Except.ok.injEq, Prod.mk.injEq] using h
  rw [hr] at hle
  simp only [List.length_cons, List.length_reverse] at hle ⊢
  omega

theorem rawrecord_length {input rest : List (Option UInt8)} {ctype : UInt8} {p : List UInt8}
    (h : rawrecord input = (.ok (ctype, p), rest)) : p.length + rest.length < input.length := by
  rw [rawrecord] at h
  split at h
  · next t v w hi lo rest' h5 =>
    obtain ⟨-, hin⟩ := ensure_some h5
    split_ifs at h
    · simp at h
    split at h
    · next p' rest'' hp =>
      obtain ⟨hlen, hin'⟩ := ensure_some hp
      obtain ⟨⟨rfl, rfl⟩, rfl⟩ := by
        simpa only [Prod.mk.injEq, Except.ok.injEq] using h
      rw [hin, hin']
      simp
      omega
    · simp at h
  · simp at h

theorem readrecord_length {A : Aead} {cs cs' : State} {ctype : UInt8} {p : List UInt8}
    (h : readrecord A cs = (.ok (ctype, p), cs')) :
    p.length + cs'.fd.input.length < cs.fd.input.length := by
  have hin := readrecord_input A cs
  rw [h] at hin
  rw [show cs'.fd.input = _ from hin]
  generalize hr : rawrecord cs.fd.input = r at hin
  obtain ⟨raw, rest⟩ := r
  simp only [readrecord, hr] at h
  split at h
  · simp at h
  next t c =>
  have hraw := rawrecord_length hr
  have hclear : ∀ {cs₁ cs₂ : State}, ((Except.ok (t, c) : Except Str _), cs₁) =
      (.ok (ctype, p), cs₂) → p.length ≤ c.length := fun h => by
    obtain ⟨⟨-, rfl⟩, -⟩ := by simpa only [Prod.mk.injEq, Except.ok.injEq] using h
    exact le_rfl
  suffices hle : p.length ≤ c.length by
    simp only
    omega
  split_ifs at h
  · exact hclear h
  split at h
  · exact hclear h
  split at h
  · simp at h
  next dat cs₁ hd =>
  have hdec := decrypt_record_length hd
  split_ifs at h
  · have hinner := innerplaintext_length (Prod.mk.inj h).1
    omega
  · obtain ⟨⟨-, rfl⟩, -⟩ := by simpa only [Prod.mk.injEq, Except.ok.injEq] using h
    exact hdec

def State.pending (cs : State) : ℕ := cs.fd.input.length + cs.hsrest.length

theorem hsskip_hsrest (cs : State) (n : ℕ) : (cs.hsskip n).hsrest = cs.hsrest.drop n := by
  simp only [State.hsskip]
  split_ifs with h
  · simp only [State.hsrest, Option.getD_none, List.drop_drop, List.drop_nil]
    exact (List.drop_eq_nil_of_le h).symm
  · simp [State.hsrest, List.drop_drop]

theorem hsskip_fields (cs : State) (n : ℕ) : (cs.hsskip n).fd = cs.fd ∧
    (cs.hsskip n).msgs = cs.msgs ∧ (cs.hsskip n).tr256 = cs.tr256 ∧
    (cs.hsskip n).tr384 = cs.tr384 ∧ (cs.hsskip n).suite = cs.suite ∧
    (cs.hsskip n).insecure = cs.insecure ∧ (cs.hsskip n).servername = cs.servername := by
  simp only [State.hsskip]
  split_ifs <;> exact ⟨rfl, rfl, rfl, rfl, rfl, rfl, rfl⟩

theorem buffered_pending {cs cs' : State} {m : Msg} (h : buffered cs = some (.ok (m, cs'))) :
    cs'.pending < cs.pending := by
  rw [buffered] at h
  split at h
  · next mtype a b c rest hrest =>
    simp only at h
    split_ifs at h
    · simp at h
    · obtain ⟨rfl, rfl⟩ := by simpa only [Option.some.injEq, Except.ok.injEq, Prod.mk.injEq] using h
      have hupd : ∀ m, (cs.updatehash m).hsrest = cs.hsrest := fun _ => rfl
      simp only [State.pending, (hsskip_fields _ _).1, hsskip_hsrest, hupd, hrest,
        List.length_drop, List.length_cons]
      simp only [State.updatehash]
      omega
  · simp at h

theorem readhsmsg_pending {A : Aead} {cs cs' : State} {m : Msg}
    (h : readhsmsg A cs = .ok (m, cs')) : cs'.pending < cs.pending := by
  induction hm : cs.fd.input.length using Nat.strong_induction_on generalizing cs with
  | _ n ih =>
  subst hm
  rw [readhsmsg] at h
  split at h
  · next r hr =>
    subst h
    exact buffered_pending hr
  split at h
  · simp at h
  next ctype p cs₁ hr =>
  have hlen := readrecord_length hr
  have hrest : cs₁.hsrest = cs.hsrest := by
    rw [show cs₁ = (readrecord A cs).2 by rw [hr]]
    rcases readrecord_state A cs with h | h <;> rw [h] <;> rfl
  split_ifs at h
  · have hlt := ih _ (readrecord_ok hr) h rfl
    simp only [State.pending, hrest] at hlt ⊢
    omega
  · have hlt := ih _ (readrecord_ok hr) h rfl
    simp only [State.pending, State.hskeep, State.hsrest, Option.getD_some, List.drop_zero,
      List.length_append] at hlt hrest ⊢
    rw [hrest] at hlt
    omega

structure Flight where
  certs : List (List UInt8)
  point : List UInt8
  curve : ℕ
  ecdhe : Bool

def unexpected (mtype : UInt8) : Str :=
  lit "tls: unexpected handshake message type " ++ decimal mtype.toNat

def flight12 (K : Keyring) (client_random server_random : List UInt8) (f : Flight) (cs : State) :
    Except Str (Flight × State) :=
  match _h : readhsmsg K.toAead cs with
  | .error err => .error err
  | .ok (m, cs') =>
    if m.mtype = HT_CERTIFICATE then
      match parsecertificatemsg m.data with
      | .error err => .error err
      | .ok certs => flight12 K client_random server_random { f with certs := certs } cs'
    else if m.mtype = HT_SERVER_KEY_EXCHANGE then
      match K.parseserverkeyexchange m.data client_random server_random f.certs cs.insecure with
      | .error err => .error err
      | .ok (curve, point) =>
        flight12 K client_random server_random
          { f with point := point, curve := curve, ecdhe := true } cs'
    -- no client certificate
    else if m.mtype = HT_CERTIFICATE_REQUEST then
      flight12 K client_random server_random f cs'
    else if m.mtype = HT_SERVER_HELLO_DONE then .ok (f, cs')
    else .error (unexpected m.mtype)
  termination_by cs.pending
  decreasing_by all_goals exact readhsmsg_pending _h

def keyexchange12 (K : Keyring) (r : Draws) (f : Flight) : Except Str (List UInt8 × List UInt8) :=
  if f.ecdhe then
    if f.curve = GROUP_SECP384R1 then do
      let (priv, pub) ← orerror (r.p384_keygen 2) (lit "tls: P-384 key generation failed")
      require (f.point.length = P384_POINTLEN) (lit "tls: invalid server P-384 point")
      let premaster ← orerror (K.p384_ecdh priv f.point) (lit "tls: P-384 ECDH failed")
      .ok (premaster, UInt8.ofNat pub.length :: pub)
    else if f.curve = GROUP_SECP256R1 then do
      let (priv, pub) ← orerror (r.p256_keygen 1) (lit "tls: P-256 key generation failed")
      let pt ← orerror (K.p256_make_point f.point) (lit "tls: invalid server P-256 point")
      let premaster ← orerror (K.p256_ecdh priv pt) (lit "tls: P-256 ECDH failed")
      let b ← orerror (K.p256_point_bytes pub) (lit "tls: P-256 public key encoding failed")
      .ok (premaster, UInt8.ofNat b.length :: b)
    else do
      require (f.point.length = 32) (lit "tls: invalid server X25519 point")
      let premaster ← orerror (K.x25519 r.x25519_priv f.point)
        (lit "tls: X25519 computation failed")
      let pub := K.x25519_base r.x25519_priv
      .ok (premaster, UInt8.ofNat pub.length :: pub)
  else do
    let premaster := 3 :: 3 :: r.premaster
    require (f.certs ≠ []) (lit "tls: no server certificate for RSA key exchange")
    let key ← K.extractrsakey f.certs
    let b ← K.rsa_encrypt premaster key
    .ok (premaster, put16 b.length ++ b)

def checkcerts (K : Keyring) (cs : State) (certs : List (List UInt8)) : Except Str Unit :=
  if cs.insecure then .ok ()
  else do
    require (certs ≠ []) (lit "tls: server sent no certificate")
    K.verifycerts cs.servername certs

def State.hashcurrent (cs : State) (K : Keyring) : List UInt8 :=
  if hashlength cs.suite = 48 then K.sha384 cs.tr384 else K.sha256 cs.tr256

def writeccs (A : Aead) (cs : State) : Except Str State :=
  match writerecord A cs CT_CHANGE_CIPHER_SPEC [1] with
  | (some err, _) => .error err
  | (none, cs') => .ok cs'

def readccs (A : Aead) (cs : State) : Except Str State :=
  match readrecord A cs with
  | (.error err, _) => .error err
  | (.ok (ctype, payload), cs') =>
    if ctype = CT_ALERT then .error (lit "tls: server rejected handshake: " ++ alerterr payload)
    else if ctype ≠ CT_CHANGE_CIPHER_SPEC then .error (lit "tls: expected ChangeCipherSpec")
    else .ok cs'

def splitkeyblock (suite : ℕ) (b : List UInt8) :
    List UInt8 × List UInt8 × List UInt8 × List UInt8 :=
  let klen := keylength suite
  (b.take klen, (b.drop (2 * klen)).take 4 ++ List.replicate 8 0, (b.drop klen).take klen,
    (b.drop (2 * klen + 4)).take 4 ++ List.replicate 8 0)

def State.setwrite (cs : State) (key iv : List UInt8) : State :=
  { cs with writekey := some key, writeiv := iv }

def State.setread (cs : State) (key iv : List UInt8) : State :=
  { cs with readkey := some key, readiv := iv }

def Keyring.master (K : Keyring) (suite : ℕ) (premaster client_random server_random : List UInt8) :
    List UInt8 :=
  K.tls12_prf suite premaster (s2b "master secret") (client_random ++ server_random) 48

def handshake12 (K : Keyring) (r : Draws) (server_random : List UInt8) (cs : State) :
    Except Str State := do
  let (f, cs) ← flight12 K r.client_random server_random ⟨[], [], 0, false⟩ cs
  checkcerts K cs f.certs
  require (!(isecdhe cs.suite && !f.ecdhe)) (lit "tls: ECDHE suite without ServerKeyExchange")
  let (premaster, cke) ← keyexchange12 K r f
  let cs ← sendhsmsg K.toAead cs HT_CLIENT_KEY_EXCHANGE cke
  let master := K.master cs.suite premaster r.client_random server_random
  let keyblock := K.tls12_prf cs.suite master (s2b "key expansion")
    (server_random ++ r.client_random) (2 * (keylength cs.suite + 4))
  let (writekey, writeiv, readkey, readiv) := splitkeyblock cs.suite keyblock
  let cs ← writeccs K.toAead cs
  let cs := cs.setwrite writekey writeiv
  let cs ← sendhsmsg K.toAead cs HT_FINISHED
    (K.tls12_prf cs.suite master (s2b "client finished") (cs.hashcurrent K) 12)
  let cs ← readccs K.toAead cs
  let cs := cs.setread readkey readiv
  let (m, cs') ← readhsmsg K.toAead cs
  require (m.mtype = HT_FINISHED) (lit "tls: expected Finished")
  require (m.data = K.tls12_prf cs.suite master (s2b "server finished") (cs.hashcurrent K) 12)
    (lit "tls: server Finished verification failed")
  .ok cs'

def sharedsecret (K : Keyring) (r : Draws) (cs : State) (group : ℕ) (share : Option (List UInt8)) :
    Except Str (List UInt8) :=
  if group = GROUP_SECP384R1MLKEM1024 then do
    let b ← orerror share (lit "tls: invalid server hybrid key share")
    require (b.length = P384_POINTLEN + MLKEM1024_CTLEN)
      (lit "tls: invalid server hybrid key share")
    let priv ← orerror cs.eph_p384_priv (lit "tls: server chose a hybrid group we did not offer")
    let sk ← orerror cs.eph_mlkem_sk (lit "tls: server chose a hybrid group we did not offer")
    let ecdh ← orerror (K.p384_ecdh priv (b.take P384_POINTLEN))
      (lit "tls: CNSA hybrid key agreement failed")
    let mlkem ← orerror (K.mlkem1024_decaps sk (b.drop P384_POINTLEN))
      (lit "tls: CNSA hybrid key agreement failed")
    .ok (ecdh ++ mlkem)
  else if group = GROUP_X25519MLKEM768 then do
    let b ← orerror share (lit "tls: invalid server hybrid key share")
    require (b.length = MLKEM768_CTLEN + 32) (lit "tls: invalid server hybrid key share")
    let sk ← orerror cs.eph_mlkem768_sk
      (lit "tls: server chose X25519MLKEM768, which we did not offer")
    let mlkem ← orerror (K.mlkem768_decaps sk (b.take MLKEM768_CTLEN))
      (lit "tls: X25519MLKEM768 key agreement failed")
    let x ← orerror (K.x25519 r.x25519_priv (b.drop MLKEM768_CTLEN))
      (lit "tls: X25519MLKEM768 key agreement failed")
    .ok (mlkem ++ x)
  else if group = GROUP_X25519 then do
    let b ← orerror share (lit "tls: invalid server key share")
    require (b.length = 32) (lit "tls: invalid server key share")
    orerror (K.x25519 r.x25519_priv b) (lit "tls: X25519 computation failed")
  else if group = GROUP_SECP256R1 then do
    let priv ← orerror cs.eph_p256_priv (lit "tls: server chose secp256r1, which we did not offer")
    let b ← orerror share (lit "tls: invalid server P-256 key share")
    require (b.length = 65) (lit "tls: invalid server P-256 key share")
    let pt ← orerror (K.p256_make_point b) (lit "tls: invalid server P-256 point")
    orerror (K.p256_ecdh priv pt) (lit "tls: P-256 ECDH failed")
  else if group = GROUP_SECP384R1 then do
    let priv ← orerror cs.eph_p384_priv (lit "tls: server chose secp384r1, which we did not offer")
    let b ← orerror share (lit "tls: invalid server P-384 key share")
    require (b.length = P384_POINTLEN) (lit "tls: invalid server P-384 key share")
    orerror (K.p384_ecdh priv b) (lit "tls: P-384 ECDH failed")
  else .error (lit "tls: unsupported key share group")

/-- What the server's messages up to Finished leave: the certificates, whether there was a
CertificateVerify, and the context of a CertificateRequest. -/
structure Flight13 where
  certs : List (List UInt8)
  got_cv : Bool
  cert_requested : Bool
  context : List UInt8

def requestcontext (f : Flight13) (data : List UInt8) : List UInt8 :=
  match data with
  | ctxlen :: rest =>
    if ctxlen.toNat ≤ rest.length ∧ 0 < ctxlen.toNat then rest.take ctxlen.toNat else f.context
  | [] => f.context

def checkverify (K : Keyring) (cs : State) (data : List UInt8) (certs : List (List UInt8))
    (hash : List UInt8) : Except Str Unit :=
  if cs.insecure then .ok () else K.verifycertverify_hash data certs hash

def flight13 (K : Keyring) (s_hs_traffic : List UInt8) (f : Flight13) (cs : State) :
    Except Str (Flight13 × State) :=
  -- CertificateVerify and Finished cover the transcript before them
  let hash := cs.hashcurrent K
  match _h : readhsmsg K.toAead cs with
  | .error err => .error err
  | .ok (m, cs') =>
    if m.mtype = HT_ENCRYPTED_EXTENSIONS then flight13 K s_hs_traffic f cs'
    else if m.mtype = HT_CERTIFICATE_REQUEST then
      flight13 K s_hs_traffic
        { f with cert_requested := true, context := requestcontext f m.data } cs'
    else if m.mtype = HT_CERTIFICATE then
      match parsecertificatemsg13 m.data with
      | .error err => .error err
      | .ok certs => flight13 K s_hs_traffic { f with certs := certs } cs'
    else if m.mtype = HT_CERTIFICATE_VERIFY then
      if f.certs = [] then .error (lit "tls: CertificateVerify before Certificate")
      else
        match checkverify K cs m.data f.certs hash with
        | .error err => .error err
        | .ok () => flight13 K s_hs_traffic { f with got_cv := true } cs'
    else if m.mtype = HT_FINISHED then
      if !cs.insecure ∧ (f.certs = [] ∨ !f.got_cv) then
        .error (lit "tls: server did not authenticate (Certificate/CertificateVerify missing)")
      else
        match K.verifyfinished13_hash cs.suite m.data s_hs_traffic hash with
        | .error err => .error err
        | .ok () => .ok (f, cs')
    else .error (unexpected m.mtype)
  termination_by cs.pending
  decreasing_by all_goals exact readhsmsg_pending _h

def Keyring.handshakesecret (K : Keyring) (suite : ℕ) (shared : List UInt8) : List UInt8 :=
  let hashlen := hashlength suite
  let zeros := List.replicate hashlen 0
  K.hkdf_extract suite (K.hkdf_expand_label suite (K.hkdf_extract suite zeros zeros) "derived"
    (K.hash suite []) hashlen) shared

def State.resetkeys (cs : State) (K : Keyring) (server client : List UInt8) : State :=
  { (cs.setread (K.derivekeys server cs.suite).1 (K.derivekeys server cs.suite).2).setwrite
      (K.derivekeys client cs.suite).1 (K.derivekeys client cs.suite).2 with
    readseq := 0, writeseq := 0 }

def sendcert (A : Aead) (f : Flight13) (cs : State) : Except Str State :=
  if f.cert_requested then
    sendhsmsg A cs HT_CERTIFICATE (UInt8.ofNat f.context.length :: f.context ++ put24 0)
  else .ok cs

def handshake13 (K : Keyring) (r : Draws) (group : ℕ) (share : Option (List UInt8)) (cs : State) :
    Except Str State := do
  let shared ← sharedsecret K r cs group share
  let hashlen := hashlength cs.suite
  let secret := K.handshakesecret cs.suite shared
  let hs_hash := cs.hashcurrent K
  let c_hs_traffic := K.hkdf_expand_label cs.suite secret "c hs traffic" hs_hash hashlen
  let s_hs_traffic := K.hkdf_expand_label cs.suite secret "s hs traffic" hs_hash hashlen
  let cs := { cs.resetkeys K s_hs_traffic c_hs_traffic with hsencrypted := true }
  let (f, cs) ← flight13 K s_hs_traffic ⟨[], false, false, []⟩ cs
  checkcerts K cs f.certs
  let master := K.hkdf_extract cs.suite (K.hkdf_expand_label cs.suite secret "derived"
    (K.hash cs.suite []) hashlen) (List.replicate hashlen 0)
  let app_hash := cs.hashcurrent K
  let cs := { cs with
    cts := K.hkdf_expand_label cs.suite master "c ap traffic" app_hash hashlen
    sts := K.hkdf_expand_label cs.suite master "s ap traffic" app_hash hashlen }
  let cs ← sendcert K.toAead f cs
  let cs ← sendhsmsg K.toAead cs HT_FINISHED (K.hmac_hash cs.suite
    (K.hkdf_expand_label cs.suite c_hs_traffic "finished" [] hashlen) (cs.hashcurrent K))
  .ok (cs.resetkeys K cs.sts cs.cts)

structure Offer where
  config : Config
  groups : List ℕ
  shares : List (ℕ × List UInt8)

def strictcnsaconfig (config : Config) : Config :=
  { config with suites := [TLS_AES_256_GCM_SHA384], minver := TLS13, maxver := TLS13 }

def offer (K : Keyring) (r : Draws) (config : Config) (cs : State) :
    Except Str (Offer × State) :=
  if r.cnsatls then do
    let (p384priv, p384pub) ← orerror (r.p384_keygen 0) (lit "tls: CNSA hybrid keygen failed")
    let (ek, sk) ← orerror r.mlkem1024_keygen (lit "tls: CNSA hybrid keygen failed")
    .ok (⟨strictcnsaconfig config, [GROUP_SECP384R1MLKEM1024],
        [(GROUP_SECP384R1MLKEM1024, p384pub ++ ek)]⟩,
      { cs with eph_p384_priv := some p384priv, eph_mlkem_sk := some sk })
  else
    let pub := K.x25519_base r.x25519_priv
    let groups := [GROUP_X25519, GROUP_SECP256R1, GROUP_SECP384R1]
    let shares := [(GROUP_X25519, pub)]
    match r.mlkem768_keygen with
    | none => .ok (⟨config, groups, shares⟩, cs)
    | some (ek, sk) =>
      .ok (⟨config, GROUP_X25519MLKEM768 :: groups, (GROUP_X25519MLKEM768, ek ++ pub) :: shares⟩,
        { cs with eph_mlkem768_sk := some sk })

def keyshare (K : Keyring) (r : Draws) (cs : State) (group : ℕ) :
    Except Str (List UInt8 × State) :=
  if group = GROUP_SECP256R1 then do
    let (priv, pt) ← orerror (r.p256_keygen 0) (lit "tls: P-256 key generation failed")
    .ok ((K.p256_point_bytes pt).getD [], { cs with eph_p256_priv := some priv })
  else if group = GROUP_SECP384R1 then do
    let (priv, pub) ← orerror (r.p384_keygen 1) (lit "tls: P-384 key generation failed")
    .ok (pub, { cs with eph_p384_priv := some priv })
  else .error (lit "tls: no key share for group")

def hrrtranscript (K : Keyring) (cs : State) (ch1 hrr : List UInt8) : State :=
  { cs with
    tr256 := hsmsg HT_MESSAGE_HASH (K.sha256 ch1) ++ hrr
    tr384 := hsmsg HT_MESSAGE_HASH (K.sha384 ch1) ++ hrr }

structure Hello where
  data : List UInt8
  retry : Option (ℕ × ℕ)
  shares : List (ℕ × List UInt8)

def newshare (K : Keyring) (r : Draws) (cs : State) (group : ℕ) (shares : List (ℕ × List UInt8)) :
    Except Str (List (ℕ × List UInt8) × State) :=
  if group = 0 then .ok (shares, cs)
  else do
    let (share, cs) ← keyshare K r cs group
    .ok ([(group, share)], cs)

def answerretry (K : Keyring) (r : Draws) (o : Offer) (hello shdata : List UInt8) (cs : State) :
    Except Str (Hello × State) :=
  if !ishrr shdata then .ok (⟨shdata, none, o.shares⟩, cs)
  else do
    let (suite, group, cookie) ← parsehrr shdata r.session_id o.config o.groups o.shares
    let cs := hrrtranscript K { cs with suite := suite, version := TLS13 }
      (hsmsg HT_CLIENT_HELLO hello) (hsmsg HT_SERVER_HELLO shdata)
    let (shares, cs) ← newshare K r cs group o.shares
    let cs ← sendhsmsg K.toAead cs HT_CLIENT_HELLO
      (buildclienthello o.config r.client_random r.session_id o.groups shares cookie)
    let (m, cs) ← readhsmsg K.toAead cs
    require (m.mtype = HT_SERVER_HELLO) (lit "tls: expected ServerHello")
    require (!ishrr m.data) (lit "tls: second HelloRetryRequest")
    .ok (⟨m.data, some (suite, group), shares⟩, cs)

def checkhello (r : Draws) (h : Hello) (sh : ServerHello) : Except Str Unit := do
  match h.retry with
  | none => .ok ()
  | some (suite, group) => do
    require (sh.version = TLS13) (lit "tls: ServerHello after HelloRetryRequest is not TLS 1.3")
    require (sh.suite = suite)
      (lit "tls: ServerHello cipher suite differs from HelloRetryRequest's")
    require (group = 0 ∨ sh.group = group)
      (lit "tls: ServerHello key share differs from HelloRetryRequest's group")
  require (sh.version ≠ TLS13 ∨ (sharefor h.shares sh.group).isSome)
    (lit "tls: server chose key share group, which we did not send")
  require (!r.cnsatls || sh.version = TLS13) (lit "tls: CNSA mode requires TLS 1.3")
  require (!r.cnsatls || sh.suite = TLS_AES_256_GCM_SHA384)
    (lit "tls: CNSA mode requires TLS_AES_256_GCM_SHA384")
  require (!r.cnsatls || sh.group = GROUP_SECP384R1MLKEM1024)
    (lit "tls: CNSA mode requires SecP384r1MLKEM1024")

def handshake0 (K : Keyring) (r : Draws) (config : Config) (cs : State) : Except Str State := do
  let cs := { cs with tr256 := [], tr384 := [], msgs := [] }
  let (o, cs) ← offer K r config cs
  let hello := buildclienthello o.config r.client_random r.session_id o.groups o.shares none
  let cs ← sendhsmsg K.toAead cs HT_CLIENT_HELLO hello
  let (m, cs) ← readhsmsg K.toAead cs
  require (m.mtype = HT_SERVER_HELLO) (lit "tls: expected ServerHello")
  let (h, cs) ← answerretry K r o hello m.data cs
  let sh ← parseserverhello h.data o.config
  checkhello r h sh
  let cs := { cs with
    version := sh.version
    suite := sh.suite
    group := if sh.version = TLS13 then sh.group else cs.group }
  if sh.version = TLS13 then handshake13 K r sh.group sh.share cs
  else handshake12 K r sh.random cs

def clearephemeral (cs : State) : State :=
  { cs with
    eph_p384_priv := none, eph_mlkem_sk := none, eph_mlkem768_sk := none, eph_p256_priv := none }

def State.new (fd : Fd) (config : Config) : State :=
  { fd := fd, version := 0, suite := 0, group := 0, writekey := none, writeiv := [],
    readkey := none, readiv := [], writeseq := 0, readseq := 0, rbuf := [], roff := 0, rlen := 0,
    tr256 := [], tr384 := [], cts := [], sts := [], servername := config.servername,
    insecure := config.insecure, hsencrypted := false, hsbuf := none, hsoff := 0,
    eph_p384_priv := none, eph_mlkem_sk := none, eph_mlkem768_sk := none, eph_p256_priv := none,
    used := [], msgs := [] }

def client (K : Keyring) (r : Draws) (fd : Fd) (config : Config) : Except Str Conn :=
  (handshake0 K r config (State.new fd config)).map fun cs => ⟨clearephemeral cs, false⟩

end Infernode.Tls
