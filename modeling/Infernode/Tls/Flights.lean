import Infernode.Tls.Handshake

/-!
# The messages of a handshake

Each step of a handshake adds its messages to the transcripts and leaves the rest of what the
verification rests on as it was.
-/

namespace Infernode.Tls

open Limbo (Str lit)

theorem bind_ok {α β : Type} {x : Except Str α} {f : α → Except Str β} {b : β} :
    (x >>= f) = .ok b ↔ ∃ a, x = .ok a ∧ f a = .ok b := by
  cases x with
  | error err | ok a => simp [bind, Except.bind]

theorem require_ok {b : Bool} {err : Str} {u : Unit} : require b err = .ok u ↔ b = true := by
  cases b <;> simp [require]

def raw (ms : List Msg) : List UInt8 := ms.flatMap fun m => hsmsg m.mtype m.data

structure Extends (cs : State) (ms : List Msg) (cs' : State) : Prop where
  msgs : cs'.msgs = cs.msgs ++ ms
  tr256 : cs'.tr256 = cs.tr256 ++ raw ms
  tr384 : cs'.tr384 = cs.tr384 ++ raw ms
  version : cs'.version = cs.version
  suite : cs'.suite = cs.suite
  insecure : cs'.insecure = cs.insecure
  servername : cs'.servername = cs.servername

section
variable {A : Aead} {K : Keyring} {cs cs₁ cs₂ : State}

theorem Extends.same (h1 : cs₁.msgs = cs.msgs) (h2 : cs₁.tr256 = cs.tr256)
    (h3 : cs₁.tr384 = cs.tr384) (h4 : cs₁.version = cs.version) (h5 : cs₁.suite = cs.suite)
    (h6 : cs₁.insecure = cs.insecure) (h7 : cs₁.servername = cs.servername) :
    Extends cs [] cs₁ :=
  ⟨by simp [h1], by simp [h2, raw], by simp [h3, raw], h4, h5, h6, h7⟩

theorem Extends.refl (cs : State) : Extends cs [] cs := .same rfl rfl rfl rfl rfl rfl rfl

theorem Extends.trans {ms ms' : List Msg} (h : Extends cs ms cs₁) (h' : Extends cs₁ ms' cs₂) :
    Extends cs (ms ++ ms') cs₂ where
  msgs := by rw [h'.msgs, h.msgs, List.append_assoc]
  tr256 := by rw [h'.tr256, h.tr256, raw, raw, raw, List.flatMap_append, List.append_assoc]
  tr384 := by rw [h'.tr384, h.tr384, raw, raw, raw, List.flatMap_append, List.append_assoc]
  version := h'.version.trans h.version
  suite := h'.suite.trans h.suite
  insecure := h'.insecure.trans h.insecure
  servername := h'.servername.trans h.servername

theorem updatehash_extends (cs : State) (m : Msg) : Extends cs [m] (cs.updatehash m) :=
  ⟨rfl, by simp [State.updatehash, raw], by simp [State.updatehash, raw], rfl, rfl, rfl, rfl⟩

theorem readrecord_extends (A : Aead) (cs : State) : Extends cs [] (readrecord A cs).2 := by
  rcases readrecord_state A cs with h | h <;> rw [h] <;>
    exact .same rfl rfl rfl rfl rfl rfl rfl

theorem writerecord_extends (A : Aead) (cs : State) (ctype : UInt8) (data : List UInt8) :
    Extends cs [] (writerecord A cs ctype data).2 := by
  have hpay : Extends cs [] (payload A cs ctype data).2 := by
    rw [payload]
    split
    · exact .refl cs
    next key _ =>
    have henc : ∀ t b, Extends cs [] (encrypt_record A cs key t b).2 := fun t b => by
      rw [encrypt_record]
      simp only
      split
      · exact .refl cs
      · exact .same rfl rfl rfl rfl rfl rfl rfl
    simp only
    split <;> next he =>
      have := henc (if cs.version = TLS13 then (CT_APPLICATION_DATA, data ++ [ctype])
        else (ctype, data)).1 (if cs.version = TLS13 then (CT_APPLICATION_DATA, data ++ [ctype])
        else (ctype, data)).2
      rw [he] at this
      exact this
  rw [writerecord]
  split <;> next he =>
    rw [he] at hpay
    exact hpay.trans (.same rfl rfl rfl rfl rfl rfl rfl)

theorem writeccs_extends {A : Aead} {cs cs' : State} (h : writeccs A cs = .ok cs') :
    Extends cs [] cs' := by
  have hw := writerecord_extends A cs CT_CHANGE_CIPHER_SPEC [1]
  rw [writeccs] at h
  split at h
  · simp at h
  next cs₁ hr =>
  rw [hr] at hw
  obtain rfl := Except.ok.inj h
  exact hw

theorem readccs_extends {A : Aead} {cs cs' : State} (h : readccs A cs = .ok cs') :
    Extends cs [] cs' := by
  have hr := readrecord_extends A cs
  rw [readccs] at h
  split at h
  · simp at h
  next t p cs₁ he =>
  rw [he] at hr
  split_ifs at h
  obtain rfl := Except.ok.inj h
  exact hr

theorem sendhsmsg_extends {mtype : UInt8} {data : List UInt8}
    (h : sendhsmsg A cs mtype data = .ok cs₁) : Extends cs [⟨true, mtype, data⟩] cs₁ := by
  rw [sendhsmsg] at h
  have hw := writerecord_extends A (cs.updatehash ⟨true, mtype, data⟩) CT_HANDSHAKE
    (hsmsg mtype data)
  split at h
  · simp at h
  next cs' hr =>
  rw [hr] at hw
  obtain rfl := Except.ok.inj h
  exact (updatehash_extends cs _).trans hw

theorem buffered_extends {m : Msg} (h : buffered cs = some (.ok (m, cs₁))) :
    m.sent = false ∧ Extends cs [m] cs₁ := by
  rw [buffered] at h
  split at h
  · next mtype a b c rest _ =>
    simp only at h
    split_ifs at h
    · simp at h
    · obtain ⟨rfl, rfl⟩ := by simpa only [Option.some.injEq, Except.ok.injEq, Prod.mk.injEq] using h
      refine ⟨rfl, (updatehash_extends cs _).trans ?_⟩
      simp only [State.hsskip]
      split_ifs <;> exact .same rfl rfl rfl rfl rfl rfl rfl
  · simp at h

theorem readhsmsg_extends {m : Msg} (h : readhsmsg A cs = .ok (m, cs₁)) :
    m.sent = false ∧ Extends cs [m] cs₁ := by
  induction hm : cs.fd.input.length using Nat.strong_induction_on generalizing cs with
  | _ n ih =>
  subst hm
  rw [readhsmsg] at h
  split at h
  · next r hr =>
    subst h
    exact buffered_extends hr
  split at h
  · simp at h
  next ctype p cs' hr =>
  have hext := readrecord_extends A cs
  rw [hr] at hext
  split_ifs at h
  · obtain ⟨hsent, hm⟩ := ih _ (readrecord_ok hr) h rfl
    exact ⟨hsent, hext.trans hm⟩
  · obtain ⟨hsent, hm⟩ := ih _ (readrecord_ok hr) h rfl
    have hkeep : Extends cs' [] (cs'.hskeep p) := .same rfl rfl rfl rfl rfl rfl rfl
    exact ⟨hsent, (hext.trans hkeep).trans hm⟩

def Msg.Is (m : Msg) (mtype : UInt8) : Prop := m.sent = false ∧ m.mtype = mtype

instance (m : Msg) (mtype : UInt8) : Decidable (m.Is mtype) :=
  inferInstanceAs (Decidable (m.sent = false ∧ m.mtype = mtype))

variable (parse : List UInt8 → Except Str (List (List UInt8)))

def hold (certs : List (List UInt8)) (m : Msg) : List (List UInt8) :=
  if m.Is HT_CERTIFICATE then (parse m.data).toOption.getD certs else certs

def heldcerts (ms : List Msg) : List (List UInt8) := ms.foldl (hold parse) []

def kex (data : List UInt8) : Option (ℕ × List UInt8) :=
  (ecparams data).toOption.map fun p => (p.1, p.2.1)

def holdkex (p : Option (ℕ × List UInt8)) (m : Msg) : Option (ℕ × List UInt8) :=
  if m.Is HT_SERVER_KEY_EXCHANGE then kex m.data else p

def heldkex (ms : List Msg) : Option (ℕ × List UInt8) := ms.foldl holdkex none

def Flight.kex (f : Flight) : Option (ℕ × List UInt8) :=
  if f.ecdhe then some (f.curve, f.point) else none

variable {parse}

theorem parse_kex {data cr sr : List UInt8} {certs : List (List UInt8)} {insecure : Bool}
    {p : ℕ × List UInt8} (h : K.parseserverkeyexchange data cr sr certs insecure = .ok p) :
    kex data = some p := by
  rw [Keyring.parseserverkeyexchange, bind_ok] at h
  obtain ⟨⟨curve, point, params, rest⟩, hec, h⟩ := h
  have hp : p = (curve, point) := by
    simp only at h
    split_ifs at h
    · exact (Except.ok.inj h).symm
    · obtain ⟨-, -, h⟩ := bind_ok.mp h
      split at h
      · obtain ⟨-, -, h⟩ := bind_ok.mp h
        obtain ⟨-, -, h⟩ := bind_ok.mp h
        exact (Except.ok.inj h).symm
      · simp at h
  rw [kex, hec, hp]
  rfl

/-- What the flight of TLS 1.2 leaves: each ServerKeyExchange in it was verified with the chain
held then. -/
structure Flown (K : Keyring) (cr sr : List UInt8) (f f' : Flight) (cs : State) (ms : List Msg)
    (cs' : State) : Prop where
  extends_ : Extends cs ms cs'
  certs : f'.certs = ms.foldl (hold parsecertificatemsg) f.certs
  kex : f'.kex = ms.foldl holdkex f.kex
  signed : ∀ pre m post, ms = pre ++ m :: post → m.Is HT_SERVER_KEY_EXCHANGE →
    ∃ p, K.parseserverkeyexchange m.data cr sr (pre.foldl (hold parsecertificatemsg) f.certs)
      cs.insecure = .ok p
  received : ∀ m ∈ ms, m.sent = false

theorem Flown.cons {cr sr : List UInt8} {f f₁ f' : Flight} {m : Msg} {ms : List Msg}
    (hsent : m.sent = false) (hext : Extends cs [m] cs₁)
    (hcerts : f₁.certs = hold parsecertificatemsg f.certs m)
    (hkex : f₁.kex = holdkex f.kex m) (hparse : m.Is HT_SERVER_KEY_EXCHANGE →
      ∃ p, K.parseserverkeyexchange m.data cr sr f.certs cs.insecure = .ok p)
    (h : Flown K cr sr f₁ f' cs₁ ms cs₂) : Flown K cr sr f f' cs (m :: ms) cs₂ where
  extends_ := hext.trans h.extends_
  certs := by rw [h.certs, List.foldl_cons, hcerts]
  kex := by rw [h.kex, List.foldl_cons, hkex]
  signed pre m' post heq his := by
    cases pre with
    | nil =>
      obtain ⟨rfl, -⟩ := List.cons.inj heq
      exact hparse his
    | cons m₀ pre =>
      obtain ⟨rfl, heq'⟩ := List.cons.inj heq
      obtain ⟨p, hp⟩ := h.signed pre m' post heq' his
      exact ⟨p, by rwa [List.foldl_cons, ← hcerts, ← hext.insecure]⟩
  received m' hm' := by
    rcases List.mem_cons.mp hm' with rfl | hm'
    · exact hsent
    · exact h.received m' hm'

theorem flight12_spec {cr sr : List UInt8} {f f' : Flight}
    (h : flight12 K cr sr f cs = .ok (f', cs₁)) : ∃ ms, Flown K cr sr f f' cs ms cs₁ := by
  induction hm : cs.pending using Nat.strong_induction_on generalizing cs f with
  | _ n ih =>
  subst hm
  rw [flight12] at h
  split at h
  · simp at h
  next m cs' hr =>
  obtain ⟨hsent, hext⟩ := readhsmsg_extends hr
  have hpend := readhsmsg_pending hr
  split_ifs at h with hcert hske hreq hdone
  · split at h
    · simp at h
    next certs hparse =>
    obtain ⟨ms, hms⟩ := ih _ hpend h rfl
    refine ⟨m :: ms, .cons hsent hext ?_ ?_ ?_ hms⟩
    · simp [hold, Msg.Is, hsent, hcert, hparse, Except.toOption]
    · simp [holdkex, Msg.Is, hcert, HT_CERTIFICATE, HT_SERVER_KEY_EXCHANGE, Flight.kex]
    · intro his
      exact absurd (hcert.symm.trans his.2) (by decide)
  · split at h
    · simp at h
    next curve point hparse =>
    obtain ⟨ms, hms⟩ := ih _ hpend h rfl
    refine ⟨m :: ms, .cons hsent hext ?_ ?_ ?_ hms⟩
    · simp [hold, Msg.Is, hske, HT_CERTIFICATE, HT_SERVER_KEY_EXCHANGE]
    · simp [holdkex, Msg.Is, hsent, hske, Flight.kex, parse_kex hparse]
    · exact fun _ => ⟨_, hparse⟩
  · obtain ⟨ms, hms⟩ := ih _ hpend h rfl
    refine ⟨m :: ms, .cons hsent hext ?_ ?_ ?_ hms⟩
    · simp [hold, Msg.Is, hcert]
    · simp [holdkex, Msg.Is, hske]
    · exact fun his => absurd his.2 hske
  · obtain ⟨rfl, rfl⟩ := by simpa only [Except.ok.injEq, Prod.mk.injEq] using h
    have hnone : Flown K cr sr f f cs' [] cs' :=
      ⟨.refl _, rfl, rfl, fun pre _ _ heq => by simp at heq, by simp⟩
    refine ⟨[m], .cons hsent hext ?_ ?_ ?_ hnone⟩
    · simp [hold, Msg.Is, hcert]
    · simp [holdkex, Msg.Is, hske]
    · exact fun his => absurd his.2 hske

def transcript (h : List UInt8 → List UInt8) : List Msg → List UInt8
  | ch :: sh :: rest =>
    if ishrr sh.data then
      hsmsg HT_MESSAGE_HASH (h (hsmsg ch.mtype ch.data)) ++ raw (sh :: rest)
    else raw (ch :: sh :: rest)
  | ms => raw ms

theorem transcript_append (h : List UInt8 → List UInt8) {ms : List Msg} (hlen : 2 ≤ ms.length)
    (ms' : List Msg) : transcript h (ms ++ ms') = transcript h ms ++ raw ms' := by
  match ms, hlen with
  | ch :: sh :: rest, _ =>
    simp only [transcript, List.cons_append]
    split_ifs <;> simp [raw, List.append_assoc]

def Keyring.transcripthash (K : Keyring) (suite : ℕ) (ms : List Msg) : List UInt8 :=
  if hashlength suite = 48 then K.sha384 (transcript K.sha384 ms)
  else K.sha256 (transcript K.sha256 ms)

structure Faithful (K : Keyring) (cs : State) : Prop where
  tr256 : cs.tr256 = transcript K.sha256 cs.msgs
  tr384 : cs.tr384 = transcript K.sha384 cs.msgs
  hellos : 2 ≤ cs.msgs.length

theorem Faithful.extends_ {ms : List Msg} (h : Faithful K cs) (he : Extends cs ms cs₁) :
    Faithful K cs₁ where
  tr256 := by rw [he.tr256, he.msgs, transcript_append _ h.hellos, h.tr256]
  tr384 := by rw [he.tr384, he.msgs, transcript_append _ h.hellos, h.tr384]
  hellos := by
    rw [he.msgs, List.length_append]
    exact le_trans h.hellos (Nat.le_add_right _ _)

theorem Faithful.hashcurrent (h : Faithful K cs) :
    cs.hashcurrent K = K.transcripthash cs.suite cs.msgs := by
  rw [State.hashcurrent, Keyring.transcripthash, h.tr256, h.tr384]

/-- What the flight leaves before its Finished: each CertificateVerify was verified with the chain
held then, over the transcript before it. -/
structure Flown13 (K : Keyring) (f f' : Flight13) (cs : State) (ms : List Msg) (cs' : State) :
    Prop where
  extends_ : Extends cs ms cs'
  certs : f'.certs = ms.foldl (hold parsecertificatemsg13) f.certs
  signed : ∀ pre m post, ms = pre ++ m :: post → m.Is HT_CERTIFICATE_VERIFY →
    cs.insecure = false → K.verifycertverify_hash m.data
      (pre.foldl (hold parsecertificatemsg13) f.certs)
      (K.transcripthash cs.suite (cs.msgs ++ pre)) = .ok ()
  got_cv : f'.got_cv = true → f.got_cv = true ∨ ∃ m ∈ ms, m.Is HT_CERTIFICATE_VERIFY
  received : ∀ m ∈ ms, m.sent = false

theorem Flown13.cons {f f₁ f' : Flight13} {m : Msg} {ms : List Msg} (hsent : m.sent = false)
    (hext : Extends cs [m] cs₁) (hcerts : f₁.certs = hold parsecertificatemsg13 f.certs m)
    (hsig : m.Is HT_CERTIFICATE_VERIFY → cs.insecure = false →
      K.verifycertverify_hash m.data f.certs (K.transcripthash cs.suite cs.msgs) = .ok ())
    (hcv : f₁.got_cv = true → f.got_cv = true ∨ m.Is HT_CERTIFICATE_VERIFY)
    (h : Flown13 K f₁ f' cs₁ ms cs₂) : Flown13 K f f' cs (m :: ms) cs₂ where
  extends_ := hext.trans h.extends_
  certs := by rw [h.certs, List.foldl_cons, hcerts]
  signed pre m' post heq his hin := by
    cases pre with
    | nil =>
      obtain ⟨rfl, -⟩ := List.cons.inj heq
      rw [List.append_nil]
      exact hsig his hin
    | cons m₀ pre =>
      obtain ⟨rfl, heq'⟩ := List.cons.inj heq
      have hs := h.signed pre m' post heq' his (hext.insecure.trans hin)
      rw [hcerts, hext.suite, hext.msgs, List.append_assoc] at hs
      exact hs
  got_cv hgot := by
    rcases h.got_cv hgot with hf | ⟨m', hm', his⟩
    · rcases hcv hf with hf | his
      · exact .inl hf
      · exact .inr ⟨m, List.mem_cons_self, his⟩
    · exact .inr ⟨m', List.mem_cons_of_mem _ hm', his⟩
  received m' hm' := by
    rcases List.mem_cons.mp hm' with rfl | hm'
    · exact hsent
    · exact h.received m' hm'

theorem flight13_spec {secret : List UInt8} {f f' : Flight13} (hfaith : Faithful K cs)
    (h : flight13 K secret f cs = .ok (f', cs₂)) :
    ∃ ms fin cs₁, Flown13 K f f' cs ms cs₁ ∧ fin.Is HT_FINISHED ∧ Extends cs₁ [fin] cs₂ ∧
      K.verifyfinished13_hash cs.suite fin.data secret
        (K.transcripthash cs.suite (cs.msgs ++ ms)) = .ok () ∧
      (cs.insecure = false → f'.certs ≠ [] ∧ f'.got_cv = true) := by
  induction hm : cs.pending using Nat.strong_induction_on generalizing cs f with
  | _ n ih =>
  subst hm
  rw [flight13] at h
  simp only [hfaith.hashcurrent] at h
  split at h
  · simp at h
  next m cs' hr =>
  obtain ⟨hsent, hext⟩ := readhsmsg_extends hr
  have hpend := readhsmsg_pending hr
  -- the rest of the flight behind this message
  have hcons : ∀ f₁ : Flight13, f₁.certs = hold parsecertificatemsg13 f.certs m →
      (m.Is HT_CERTIFICATE_VERIFY → cs.insecure = false →
        K.verifycertverify_hash m.data f.certs (K.transcripthash cs.suite cs.msgs) = .ok ()) →
      (f₁.got_cv = true → f.got_cv = true ∨ m.Is HT_CERTIFICATE_VERIFY) →
      flight13 K secret f₁ cs' = .ok (f', cs₂) →
      ∃ ms fin cs₁, Flown13 K f f' cs ms cs₁ ∧ fin.Is HT_FINISHED ∧ Extends cs₁ [fin] cs₂ ∧
        K.verifyfinished13_hash cs.suite fin.data secret
          (K.transcripthash cs.suite (cs.msgs ++ ms)) = .ok () ∧
        (cs.insecure = false → f'.certs ≠ [] ∧ f'.got_cv = true) := by
    intro f₁ hcerts hsig hcv h'
    obtain ⟨ms, fin, cs₁, hflown, hfin, hlast, hver, hauth⟩ :=
      ih _ hpend (hfaith.extends_ hext) h' rfl
    refine ⟨m :: ms, fin, cs₁, hflown.cons hsent hext hcerts hsig hcv, hfin, hlast, ?_, ?_⟩
    · rw [hext.suite, hext.msgs, List.append_assoc] at hver
      exact hver
    · rw [← hext.insecure]
      exact hauth
  split_ifs at h with henc hreq hcert hcv _ hfin hno
  · refine hcons f ?_ ?_ .inl h
    · simp [hold, Msg.Is, henc, HT_ENCRYPTED_EXTENSIONS, HT_CERTIFICATE]
    · exact fun his => absurd (henc.symm.trans his.2) (by decide)
  · refine hcons { f with cert_requested := true, context := requestcontext f m.data } ?_ ?_ .inl h
    · simp [hold, Msg.Is, hreq, HT_CERTIFICATE_REQUEST, HT_CERTIFICATE]
    · exact fun his => absurd (hreq.symm.trans his.2) (by decide)
  · split at h
    · simp at h
    next certs hparse =>
    refine hcons { f with certs := certs } ?_ ?_ .inl h
    · simp [hold, Msg.Is, hsent, hcert, hparse, Except.toOption]
    · exact fun his => absurd (hcert.symm.trans his.2) (by decide)
  · split at h
    · simp at h
    next hver =>
    refine hcons { f with got_cv := true } ?_ ?_ (fun _ => .inr ⟨hsent, hcv⟩) h
    · simp [hold, Msg.Is, hcert]
    · intro _ hin
      simpa only [checkverify, hin, Bool.false_eq_true, if_false] using hver
  · split at h
    · simp at h
    next hver =>
    obtain ⟨rfl, rfl⟩ := by simpa only [Except.ok.injEq, Prod.mk.injEq] using h
    refine ⟨[], m, cs, ⟨.refl cs, rfl, fun pre _ _ heq => by simp at heq, .inl, by simp⟩,
      ⟨hsent, hfin⟩, hext, by simpa using hver, fun hin => ?_⟩
    simp only [hin, Bool.not_false, true_and, not_or, Bool.not_eq_true'] at hno
    exact ⟨hno.1, by simpa using hno.2⟩

end

end Infernode.Tls
