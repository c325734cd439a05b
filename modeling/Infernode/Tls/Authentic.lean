import Infernode.Tls.Flights

/-!
# Who answered the handshake

What a client knows of the server once its handshake has succeeded, and when no later message
has taken the place of what was verified.
-/

namespace Infernode.Tls

open Limbo (Str lit)

section
variable {K : Keyring} {r : Draws} {cs cs₁ cs₂ : State}

structure Greeted (K : Keyring) (cs : State) (data : List UInt8) : Prop where
  faithful : Faithful K cs
  hellos : ∀ m ∈ cs.msgs, m.sent = true ∨ m.Is HT_SERVER_HELLO
  server : ∃ m ∈ cs.msgs, m.Is HT_SERVER_HELLO ∧ m.data = data ∧ ishrr data = false

theorem offer_extends {config : Config} {o : Offer} (h : offer K r config cs = .ok (o, cs₁)) :
    Extends cs [] cs₁ := by
  rw [offer] at h
  split_ifs at h
  · obtain ⟨_, -, h⟩ := bind_ok.mp h
    obtain ⟨_, -, h⟩ := bind_ok.mp h
    rw [← (Prod.mk.inj (Except.ok.inj h)).2]
    exact .same rfl rfl rfl rfl rfl rfl rfl
  · simp only at h
    split at h <;> rw [← (Prod.mk.inj (Except.ok.inj h)).2]
    · exact .refl cs
    · exact .same rfl rfl rfl rfl rfl rfl rfl

theorem newshare_extends {group : ℕ} {shares shares' : List (ℕ × List UInt8)}
    (h : newshare K r cs group shares = .ok (shares', cs₁)) : Extends cs [] cs₁ := by
  rw [newshare] at h
  split_ifs at h
  · rw [← (Prod.mk.inj (Except.ok.inj h)).2]
    exact .refl cs
  · obtain ⟨⟨share, cs'⟩, hk, h⟩ := bind_ok.mp h
    rw [← (Prod.mk.inj (Except.ok.inj h)).2]
    rw [keyshare] at hk
    split_ifs at hk
    · obtain ⟨_, -, hk⟩ := bind_ok.mp hk
      rw [← (Prod.mk.inj (Except.ok.inj hk)).2]
      exact .same rfl rfl rfl rfl rfl rfl rfl
    · obtain ⟨_, -, hk⟩ := bind_ok.mp hk
      rw [← (Prod.mk.inj (Except.ok.inj hk)).2]
      exact .same rfl rfl rfl rfl rfl rfl rfl

theorem answerretry_greeted {o : Offer} {hello shdata : List UInt8} {h : Hello}
    (hmsgs : cs.msgs = [⟨true, HT_CLIENT_HELLO, hello⟩, ⟨false, HT_SERVER_HELLO, shdata⟩])
    (h256 : cs.tr256 = raw cs.msgs) (h384 : cs.tr384 = raw cs.msgs)
    (ha : answerretry K r o hello shdata cs = .ok (h, cs₂)) :
    Greeted K cs₂ h.data ∧ cs₂.insecure = cs.insecure ∧ cs₂.servername = cs.servername := by
  rw [answerretry] at ha
  cases hhrr : ishrr shdata with
  | false =>
    rw [hhrr] at ha
    obtain ⟨rfl, rfl⟩ := Prod.mk.inj (Except.ok.inj ha)
    refine ⟨⟨⟨?_, ?_, by simp [hmsgs]⟩, ?_, ?_⟩, rfl, rfl⟩
    · rw [h256, hmsgs, transcript, hhrr]
      rfl
    · rw [h384, hmsgs, transcript, hhrr]
      rfl
    · intro m hm
      rw [hmsgs] at hm
      simp only [List.mem_cons, List.not_mem_nil, or_false] at hm
      rcases hm with rfl | rfl
      · exact .inl rfl
      · exact .inr ⟨rfl, rfl⟩
    · exact ⟨⟨false, HT_SERVER_HELLO, shdata⟩, by simp [hmsgs], ⟨rfl, rfl⟩, rfl, hhrr⟩
  | true =>
    rw [hhrr] at ha
    simp only [Bool.not_true, Bool.false_eq_true, if_false] at ha
    obtain ⟨⟨suite, group, cookie⟩, -, ha⟩ := bind_ok.mp ha
    obtain ⟨⟨shares, cs₃⟩, hshare, ha⟩ := bind_ok.mp ha
    obtain ⟨cs₄, hsend, ha⟩ := bind_ok.mp ha
    obtain ⟨⟨m, cs₅⟩, hread, ha⟩ := bind_ok.mp ha
    obtain ⟨_, htype, ha⟩ := bind_ok.mp ha
    obtain ⟨_, hsecond, ha⟩ := bind_ok.mp ha
    obtain ⟨rfl, rfl⟩ := Prod.mk.inj (Except.ok.inj ha)
    obtain ⟨hsent, hm⟩ := readhsmsg_extends hread
    have hstep := ((newshare_extends hshare).trans (sendhsmsg_extends hsend)).trans hm
    have hserver : m.Is HT_SERVER_HELLO := ⟨hsent, by simpa using require_ok.mp htype⟩
    have hfaith : Faithful K (hrrtranscript K { cs with suite := suite, version := TLS13 }
        (hsmsg HT_CLIENT_HELLO hello) (hsmsg HT_SERVER_HELLO shdata)) := by
      refine ⟨?_, ?_, by simp [hrrtranscript, hmsgs]⟩
      · simp [hrrtranscript, hmsgs, transcript, hhrr, raw]
      · simp [hrrtranscript, hmsgs, transcript, hhrr, raw]
    refine ⟨⟨hfaith.extends_ hstep, ?_, ?_⟩, hstep.insecure, hstep.servername⟩
    · intro m' hm'
      rw [hstep.msgs] at hm'
      simp only [hrrtranscript, hmsgs, List.cons_append, List.nil_append, List.mem_cons,
        List.not_mem_nil, or_false] at hm'
      rcases hm' with rfl | rfl | rfl | rfl
      · exact .inl rfl
      · exact .inr ⟨rfl, rfl⟩
      · exact .inl rfl
      · exact .inr hserver
    · refine ⟨m, ?_, hserver, rfl, by simpa using require_ok.mp hsecond⟩
      rw [hstep.msgs]
      simp

theorem split_middle {before ms after pre post : List Msg} {m : Msg}
    (h : before ++ ms ++ after = pre ++ m :: post) (hb : m ∉ before) (ha : m ∉ after) :
    ∃ pre' post', pre = before ++ pre' ∧ ms = pre' ++ m :: post' := by
  rw [List.append_assoc] at h
  rcases List.append_eq_append_iff.mp h with ⟨l, rfl, hl⟩ | ⟨l, hl, h'⟩
  · rcases List.append_eq_append_iff.mp hl with ⟨l', rfl, hl'⟩ | ⟨l', hl', h'⟩
    · exact absurd (hl' ▸ List.mem_append_right _ List.mem_cons_self) ha
    · cases l' with
      | nil =>
        rw [List.nil_append] at h'
        exact absurd (h' ▸ List.mem_cons_self) ha
      | cons m' l' =>
        obtain ⟨rfl, -⟩ := List.cons.inj h'
        exact ⟨l, l', rfl, hl'⟩
  · cases l with
    | nil =>
      rw [List.nil_append] at h'
      rw [List.append_nil] at hl
      cases ms with
      | nil =>
        rw [List.nil_append] at h'
        exact absurd (h' ▸ List.mem_cons_self) ha
      | cons m' ms =>
        obtain ⟨rfl, -⟩ := List.cons.inj h'
        exact ⟨[], ms, by rw [hl, List.append_nil], rfl⟩
    | cons m' l =>
      obtain ⟨rfl, -⟩ := List.cons.inj h'
      exact absurd (hl ▸ List.mem_append_right _ List.mem_cons_self) hb

variable (parse : List UInt8 → Except Str (List (List UInt8)))

theorem hold_other {certs : List (List UInt8)} {ms : List Msg}
    (h : ∀ m ∈ ms, ¬m.Is HT_CERTIFICATE) : ms.foldl (hold parse) certs = certs := by
  induction ms with
  | nil => rfl
  | cons m ms ih =>
    rw [List.foldl_cons, hold, if_neg (h m List.mem_cons_self),
      ih fun m' hm' => h m' (List.mem_cons_of_mem _ hm')]

theorem holdkex_other {p : Option (ℕ × List UInt8)} {ms : List Msg}
    (h : ∀ m ∈ ms, ¬m.Is HT_SERVER_KEY_EXCHANGE) : ms.foldl holdkex p = p := by
  induction ms with
  | nil => rfl
  | cons m ms ih =>
    rw [List.foldl_cons, holdkex, if_neg (h m List.mem_cons_self),
      ih fun m' hm' => h m' (List.mem_cons_of_mem _ hm')]

/-- The server's Finished in TLS 1.3, over the transcript of every message before it. -/
def Finished13 (K : Keyring) (suite : ℕ) (ms : List Msg) : Prop :=
  ∃ shared hellos flight fin post, ms = hellos ++ flight ++ fin :: post ∧ fin.Is HT_FINISHED ∧
    K.verifyfinished13_hash suite fin.data (K.hkdf_expand_label suite
      (K.handshakesecret suite shared) "s hs traffic" (K.transcripthash suite hellos)
      (hashlength suite)) (K.transcripthash suite (hellos ++ flight)) = .ok ()

/-- The chain that was accepted is the one whose first key verified each CertificateVerify. -/
structure Authentic13 (K : Keyring) (suite : ℕ) (servername : Str) (ms : List Msg) : Prop where
  accepted : K.verifycerts servername (heldcerts parsecertificatemsg13 ms) = .ok ()
  verified : ∃ m ∈ ms, m.Is HT_CERTIFICATE_VERIFY
  signed : ∀ pre m post, ms = pre ++ m :: post → m.Is HT_CERTIFICATE_VERIFY →
    heldcerts parsecertificatemsg13 pre = heldcerts parsecertificatemsg13 ms ∧
      K.verifycertverify_hash m.data (heldcerts parsecertificatemsg13 ms)
        (K.transcripthash suite pre) = .ok ()
  finished : Finished13 K suite ms

/-- No other chain takes the place of the one that a CertificateVerify came with. -/
def Unreplaced13 (ms : List Msg) : Prop :=
  ∀ pre m post, ms = pre ++ m :: post → m.Is HT_CERTIFICATE_VERIFY →
    heldcerts parsecertificatemsg13 pre = heldcerts parsecertificatemsg13 ms

/-- The server's Finished in TLS 1.2, with the secret from the curve and the point. -/
def Finished12 (K : Keyring) (r : Draws) (suite : ℕ) (server_random : List UInt8) (ms : List Msg)
    (curve : ℕ) (point : List UInt8) : Prop :=
  ∃ premaster cke pre fin,
    keyexchange12 K r ⟨heldcerts parsecertificatemsg ms, point, curve, true⟩ =
      .ok (premaster, cke) ∧
    ms = pre ++ [fin] ∧ fin.Is HT_FINISHED ∧
    fin.data = K.tls12_prf suite (K.master suite premaster r.client_random server_random)
      (s2b "server finished") (K.transcripthash suite pre) 12

/-- The chain that was accepted is the one whose first key verified both randoms and the
parameters of the shared secret. -/
structure Authentic12 (K : Keyring) (r : Draws) (suite : ℕ) (servername : Str) (ms : List Msg) :
    Prop where
  accepted : K.verifycerts servername (heldcerts parsecertificatemsg ms) = .ok ()
  verified : ∃ m ∈ ms, m.Is HT_SERVER_KEY_EXCHANGE
  signed : ∃ hello curve point, (hello ∈ ms ∧ hello.Is HT_SERVER_HELLO ∧ ishrr hello.data = false) ∧
    (∀ pre m post, ms = pre ++ m :: post → m.Is HT_SERVER_KEY_EXCHANGE →
      heldcerts parsecertificatemsg pre = heldcerts parsecertificatemsg ms ∧
      K.parseserverkeyexchange m.data r.client_random ((hello.data.drop 2).take 32)
        (heldcerts parsecertificatemsg ms) false = .ok (curve, point)) ∧
    Finished12 K r suite ((hello.data.drop 2).take 32) ms curve point

/-- There is a ServerKeyExchange, and neither another chain nor other parameters take the place
of those it came with. -/
structure Unreplaced12 (ms : List Msg) : Prop where
  signed : ∃ m ∈ ms, m.Is HT_SERVER_KEY_EXCHANGE
  kept : ∀ pre m post, ms = pre ++ m :: post → m.Is HT_SERVER_KEY_EXCHANGE →
    heldcerts parsecertificatemsg pre = heldcerts parsecertificatemsg ms ∧
      kex m.data = heldkex ms

def Authentic (K : Keyring) (r : Draws) (servername : Str) (c : Conn) : Prop :=
  if c.st.version = TLS13 then Authentic13 K c.st.suite servername c.st.msgs
  else Authentic12 K r c.st.suite servername c.st.msgs

def Unreplaced (c : Conn) : Prop :=
  if c.st.version = TLS13 then Unreplaced13 c.st.msgs else Unreplaced12 c.st.msgs

theorem holdkex_const {p q : Option (ℕ × List UInt8)} {ms : List Msg}
    (h : ∀ m ∈ ms, m.Is HT_SERVER_KEY_EXCHANGE → kex m.data = p)
    (hex : ∃ m ∈ ms, m.Is HT_SERVER_KEY_EXCHANGE) : ms.foldl holdkex q = p := by
  induction ms generalizing q with
  | nil =>
    obtain ⟨m, hm, -⟩ := hex
    exact absurd hm List.not_mem_nil
  | cons m ms ih =>
    have h' := fun m' hm' => h m' (List.mem_cons_of_mem _ hm')
    rw [List.foldl_cons]
    by_cases hrest : ∃ m ∈ ms, m.Is HT_SERVER_KEY_EXCHANGE
    · exact ih h' hrest
    · rw [holdkex_other fun m' hm' his => hrest ⟨m', hm', his⟩]
      obtain ⟨m', hm', his⟩ := hex
      rcases List.mem_cons.mp hm' with rfl | hm'
      · rw [holdkex, if_pos his, h _ List.mem_cons_self his]
      · exact absurd ⟨m', hm', his⟩ hrest

variable {parse} {data : List UInt8}

theorem Greeted.only (h : Greeted K cs data) {t : UInt8} (ht : HT_SERVER_HELLO ≠ t) :
    ∀ m ∈ cs.msgs, ¬m.Is t := by
  intro m hm his
  rcases h.hellos m hm with hsent | hserver
  · exact absurd (hsent.symm.trans his.1) (by decide)
  · exact ht (hserver.2.symm.trans his.2)

theorem Greeted.held (h : Greeted K cs data) (ms : List Msg) :
    heldcerts parse (cs.msgs ++ ms) = ms.foldl (hold parse) [] := by
  rw [heldcerts, List.foldl_append, hold_other parse (h.only (by decide))]

theorem Greeted.heldkex (h : Greeted K cs data) (ms : List Msg) :
    heldkex (cs.msgs ++ ms) = ms.foldl holdkex none := by
  rw [Tls.heldkex, List.foldl_append, holdkex_other (h.only (by decide))]

theorem checkcerts_ok {certs : List (List UInt8)} (hin : cs.insecure = false)
    (h : checkcerts K cs certs = .ok ()) : K.verifycerts cs.servername certs = .ok () := by
  rw [checkcerts, hin] at h
  obtain ⟨_, -, h⟩ := bind_ok.mp h
  exact h

theorem sendcert_extends {A : Aead} {f : Flight13} (h : sendcert A f cs = .ok cs₁) :
    ∃ ms, Extends cs ms cs₁ ∧ ∀ m ∈ ms, m.sent = true := by
  rw [sendcert] at h
  split_ifs at h
  · exact ⟨_, sendhsmsg_extends h, by simp⟩
  · obtain rfl := Except.ok.inj h
    exact ⟨[], .refl cs, by simp⟩

theorem handshake13_authentic {group : ℕ} {share : Option (List UInt8)}
    (hg : Greeted K cs data) (hin : cs.insecure = false)
    (h : handshake13 K r group share cs = .ok cs₂) :
    cs₂.version = cs.version ∧
      (Authentic13 K cs₂.suite cs.servername cs₂.msgs ↔ Unreplaced13 cs₂.msgs) := by
  obtain ⟨shared, -, h⟩ := bind_ok.mp h
  obtain ⟨⟨f, cs₃⟩, hflight, h⟩ := bind_ok.mp h
  obtain ⟨_, hcheck, h⟩ := bind_ok.mp h
  obtain ⟨cs₄, hcert, h⟩ := bind_ok.mp h
  obtain ⟨cs₅, hsend, h⟩ := bind_ok.mp h
  obtain rfl := Except.ok.inj h
  simp only at hflight hcheck hcert hsend
  have hkeys : ∀ a b, Extends cs [] { cs.resetkeys K a b with hsencrypted := true } :=
    fun _ _ => .same rfl rfl rfl rfl rfl rfl rfl
  obtain ⟨ms, fin, cs₆, hflown, hfin, hlast, hver, hauth⟩ :=
    flight13_spec (hg.faithful.extends_ (hkeys _ _)) hflight
  obtain ⟨hcerts, hcv⟩ := hauth hin
  obtain ⟨sent, hsent, hall⟩ := sendcert_extends hcert
  have hflow := ((hkeys _ _).trans hflown.extends_).trans hlast
  have htail : ∀ {cs cs' : State} {c s : List UInt8} {ms : List Msg},
      Extends { cs with cts := c, sts := s } ms cs' → Extends cs ms cs' := fun h =>
    ⟨h.1, h.2, h.3, h.4, h.5, h.6, h.7⟩
  have hend : ∀ {cs : State} {a b : List UInt8}, Extends cs [] (cs.resetkeys K a b) :=
    .same rfl rfl rfl rfl rfl rfl rfl
  have hext := ((hflow.trans (htail hsent)).trans (sendhsmsg_extends hsend)).trans
    (hend (a := cs₅.sts) (b := cs₅.cts))
  obtain ⟨after, hmsgs, hafter⟩ : ∃ after, (cs₅.resetkeys K cs₅.sts cs₅.cts).msgs =
      cs.msgs ++ ms ++ fin :: after ∧ ∀ m ∈ after, m.sent = true := by
    refine ⟨sent ++ [⟨true, HT_FINISHED, _⟩], by rw [hext.msgs]; simp; rfl, fun m hm => ?_⟩
    rcases List.mem_append.mp hm with hm | hm
    · exact hall m hm
    · rw [List.mem_singleton.mp hm]
  have hother : ∀ m : Msg, ∀ t, t ≠ HT_FINISHED → m.Is t → m ∉ fin :: after := by
    intro m t ht his hm
    rcases List.mem_cons.mp hm with rfl | hm
    · exact ht (his.2.symm.trans hfin.2)
    · exact absurd ((hafter m hm).symm.trans his.1) (by decide)
  have hheld : heldcerts parsecertificatemsg13 (cs₅.resetkeys K cs₅.sts cs₅.cts).msgs =
      f.certs := by
    rw [hmsgs, List.append_assoc, hg.held, List.foldl_append, hflown.certs]
    exact hold_other _ fun m hm his => hother m _ (by decide) his hm
  have hsuite : (cs₅.resetkeys K cs₅.sts cs₅.cts).suite = cs.suite := hext.suite
  refine ⟨hext.version, fun ha pre m post heq his => (ha.signed pre m post heq his).1,
    fun hu => ⟨?_, ?_, fun pre m post heq his => ⟨hu pre m post heq his, ?_⟩, ?_⟩⟩
  · rw [hheld, ← hflow.servername]
    exact checkcerts_ok (hflow.insecure.trans hin) hcheck
  · rcases hflown.got_cv hcv with hfalse | ⟨m, hm, his⟩
    · simp at hfalse
    · exact ⟨m, by rw [hmsgs]; simp [hm], his⟩
  · -- the chain held then is the one at the end
    have hsame := hu pre m post heq his
    rw [hmsgs] at heq
    obtain ⟨pre', post', rfl, hms⟩ := split_middle heq (fun hm => hg.only (by decide) m hm his)
      (hother m _ (by decide) his)
    rw [← hsame, hg.held, hsuite]
    exact hflown.signed pre' m post' hms his hin
  · refine ⟨shared, cs.msgs, ms, fin, after, hmsgs, hfin, ?_⟩
    rw [hsuite, ← hg.faithful.hashcurrent]
    exact hver

theorem handshake12_authentic (hg : Greeted K cs data) (hin : cs.insecure = false)
    (h : handshake12 K r ((data.drop 2).take 32) cs = .ok cs₂) :
    cs₂.version = cs.version ∧
      (Authentic12 K r cs₂.suite cs.servername cs₂.msgs ↔ Unreplaced12 cs₂.msgs) := by
  obtain ⟨⟨f, cs₃⟩, hflight, h⟩ := bind_ok.mp h
  obtain ⟨_, hcheck, h⟩ := bind_ok.mp h
  obtain ⟨_, -, h⟩ := bind_ok.mp h
  obtain ⟨⟨premaster, cke⟩, hkex, h⟩ := bind_ok.mp h
  obtain ⟨cs₄, hsend, h⟩ := bind_ok.mp h
  obtain ⟨cs₅, hccs, h⟩ := bind_ok.mp h
  obtain ⟨cs₆, hfinish, h⟩ := bind_ok.mp h
  obtain ⟨cs₇, hreadccs, h⟩ := bind_ok.mp h
  obtain ⟨⟨fin, cs₈⟩, hread, h⟩ := bind_ok.mp h
  obtain ⟨_, htype, h⟩ := bind_ok.mp h
  obtain ⟨_, hver, h⟩ := bind_ok.mp h
  obtain rfl := Except.ok.inj h
  obtain ⟨ms, hflown⟩ := flight12_spec hflight
  have hsetw : ∀ {cs : State} {a b : List UInt8}, Extends cs [] (cs.setwrite a b) :=
    .same rfl rfl rfl rfl rfl rfl rfl
  obtain ⟨hsent, hfin⟩ : fin.sent = false ∧ Extends cs₇ [fin] cs₈ := by
    obtain ⟨hsent, hfin⟩ := readhsmsg_extends hread
    exact ⟨hsent, hfin.1, hfin.2, hfin.3, hfin.4, hfin.5, hfin.6, hfin.7⟩
  have hisfin : fin.Is HT_FINISHED := ⟨hsent, by simpa using require_ok.mp htype⟩
  have hkeyed := hflown.extends_.trans (sendhsmsg_extends hsend)
  have hbefore := (((hkeyed.trans (writeccs_extends hccs)).trans hsetw).trans
    (sendhsmsg_extends hfinish)).trans (readccs_extends hreadccs)
  have hext := hbefore.trans hfin
  obtain ⟨sent, hpre, hall⟩ : ∃ sent, (cs.msgs ++ ms ++ sent) ++ [fin] = cs₈.msgs ∧
      ∀ m ∈ sent, m.sent = true := by
    refine ⟨[⟨true, HT_CLIENT_KEY_EXCHANGE, cke⟩, ⟨true, HT_FINISHED, _⟩],
      by rw [hext.msgs]; simp; rfl, fun m hm => ?_⟩
    simp only [List.mem_cons, List.not_mem_nil, or_false] at hm
    rcases hm with rfl | rfl <;> rfl
  have hother : ∀ m : Msg, ∀ t, t ≠ HT_FINISHED → m.Is t → m ∉ sent ++ [fin] := by
    intro m t ht his hm
    rcases List.mem_append.mp hm with hm | hm
    · exact absurd ((hall m hm).symm.trans his.1) (by decide)
    · obtain rfl := List.mem_singleton.mp hm
      exact ht (his.2.symm.trans hisfin.2)
  have hmsgs : cs₈.msgs = cs.msgs ++ ms ++ (sent ++ [fin]) := by
    rw [← hpre, List.append_assoc (cs.msgs ++ ms)]
  have hheld : heldcerts parsecertificatemsg cs₈.msgs = f.certs := by
    rw [hmsgs, List.append_assoc, hg.held, List.foldl_append, hflown.certs]
    exact hold_other _ fun m hm his => hother m _ (by decide) his hm
  have hheldkex : heldkex cs₈.msgs = f.kex := by
    rw [hmsgs, List.append_assoc, hg.heldkex, List.foldl_append, hflown.kex]
    exact holdkex_other fun m hm his => hother m _ (by decide) his hm
  refine ⟨hext.version, fun ha => ⟨ha.verified, fun pre m post heq his => ?_⟩, fun hu => ?_⟩
  · obtain ⟨hello, curve, point, -, hsigned, -⟩ := ha.signed
    obtain ⟨hsame, hparse⟩ := hsigned pre m post heq his
    refine ⟨hsame, ?_⟩
    rw [parse_kex hparse, heldkex]
    refine (holdkex_const (fun m' hm' his' => ?_) ha.verified).symm
    obtain ⟨pre', post', heq'⟩ := List.append_of_mem hm'
    exact parse_kex (hsigned pre' m' post' heq' his').2
  · -- each ServerKeyExchange was verified with the chain and has the parameters at the end
    have hsigned : ∀ pre m post, cs₈.msgs = pre ++ m :: post → m.Is HT_SERVER_KEY_EXCHANGE →
        ∃ p, K.parseserverkeyexchange m.data r.client_random ((data.drop 2).take 32)
          (heldcerts parsecertificatemsg cs₈.msgs) false = .ok p ∧ heldkex cs₈.msgs = some p := by
      intro pre m post heq his
      obtain ⟨hsame, hkept⟩ := hu.kept pre m post heq his
      have heq' := heq
      rw [hmsgs] at heq'
      obtain ⟨pre', post', rfl, hms⟩ := split_middle heq' (fun hm => hg.only (by decide) m hm his)
        (hother m _ (by decide) his)
      obtain ⟨p, hp⟩ := hflown.signed pre' m post' hms his
      rw [hin] at hp
      refine ⟨p, ?_, by rw [← hkept, parse_kex hp]⟩
      rw [← hsame, hg.held]
      exact hp
    obtain ⟨m, hm, his⟩ := hu.signed
    obtain ⟨pre, post, heq⟩ := List.append_of_mem hm
    obtain ⟨⟨curve, point⟩, -, hkexms⟩ := hsigned pre m post heq his
    obtain ⟨hello, hhello, hishello, rfl, hnotretry⟩ := hg.server
    refine ⟨?_, hu.signed, hello, curve, point, ⟨by rw [hmsgs]; simp [hhello], hishello, hnotretry⟩,
      fun pre m post heq his => ⟨(hu.kept pre m post heq his).1, ?_⟩, ?_⟩
    · rw [hheld, ← hflown.extends_.servername]
      exact checkcerts_ok (hflown.extends_.insecure.trans hin) hcheck
    · obtain ⟨p, hp, hkexp⟩ := hsigned pre m post heq his
      obtain rfl := Option.some.inj (hkexp.symm.trans hkexms)
      exact hp
    · have hflight : f = ⟨heldcerts parsecertificatemsg cs₈.msgs, point, curve, true⟩ := by
        rw [hheldkex, Flight.kex] at hkexms
        split_ifs at hkexms with hecdhe
        obtain ⟨rfl, rfl⟩ := Prod.mk.inj (Option.some.inj hkexms)
        rw [hheld, ← hecdhe]
      have hfaith := hg.faithful.extends_ hbefore
      refine ⟨premaster, cke, cs.msgs ++ ms ++ sent, fin, hflight ▸ hkex, hpre.symm, hisfin, ?_⟩
      have hdata : fin.data = K.tls12_prf cs₇.suite (K.master cs₄.suite premaster r.client_random
          ((hello.data.drop 2).take 32)) (s2b "server finished") (cs₇.hashcurrent K) 12 :=
        of_decide_eq_true (require_ok.mp hver)
      have hpremsgs : cs₇.msgs = cs.msgs ++ ms ++ sent :=
        List.append_cancel_right (hfin.msgs.symm.trans hpre.symm)
      rw [hfaith.hashcurrent, hbefore.suite, hkeyed.suite, hpremsgs] at hdata
      rw [hdata, hext.suite]

theorem helloexts_random {sh sh' : ServerHello} {l : List UInt8} (h : helloexts sh l = .ok sh') :
    sh'.random = sh.random := by
  induction hn : l.length using Nat.strong_induction_on generalizing sh l with
  | _ n ih =>
  subst hn
  match l with
  | t1 :: t2 :: l1 :: l2 :: rest =>
    unfold helloexts at h
    simp only at h
    by_cases hlen : rest.length < get16 l1 l2
    · simp [hlen] at h
    rw [if_neg hlen] at h
    rw [ih _ (by simp only [List.length_drop, List.length_cons]; omega) h rfl]
    -- neither extension the client reads touches the random
    rcases rest with _ | ⟨a, _ | ⟨b, _ | ⟨c, _ | ⟨d, key⟩⟩⟩⟩ <;> simp only <;>
      repeat' (first | rfl | split_ifs)
  | [] =>
    rw [helloexts] at h
    rw [← Except.ok.inj h]
  | [_] => simp [helloexts] at h
  | [_, _] => simp [helloexts] at h
  | [_, _, _] => simp [helloexts] at h

theorem parseserverhello_random {config : Config} {sh : ServerHello}
    (h : parseserverhello data config = .ok sh) : sh.random = (data.drop 2).take 32 := by
  obtain ⟨_, -, h⟩ := bind_ok.mp h
  obtain ⟨_, -, h⟩ := bind_ok.mp h
  obtain ⟨_, -, h⟩ := bind_ok.mp h
  simp only at h
  split at h
  · split_ifs at h
    · cases h
    · obtain ⟨sh', hexts, h⟩ := bind_ok.mp h
      obtain ⟨_, -, h⟩ := bind_ok.mp h
      obtain ⟨_, -, h⟩ := bind_ok.mp h
      obtain rfl := Except.ok.inj h
      exact helloexts_random hexts
  · obtain ⟨sh', hexts, h⟩ := bind_ok.mp h
    obtain ⟨_, -, h⟩ := bind_ok.mp h
    obtain ⟨_, -, h⟩ := bind_ok.mp h
    obtain rfl := Except.ok.inj h
    rw [← Except.ok.inj hexts]

/-- A client that verifies is sure of its server if and only if nothing took the place of what
was verified. -/
theorem client_authentic {fd : Fd} {config : Config} {c : Conn}
    (h : client K r fd config = .ok c) (hin : config.insecure = false) :
    Authentic K r config.servername c ↔ Unreplaced c := by
  rw [client] at h
  cases hs : handshake0 K r config (State.new fd config) with
  | error err => simp [hs, Except.map] at h
  | ok cs =>
    rw [hs] at h
    obtain rfl := Except.ok.inj h
    obtain ⟨⟨o, cs₁⟩, hoffer, hs⟩ := bind_ok.mp hs
    obtain ⟨cs₂, hsend, hs⟩ := bind_ok.mp hs
    obtain ⟨⟨m, cs₃⟩, hread, hs⟩ := bind_ok.mp hs
    obtain ⟨_, htype, hs⟩ := bind_ok.mp hs
    obtain ⟨⟨hello, cs₄⟩, hretry, hrest⟩ := bind_ok.mp hs
    obtain ⟨sh, hparse, hrest⟩ := bind_ok.mp hrest
    obtain ⟨_, -, hlast⟩ := bind_ok.mp hrest
    simp only at hretry hlast
    obtain ⟨hsent, hm⟩ := readhsmsg_extends hread
    have hext := ((offer_extends hoffer).trans (sendhsmsg_extends hsend)).trans hm
    obtain ⟨sent, mtype, data⟩ := m
    obtain rfl : sent = false := hsent
    obtain rfl : mtype = HT_SERVER_HELLO := by simpa using require_ok.mp htype
    obtain ⟨hg, hinsec, hname⟩ := answerretry_greeted (K := K) hext.msgs
      (by rw [hext.tr256, hext.msgs]; rfl) (by rw [hext.tr384, hext.msgs]; rfl) hretry
    have hin' : cs₄.insecure = false := hinsec.trans (hext.insecure.trans hin)
    have hname' : cs₄.servername = config.servername := hname.trans hext.servername
    have hrandom := parseserverhello_random hparse
    have hset : Greeted K { cs₄ with
        version := sh.version
        suite := sh.suite
        group := if sh.version = TLS13 then sh.group else cs₄.group } hello.data :=
      ⟨⟨hg.faithful.1, hg.faithful.2, hg.faithful.3⟩, hg.hellos, hg.server⟩
    by_cases hv : sh.version = TLS13
    · rw [if_pos hv] at hlast
      obtain ⟨hversion, hiff⟩ := handshake13_authentic hset hin' hlast
      have hv' : cs.version = TLS13 := hversion.trans hv
      simpa only [Authentic, Unreplaced, clearephemeral, hv', if_true, hname'] using hiff
    · rw [if_neg hv, hrandom] at hlast
      obtain ⟨hversion, hiff⟩ := handshake12_authentic hset hin' hlast
      have hv' : cs.version ≠ TLS13 := fun he => hv (hversion.symm.trans he)
      simpa only [Authentic, Unreplaced, clearephemeral, hv', if_false, hname'] using hiff

end

/-- A peer whose leaf `n` is for the name "v" and has the key `n`. Only the chain of `trusted` is
accepted, and only the key 1 has signed. -/
def peerkeys (trusted : UInt8) : Keyring where
  aesgcmsetup _ _ := true
  aesgcmencrypt _ _ plaintext _ := some (plaintext, List.replicate 16 0)
  aesgcmdecrypt _ _ ct _ _ := some ct
  ccpolyencrypt _ _ _ _ := none
  ccpolydecrypt _ _ _ _ _ := none
  aesgcm_length _ _ _ _ _ _ h := congrArg List.length (Option.some.inj h).symm
  ccpoly_length _ _ _ _ _ _ h := by cases h
  sha256 _ := []
  sha384 _ := []
  sha512 _ := []
  hmac_sha256 _ _ := List.replicate 32 0
  hmac_sha384 _ _ := List.replicate 48 0
  x25519 _ _ := some []
  x25519_base _ := []
  p256_make_point := some
  p256_point_bytes := some
  p256_ecdh _ _ := none
  p256_ecdsa_verify key _ _ := key == List.replicate 65 1
  p384_ecdh _ _ := none
  p384_ecdsa_verify _ _ _ := false
  mlkem768_decaps _ _ := none
  mlkem1024_decaps _ _ := none
  rsa_encrypt _ _ := .error []
  decodesigned := .ok
  decodecert leaf :=
    .ok ⟨[], [[(id_at_commonName, lit "v")]], .ok (some (.EC (List.replicate 65 (leaf.headD 0))))⟩
  decodebigints _ := some [[], []]
  verify_certchain certs := if certs = [[trusted]] then .ok () else .error []
  ipparse _ := none

def nodraws : Draws where
  client_random := []
  session_id := []
  x25519_priv := []
  premaster := []
  p384_keygen _ := none
  p256_keygen _ := none
  mlkem768_keygen := none
  mlkem1024_keygen := none
  cnsatls := false

def peerconfig : Config := ⟨[0x1301], TLS12, TLS13, lit "v", false⟩

def peerrecord (ctype : UInt8) (b : List UInt8) : List UInt8 :=
  ctype :: (put16 RECVERSION ++ put16 b.length ++ b)

def peerhello : List UInt8 :=
  let exts := buildext EXT_SUPPORTED_VERSIONS (put16 TLS13) ++
    buildext EXT_KEY_SHARE (put16 GROUP_X25519 ++ put16 32 ++ List.replicate 32 0)
  hsmsg HT_SERVER_HELLO (put16 TLS12 ++ List.replicate 32 0 ++ 0 :: put16 0x1301 ++
    0 :: put16 exts.length ++ exts)

def peerchain (leaf : UInt8) : List UInt8 := hsmsg HT_CERTIFICATE [0, 0, 0, 6, 0, 0, 1, leaf, 0, 0]

def peerfd (more : List UInt8) : Fd where
  input := (peerrecord CT_HANDSHAKE peerhello ++ peerrecord CT_APPLICATION_DATA
    (peerchain 1 ++ hsmsg HT_CERTIFICATE_VERIFY [4, 3, 0, 0] ++ more ++
      hsmsg HT_FINISHED (List.replicate 32 0) ++ CT_HANDSHAKE :: List.replicate 16 0)).map some
  output := []
  takes _ := true

theorem client_authentic_peer :
    ∃ c, client (peerkeys 1) nodraws (peerfd []) peerconfig = .ok c ∧
      (Authentic (peerkeys 1) nodraws peerconfig.servername c ↔ Unreplaced c) := by
  have hok : (client (peerkeys 1) nodraws (peerfd []) peerconfig).toOption.isSome := by
    decide +kernel
  cases h : client (peerkeys 1) nodraws (peerfd []) peerconfig with
  | error err => simp [h, Except.toOption] at hok
  | ok c => exact ⟨c, rfl, client_authentic h rfl⟩

/-- The chain of 2 is accepted and nothing was signed with its key. -/
theorem secondchain_accepted : ¬∀ (K : Keyring) (r : Draws) (fd : Fd) (config : Config) (c : Conn),
    client K r fd config = .ok c → config.insecure = false →
      Authentic K r config.servername c := by
  intro hall
  have hrun : (client (peerkeys 2) nodraws (peerfd (peerchain 2)) peerconfig).toOption.any
      fun c => c.st.version == TLS13 && (c.st.msgs.drop 3).head?.any (fun m => m.Is
        HT_CERTIFICATE_VERIFY) && heldcerts parsecertificatemsg13 (c.st.msgs.take 3) !=
          heldcerts parsecertificatemsg13 c.st.msgs := by
    decide +kernel
  cases h : client (peerkeys 2) nodraws (peerfd (peerchain 2)) peerconfig with
  | error err => simp [h, Except.toOption] at hrun
  | ok c =>
    have hauth := hall _ _ _ _ _ h rfl
    simp only [h, Except.toOption, Option.any_some, Bool.and_eq_true, beq_iff_eq, bne_iff_ne,
      ne_eq] at hrun
    obtain ⟨⟨hversion, hsigned⟩, hheld⟩ := hrun
    rw [Authentic, if_pos hversion] at hauth
    cases hmsgs : c.st.msgs.drop 3 with
    | nil => simp [hmsgs] at hsigned
    | cons m post =>
      rw [hmsgs] at hsigned
      have hsplit : c.st.msgs = c.st.msgs.take 3 ++ m :: post := by
        rw [← hmsgs, List.take_append_drop]
      exact hheld (hauth.signed _ m post hsplit (by simpa using hsigned)).1

end Infernode.Tls
