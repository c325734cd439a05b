import Infernode.Tls.Conn

/-!
# The peer's records

What an honest peer sends, record by record, and what it looks like on the wire. A cipher is
secure for the peer where it opens nothing under the peer's key but what the peer sealed.
-/

namespace Infernode.Tls

inductive Kind
  | data
  | alert
  | handshake
  deriving DecidableEq

def Kind.code : Kind → UInt8
  | .data => CT_APPLICATION_DATA
  | .alert => CT_ALERT
  | .handshake => CT_HANDSHAKE

/-- A record of the peer: the bytes, the padding of TLS 1.3, the explicit nonce of AES-GCM in
TLS 1.2, and whether it ends with a KeyUpdate, after which the peer seals with its next key. -/
structure Sent where
  kind : Kind
  body : List UInt8
  pad : ℕ
  explicit : List UInt8
  rekeys : Bool

def HT_KEY_UPDATE : UInt8 := 24

structure Sent.WF (s : Sent) : Prop where
  fits : s.body.length + s.pad ≤ MAXRECORD
  explicit : s.explicit.length = 8
  rekeys : s.rekeys = true → s.kind = .handshake ∧
    ∃ before request, s.body = before ++ [HT_KEY_UPDATE, 0, 0, 1, request]

def Sent.Closes (s : Sent) : Prop :=
  s.kind = .alert ∧ 2 ≤ s.body.length ∧ s.body[1]? = some ALERT_CLOSE_NOTIFY

structure Peer where
  version : ℕ
  suite : ℕ
  keys : ℕ → List UInt8 × List UInt8
  seq : UInt64
  sent : List Sent

structure Place where
  epoch : ℕ
  seq : UInt64
  sent : Sent

def places (version epoch : ℕ) (seq : UInt64) : List Sent → List Place
  | [] => []
  | s :: rest => ⟨epoch, seq, s⟩ ::
    if version = TLS13 ∧ s.rekeys then places version (epoch + 1) 0 rest
    else places version epoch (seq + 1) rest

def Peer.places (p : Peer) : List Place := Tls.places p.version 0 p.seq p.sent

section
variable (p : Peer) (x : Place)

def Peer.outer : UInt8 :=
  if p.version = TLS13 then CT_APPLICATION_DATA else x.sent.kind.code

def Peer.plaintext : List UInt8 :=
  if p.version = TLS13 then x.sent.body ++ x.sent.kind.code :: List.replicate x.sent.pad 0
  else x.sent.body

def Peer.explicit : List UInt8 :=
  if p.version ≠ TLS13 ∧ !isccpoly p.suite then x.sent.explicit else []

def Peer.nonce : List UInt8 :=
  if p.version ≠ TLS13 ∧ !isccpoly p.suite then (p.keys x.epoch).2.take 4 ++ x.sent.explicit
  else buildnonce (p.keys x.epoch).2 x.seq

def Peer.aad : List UInt8 :=
  if p.version = TLS13 then aad13 (p.outer x) ((p.plaintext x).length + 16)
  else aad12 x.seq (p.outer x) (p.plaintext x).length

def Peer.sealed (A : Aead) : Except Limbo.Str (List UInt8 × List UInt8) :=
  A.seal p.suite (p.keys x.epoch).1 (p.nonce x) (p.plaintext x) (p.aad x)

def Peer.frame (A : Aead) : UInt8 × List UInt8 :=
  (p.outer x, match p.sealed x A with
    | .ok (ct, tag) => p.explicit x ++ ct ++ tag
    | .error _ => [])

end

def Peer.frames (A : Aead) (p : Peer) : List (UInt8 × List UInt8) :=
  p.places.map fun x => p.frame x A

structure Secure (A : Aead) (p : Peer) : Prop where
  correct : ∀ x ∈ p.places, ∃ ct tag, p.sealed x A = .ok (ct, tag) ∧
    ct.length = (p.plaintext x).length ∧ tag.length = 16 ∧
    A.unseal p.suite (p.keys x.epoch).1 (p.nonce x) ct (p.aad x) tag = .ok (p.plaintext x)
  authentic : ∀ nonce ct aad tag plaintext,
    A.unseal p.suite (p.keys 0).1 nonce ct aad tag = .ok plaintext →
    ∃ x ∈ p.places, x.epoch = 0 ∧ nonce = p.nonce x ∧ aad = p.aad x ∧
      plaintext = p.plaintext x ∧ p.sealed x A = .ok (ct, tag)

def Steady : List (UInt8 × List UInt8) → List (Option (UInt8 × List UInt8)) → Prop
  | f :: frames, w :: ws => if w = some f then Steady frames ws else some f ∉ ws
  | _, _ => True

/-- A stream of records with data, none of them after a KeyUpdate. -/
structure Peer.Plain (p : Peer) : Prop where
  wf : ∀ s ∈ p.sent, s.WF
  data : ∀ s ∈ p.sent, s.kind = .data → s.body ≠ []
  keyed : ∀ s rest, p.version = TLS13 → s :: rest <:+ p.sent → s.rekeys = true → rest = []
  seq : p.seq.toNat + p.sent.length < 2 ^ 64

def appdata (l : List Sent) : List UInt8 :=
  l.flatMap fun s => if s.kind = .data then s.body else []

theorem put64_byte (a : UInt64) {i : ℕ} (hi : i < 8) :
    ((a >>> UInt64.ofNat (56 - i * 8)).toUInt8).toNat = a.toNat >>> (56 - i * 8) % 2 ^ 8 := by
  have hk : (56 - i * 8) % 2 ^ 64 % 64 = 56 - i * 8 := by omega
  simp only [UInt64.toNat_toUInt8, UInt64.toNat_shiftRight, UInt64.toNat_ofNat', hk]

theorem put64_injective : Function.Injective put64 := by
  intro a b h
  have hbyte : ∀ i < 8, a.toNat >>> (56 - i * 8) % 2 ^ 8 = b.toNat >>> (56 - i * 8) % 2 ^ 8 := by
    intro i hi
    have hget := congrArg (·[i]?) h
    have heq : (a >>> UInt64.ofNat (56 - i * 8)).toUInt8 =
        (b >>> UInt64.ofNat (56 - i * 8)).toUInt8 := by
      simpa [put64, hi] using hget
    rw [← put64_byte a hi, ← put64_byte b hi, heq]
  refine UInt64.toNat_inj.mp (Nat.eq_of_testBit_eq fun j => ?_)
  rcases Nat.lt_or_ge j 64 with hj | hj
  · -- the bit of a byte
    have hbit := congrArg (Nat.testBit · (j % 8)) (hbyte (7 - j / 8) (by omega))
    have hpos : 56 - (7 - j / 8) * 8 + j % 8 = j := by omega
    have hlt : j % 8 < 8 := Nat.mod_lt _ (by decide)
    simpa only [Nat.testBit_mod_two_pow, Nat.testBit_shiftRight, hpos, hlt, decide_true,
      Bool.true_and] using hbit
  · have hle : 2 ^ 64 ≤ 2 ^ j := Nat.pow_le_pow_right (by decide) hj
    rw [Nat.testBit_lt_two_pow (lt_of_lt_of_le a.toNat_lt hle),
      Nat.testBit_lt_two_pow (lt_of_lt_of_le b.toNat_lt hle)]

@[simp] theorem put64_length (v : UInt64) : (put64 v).length = 8 := by simp [put64]

theorem xor_injective (a : UInt8) : Function.Injective (a ^^^ ·) := by
  intro b c h
  have h' := congrArg (a ^^^ ·) h
  simpa [← UInt8.xor_assoc] using h'

theorem zip_xor_injective {iv a b : List UInt8} (ha : a.length = iv.length)
    (hb : b.length = iv.length)
    (h : List.zipWith (· ^^^ ·) iv a = List.zipWith (· ^^^ ·) iv b) : a = b := by
  induction iv generalizing a b with
  | nil => rw [List.length_eq_zero_iff.mp ha, List.length_eq_zero_iff.mp hb]
  | cons x iv ih =>
    match a, b with
    | y :: a, z :: b =>
      simp only [List.zipWith_cons_cons, List.cons.injEq] at h
      rw [xor_injective x h.1, ih (by simpa using ha) (by simpa using hb) h.2]

theorem buildnonce_injective {iv : List UInt8} (hiv : iv.length = 12) :
    Function.Injective (buildnonce iv) := by
  intro a b h
  have hzip := List.append_cancel_left h
  have hlen : (iv.drop 4).length = 8 := by simp [hiv]
  exact put64_injective (zip_xor_injective (by simp [hlen]) (by simp [hlen]) hzip)

theorem aad12_injective {q q' : UInt64} {t t' : UInt8} {n n' : ℕ}
    (h : aad12 q t n = aad12 q' t' n') : q = q' ∧ t = t' := by
  obtain ⟨hseq, hrest⟩ := List.append_inj h (by simp)
  exact ⟨put64_injective hseq, (List.cons.inj hrest).1⟩

theorem aad13_injective {t t' : UInt8} {n n' : ℕ} (h : aad13 t n = aad13 t' n') : t = t' :=
  (List.cons.inj h).1

theorem places_plain {version : ℕ} (l : List Sent)
    (h : ∀ s rest, version = TLS13 → s :: rest <:+ l → s.rekeys = true → rest = []) (q : UInt64) :
    places version 0 q l = l.mapIdx fun i s => ⟨0, q + UInt64.ofNat i, s⟩ := by
  induction l generalizing q with
  | nil => rfl
  | cons s l ih =>
    have ih' := ih fun s' rest hv hsuf => h s' rest hv (hsuf.trans (List.suffix_cons s l))
    rw [places, List.mapIdx_cons]
    congr 1
    · simp
    · split_ifs with hkey
      · rw [h s l hkey.1 List.suffix_rfl hkey.2]
        rfl
      · rw [ih' (q + 1)]
        congr 1
        funext i s'
        congr 1
        rw [UInt64.ofNat_add, UInt64.add_assoc, UInt64.add_comm 1]
        rfl

theorem Peer.Plain.places {p : Peer} (hp : p.Plain) :
    p.places = p.sent.mapIdx fun i s => ⟨0, p.seq + UInt64.ofNat i, s⟩ :=
  places_plain p.sent hp.keyed p.seq

theorem Peer.Plain.place {p : Peer} (hp : p.Plain) {k : ℕ} {s : Sent} (h : p.sent[k]? = some s) :
    p.places[k]? = some ⟨0, p.seq + UInt64.ofNat k, s⟩ := by
  rw [hp.places, List.getElem?_mapIdx, h]
  rfl

theorem Peer.Plain.place_of_seq {p : Peer} (hp : p.Plain) {k : ℕ} (hk : k ≤ p.sent.length)
    {x : Place} (hx : x ∈ p.places) (hseq : x.seq = p.seq + UInt64.ofNat k) :
    ∃ s, p.sent[k]? = some s ∧ x = ⟨0, p.seq + UInt64.ofNat k, s⟩ := by
  obtain ⟨i, hi⟩ := List.mem_iff_getElem?.mp hx
  rw [hp.places, List.getElem?_mapIdx, Option.map_eq_some_iff] at hi
  obtain ⟨s, hs, rfl⟩ := hi
  have hlt : i < p.sent.length := (List.getElem?_eq_some_iff.mp hs).1
  have hnat := congrArg UInt64.toNat hseq
  have hbound := hp.seq
  simp only [UInt64.toNat_add, UInt64.toNat_ofNat'] at hnat
  obtain rfl : i = k := by omega
  exact ⟨s, hs, rfl⟩

structure At (p : Peer) (k : ℕ) (cs : State) : Prop where
  version : cs.version = p.version
  suite : cs.suite = p.suite
  readkey : cs.readkey = some (p.keys 0).1
  readiv : cs.readiv = (p.keys 0).2
  ivlen : (p.keys 0).2.length = 12
  readseq : cs.readseq = p.seq + UInt64.ofNat k
  le : k ≤ p.sent.length

theorem frame_sealed {A : Aead} {p : Peer} {x : Place} {ct tag : List UInt8}
    (h : p.sealed x A = .ok (ct, tag)) : p.frame x A = (p.outer x, p.explicit x ++ ct ++ tag) := by
  rw [Peer.frame, h]

theorem take_drop_split (ct : List UInt8) {tag : List UInt8} (htag : tag.length = 16) :
    (ct ++ tag).take ((ct ++ tag).length - 16) = ct ∧
      (ct ++ tag).drop ((ct ++ tag).length - 16) = tag := by
  have hlen : (ct ++ tag).length - 16 = ct.length := by simp [htag]
  rw [hlen]
  exact ⟨List.take_left, List.drop_left⟩

theorem readparams_frame {p : Peer} {k : ℕ} {cs : State} (h : At p k cs) {s : Sent} (hs : s.WF)
    {ct tag : List UInt8} (hct : ct.length = (p.plaintext ⟨0, cs.readseq, s⟩).length)
    (htag : tag.length = 16) :
    readparams cs (p.outer ⟨0, cs.readseq, s⟩) (p.explicit ⟨0, cs.readseq, s⟩ ++ ct ++ tag) =
      .ok (ct, tag, p.nonce ⟨0, cs.readseq, s⟩, p.aad ⟨0, cs.readseq, s⟩) := by
  have hlen : (ct ++ tag).length = ct.length + 16 := by simp [htag]
  obtain ⟨htake, hdrop⟩ := take_drop_split ct htag
  simp only [readparams, h.version, h.suite, h.readiv, Peer.explicit, Peer.nonce, Peer.aad]
  by_cases hv : p.version = TLS13
  · have hge : ¬(ct ++ tag).length < 16 := by omega
    simp only [hv, ne_eq, not_true_eq_false, false_and, if_true, if_false, List.nil_append,
      if_neg hge, htake, hdrop]
    rw [hlen, hct]
  · cases hcc : isccpoly p.suite with
    | true =>
      simp [hv, hct, htag]
    | false =>
      have hge : ¬(s.explicit ++ ct ++ tag).length < 8 + 16 := by
        simp only [List.length_append, hs.explicit, htag]
        omega
      have hsub : (s.explicit ++ ct ++ tag).length - 8 - 16 = ct.length := by
        simp only [List.length_append, hs.explicit, htag]
        omega
      have hd8 : (s.explicit ++ ct ++ tag).drop 8 = ct ++ tag := by
        rw [List.append_assoc, List.drop_append_of_le_length hs.explicit.ge,
          List.drop_eq_nil_of_le hs.explicit.le, List.nil_append]
      have ht8 : (s.explicit ++ ct ++ tag).take 8 = s.explicit := by
        rw [List.append_assoc, List.take_append_of_le_length hs.explicit.ge,
          List.take_of_length_le hs.explicit.le]
      simp only [hv, if_false, ne_eq, not_false_eq_true, true_and, Bool.not_false, if_true,
        if_neg hge, hsub, hd8, ht8, List.take_left, List.drop_left]
      rw [hct]

theorem decrypt_frame {A : Aead} {p : Peer} (hs : Secure A p) (hp : p.Plain) {k : ℕ} {cs : State}
    (h : At p k cs) {s : Sent} (hk : p.sent[k]? = some s) :
    decrypt_record A cs (p.keys 0).1 (p.frame ⟨0, cs.readseq, s⟩ A).1
        (p.frame ⟨0, cs.readseq, s⟩ A).2 =
      (.ok (p.plaintext ⟨0, cs.readseq, s⟩), cs.opened) := by
  have hmem : (⟨0, cs.readseq, s⟩ : Place) ∈ p.places :=
    List.mem_of_getElem? (h.readseq ▸ hp.place hk)
  obtain ⟨ct, tag, hsealed, hct, htag, hopen⟩ := hs.correct _ hmem
  have hparams := readparams_frame h (hp.wf s (List.mem_of_getElem? hk)) hct htag
  rw [frame_sealed hsealed, decrypt_record]
  simp only [hparams, h.suite]
  rw [hopen]

theorem decrypt_ok {A : Aead} {p : Peer} (hs : Secure A p) (hp : p.Plain) {k : ℕ}
    {cs cs' : State} (h : At p k cs) {ctype : UInt8} {c plaintext : List UInt8}
    (hd : decrypt_record A cs (p.keys 0).1 ctype c = (.ok plaintext, cs')) :
    ∃ s, p.sent[k]? = some s ∧ (ctype, c) = p.frame ⟨0, cs.readseq, s⟩ A := by
  rw [decrypt_record] at hd
  split at hd
  · simp at hd
  next ct tag nonce aad hparams =>
  split at hd
  · simp at hd
  next pt hopen =>
  rw [h.suite] at hopen
  obtain ⟨x, hx, hepoch, hnonce, haad, -, hsealed⟩ := hs.authentic _ _ _ _ _ hopen
  obtain ⟨epoch, seq, s⟩ := x
  obtain rfl : epoch = 0 := hepoch
  suffices hfound : seq = cs.readseq ∧ (ctype, c) = p.frame ⟨0, seq, s⟩ A by
    obtain ⟨s', hs', heq⟩ := hp.place_of_seq h.le hx (hfound.1.trans h.readseq)
    obtain ⟨-, -, rfl⟩ := Place.mk.inj heq
    exact ⟨s, hs', hfound.1 ▸ hfound.2⟩
  rw [frame_sealed hsealed]
  simp only [Peer.nonce, Peer.aad, Peer.explicit] at hnonce haad ⊢
  simp only [readparams, h.version, h.suite, h.readiv] at hparams
  by_cases hv : p.version = TLS13
  · simp only [hv, if_true, ne_eq, not_true_eq_false, false_and, if_false, List.nil_append]
      at hparams hnonce haad ⊢
    split_ifs at hparams
    obtain ⟨rfl, rfl, rfl, rfl⟩ := by simpa only [Except.ok.injEq, Prod.mk.injEq] using hparams
    rw [aad13_injective haad, List.take_append_drop]
    exact ⟨(buildnonce_injective h.ivlen hnonce).symm, rfl⟩
  · cases hcc : isccpoly p.suite with
    | true =>
      simp only [hv, hcc, if_false, ne_eq, not_false_eq_true, true_and, Bool.not_true,
        Bool.false_eq_true, List.nil_append] at hparams hnonce haad ⊢
      split_ifs at hparams
      obtain ⟨rfl, rfl, rfl, rfl⟩ := by simpa only [Except.ok.injEq, Prod.mk.injEq] using hparams
      obtain ⟨hseq, htype⟩ := aad12_injective haad
      rw [htype, List.take_append_drop]
      exact ⟨hseq.symm, rfl⟩
    | false =>
      simp only [hv, hcc, if_false, ne_eq, not_false_eq_true, true_and, Bool.not_false,
        if_true] at hparams hnonce haad ⊢
      split_ifs at hparams
      obtain ⟨rfl, rfl, rfl, rfl⟩ := by simpa only [Except.ok.injEq, Prod.mk.injEq] using hparams
      obtain ⟨hseq, htype⟩ := aad12_injective haad
      rw [htype, ← List.append_cancel_left hnonce, List.append_assoc, List.take_append_drop,
        List.take_append_drop]
      exact ⟨hseq.symm, rfl⟩

theorem innerplaintext_frame (body : List UInt8) (kind : Kind) (pad : ℕ) :
    innerplaintext (body ++ kind.code :: List.replicate pad 0) = .ok (kind.code, body) := by
  have hcode : (kind.code == 0) = false := by cases kind <;> rfl
  have hzeros : ((List.replicate pad (0 : UInt8)).reverse ++ kind.code :: body.reverse).dropWhile
      (· == 0) = kind.code :: body.reverse := by
    rw [List.reverse_replicate, List.dropWhile_append_of_pos (by simp), List.dropWhile_cons, hcode]
    rfl
  rw [innerplaintext, List.reverse_append, List.reverse_cons, List.append_assoc]
  simp only [List.singleton_append, hzeros, List.reverse_reverse]

end Infernode.Tls
