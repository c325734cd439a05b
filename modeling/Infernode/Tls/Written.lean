import Infernode.Tls.Delivered

/-!
# Runs of a connection

No nonce is used twice under one key, and what the reads of a run give is what the peer sent.
-/

namespace Infernode.Tls

open Limbo (Str lit)

def State.writing (cs : State) :=
  (cs.writekey, cs.writeiv, cs.writeseq, cs.used, cs.version, cs.suite)

def State.reading (cs : State) :=
  (cs.fd.input, cs.readkey, cs.readiv, cs.readseq, cs.rbuf, cs.roff, cs.rlen, cs.version, cs.suite)

theorem readrecord_writing (A : Aead) (cs : State) :
    (readrecord A cs).2.writing = cs.writing := by
  rcases readrecord_state A cs with h | h <;> rw [h] <;> rfl

theorem readloop_writing (A : Aead) (n : ℕ) (cs : State) :
    (readloop A n cs).2.writing = cs.writing := by
  induction hm : cs.fd.input.length using Nat.strong_induction_on generalizing cs with
  | _ m ih =>
  subst hm
  have hrec := readrecord_writing A cs
  generalize hr : readrecord A cs = r at hrec
  obtain ⟨r, cs'⟩ := r
  match r with
  | .error err => rwa [readloop_error hr]
  | .ok (ctype, data) =>
    rw [readloop_ok hr]
    split_ifs with _ hn
    · exact hrec
    · exact hrec
    · exact hrec
    · exact hrec
    · exact (ih _ (readrecord_ok hr) cs' rfl).trans hrec
    · exact hrec

theorem read_writing (A : Aead) (n : ℕ) (cs : State) : (cs.read A n).2.writing = cs.writing := by
  rw [State.read]
  split_ifs
  · rfl
  · exact readloop_writing A n cs

def State.writenonce (cs : State) (q : UInt64) : List UInt8 :=
  if cs.version ≠ TLS13 ∧ !isccpoly cs.suite then cs.writeiv.take 4 ++ put64 q
  else buildnonce cs.writeiv q

theorem writenonce_injective {cs : State} (hiv : cs.writeiv.length = 12) :
    Function.Injective cs.writenonce := by
  intro q q' h
  simp only [State.writenonce] at h
  split_ifs at h
  · exact put64_injective (List.append_cancel_left h)
  · exact buildnonce_injective hiv h

theorem writeparams_nonce (cs : State) (ctype : UInt8) (n : ℕ) :
    (writeparams cs ctype n).2.1 = cs.writenonce cs.writeseq := by
  simp only [writeparams, State.writenonce]
  by_cases hv : cs.version = TLS13
  · simp [hv]
  · cases hcc : isccpoly cs.suite <;> simp [hv]

/-- Nothing was encrypted twice under a key and a nonce, and under the key in use only the
numbers below the next one. -/
structure Fresh (cs : State) : Prop where
  ivlen : cs.writeiv.length = 12
  nodup : cs.used.Nodup
  below : ∀ e ∈ cs.used, cs.writekey = some e.1 →
    ∃ q : UInt64, q < cs.writeseq ∧ e.2 = cs.writenonce q

theorem Fresh.congr {cs cs' : State} (h : Fresh cs) (hw : cs'.writing = cs.writing) :
    Fresh cs' := by
  simp only [State.writing, Prod.mk.injEq] at hw
  obtain ⟨hkey, hiv, hseq, hused, hv, hsuite⟩ := hw
  have hnonce : cs'.writenonce = cs.writenonce := by
    funext q
    simp only [State.writenonce, hiv, hv, hsuite]
  exact ⟨hiv ▸ h.ivlen, hused ▸ h.nodup, by rw [hused, hkey, hseq, hnonce]; exact h.below⟩

theorem encrypt_record_fresh {A : Aead} {cs : State} {key : List UInt8} (h : Fresh cs)
    (hkey : cs.writekey = some key) (ctype : UInt8) (b : List UInt8)
    (hseq : cs.writeseq.toNat + 1 < 2 ^ 64) :
    Fresh (encrypt_record A cs key ctype b).2 ∧
      (encrypt_record A cs key ctype b).2.writeseq.toNat ≤ cs.writeseq.toNat + 1 := by
  have hnonce := writeparams_nonce cs ctype b.length
  rw [encrypt_record]
  generalize writeparams cs ctype b.length = params at hnonce
  obtain ⟨explicit, nonce, aad⟩ := params
  simp only at hnonce ⊢
  split
  · exact ⟨h, by simp⟩
  next ct tag _ =>
  have hnext : (cs.writeseq + 1).toNat = cs.writeseq.toNat + 1 := by
    rw [UInt64.toNat_add]
    exact Nat.mod_eq_of_lt hseq
  refine ⟨⟨h.ivlen, ?_, ?_⟩, hnext.le⟩
  · refine List.nodup_cons.mpr ⟨fun hmem => ?_, h.nodup⟩
    -- its number would be below itself
    obtain ⟨q, hq, heq⟩ := h.below _ hmem hkey
    obtain rfl := writenonce_injective h.ivlen (hnonce.symm.trans heq)
    exact absurd (UInt64.lt_iff_toNat_lt.mp hq) (lt_irrefl _)
  · intro e he hk
    rcases List.mem_cons.mp he with rfl | he
    · exact ⟨cs.writeseq, UInt64.lt_iff_toNat_lt.mpr (by simp only [hnext]; omega), hnonce⟩
    · obtain ⟨q, hq, heq⟩ := h.below e he hk
      have hq' := UInt64.lt_iff_toNat_lt.mp hq
      exact ⟨q, UInt64.lt_iff_toNat_lt.mpr (by simp only [hnext]; omega), heq⟩

theorem encrypt_record_reading (A : Aead) (cs : State) (key : List UInt8) (ctype : UInt8)
    (b : List UInt8) : (encrypt_record A cs key ctype b).2.reading = cs.reading := by
  rw [encrypt_record]
  simp only
  split <;> rfl

theorem writerecord_spec {A : Aead} {cs : State} (h : Fresh cs) (ctype : UInt8) (data : List UInt8)
    (hseq : cs.writeseq.toNat + 1 < 2 ^ 64) :
    Fresh (writerecord A cs ctype data).2 ∧
      (writerecord A cs ctype data).2.writeseq.toNat ≤ cs.writeseq.toNat + 1 ∧
      (writerecord A cs ctype data).2.reading = cs.reading := by
  have hpay : Fresh (payload A cs ctype data).2 ∧
      (payload A cs ctype data).2.writeseq.toNat ≤ cs.writeseq.toNat + 1 ∧
      (payload A cs ctype data).2.reading = cs.reading := by
    rw [payload]
    split
    · exact ⟨h, by simp, rfl⟩
    next key hkey =>
    generalize (if cs.version = TLS13 then (CT_APPLICATION_DATA, data ++ [ctype])
      else (ctype, data)) = outer
    obtain ⟨hfresh, hle⟩ := encrypt_record_fresh (A := A) h hkey outer.1 outer.2 hseq
    have hread := encrypt_record_reading A cs key outer.1 outer.2
    simp only
    split <;> next he =>
      rw [he] at hfresh hle hread
      exact ⟨hfresh, hle, hread⟩
  rw [writerecord]
  split <;> next he =>
    rw [he] at hpay
    obtain ⟨hfresh, hle, hread⟩ := hpay
    exact ⟨hfresh.congr rfl, hle, hread⟩

def Op.records : Op → ℕ
  | .read _ => 0
  | .write buf => (buf.length + (MAXRECORD - 1)) / MAXRECORD
  | .close => 1

theorem writeloop_spec {A : Aead} (buf : List UInt8) {cs : State} (h : Fresh cs)
    (hseq : cs.writeseq.toNat + (Op.write buf).records < 2 ^ 64) :
    Fresh (writeloop A buf cs).2 ∧
      (writeloop A buf cs).2.writeseq.toNat ≤ cs.writeseq.toNat + (Op.write buf).records ∧
      (writeloop A buf cs).2.reading = cs.reading := by
  induction hm : buf.length using Nat.strong_induction_on generalizing buf cs with
  | _ m ih =>
  subst hm
  rw [writeloop]
  split_ifs with hnil
  · exact ⟨h, Nat.le_add_right _ _, rfl⟩
  have hpos : 0 < buf.length := List.length_pos_iff.mpr hnil
  have hcount : (Op.write buf).records = (Op.write (buf.drop MAXRECORD)).records + 1 := by
    simp only [Op.records, List.length_drop, MAXRECORD]
    omega
  have hone := writerecord_spec (A := A) h CT_APPLICATION_DATA (buf.take MAXRECORD) (by omega)
  generalize writerecord A cs CT_APPLICATION_DATA (buf.take MAXRECORD) = r at hone
  obtain ⟨err, cs'⟩ := r
  obtain ⟨hfresh, hle, hread⟩ := hone
  simp only at hfresh hle hread
  match err with
  | some err => exact ⟨hfresh, by simp only; omega, hread⟩
  | none =>
    have hshort : (buf.drop MAXRECORD).length < buf.length := by
      rw [List.length_drop]
      exact Nat.sub_lt hpos (by decide)
    obtain ⟨hfresh', hle', hread'⟩ := ih _ hshort (buf.drop MAXRECORD) hfresh (by omega) rfl
    exact ⟨hfresh', by simp only; omega, hread'.trans hread⟩

section
variable {A : Aead} {p : Peer} {input : List (Option UInt8)} {got : List UInt8}

def Held (A : Aead) (p : Peer) (input : List (Option UInt8)) (got : List UInt8) (cs : State) :
    Prop :=
  ∃ k, Good A p input got k cs ∨ Bad A p input got k cs

theorem Held.congr {cs cs' : State} (h : Held A p input got cs) (hr : cs'.reading = cs.reading) :
    Held A p input got cs' := by
  simp only [State.reading, Prod.mk.injEq] at hr
  obtain ⟨hin, hkey, hiv, hseq, hbuf, hoff, hlen, hv, hsuite⟩ := hr
  have hat : ∀ {k}, At p k cs → At p k cs' := fun h =>
    ⟨hv ▸ h.version, hsuite ▸ h.suite, hkey ▸ h.readkey, hiv ▸ h.readiv, h.ivlen,
      hseq ▸ h.readseq, h.le⟩
  obtain ⟨k, hgood | hbad⟩ := h
  · refine ⟨k, .inl ⟨hat hgood.place, ?_, ?_, ?_, ?_⟩⟩
    · rw [State.unread, hbuf, hoff, hlen]
      exact hgood.data
    · rw [hbuf, hoff, hlen]
      exact hgood.fits
    · rw [hin]
      exact hgood.wire
    · rw [hin]
      exact hgood.steady
  · refine ⟨k, .inr ⟨hat hbad.place, hbad.data, hlen ▸ hbad.empty, ?_, ?_⟩⟩
    · rw [hin]
      exact hbad.wire
    · rw [hin]
      exact hbad.gone

theorem Answer.held {n : ℕ} {r : Option (List UInt8)} {cs : State}
    (h : Answer A p input got n r cs) : Held A p input (got ++ r.getD []) cs := by
  cases h with
  | data hgood _ => exact ⟨_, .inl hgood⟩
  | closed hgood _ _ | alert hgood _ _ _ | ended hgood _ => exact ⟨_, .inl (by simpa using hgood)⟩
  | bad hbad => exact ⟨_, .inr (by simpa using hbad)⟩

theorem Held.read (hs : Secure A p) (hp : p.Plain) {cs : State} (h : Held A p input got cs)
    (n : ℕ) : Held A p input (got ++ (cs.read A n).1.getD []) (cs.read A n).2 := by
  obtain ⟨k, hgood | hbad⟩ := h
  · exact (read_answer hs hp n hgood).held
  · obtain ⟨hnone, hbad'⟩ := read_bad hs hp n hbad
    exact ⟨k, .inr (by rwa [hnone, Option.getD_none, List.append_nil])⟩

theorem step_held (hs : Secure A p) (hp : p.Plain) {c : Conn} (hfresh : Fresh c.st)
    (h : Held A p input got c.st) (op : Op)
    (hseq : c.st.writeseq.toNat + op.records < 2 ^ 64) :
    Fresh (c.step A op).2.st ∧
      (c.step A op).2.st.writeseq.toNat ≤ c.st.writeseq.toNat + op.records ∧
      Held A p input (got ++ (c.step A op).1) (c.step A op).2.st := by
  cases op with
  | read n =>
    simp only [Conn.step, Conn.read]
    split_ifs
    · exact ⟨hfresh, Nat.le_add_right _ _, by simpa using h⟩
    · have hw := read_writing A n c.st
      refine ⟨hfresh.congr hw, ?_, h.read hs hp n⟩
      simp only [State.writing, Prod.mk.injEq] at hw
      rw [hw.2.2.1]
      exact Nat.le_add_right _ _
  | write buf =>
    simp only [Conn.step, Conn.write]
    split_ifs
    · exact ⟨hfresh, Nat.le_add_right _ _, by simpa using h⟩
    · obtain ⟨hfresh', hle, hr⟩ := writeloop_spec (A := A) buf hfresh hseq
      exact ⟨hfresh', hle, by simpa using h.congr hr⟩
    · obtain ⟨hfresh', hle, hr⟩ := writeloop_spec (A := A) buf hfresh hseq
      exact ⟨hfresh', hle, by simpa using h.congr hr⟩
  | close =>
    simp only [Conn.step, Conn.close]
    split_ifs
    · exact ⟨hfresh, Nat.le_add_right _ _, by simpa using h⟩
    · obtain ⟨hfresh', hle, hr⟩ := writerecord_spec (A := A) hfresh CT_ALERT
        [ALERT_WARNING, ALERT_CLOSE_NOTIFY] hseq
      exact ⟨hfresh', hle, by simpa using h.congr hr⟩

def records (ops : List Op) : ℕ := (ops.map Op.records).sum

theorem run_held (hs : Secure A p) (hp : p.Plain) (ops : List Op) {c : Conn}
    (hfresh : Fresh c.st) (h : Held A p input got c.st)
    (hseq : c.st.writeseq.toNat + records ops < 2 ^ 64) :
    Fresh (c.run A ops).2.st ∧ Held A p input (got ++ (c.run A ops).1) (c.run A ops).2.st := by
  induction ops generalizing c got with
  | nil => exact ⟨hfresh, by simpa [Conn.run] using h⟩
  | cons op ops ih =>
    simp only [records, List.map_cons, List.sum_cons] at hseq ih
    obtain ⟨hfresh', hle, h'⟩ := step_held hs hp hfresh h op (by omega)
    obtain ⟨hfresh'', h''⟩ := ih hfresh' h' (by omega)
    rw [List.append_assoc] at h''
    exact ⟨hfresh'', h''⟩

end

end Infernode.Tls
