import Infernode.Tls.Written

/-!
# A connection delivers its peer's stream

In every run of a connection whose peer sends a plain stream, where after a record that is not
the peer's next its next does not come.
-/

namespace Infernode.Tls

open Limbo (Str lit)

section
variable {A : Aead} {p : Peer} {input : List (Option UInt8)} {got : List UInt8} {k : ℕ}
  {cs : State}

def taken (input : List (Option UInt8)) (cs : State) : List (Option (UInt8 × List UInt8)) :=
  (rawrecords input).take ((rawrecords input).length - (rawrecords cs.fd.input).length)

theorem taken_eq {l : List (Option (UInt8 × List UInt8))}
    (h : rawrecords input = l ++ rawrecords cs.fd.input) : taken input cs = l := by
  have hlen : (rawrecords input).length - (rawrecords cs.fd.input).length = l.length := by
    rw [h, List.length_append]
    omega
  rw [taken, hlen, h, List.take_left]

theorem Good.taken (h : Good A p input got k cs) :
    taken input cs = ((p.frames A).take k).map some := taken_eq h.wire

theorem frames_length (hp : p.Plain) : (p.frames A).length = p.sent.length := by
  rw [Peer.frames, List.length_map, hp.places, List.length_mapIdx]

theorem Bad.taken (hp : p.Plain) (h : Bad A p input got k cs) :
    ((p.frames A).take k).map some <+: taken input cs ∧
      ¬taken input cs <+: (p.frames A).map some := by
  obtain ⟨w, ws, hwire, hw⟩ := h.wire
  rw [taken_eq hwire]
  refine ⟨List.prefix_append _ _, fun ⟨rest, hrest⟩ => ?_⟩
  have hlen : (((p.frames A).take k).map some).length = k := by
    rw [List.length_map, List.length_take, frames_length hp]
    exact min_eq_left h.place.le
  have hget := congrArg (·[k]?) hrest
  simp only [List.append_assoc, List.cons_append] at hget
  rw [List.getElem?_append_right hlen.le, hlen, Nat.sub_self, List.getElem?_cons_zero,
    List.getElem?_map] at hget
  cases hf : (p.frames A)[k]? with
  | none => simp [hf] at hget
  | some f =>
    rw [hf] at hget
    exact hw f hf (Option.some.inj hget)

structure Established (p : Peer) (c : Conn) : Prop where
  place : At p 0 c.st
  fresh : Fresh c.st
  empty : c.st.rlen = 0
  fits : c.st.roff ≤ c.st.rbuf.length

/-- What a read of more than no bytes gives, by the records that have been taken. -/
structure Delivers (A : Aead) (p : Peer) (input : List (Option UInt8))
    (r : Option (List UInt8) × Conn) : Prop where
  closes : r.1 = some [] → ∃ k s, taken input r.2.st = ((p.frames A).take (k + 1)).map some ∧
    p.sent[k]? = some s ∧ s.Closes
  refuses : ¬taken input r.2.st <+: (p.frames A).map some → r.1 = none
  answers : taken input r.2.st <+: (p.frames A).map some → r.1 = none →
    r.2.st.fd.input = [] ∨
      ∃ k s, taken input r.2.st = ((p.frames A).take (k + 1)).map some ∧
        p.sent[k]? = some s ∧ s.kind = .alert ∧ ¬s.Closes

theorem Answer.delivers (hp : p.Plain) {n : ℕ} (hn : 0 < n) {r : Option (List UInt8)} {c : Conn}
    (h : Answer A p input got n r c.st) : Delivers A p input (r, c) := by
  have hlead : ∀ {k : ℕ} {cs : State} {got : List UInt8}, Good A p input got k cs →
      Tls.taken input cs <+: (p.frames A).map some := fun h => by
    rw [h.taken]
    exact (List.take_prefix _ _).map some
  cases h with
  | data hgood hbs =>
    exact ⟨fun h => absurd (hbs (Option.some.inj h)) hn.ne', fun h => absurd (hlead hgood) h,
      fun _ h => by simp at h⟩
  | closed hgood hs hc =>
    exact ⟨fun _ => ⟨_, _, hgood.taken, hs, hc⟩, fun h => absurd (hlead hgood) h,
      fun _ h => by simp at h⟩
  | alert hgood hs hkind hc =>
    exact ⟨fun h => by simp at h, fun _ => rfl,
      fun _ _ => .inr ⟨_, _, hgood.taken, hs, hkind, hc⟩⟩
  | ended _ hnil => exact ⟨fun h => by simp at h, fun _ => rfl, fun _ _ => .inl hnil⟩
  | bad hbad =>
    exact ⟨fun h => by simp at h, fun _ => rfl, fun h => absurd h (hbad.taken hp).2⟩

theorem Held.delivers (hs : Secure A p) (hp : p.Plain) {c : Conn} (h : Held A p input got c.st)
    (hopen : c.closed = false) {n : ℕ} (hn : 0 < n) : Delivers A p input (c.read A n) := by
  have hread : c.read A n = ((c.st.read A n).1, ⟨(c.st.read A n).2, c.closed⟩) := by
    rw [Conn.read, hopen]
    rfl
  rw [hread]
  obtain ⟨k, hgood | hbad⟩ := h
  · exact Answer.delivers hp hn (read_answer hs hp n hgood)
  · obtain ⟨hnone, hbad'⟩ := read_bad hs hp n hbad
    rw [hnone]
    exact Answer.delivers hp hn (.bad (n := n) hbad')

theorem Held.lossless (hp : p.Plain) (h : Held A p input got cs) :
    ∃ k, got ++ cs.unread = appdata (p.sent.take k) ∧
      ((p.frames A).take k).map some <+: taken input cs ∧
      (taken input cs <+: (p.frames A).map some →
        taken input cs = ((p.frames A).take k).map some) := by
  obtain ⟨k, hgood | hbad⟩ := h
  · exact ⟨k, hgood.data, hgood.taken ▸ List.prefix_rfl, fun _ => hgood.taken⟩
  · obtain ⟨hpre, hnot⟩ := hbad.taken hp
    refine ⟨k, ?_, hpre, fun h => absurd h hnot⟩
    rw [unread_empty hbad.empty, List.append_nil]
    exact hbad.data

theorem appdata_take (l : List Sent) (k : ℕ) : appdata (l.take k) <+: appdata l :=
  ⟨appdata (l.drop k), by rw [appdata, appdata, appdata, ← List.flatMap_append,
    List.take_append_drop]⟩

end

theorem conn_delivers {A : Aead} {p : Peer} {c : Conn} (hs : Secure A p) (hp : p.Plain)
    (hc : Established p c) (hw : Steady (p.frames A) (rawrecords c.st.fd.input)) (ops : List Op)
    (hseq : c.st.writeseq.toNat + records ops < 2 ^ 64) :
    (c.run A ops).2.st.used.Nodup ∧
      (c.run A ops).1 <+: appdata p.sent ∧
      (∃ k, (c.run A ops).1 ++ (c.run A ops).2.st.unread = appdata (p.sent.take k) ∧
        ((p.frames A).take k).map some <+: taken c.st.fd.input (c.run A ops).2.st ∧
        (taken c.st.fd.input (c.run A ops).2.st <+: (p.frames A).map some →
          taken c.st.fd.input (c.run A ops).2.st = ((p.frames A).take k).map some)) ∧
      ∀ n, 0 < n → (c.run A ops).2.closed = false →
        Delivers A p c.st.fd.input ((c.run A ops).2.read A n) := by
  have hstart : Held A p c.st.fd.input [] c.st :=
    ⟨0, .inl ⟨hc.place, by simp [unread_empty hc.empty, appdata], by rw [hc.empty]; exact hc.fits,
      by simp, by simpa using hw⟩⟩
  obtain ⟨hfresh, hheld⟩ := run_held hs hp ops hc.fresh hstart hseq
  rw [List.nil_append] at hheld
  have hless := hheld.lossless hp
  refine ⟨hfresh.nodup, ?_, hless, fun n hn hopen => hheld.delivers hs hp hopen hn⟩
  obtain ⟨k, hdata, -⟩ := hless
  have hpre : (c.run A ops).1 <+: appdata (p.sent.take k) := ⟨_, hdata⟩
  exact hpre.trans (appdata_take _ _)

theorem none_length (ct _aad _tag _key _nonce : List UInt8) :
    ∀ dat ∈ (none : Option (List UInt8)), dat.length = ct.length := by simp

def tablecipher (p : Peer) : Aead where
  aesgcmsetup _ _ := true
  aesgcmencrypt _ _ dat _ := some (dat, List.replicate 16 0)
  aesgcmdecrypt key nonce ct aad tag :=
    if p.places.any fun x => decide ((p.keys x.epoch).1 = key ∧ p.nonce x = nonce ∧
      p.plaintext x = ct ∧ p.aad x = aad ∧ tag = List.replicate 16 0) then some ct else none
  ccpolyencrypt _ _ _ _ := none
  ccpolydecrypt _ _ _ _ _ := none
  aesgcm_length key nonce ct aad tag dat h := by
    split_ifs at h
    · rw [Option.mem_some_iff.mp h]
    · simp at h
  ccpoly_length := none_length

theorem tablecipher_secure {p : Peer} (hgcm : isccpoly p.suite = false)
    (hkeys : ∀ x ∈ p.places, (p.keys x.epoch).1 = (p.keys 0).1 → x.epoch = 0) :
    Secure (tablecipher p) p where
  correct x hx := by
    refine ⟨p.plaintext x, List.replicate 16 0, ?_, rfl, List.length_replicate, ?_⟩
    · simp [Peer.sealed, Aead.seal, hgcm, tablecipher]
    · have hany : (p.places.any fun y => decide ((p.keys y.epoch).1 = (p.keys x.epoch).1 ∧
          p.nonce y = p.nonce x ∧ p.plaintext y = p.plaintext x ∧ p.aad y = p.aad x ∧
          List.replicate 16 (0 : UInt8) = List.replicate 16 0)) = true :=
        List.any_eq_true.mpr ⟨x, hx, by simp⟩
      simp only [Aead.unseal, hgcm, tablecipher, Bool.false_eq_true, if_false, Bool.not_true]
      rw [if_pos (by simpa using hany)]
      rfl
  authentic nonce ct aad tag plaintext h := by
    simp only [Aead.unseal, hgcm, tablecipher, Bool.false_eq_true, if_false, Bool.not_true] at h
    split_ifs at h with hany
    · obtain rfl : ct = plaintext := by simpa using h
      obtain ⟨x, hx, heq⟩ := List.any_eq_true.mp hany
      obtain ⟨hkey, hnonce, hplain, haad, htag⟩ := of_decide_eq_true heq
      refine ⟨x, hx, hkeys x hx hkey, hnonce.symm, haad.symm, hplain.symm, ?_⟩
      simp [Peer.sealed, Aead.seal, hgcm, tablecipher, hplain, htag]
    · simp at h

def plainpeer (sent : List Sent) : Peer :=
  ⟨TLS13, 0x1301, fun e => ([UInt8.ofNat (e + 1)], List.replicate 12 0), 0, sent⟩

def onwire (f : UInt8 × List UInt8) : List (Option UInt8) :=
  (f.1 :: (put16 RECVERSION ++ put16 f.2.length ++ f.2)).map some

theorem get16_put16 {n : ℕ} (h : n < 256 * 256) :
    get16 (UInt8.ofNat (n / 256)) (UInt8.ofNat n) = n := by
  simp only [get16, UInt8.toNat_ofNat']
  omega

theorem rawrecord_onwire {f : UInt8 × List UInt8} (h : f.2.length ≤ MAXFRAGMENT)
    (rest : List (Option UInt8)) : rawrecord (onwire f ++ rest) = (.ok f, rest) := by
  have hlt : f.2.length < 256 * 256 := lt_of_le_of_lt h (by decide)
  have hhead : ensure 5 (onwire f ++ rest) =
      (some (f.1 :: (put16 RECVERSION ++ put16 f.2.length)), f.2.map some ++ rest) := by
    simp [onwire, put16, ensure]
  rw [rawrecord, hhead]
  simp only [put16, List.cons_append, List.nil_append]
  rw [get16_put16 hlt, if_neg (by omega), ensure_append]

theorem rawrecords_onwire {l : List (UInt8 × List UInt8)} (h : ∀ f ∈ l, f.2.length ≤ MAXFRAGMENT) :
    rawrecords (l.flatMap onwire) = l.map some := by
  induction l with
  | nil => rw [List.flatMap_nil, rawrecords, dif_pos rfl, List.map_nil]
  | cons f l ih =>
    rw [List.flatMap_cons, rawrecords_cons (by simp [onwire]),
      rawrecord_onwire (h f List.mem_cons_self), ih fun g hg => h g (List.mem_cons_of_mem _ hg)]
    rfl

theorem steady_self (l : List (UInt8 × List UInt8)) : Steady l (l.map some) := by
  induction l with
  | nil => trivial
  | cons f l ih => rwa [List.map_cons, Steady, if_pos rfl]

def honest (p : Peer) : Conn where
  closed := false
  st :=
    { fd := ⟨(p.frames (tablecipher p)).flatMap onwire, [], fun _ => true⟩, version := p.version,
      suite := p.suite, group := 0x001D, writekey := some [0], writeiv := List.replicate 12 0,
      readkey := some (p.keys 0).1, readiv := (p.keys 0).2, writeseq := 0, readseq := p.seq,
      rbuf := [], roff := 0, rlen := 0, tr256 := [], tr384 := [], cts := [], sts := [],
      servername := [], insecure := false, hsencrypted := true, hsbuf := none, hsoff := 0,
      eph_p384_priv := none, eph_mlkem_sk := none, eph_mlkem768_sk := none,
      eph_p256_priv := none, used := [], msgs := [] }

theorem honest_established {p : Peer} (hiv : (p.keys 0).2.length = 12) :
    Established p (honest p) where
  place := ⟨rfl, rfl, rfl, rfl, hiv, by simp [honest], Nat.zero_le _⟩
  fresh := ⟨List.length_replicate, List.nodup_nil, fun _ h => absurd h List.not_mem_nil⟩
  empty := rfl
  fits := le_rfl

theorem plainpeer_wf {s : Sent} (hs : s.WF) (hdata : s.kind = .data → s.body ≠ []) :
    (plainpeer [s]).Plain where
  wf s' h := by
    obtain rfl := List.mem_singleton.mp h
    exact hs
  data s' h := by
    obtain rfl := List.mem_singleton.mp h
    exact hdata
  keyed s' rest _ h _ := by
    have hlen := h.length_le
    simp only [plainpeer, List.length_cons, List.length_nil] at hlen
    exact List.length_eq_zero_iff.mp (by omega)
  seq := by simp [plainpeer]

def onebyte : Peer := plainpeer [⟨.data, [120], 0, List.replicate 8 0, false⟩]

def emptyrecord : Peer := plainpeer [⟨.data, [], 0, List.replicate 8 0, false⟩]

theorem conn_delivers_onebyte :
    ((honest onebyte).run (tablecipher onebyte) [.read 1]).2.st.used.Nodup ∧
      ((honest onebyte).run (tablecipher onebyte) [.read 1]).1 <+: [120] := by
  have hplain : onebyte.Plain := plainpeer_wf ⟨by decide, rfl, by simp⟩ (by decide)
  have hsecure : Secure (tablecipher onebyte) onebyte :=
    tablecipher_secure rfl fun x hx _ => by
      obtain rfl := List.mem_singleton.mp hx
      rfl
  have hsteady : Steady (onebyte.frames (tablecipher onebyte))
      (rawrecords (honest onebyte).st.fd.input) := by
    rw [show rawrecords (honest onebyte).st.fd.input = _ from rawrecords_onwire (by decide)]
    exact steady_self _
  obtain ⟨hnodup, hlead, -⟩ := conn_delivers hsecure hplain (honest_established rfl) hsteady
    [.read 1] (by decide)
  exact ⟨hnodup, hlead⟩

/-- A read gives nothing although the peer's stream goes on. -/
theorem emptyrecord_read : ¬∀ (A : Aead) (p : Peer) (c : Conn) (n : ℕ), Secure A p →
    (∀ s ∈ p.sent, s.WF) → Established p c → 0 < n → (c.read A n).1 = some [] →
    ∃ s ∈ p.sent, s.Closes := by
  intro h
  have hsecure : Secure (tablecipher emptyrecord) emptyrecord :=
    tablecipher_secure rfl fun x hx _ => by
      obtain rfl := List.mem_singleton.mp hx
      rfl
  have hwf : ∀ s ∈ emptyrecord.sent, s.WF := fun s hs => by
    obtain rfl := List.mem_singleton.mp hs
    exact ⟨by decide, rfl, by simp⟩
  have hread : ((honest emptyrecord).read (tablecipher emptyrecord) 1).1 = some [] := by
    have hrec : readrecord (tablecipher emptyrecord) (honest emptyrecord).st =
        (.ok (CT_APPLICATION_DATA, []),
          (readrecord (tablecipher emptyrecord) (honest emptyrecord).st).2) :=
      Prod.ext (by rfl) rfl
    have hloop := readloop_ok (n := 1) hrec
    rw [Conn.read, State.read]
    exact congrArg Prod.fst hloop
  obtain ⟨s, hs, hkind, -⟩ := h _ _ _ 1 hsecure hwf (honest_established rfl) (by decide) hread
  obtain rfl := List.mem_singleton.mp hs
  exact absurd hkind (by decide)

end Infernode.Tls
