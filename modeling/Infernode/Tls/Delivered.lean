import Infernode.Tls.Stream

/-!
# What a connection delivers

Reads of a connection whose peer sends a plain stream: as long as the records that come are the
peer's next ones its bytes come out, and after another record nothing does.
-/

namespace Infernode.Tls

open Limbo (Str lit)

section
variable {A : Aead} {p : Peer} {k : ℕ} {cs cs' : State}

theorem At.setinput (h : At p k cs) (input : List (Option UInt8)) : At p k (cs.setinput input) :=
  ⟨h.version, h.suite, h.readkey, h.readiv, h.ivlen, h.readseq, h.le⟩

theorem At.keep (h : At p k cs) (data : List UInt8) (n : ℕ) : At p k (cs.keep data n) :=
  ⟨h.version, h.suite, h.readkey, h.readiv, h.ivlen, h.readseq, h.le⟩

theorem frame_at (hp : p.Plain) (h : At p k cs) {s : Sent} (hk : p.sent[k]? = some s) :
    (p.frames A)[k]? = some (p.frame ⟨0, cs.readseq, s⟩ A) := by
  rw [Peer.frames, List.getElem?_map, hp.place hk, h.readseq]
  rfl

theorem sent_of_frame (hp : p.Plain) (h : At p k cs) {f : UInt8 × List UInt8}
    (hf : (p.frames A)[k]? = some f) :
    ∃ s, p.sent[k]? = some s ∧ f = p.frame ⟨0, cs.readseq, s⟩ A := by
  rw [Peer.frames, List.getElem?_map, hp.places, List.getElem?_mapIdx, Option.map_map,
    Option.map_eq_some_iff] at hf
  obtain ⟨s, hs, rfl⟩ := hf
  exact ⟨s, hs, by rw [h.readseq]; rfl⟩

theorem outer_ne (x : Place) : p.outer x ≠ CT_CHANGE_CIPHER_SPEC := by
  rw [Peer.outer]
  split_ifs
  · decide
  · cases x.sent.kind <;> decide

theorem readrecord_next (hs : Secure A p) (hp : p.Plain) (h : At p k cs) {s : Sent}
    (hk : p.sent[k]? = some s) {rest : List (Option UInt8)}
    (hraw : rawrecord cs.fd.input = (.ok (p.frame ⟨0, cs.readseq, s⟩ A), rest)) :
    readrecord A cs = (.ok (s.kind.code, s.body), (cs.setinput rest).opened) := by
  have hd := decrypt_frame hs hp (h.setinput rest) hk
  have houter : (p.frame ⟨0, cs.readseq, s⟩ A).1 ≠ CT_CHANGE_CIPHER_SPEC := outer_ne _
  have hkey : (cs.setinput rest).readkey = some (p.keys 0).1 := h.readkey
  rw [show (cs.setinput rest).readseq = cs.readseq from rfl] at hd
  simp only [readrecord, hraw, if_neg houter, hkey, hd]
  simp only [show (cs.setinput rest).opened.version = p.version from h.version, Peer.plaintext]
  split_ifs with hv
  · rw [innerplaintext_frame]
  · simp [Peer.frame, Peer.outer, hv]

theorem readrecord_other (hs : Secure A p) (hp : p.Plain) (h : At p k cs)
    {raw : Except Str (UInt8 × List UInt8)} {rest : List (Option UInt8)}
    (hraw : rawrecord cs.fd.input = (raw, rest))
    (hne : ∀ f, (p.frames A)[k]? = some f → raw.toOption ≠ some f) :
    (∃ err, readrecord A cs = (.error err, cs.setinput rest)) ∨
      ∃ data, readrecord A cs = (.ok (CT_CHANGE_CIPHER_SPEC, data), cs.setinput rest) := by
  simp only [readrecord, hraw]
  cases raw with
  | error err => exact .inl ⟨err, rfl⟩
  | ok frame =>
    obtain ⟨ctype, payload⟩ := frame
    simp only
    by_cases hccs : ctype = CT_CHANGE_CIPHER_SPEC
    · exact .inr ⟨payload, by rw [if_pos hccs, hccs]⟩
    have hkey : (cs.setinput rest).readkey = some (p.keys 0).1 := h.readkey
    have hset := h.setinput rest
    simp only [if_neg hccs, hkey]
    split
    · next err cs' hd =>
      have hcs : cs' = cs.setinput rest := by
        rw [decrypt_record] at hd
        split at hd
        · exact (Prod.mk.inj hd).2.symm
        · split at hd
          · exact (Prod.mk.inj hd).2.symm
          · simp at hd
      exact .inl ⟨err, by rw [hcs]⟩
    · next plaintext cs' hd =>
      -- only the record of the place opens
      obtain ⟨s, hk, hframe⟩ := decrypt_ok hs hp hset hd
      exact absurd (by rw [hframe]; rfl) (hne _ (frame_at hp h hk))

theorem readloop_error {n : ℕ} {err : Str} (h : readrecord A cs = (.error err, cs')) :
    readloop A n cs = (none, cs') := by
  rw [readloop]
  split <;> next h' =>
    rw [h] at h'
    simp_all

theorem readloop_ok {n : ℕ} {ctype : UInt8} {data : List UInt8}
    (h : readrecord A cs = (.ok (ctype, data), cs')) : readloop A n cs =
      if ctype = CT_APPLICATION_DATA then
        (some (data.take n), if n < data.length then cs'.keep data n else cs')
      else if ctype = CT_ALERT then
        (if 2 ≤ data.length ∧ data[1]? = some ALERT_CLOSE_NOTIFY then some [] else none, cs')
      else if ctype = CT_HANDSHAKE then readloop A n cs'
      else (none, cs') := by
  rw [readloop]
  split
  · next h' =>
    rw [h] at h'
    simp at h'
  · next h' =>
    rw [h] at h'
    obtain ⟨⟨rfl, rfl⟩, rfl⟩ := by simpa only [Prod.mk.injEq, Except.ok.injEq] using h'
    rfl

def State.unread (cs : State) : List UInt8 := (cs.rbuf.drop cs.roff).take cs.rlen

structure Good (A : Aead) (p : Peer) (input : List (Option UInt8)) (got : List UInt8) (k : ℕ)
    (cs : State) : Prop where
  place : At p k cs
  data : got ++ cs.unread = appdata (p.sent.take k)
  fits : cs.roff + cs.rlen ≤ cs.rbuf.length
  wire : rawrecords input = ((p.frames A).take k).map some ++ rawrecords cs.fd.input
  steady : Steady ((p.frames A).drop k) (rawrecords cs.fd.input)

structure Bad (A : Aead) (p : Peer) (input : List (Option UInt8)) (got : List UInt8) (k : ℕ)
    (cs : State) : Prop where
  place : At p k cs
  data : got = appdata (p.sent.take k)
  empty : cs.rlen = 0
  wire : ∃ w ws, rawrecords input = ((p.frames A).take k).map some ++ w :: ws ++
    rawrecords cs.fd.input ∧ ∀ f, (p.frames A)[k]? = some f → w ≠ some f
  gone : ∀ f, (p.frames A)[k]? = some f → some f ∉ rawrecords cs.fd.input

inductive Answer (A : Aead) (p : Peer) (input : List (Option UInt8)) (got : List UInt8) (n : ℕ) :
    Option (List UInt8) → State → Prop
  | data {k : ℕ} {bs : List UInt8} {cs : State} : Good A p input (got ++ bs) k cs →
      (bs = [] → n = 0) → Answer A p input got n (some bs) cs
  | closed {k : ℕ} {s : Sent} {cs : State} : Good A p input got (k + 1) cs →
      p.sent[k]? = some s → s.Closes → Answer A p input got n (some []) cs
  | alert {k : ℕ} {s : Sent} {cs : State} : Good A p input got (k + 1) cs →
      p.sent[k]? = some s → s.kind = .alert → ¬s.Closes → Answer A p input got n none cs
  | ended {k : ℕ} {cs : State} : Good A p input got k cs → cs.fd.input = [] →
      Answer A p input got n none cs
  | bad {k : ℕ} {cs : State} : Bad A p input got k cs → Answer A p input got n none cs

variable {input : List (Option UInt8)} {got : List UInt8}

theorem Good.next (hp : p.Plain) (h : Good A p input got k cs) {s : Sent}
    (hk : p.sent[k]? = some s) {rest : List (Option UInt8)}
    (hws : rawrecords cs.fd.input = some (p.frame ⟨0, cs.readseq, s⟩ A) :: rawrecords rest)
    (hin : cs'.fd.input = rest) (hat : At p (k + 1) cs') (hfits : cs'.roff + cs'.rlen ≤
      cs'.rbuf.length) {g : List UInt8}
    (hdata : g ++ cs'.unread = got ++ cs.unread ++ if s.kind = .data then s.body else []) :
    Good A p input g (k + 1) cs' := by
  have hf := frame_at (A := A) hp h.place hk
  have hlt := (List.getElem?_eq_some_iff.mp hk).1
  have hdrop : (p.frames A).drop k =
      p.frame ⟨0, cs.readseq, s⟩ A :: (p.frames A).drop (k + 1) := by
    obtain ⟨hlen, he⟩ := List.getElem?_eq_some_iff.mp hf
    rw [← he, List.drop_eq_getElem_cons hlen]
  refine ⟨hat, ?_, hfits, ?_, ?_⟩
  · rw [hdata, h.data, appdata, appdata, List.take_add_one, hk, List.flatMap_append]
    simp
  · rw [h.wire, hws, hin, List.take_add_one, hf]
    simp
  · have hsteady := h.steady
    rw [hdrop, hws, Steady, if_pos rfl] at hsteady
    rwa [hin]

theorem Good.bad (h : Good A p input got k cs) (hempty : cs.rlen = 0)
    {raw : Option (UInt8 × List UInt8)} {rest : List (Option UInt8)}
    (hws : rawrecords cs.fd.input = raw :: rawrecords rest)
    (hne : ∀ f, (p.frames A)[k]? = some f → raw ≠ some f) :
    Bad A p input got k (cs.setinput rest) := by
  refine ⟨h.place.setinput rest, ?_, hempty, ⟨raw, [], ?_, hne⟩, ?_⟩
  · have hdata := h.data
    rwa [State.unread, hempty, List.take_zero, List.append_nil] at hdata
  · rw [h.wire, hws]
    simp [State.setinput]
  · intro f hf
    have hsteady := h.steady
    obtain ⟨hlen, he⟩ := List.getElem?_eq_some_iff.mp hf
    rw [List.drop_eq_getElem_cons hlen, he, hws, Steady, if_neg (hne f hf)] at hsteady
    exact hsteady

theorem rawrecords_cons {l : List (Option UInt8)} (h : l ≠ []) :
    rawrecords l = (rawrecord l).1.toOption :: rawrecords (rawrecord l).2 := by
  rw [rawrecords, dif_neg h]

theorem At.next (h : At p k cs) {s : Sent} (hk : p.sent[k]? = some s)
    (rest : List (Option UInt8)) :
    At p (k + 1) (cs.setinput rest).opened := by
  have hlt := (List.getElem?_eq_some_iff.mp hk).1
  refine ⟨h.version, h.suite, h.readkey, h.readiv, h.ivlen, ?_, hlt⟩
  simp only [State.opened, State.setinput, h.readseq, UInt64.ofNat_add, UInt64.add_assoc]
  rfl

theorem unread_empty (h : cs.rlen = 0) : cs.unread = [] := by
  rw [State.unread, h, List.take_zero]

theorem readloop_answer (hs : Secure A p) (hp : p.Plain) (n : ℕ) (h : Good A p input got k cs)
    (hempty : cs.rlen = 0) :
    Answer A p input got n (readloop A n cs).1 (readloop A n cs).2 := by
  induction hm : cs.fd.input.length using Nat.strong_induction_on generalizing cs k with
  | _ m ih =>
  subst hm
  by_cases hnil : cs.fd.input = []
  · have hraw : rawrecord cs.fd.input = (.error (lit "tls: record read failed"), []) := by
      rw [hnil]
      rfl
    have hset : cs.setinput [] = cs := by rw [← hnil]; rfl
    have herr : readrecord A cs = (.error (lit "tls: record read failed"), cs) := by
      simp only [readrecord, hraw, hset]
    rw [readloop_error herr]
    exact .ended h hnil
  have hws := rawrecords_cons hnil
  have hshort := rawrecord_next _ hnil
  generalize hraw : rawrecord cs.fd.input = r at hws hshort
  obtain ⟨raw, rest⟩ := r
  simp only at hws hshort
  by_cases hgood : ∃ f, (p.frames A)[k]? = some f ∧ raw.toOption = some f
  · obtain ⟨f, hf, hr⟩ := hgood
    obtain ⟨s, hk, rfl⟩ := sent_of_frame hp h.place hf
    obtain rfl : raw = .ok (p.frame ⟨0, cs.readseq, s⟩ A) := by
      cases raw with
      | error err => simp [Except.toOption] at hr
      | ok f => rw [Option.some.inj hr]
    have hread := readrecord_next hs hp h.place hk hraw
    have hat := h.place.next hk rest
    have hwf := hp.wf s (List.mem_of_getElem? hk)
    have hunread := unread_empty hempty
    rw [readloop_ok hread]
    cases hkind : s.kind with
    | data =>
      have hne := hp.data s (List.mem_of_getElem? hk) hkind
      rw [if_pos (by rfl)]
      refine .data (k := k + 1) ?_ fun hbs => ?_
      · split_ifs with hn
        · refine h.next hp hk hws rfl (hat.keep s.body n) ?_ ?_
          · simp only [State.keep]
            omega
          · simp [State.unread, State.keep, State.opened, State.setinput, hkind, hempty,
              List.take_of_length_le]
        · refine h.next hp hk hws rfl hat h.fits ?_
          have hall : s.body.take n = s.body := List.take_of_length_le (by omega)
          have hsame : (cs.setinput rest).opened.unread = cs.unread := rfl
          rw [hall, hsame, hunread, if_pos hkind, List.append_nil, List.append_nil]
      · rcases List.take_eq_nil_iff.mp hbs with hn | hb
        · exact hn
        · exact absurd hb hne
    | alert =>
      have hnext := h.next (g := got) hp hk hws rfl hat h.fits (by simp [hkind]; rfl)
      rw [if_neg (by decide), if_pos (by rfl)]
      split_ifs with hclose
      · exact .closed hnext hk ⟨hkind, hclose⟩
      · exact .alert hnext hk hkind fun hc => hclose hc.2
    | handshake =>
      have hnext := h.next (g := got) hp hk hws rfl hat h.fits (by simp [hkind]; rfl)
      rw [if_neg (by decide), if_neg (by decide), if_pos (by rfl)]
      exact ih _ hshort hnext hempty rfl
  · have hne : ∀ f, (p.frames A)[k]? = some f → raw.toOption ≠ some f :=
      fun f hf hr => hgood ⟨f, hf, hr⟩
    have hbad := h.bad hempty hws hne
    rcases readrecord_other hs hp h.place hraw hne with ⟨err, herr⟩ | ⟨data, hccs⟩
    · rw [readloop_error herr]
      exact .bad hbad
    · rw [readloop_ok hccs, if_neg (by decide), if_neg (by decide), if_neg (by decide)]
      exact .bad hbad

theorem readloop_bad (hs : Secure A p) (hp : p.Plain) (n : ℕ) (h : Bad A p input got k cs) :
    (readloop A n cs).1 = none ∧ Bad A p input got k (readloop A n cs).2 := by
  have hraw : rawrecord cs.fd.input = (rawrecord cs.fd.input) := rfl
  generalize hr : rawrecord cs.fd.input = r at hraw
  obtain ⟨raw, rest⟩ := r
  have hmem : ∀ w ∈ rawrecords rest, w ∈ rawrecords cs.fd.input := by
    intro w hw
    by_cases hnil : cs.fd.input = []
    · rw [hnil] at hr ⊢
      obtain rfl : rest = [] := (congrArg Prod.snd hr).symm
      exact hw
    · rw [rawrecords_cons hnil, hr]
      exact List.mem_cons_of_mem _ hw
  have hne : ∀ f, (p.frames A)[k]? = some f → raw.toOption ≠ some f := by
    intro f hf hrf
    by_cases hnil : cs.fd.input = []
    · rw [hnil] at hr
      obtain rfl : raw = .error (lit "tls: record read failed") := (congrArg Prod.fst hr).symm
      simp [Except.toOption] at hrf
    · refine h.gone f hf ?_
      rw [rawrecords_cons hnil, hr, ← hrf]
      exact List.mem_cons_self
  have hnext : Bad A p input got k (cs.setinput rest) := by
    obtain ⟨w, ws, hwire, hw⟩ := h.wire
    refine ⟨h.place.setinput rest, h.data, h.empty, ?_, fun f hf hin => h.gone f hf (hmem _ hin)⟩
    by_cases hnil : cs.fd.input = []
    · rw [hnil] at hr
      obtain rfl : rest = [] := (congrArg Prod.snd hr).symm
      exact ⟨w, ws, by rw [hwire, hnil]; rfl, hw⟩
    · refine ⟨w, ws ++ [raw.toOption], ?_, hw⟩
      rw [hwire, rawrecords_cons hnil, hr]
      simp [State.setinput]
  rcases readrecord_other hs hp h.place hr hne with ⟨err, herr⟩ | ⟨data, hccs⟩
  · rw [readloop_error herr]
    exact ⟨rfl, hnext⟩
  · rw [readloop_ok hccs, if_neg (by decide), if_neg (by decide), if_neg (by decide)]
    exact ⟨rfl, hnext⟩

theorem read_answer (hs : Secure A p) (hp : p.Plain) (n : ℕ) (h : Good A p input got k cs) :
    Answer A p input got n (cs.read A n).1 (cs.read A n).2 := by
  rw [State.read]
  split_ifs with hpos
  · refine .data ⟨⟨h.place.1, h.place.2, h.place.3, h.place.4, h.place.5, h.place.6, h.place.7⟩,
      ?_, ?_, h.wire, h.steady⟩ fun hnil => ?_
    · rw [← h.data, List.append_assoc]
      congr 1
      simp only [State.unread]
      conv_rhs => rw [show cs.rlen = min cs.rlen n + (cs.rlen - min cs.rlen n) by omega]
      rw [List.take_add, List.drop_drop]
    · have hfits := h.fits
      simp only
      omega
    · have hfits := h.fits
      rcases List.take_eq_nil_iff.mp hnil with hmin | hdrop
      · omega
      · have hle := List.drop_eq_nil_iff.mp hdrop
        omega
  · exact readloop_answer hs hp n h (by omega)

theorem read_bad (hs : Secure A p) (hp : p.Plain) (n : ℕ) (h : Bad A p input got k cs) :
    (cs.read A n).1 = none ∧ Bad A p input got k (cs.read A n).2 := by
  have hempty : ¬0 < cs.rlen := by simp [h.empty]
  rw [State.read, if_neg hempty]
  exact readloop_bad hs hp n h

end

end Infernode.Tls
