import Infernode.Lib.Runs
import Infernode.Reasm.Reassemble

/-!
# Rebuilding a datagram

Runs of `ip4reassemble` over fragments that arrive in any order, those of one datagram among
others. It is rebuilt when nothing of it is missing, if no fragment begins within the first of
its queue and goes beyond it: the first is given the length of its header, not what is left.
-/

namespace Infernode.Reasm

open Lib

variable {D : Datagram} {ip : IP} {a : Arrival} {off len n : ℕ} {key : Key}

structure Datagram.Piece (D : Datagram) (a : Arrival) (off len : ℕ) : Prop where
  hdr : SameHdr a.bp.bytes D.hdr
  length : nhgets a.bp.bytes 2 = some (IP4HDR + len)
  frag : a.frag % 0x2000 = off / 8
  more : more a.frag = true ↔ off + len < D.data.length
  reserved : a.frag < 2 * IP_DF
  off_mod : off % 8 = 0
  len_mod : off + len < D.data.length → len % 8 = 0
  pos : 0 < len
  le : off + len ≤ D.data.length
  fits : IP4HDR + len ≤ a.bp.bytes.length
  data : (a.bp.bytes.drop IP4HDR).take len = (D.data.drop off).take len

theorem piece_bytes (a : Arrival) (pktlen : ℕ) :
    (a.piece pktlen).bytes = a.bp.bytes.take pktlen := by
  simp only [Arrival.piece, padblock]
  split_ifs <;> rfl

theorem Datagram.Piece.foff (h : D.Piece a off len) :
    (a.piece (IP4HDR + len)).foff = off := by
  have := h.frag
  have := h.off_mod
  simp only [Arrival.piece]
  omega

theorem piece_flen (a : Arrival) (len : ℕ) : (a.piece (IP4HDR + len)).flen = len :=
  Nat.add_sub_cancel_left IP4HDR len

theorem Datagram.Piece.accepted (h : D.Piece a off len) : Accepted a (IP4HDR + len) := by
  have hfrag := h.frag
  have hmod := h.off_mod
  have hle := h.le
  have hpos := h.pos
  have hdata := D.hdata
  have hposn : a.frag % 0x2000 * 8 = off := by omega
  refine ⟨by omega, h.fits, by omega, by omega, fun hmore => ?_⟩
  rw [Nat.add_sub_cancel_left]
  exact h.len_mod (h.more.1 hmore)

theorem more_byte (a : Arrival) :
    ∃ c, a.bp.bytes[6]? = some c ∧ c.toNat.testBit 5 = more a.frag := by
  have hfrag := a.hfrag
  simp only [nhgets, Option.bind_eq_bind] at hfrag
  obtain ⟨c, hc, hfrag⟩ := Option.bind_eq_some_iff.1 hfrag
  obtain ⟨d, -, hfrag⟩ := Option.bind_eq_some_iff.1 hfrag
  have heq : c.toNat * 256 + d.toNat = a.frag := Option.some.inj hfrag
  have hd := d.toNat_lt
  refine ⟨c, hc, ?_⟩
  simp only [more, Nat.testBit_eq_decide_div_mod_eq, ← heq]
  congr 1
  simp only [eq_iff_iff]
  omega

theorem Datagram.Piece.part (h : D.Piece a off len) : Part D (a.piece (IP4HDR + len)) := by
  have hfits := h.fits
  have hbytes := piece_bytes a (IP4HDR + len)
  have hget : ∀ i < IP4HDR, (a.piece (IP4HDR + len)).bytes[i]? = a.bp.bytes[i]? := fun i hi => by
    rw [hbytes, List.getElem?_take, if_pos (by omega)]
  have hflen := piece_flen a len
  refine ⟨fun i hi hne => (hget i hi).trans (h.hdr i hi hne), ?_, by rw [hflen]; exact h.pos,
    ?_, ?_, ?_⟩
  · obtain ⟨c, hc, hbit⟩ := more_byte a
    exact ⟨c, (hget 6 (by decide)).trans hc, by rw [hbit, h.more, h.foff, hflen]⟩
  · rw [h.foff, hflen]
    exact h.le
  · rw [hbytes, h.foff, hflen, List.drop_take, Nat.add_sub_cancel_left, List.take_take, min_self,
      h.data]
  · rw [hbytes, hflen, List.length_take]
    omega

theorem Datagram.Piece.not_whole (h : D.Piece a off len) :
    ¬ ∀ i < D.data.length, off ≤ i ∧ i < off + len := fun hall => by
  have hfrag : a.frag % IP_DF ≠ 0 ∨ 2 * IP_DF ≤ a.frag := of_decide_eq_true a.fragmented
  have hposn := h.frag
  have hle := h.le
  have hpos := h.pos
  have hres := h.reserved
  have h0 := hall 0 (by omega)
  have hlast := hall (D.data.length - 1) (by omega)
  have hmore : Reasm.more a.frag = false := by
    rw [Bool.eq_false_iff]
    exact fun hm => by have := h.more.1 hm; omega
  simp only [Reasm.more, Nat.testBit_eq_decide_div_mod_eq, decide_eq_false_iff_not,
    Nat.reducePow] at hmore
  simp only [IP_DF] at hfrag hres
  omega

def IP.Covered (ip : IP) (key : Key) (i : ℕ) : Prop :=
  ∃ f ∈ ip.flisthead4, f.key = key ∧ Reasm.Covered f.blist i

/-- The queue of `D` holds parts of it, not all of it, and the first is not cut. -/
def Kept (D : Datagram) (key : Key) (ip : IP) : Prop :=
  ∀ f ∈ ip.flisthead4, f.key = key → (∀ b ∈ f.blist, Part D b) ∧ Chain f.blist ∧
    Uncut f.blist ∧ ¬ ∀ i < D.data.length, Covered f.blist i

theorem Did.other {bp : Block} {ip' : IP} {out : Option (List Block)} (hs : Sound n ip)
    (h : Did ip key bp ip' out) : ∀ f ∈ ip'.flisthead4, f.key ≠ key → f ∈ ip.flisthead4 := by
  intro h' hh hne
  cases h with
  | @first ip₁ f g fs hsw hno hfree hslot hkey hb =>
    rcases List.mem_cons.1 hh with rfl | hh
    · exact absurd hkey hne
    · exact hsw.sub.subset hh
  | inside hsw => exact hsw.sub.subset hh
  | @queued ip₁ f before after gone hsw hf hkey =>
    obtain ⟨l₁, l₂, hl, hset⟩ := split (slots_nodup (hs.swept hsw).slots) hf
    refine hsw.sub.subset ?_
    simp only [IP.setf, IP.freeblist, (hset { f with blist := before ++ bp :: after } rfl).2] at hh
    rw [hl]
    rcases List.mem_append.1 hh with hh | hh
    · simp [hh]
    · rcases List.mem_cons.1 hh with rfl | hh
      · exact absurd hkey hne
      · simp [hh]
  | returned hsw => exact hsw.sub.subset (List.eraseP_sublist.subset hh)

theorem dropWhile_ge {bs : List Block} (hch : Chain bs) (n : ℕ) :
    ∀ b ∈ bs.dropWhile (·.foff < n), n ≤ b.foff := by
  induction bs with
  | nil => simp
  | cons bl bs ih =>
    obtain ⟨hbl, hch'⟩ := List.pairwise_cons.1 hch
    by_cases h : bl.foff < n
    · simpa [List.dropWhile_cons, h] using ih hch'
    · rw [List.dropWhile_cons, if_neg (by simpa using h)]
      intro b hb
      rcases List.mem_cons.1 hb with rfl | hb
      · exact not_lt.1 h
      · have := hbl b hb
        omega

theorem queue_parts {bp : Block} {bs before after gone : List Block} (hbp : Part D bp)
    (hp : ∀ b ∈ bs, Part D b) (hch : Chain bs)
    (htrim : trim bp (bs.takeWhile (·.foff < bp.foff)) = some before)
    (hcover : cover (bp.foff + bp.flen) (bs.dropWhile (·.foff < bp.foff)) = some (after, gone)) :
    (∀ b ∈ before ++ bp :: after, Part D b) ∧ Chain (before ++ bp :: after) ∧
      (∀ i, Covered (before ++ bp :: after) i ↔ Covered bs i ∨ bp.Covers i) ∧
      (¬ Cuts bp bs → Uncut bs → bp.bytes.length = IP4HDR + bp.flen →
        Uncut (before ++ bp :: after)) := by
  have htd := List.takeWhile_append_dropWhile (p := fun b : Block => b.foff < bp.foff) (l := bs)
  have htake := List.takeWhile_subset (l := bs) (fun b : Block => b.foff < bp.foff)
  have hdrop := List.dropWhile_subset (l := bs) (fun b : Block => b.foff < bp.foff)
  obtain ⟨hp₁, -, hch₁, hcov₁, hun₁⟩ := trim_parts htrim hbp (fun b hb => hp b (htake hb))
    (hch.sublist (List.takeWhile_sublist _)) fun b hb => by simpa using List.mem_takeWhile_imp hb
  obtain ⟨hp₂, hch₂, hcov₂⟩ := cover_parts hcover (fun b hb => hp b (hdrop hb))
    (hch.sublist (List.dropWhile_sublist _)) (dropWhile_ge hch bp.foff)
  refine ⟨fun b hb => ?_, ?_, fun i => ?_, fun hcut hun hlen => ?_⟩
  · rcases List.mem_append.1 hb with hb | hb
    · exact (hp₁ b hb).1
    · rcases List.mem_cons.1 hb with rfl | hb
      · exact hbp
      · exact (hp₂ b hb).1
  · refine List.pairwise_append.2 ⟨hch₁, List.pairwise_cons.2 ⟨fun c hc => (hp₂ c hc).2, hch₂⟩,
      fun b hb c hc => ?_⟩
    have hend := (hp₁ b hb).2
    rcases List.mem_cons.1 hc with rfl | hc
    · exact hend
    · have := (hp₂ c hc).2
      omega
  · have hor : ∀ {p q r t u : Prop}, (p ∨ u ↔ q ∨ u) → (r ∨ u ↔ t ∨ u) →
        (p ∨ u ∨ r ↔ (q ∨ t) ∨ u) := by tauto
    have hbs : Covered bs i ↔ Covered (bs.takeWhile (·.foff < bp.foff)) i ∨
        Covered (bs.dropWhile (·.foff < bp.foff)) i := by
      rw [← covered_append, htd]
    rw [covered_append, covered_cons, hbs]
    exact hor (hcov₁ i) (hcov₂ i)
  · have hun' := hun₁ (fun ⟨b, hb, h⟩ => hcut ⟨b, htake hb, h⟩) fun b hb => hun b (htake hb)
    intro b hb h₀
    rcases List.mem_append.1 hb with hb | hb
    · exact hun' b hb h₀
    · rcases List.mem_cons.1 hb with rfl | hb
      · exact hlen
      · have := (hp₂ b hb).2
        have := hbp.pos
        omega

theorem Did.rebuilds {bp : Block} {ip' : IP} {out : Option (List Block)} (hs : Sound n ip)
    (hk : Kept D key ip) (hbp : Part D bp) (hfits : Fits bp)
    (hlen : bp.bytes.length = IP4HDR + bp.flen) (hnot : ¬ ∀ i < D.data.length, bp.Covers i)
    (hcut : ∀ f ∈ ip.flisthead4, f.key = key → ¬ Cuts bp f.blist) (h : Did ip key bp ip' out) :
    Kept D key ip' ∧
      ((∀ i < D.data.length, ip.Covered key i ∨ bp.Covers i) →
        ∃ bl, out = some bl ∧ D.Rebuilt bl ∧ ∀ i, ¬ ip'.Covered key i) ∧
      ((¬ ∀ i < D.data.length, ip.Covered key i ∨ bp.Covers i) →
        out = none ∧ ∀ i, ip'.Covered key i ↔ ip.Covered key i ∨ bp.Covers i) := by
  have hkeys : ∀ {ip₁ : IP} {f : Fragment4}, Swept ip ip₁ → f ∈ ip₁.flisthead4 → f.key = key →
      ∀ i, ip.Covered key i ↔ Covered f.blist i := fun {ip₁ f} hsw hf hkey i => by
    refine ⟨?_, fun hi => ⟨f, hsw.sub.subset hf, hkey, hi⟩⟩
    rintro ⟨g, hg, hgkey, hi⟩
    have := List.inj_on_of_nodup_map hs.keys hg (hsw.sub.subset hf) (hgkey.trans hkey.symm)
    exact this ▸ hi
  cases h with
  | @first ip₁ f g fs hsw hno hfree hslot hkey hb =>
    have hcov : ∀ i, ¬ ip.Covered key i := by
      rintro i ⟨f, hf, hkey, _⟩
      exact hno f hf hkey
    have hnone : ¬ ∀ i < D.data.length, ip.Covered key i ∨ bp.Covers i := fun h =>
      hnot fun i hi => (h i hi).resolve_left (hcov i)
    refine ⟨fun h hh hkey => ?_, fun h => absurd h hnone, fun _ => ⟨rfl, fun i => ?_⟩⟩
    · rcases List.mem_cons.1 hh with rfl | hh
      · rw [hb]
        refine ⟨by simpa using hbp, by simp [Chain], by simpa [Uncut] using fun _ => hlen, ?_⟩
        simpa using hnot
      · exact absurd hkey (hno h (hsw.sub.subset hh))
    · refine ⟨?_, fun hi => ?_⟩
      · rintro ⟨h, hh, hkey, hi⟩
        rcases List.mem_cons.1 hh with rfl | hh
        · rw [hb] at hi
          simpa using Or.inr hi
        · exact absurd hkey (hno h (hsw.sub.subset hh))
      · exact ⟨f, by simp, hkey, by rw [hb]; simpa using hi.resolve_left (hcov i)⟩
  | @inside ip₁ f hsw hf hkey htrim =>
    have hcov := hkeys hsw hf hkey
    obtain ⟨-, hch, -, hall⟩ := hk f (hsw.sub.subset hf) hkey
    obtain ⟨b, hb, hlt, hle⟩ := trim_none htrim fun b hb => by
      simpa using List.mem_takeWhile_imp hb
    have hsub : ∀ i, bp.Covers i → ip.Covered key i := fun i hi => (hcov i).2
      ⟨b, List.takeWhile_subset _ hb, hlt.le.trans hi.1, lt_of_lt_of_le hi.2 hle⟩
    have hnone : ¬ ∀ i < D.data.length, ip.Covered key i ∨ bp.Covers i := fun h =>
      hall fun i hi => (hcov i).1 ((h i hi).elim id (hsub i))
    refine ⟨fun h hh => hk h (hsw.sub.subset hh), fun h => absurd h hnone, fun _ => ⟨rfl, ?_⟩⟩
    intro i
    have hcov' : IP.Covered (ip₁.freeblist [bp]) key i ↔ Covered f.blist i := by
      refine ⟨?_, fun hi => ⟨f, hf, hkey, hi⟩⟩
      rintro ⟨g, hg, hgkey, hi⟩
      exact (hcov i).1 ⟨g, hsw.sub.subset hg, hgkey, hi⟩
    rw [hcov', hcov i]
    exact ⟨.inl, fun h => h.elim id fun hi => (hcov i).1 (hsub i hi)⟩
  | @queued ip₁ f before after gone hsw hf hkey htrim hcover hc =>
    have hcov := hkeys hsw hf hkey
    obtain ⟨hp, hch, hun, hall⟩ := hk f (hsw.sub.subset hf) hkey
    obtain ⟨hp', hch', hcov', hun'⟩ := queue_parts hbp hp hch htrim hcover
    have hun'' := hun' (hcut f (hsw.sub.subset hf) hkey) hun hlen
    have hpos : 0 < D.data.length := by
      have := hbp.le
      have := hbp.pos
      omega
    have hiff := complete_iff hpos hp' hch' fun b _ => Nat.zero_le _
    have hnone : ¬ ∀ i < D.data.length, Covered (before ++ bp :: after) i := fun h => by
      rw [hc] at hiff
      simpa using hiff.2 fun i _ hi => h i hi
    obtain ⟨l₁, l₂, hl, hset⟩ := split (slots_nodup (hs.swept hsw).slots) hf
    have he := (hset { f with blist := before ++ bp :: after } rfl).2
    have hmem : ∀ g ∈ ((ip₁.freeblist gone).setf
        { f with blist := before ++ bp :: after }).flisthead4, g.key = key →
        g = { f with blist := before ++ bp :: after } := fun g hg hgkey => by
      simp only [IP.setf, IP.freeblist, he] at hg
      have hkn := (hs.swept hsw).keys
      rw [hl, List.map_append, List.map_cons, List.nodup_middle, List.nodup_cons,
        ← List.map_append] at hkn
      by_contra hne
      exact hkn.1 (List.mem_map.2 ⟨g, by grind, hgkey.trans hkey.symm⟩)
    refine ⟨fun g hg hgkey => ?_, fun h => absurd (fun i hi => ?_) hnone, fun _ => ⟨rfl, fun i => ?_⟩⟩
    · rw [hmem g hg hgkey]
      exact ⟨hp', hch', hun'', hnone⟩
    · exact (hcov' i).2 ((h i hi).imp (hcov i).1 id)
    · rw [hcov i, ← hcov' i]
      refine ⟨?_, fun hi => ⟨{ f with blist := before ++ bp :: after }, ?_, hkey, hi⟩⟩
      · rintro ⟨g, hg, hgkey, hi⟩
        rwa [hmem g hg hgkey] at hi
      simp only [IP.setf, IP.freeblist, he]
      simp
  | @returned ip₁ f before after gone bl hsw hf hkey htrim hcover hc hpacket =>
    have hcov := hkeys hsw hf hkey
    obtain ⟨hp, hch, hun, hall⟩ := hk f (hsw.sub.subset hf) hkey
    obtain ⟨hp', hch', hcov', hun'⟩ := queue_parts hbp hp hch htrim hcover
    have hun'' := hun' (hcut f (hsw.sub.subset hf) hkey) hun hlen
    have hpos : 0 < D.data.length := by
      have := hbp.le
      have := hbp.pos
      omega
    have hiff := complete_iff hpos hp' hch' fun b _ => Nat.zero_le _
    have hfits' := queue_fits hfits ((hs.swept hsw).fits f hf) htrim hcover
    have hall' : ∀ i < D.data.length, ip.Covered key i ∨ bp.Covers i := fun i hi =>
      ((hcov' i).1 (hiff.1 hc i (Nat.zero_le _) hi)).imp (hcov i).2 id
    have hnone : ∀ g ∈ ((ip₁.freeblist gone).ipfragfree4 { f with blist := [] }).flisthead4,
        g.key ≠ key := fun g hg hgkey => by
      obtain ⟨l₁, l₂, hl, hset⟩ := split (slots_nodup (hs.swept hsw).slots) hf
      have he := (hset { f with blist := [] } rfl).1
      simp only [IP.ipfragfree4, IP.freeblist, he] at hg
      have hkn := (hs.swept hsw).keys
      rw [hl, List.map_append, List.map_cons, List.nodup_middle, List.nodup_cons,
        ← List.map_append] at hkn
      exact hkn.1 (List.mem_map.2 ⟨g, hg, hgkey.trans hkey.symm⟩)
    refine ⟨fun g hg hgkey => absurd hgkey (hnone g hg), fun _ => ⟨bl, rfl, ?_, ?_⟩,
      fun h => absurd hall' h⟩
    · exact packet_rebuilt hp' hfits' hch' hun'' hc hpacket
    · rintro i ⟨g, hg, hgkey, -⟩
      exact hnone g hg hgkey

structure Run where
  ip : IP
  returned : List (List Block)

def initfrag (size : ℕ) : IP where
  flisthead4 := []
  fragfree4 := (List.range size).map fun i => ⟨i, 0, 0, 0, 0, []⟩
  freed := []

def init : Option Run := some ⟨initfrag 100, []⟩

def step (r : Option Run) (a : Arrival) : Option Run := do
  let r ← r
  let (ip, out) ← ip4reassemble r.ip a.now a.frag a.bp
  return ⟨ip, r.returned ++ out.toList⟩

def Spares (D : Datagram) (r : Option Run) (a : Arrival) : Prop :=
  ∀ r' ∈ r, ∀ key pktlen, hdrkey D.hdr = some key → hdrkey a.bp.bytes = some key →
    nhgets a.bp.bytes 2 = some pktlen →
    ∀ f ∈ r'.ip.flisthead4, f.key = key → ¬ Cuts (a.piece pktlen) f.blist

def Datagram.Pieces (D : Datagram) (a : Arrival) : Prop :=
  hdrkey a.bp.bytes = hdrkey D.hdr → ∃ off len, D.Piece a off len

/-- The fragment `a`, next after `r`, gives `D` back if nothing of it is missing then, and is
else queued; one of another datagram leaves the queue of `D`, or it is evicted. -/
def Datagram.Next (D : Datagram) (key : Key) (r : Run) (a : Arrival) (r' : Run) : Prop :=
  (∀ off len, hdrkey a.bp.bytes = some key → D.Piece a off len →
    ((∀ i < D.data.length, r.ip.Covered key i ∨ (off ≤ i ∧ i < off + len)) →
      ∃ bl, r'.returned = r.returned ++ [bl] ∧ D.Rebuilt bl ∧ ∀ i, ¬ r'.ip.Covered key i) ∧
    ((¬ ∀ i < D.data.length, r.ip.Covered key i ∨ (off ≤ i ∧ i < off + len)) →
      r'.returned = r.returned ∧
        ∀ i, r'.ip.Covered key i ↔ r.ip.Covered key i ∨ (off ≤ i ∧ i < off + len))) ∧
  (hdrkey a.bp.bytes ≠ some key →
    ∀ f ∈ r'.ip.flisthead4, f.key = key → f ∈ r.ip.flisthead4)

theorem initfrag_sound (size : ℕ) : Sound size (initfrag size) where
  slots := by
    simp only [IP.slots, initfrag, List.nil_append, List.map_map]
    exact .of_eq (List.map_id _)
  keys := by simp [initfrag]
  fits := by simp [initfrag]

/-- What holds in every state: the lists are sound, and every fragment that arrived is held or
was returned. -/
structure Holds (D : Datagram) (key : Key) (as : List Arrival) (r : Run) : Prop where
  sound : Sound 100 r.ip
  ids : (r.ip.held ++ r.returned.flatMap ids).Perm (as.map (·.bp.id))
  kept : Kept D key r.ip

theorem step_holds {r : Run} {as : List Arrival} (hkey : hdrkey D.hdr = some key)
    (h : Holds D key as r) (hpieces : D.Pieces a) (hspares : Spares D (some r) a) :
    ∃ r', step (some r) a = some r' ∧ Holds D key (as ++ [a]) r' ∧ D.Next key r a r' := by
  obtain ⟨key', pktlen, ip', out, hkey', hlen, hrun, hdid⟩ :=
    ip4reassemble_cases h.sound (by decide) a
  obtain ⟨ip₁, out₁, hrun₁, hsound, hids⟩ := ip4reassemble_sound h.sound (by decide) a
  obtain ⟨rfl, rfl⟩ : ip₁ = ip' ∧ out₁ = out := by
    rw [hrun] at hrun₁
    cases hrun₁
    exact ⟨rfl, rfl⟩
  have hids' : (ip₁.held ++ (r.returned ++ out₁.toList).flatMap ids).Perm
      ((as ++ [a]).map (·.bp.id)) := by
    refine List.perm_iff_count.2 fun x => ?_
    have h₁ := List.perm_iff_count.1 hids x
    have h₂ := List.perm_iff_count.1 h.ids x
    have hout : out₁.toList.flatMap ids = outids out₁ := by cases out₁ <;> simp [outids]
    simp only [List.count_append, List.count_cons, List.flatMap_append, hout, List.map_append,
      List.map_cons, List.map_nil, List.count_nil] at h₁ h₂ ⊢
    omega
  have hstep : step (some r) a = some ⟨ip₁, r.returned ++ out₁.toList⟩ := by
    simp [step, hrun]
  by_cases hsame : key' = key
  · subst hsame
    obtain ⟨off, len, hpiece⟩ := hpieces (hkey'.trans hkey.symm)
    obtain rfl := Option.some.inj (hlen.symm.trans hpiece.length)
    have hacc := hpiece.accepted
    have hdid := (hdid.resolve_left fun h => h.1 hacc).2
    have hbytes := piece_bytes a (IP4HDR + len)
    have hcovers : ∀ i, (a.piece (IP4HDR + len)).Covers i ↔ off ≤ i ∧ i < off + len := fun i => by
      rw [Block.Covers, hpiece.foff, piece_flen]
    obtain ⟨hkept, hall, hpart⟩ := hdid.rebuilds h.sound h.kept hpiece.part
      (piece_fits hacc hlen)
      (by rw [hbytes, piece_flen, List.length_take, min_eq_left hpiece.fits])
      (by simpa only [hcovers] using hpiece.not_whole)
      (hspares r rfl key' _ hkey hkey' hlen)
    simp only [hcovers] at hall hpart
    refine ⟨_, hstep, ⟨hsound, hids', hkept⟩, fun off' len' _ hp => ?_, fun hne =>
      absurd hkey' hne⟩
    obtain rfl : off' = off := by
      have := hp.frag
      have := hp.off_mod
      have := hpiece.frag
      have := hpiece.off_mod
      omega
    obtain rfl : len' = len := by
      have := Option.some.inj (hp.length.symm.trans hpiece.length)
      omega
    refine ⟨fun hc => ?_, fun hc => ?_⟩
    · obtain ⟨bl, rfl, hrebuilt, hnone⟩ := hall hc
      exact ⟨bl, rfl, hrebuilt, hnone⟩
    · obtain ⟨rfl, hcov⟩ := hpart hc
      exact ⟨by simp, hcov⟩
  · have hmem : ∀ f ∈ ip₁.flisthead4, f.key = key → f ∈ r.ip.flisthead4 := fun f hf hfkey => by
      rcases hdid with ⟨-, rfl, -⟩ | ⟨-, hdid⟩
      · exact hf
      · exact hdid.other h.sound f hf fun he => hsame (he.symm.trans hfkey)
    refine ⟨_, hstep, ⟨hsound, hids', fun f hf hfkey => h.kept f (hmem f hf hfkey) hfkey⟩,
      fun off len hk _ => ?_, fun _ => hmem⟩
    exact absurd (Option.some.inj (hkey'.symm.trans hk)) hsame

theorem run_holds {as : List Arrival} (hkey : hdrkey D.hdr = some key)
    (hpieces : ∀ a ∈ as, D.Pieces a) (hspares : Always step (Spares D) init as) :
    ∃ r, as.foldl step init = some r ∧ Holds D key as r := by
  induction as using List.reverseRecOn with
  | nil => exact ⟨_, rfl, initfrag_sound 100, by simp [IP.held, initfrag], by simp [Kept, initfrag]⟩
  | append_singleton as a ih =>
    obtain ⟨hbefore, hlast, -⟩ := (always_append _ _ _ _ _).1 hspares
    obtain ⟨r, hr, hholds⟩ := ih (fun a ha => hpieces a (by simp [ha])) hbefore
    rw [hr] at hlast
    obtain ⟨r', hr', hholds', -⟩ := step_holds hkey hholds (hpieces a (by simp)) hlast
    exact ⟨r', by rw [List.foldl_append, hr]; exact hr', hholds'⟩

/-- In every run in which no fragment of `D` cuts the first of its queue: no access is outside
a block, each record is on one list, each fragment is held or was returned, and what comes next
gives `D` back just when nothing of it is missing. -/
theorem ip4reassemble_exact {as : List Arrival} (hpieces : ∀ a ∈ as, D.Pieces a)
    (hspares : Always step (Spares D) init as) :
    ∃ key r, hdrkey D.hdr = some key ∧ as.foldl step init = some r ∧ Sound 100 r.ip ∧
      (r.ip.held ++ r.returned.flatMap ids).Perm (as.map (·.bp.id)) ∧
      ∀ a, D.Pieces a → Spares D (some r) a →
        ∃ r', step (some r) a = some r' ∧ D.Next key r a r' := by
  obtain ⟨key, hkey⟩ := Option.isSome_iff_exists.1 (hdrkey_isSome D.hhdr.ge)
  obtain ⟨r, hr, h⟩ := run_holds hkey hpieces hspares
  refine ⟨key, r, hkey, hr, h.sound, h.ids, fun a ha hs => ?_⟩
  obtain ⟨r', hr', -, hnext⟩ := step_holds hkey h ha hs
  exact ⟨r', hr', hnext⟩

def sample : Datagram where
  hdr := [0x45, 0, 0, 44, 0, 1, 0, 0, 64, 17, 0, 0, 10, 0, 0, 1, 10, 0, 0, 2]
  data := (List.range 24).map UInt8.ofNat
  hhdr := rfl
  hdata := by decide

def front : Arrival where
  now := 0
  bp := ⟨0, 4, [0x45, 0, 0, 36, 0, 1, 0x20, 0, 64, 17, 0, 0, 10, 0, 0, 1, 10, 0, 0, 2] ++
    (List.range 16).map UInt8.ofNat, 0, 0⟩
  frag := 0x2000
  hdr := by decide
  hfrag := by decide
  fragmented := by decide

def back : Arrival where
  now := 0
  bp := ⟨1, 4, [0x45, 0, 0, 36, 0, 1, 0, 1, 64, 17, 0, 0, 10, 0, 0, 1, 10, 0, 0, 2] ++
    (List.range' 8 16).map UInt8.ofNat, 0, 0⟩
  frag := 1
  hdr := by decide
  hfrag := by decide
  fragmented := by decide

theorem front_pieces : sample.Pieces front := fun _ => ⟨0, 16, by
  constructor <;> first | decide | (unfold SameHdr; decide)⟩

theorem back_pieces : sample.Pieces back := fun _ => ⟨8, 16, by
  constructor <;> first | decide | (unfold SameHdr; decide)⟩

theorem ip4reassemble_exact_front : ∃ key r, hdrkey sample.hdr = some key ∧
    [front].foldl step init = some r ∧ Sound 100 r.ip ∧
    (r.ip.held ++ r.returned.flatMap ids).Perm [0] ∧
    ∀ a, sample.Pieces a → Spares sample (some r) a →
      ∃ r', step (some r) a = some r' ∧ sample.Next key r a r' :=
  ip4reassemble_exact (by simpa using front_pieces) ⟨fun r hr _ _ _ _ _ f hf => by
    obtain rfl := Option.some.inj hr
    simp [initfrag] at hf, trivial⟩

/-- The second fragment begins within the first and goes beyond it: 8 bytes are there twice. -/
theorem overlap_doubled : (∀ a ∈ [front, back], sample.Pieces a) ∧
    ∃ r, [front, back].foldl step init = some r ∧ ∃ bl ∈ r.returned, ¬ sample.Rebuilt bl := by
  have hrun : ([front, back].foldl step init).map (fun r => r.returned.map fun bl =>
      (bl.flatMap (·.bytes)).length) = some [52] := by decide
  obtain ⟨r, hr, hlen⟩ := Option.map_eq_some_iff.1 hrun
  obtain ⟨bl, hbl, h52⟩ := List.mem_map.1 (hlen ▸ List.mem_singleton_self 52)
  refine ⟨?_, r, hr, bl, hbl, fun ⟨hdr, hbytes, hhdr, _⟩ => ?_⟩
  · simpa using ⟨front_pieces, back_pieces⟩
  · rw [hbytes, List.length_append, hhdr] at h52
    exact absurd h52 (by decide)

end Infernode.Reasm
