import Infernode.Reasm.Queue

/-!
# `ip4reassemble`

The reassembly list and the free list of `IP`, what is done to them for a fragment, and that
no fragment is lost. `none` is an access outside a block, or through nil.
-/

namespace Infernode.Reasm

structure Fragment4 where
  slot : ℕ
  src : ℕ
  dst : ℕ
  id : ℕ
  age : ℕ
  blist : List Block
  deriving DecidableEq

structure IP where
  flisthead4 : List Fragment4
  fragfree4 : List Fragment4
  freed : List ℕ
  deriving DecidableEq

abbrev Key := ℕ × ℕ × ℕ

def Fragment4.key (f : Fragment4) : Key := (f.src, f.dst, f.id)

def hdrkey (bs : List UInt8) : Option Key := do
  let src ← nhgetl bs 12
  let dst ← nhgetl bs 16
  let id ← nhgets bs 4
  return (src, dst, id)

def ids (bs : List Block) : List ℕ := bs.map (·.id)

def IP.freeblist (ip : IP) (bs : List Block) : IP := { ip with freed := ip.freed ++ ids bs }

def IP.ipfragfree4 (ip : IP) (frag : Fragment4) : IP :=
  { flisthead4 := ip.flisthead4.eraseP (·.slot == frag.slot)
    fragfree4 := { frag with src := 0, id := 0, blist := [] } :: ip.fragfree4
    freed := ip.freed ++ ids frag.blist }

def IP.ipfragallo4 (ip : IP) (now : ℕ) : Option (IP × Fragment4) := do
  let ip ← if ip.fragfree4 = [] then ip.flisthead4.getLast?.map ip.ipfragfree4 else some ip
  match ip.fragfree4 with
  | [] => none
  | f :: fs =>
    let f := { f with age := now + 30000 }
    return ({ ip with flisthead4 := f :: ip.flisthead4, fragfree4 := fs }, f)

def IP.findfrag (key : Key) (now : ℕ) : List Fragment4 → IP → IP × Option Fragment4
  | [], ip => (ip, none)
  | f :: fs, ip =>
    if f.key = key then (ip, some f)
    else if f.age < now then findfrag key now fs (ip.ipfragfree4 f)
    else findfrag key now fs ip

def IP.setf (ip : IP) (f : Fragment4) : IP :=
  { ip with flisthead4 := ip.flisthead4.map fun g => if g.slot = f.slot then f else g }

def ip4reassemble (ip : IP) (now offset : ℕ) (bp : Block) : Option (IP × Option (List Block)) := do
  let key ← hdrkey bp.bytes
  let pktlen ← nhgets bp.bytes 2
  if pktlen < IP4HDR ∨ bp.bytes.length < pktlen then return (ip.freeblist [bp], none)
  let bp := { bp with bytes := bp.bytes.take pktlen }
  let fragsize := pktlen - IP4HDR
  let pktposn := (offset % 0x2000) * 8
  if IP_MAX - IP4HDR - 1 < pktposn ∨ IP_MAX - IP4HDR - 1 - pktposn < fragsize ∨
      (more offset ∧ fragsize % 8 ≠ 0) then return (ip.freeblist [bp], none)
  let (ip, f) := IP.findfrag key now ip.flisthead4 ip
  if ¬ fragmented offset then return (f.elim ip ip.ipfragfree4, some [bp])
  let bp ← setfrag (padblock bp) pktposn fragsize
  match f with
  | none =>
    let (ip, f) ← ip.ipfragallo4 now
    return (ip.setf { f with src := key.1, dst := key.2.1, id := key.2.2, blist := [bp] }, none)
  | some f =>
    match trim bp (f.blist.takeWhile (·.foff < bp.foff)) with
    | none => return (ip.freeblist [bp], none)
    | some before =>
      let (after, gone) ← cover (bp.foff + bp.flen) (f.blist.dropWhile (·.foff < bp.foff))
      let ip := ip.freeblist gone
      let blist := before ++ bp :: after
      if ← complete 0 blist then
        let bl ← packet blist
        return (ip.ipfragfree4 { f with blist := [] }, some bl)
      else return (ip.setf { f with blist := blist }, none)

/-- A fragment as `ipiput4` gives it: with a header, and not the whole of a datagram. -/
structure Arrival where
  now : ℕ
  bp : Block
  frag : ℕ
  hdr : IP4HDR ≤ bp.bytes.length
  hfrag : nhgets bp.bytes 6 = some frag
  fragmented : fragmented frag

def Arrival.piece (a : Arrival) (pktlen : ℕ) : Block :=
  { padblock { a.bp with bytes := a.bp.bytes.take pktlen } with
    foff := (a.frag % 0x2000) * 8, flen := pktlen - IP4HDR }

def IP.slots (ip : IP) : List ℕ := (ip.flisthead4 ++ ip.fragfree4).map (·.slot)

def IP.held (ip : IP) : List ℕ := ip.flisthead4.flatMap (fun f => ids f.blist) ++ ip.freed

structure Swept (ip ip' : IP) : Prop where
  sub : ip'.flisthead4.Sublist ip.flisthead4
  slots : ip'.slots.Perm ip.slots
  held : ip'.held.Perm ip.held

theorem Swept.refl (ip : IP) : Swept ip ip := ⟨List.Sublist.refl _, .refl _, .refl _⟩

theorem Swept.trans {ip ip₁ ip₂ : IP} (h₁ : Swept ip ip₁) (h₂ : Swept ip₁ ip₂) : Swept ip ip₂ :=
  ⟨h₂.sub.trans h₁.sub, h₂.slots.trans h₁.slots, h₂.held.trans h₁.held⟩

theorem split {fs : List Fragment4} (hn : (fs.map (·.slot)).Nodup) {f : Fragment4} (hf : f ∈ fs) :
    ∃ l₁ l₂, fs = l₁ ++ f :: l₂ ∧ ∀ g : Fragment4, g.slot = f.slot →
      fs.eraseP (·.slot == g.slot) = l₁ ++ l₂ ∧
      (fs.map fun h => if h.slot = g.slot then g else h) = l₁ ++ g :: l₂ := by
  obtain ⟨l₁, l₂, rfl⟩ := List.append_of_mem hf
  rw [List.map_append, List.map_cons, List.nodup_middle, List.nodup_cons, ← List.map_append] at hn
  have hne : ∀ h ∈ l₁ ++ l₂, h.slot ≠ f.slot := fun h hh he =>
    hn.1 (he ▸ List.mem_map_of_mem hh)
  have hne₁ : ∀ h ∈ l₁, h.slot ≠ f.slot := fun h hh => hne h (by simp [hh])
  have hne₂ : ∀ h ∈ l₂, h.slot ≠ f.slot := fun h hh => hne h (by simp [hh])
  refine ⟨l₁, l₂, rfl, fun g hg => ⟨?_, ?_⟩⟩
  · rw [hg, List.eraseP_append_right _ fun h hh => by simpa using hne₁ h hh]
    simp
  · have hid : ∀ l : List Fragment4, (∀ h ∈ l, h.slot ≠ f.slot) →
        (l.map fun h => if h.slot = g.slot then g else h) = l := fun l hl => by
      conv_rhs => rw [← List.map_id l]
      exact List.map_congr_left fun h hh => by simp [hg, hl h hh]
    rw [List.map_append, List.map_cons, hid l₁ hne₁, hid l₂ hne₂]
    simp [hg]

theorem swept_free {ip : IP} (hn : (ip.flisthead4.map (·.slot)).Nodup) {f : Fragment4}
    (hf : f ∈ ip.flisthead4) : Swept ip (ip.ipfragfree4 f) ∧
      ∀ g ∈ ip.flisthead4, g.slot ≠ f.slot → g ∈ (ip.ipfragfree4 f).flisthead4 := by
  obtain ⟨l₁, l₂, hl, h⟩ := split hn hf
  have he := (h f rfl).1
  rw [hl] at he
  refine ⟨⟨List.eraseP_sublist, ?_, ?_⟩, fun g hg hne => ?_⟩
  · refine List.perm_iff_count.2 fun x => ?_
    simp only [IP.slots, IP.ipfragfree4, hl, he, List.map_append, List.map_cons, List.count_append,
      List.count_cons]
    omega
  · refine List.perm_iff_count.2 fun x => ?_
    simp only [IP.held, IP.ipfragfree4, hl, he, List.flatMap_append, List.flatMap_cons,
      List.count_append]
    omega
  · simp only [IP.ipfragfree4, hl, he] at hg ⊢
    grind

theorem slots_nodup {ip : IP} {n : ℕ} (h : ip.slots.Perm (List.range n)) :
    (ip.flisthead4.map (·.slot)).Nodup := by
  have := h.nodup_iff.2 List.nodup_range
  rw [IP.slots, List.map_append] at this
  exact this.of_append_left

theorem findfrag_swept {n : ℕ} (key : Key) (now : ℕ) {fs : List Fragment4} {ip : IP}
    (h : ip.slots.Perm (List.range n)) (hfs : ∀ f ∈ fs, f ∈ ip.flisthead4)
    (hn : (fs.map (·.slot)).Nodup) :
    Swept ip (IP.findfrag key now fs ip).1 ∧
      (∀ f, (IP.findfrag key now fs ip).2 = some f →
        f.key = key ∧ f ∈ (IP.findfrag key now fs ip).1.flisthead4) ∧
      ((IP.findfrag key now fs ip).2 = none → ∀ f ∈ fs, f.key ≠ key) := by
  induction fs generalizing ip with
  | nil => exact ⟨.refl _, by simp [IP.findfrag], by simp⟩
  | cons f fs ih =>
    rw [List.map_cons, List.nodup_cons] at hn
    simp only [IP.findfrag]
    split_ifs with hkey hage
    · refine ⟨.refl _, fun g hg => ?_, by simp⟩
      obtain rfl := Option.some.inj hg
      exact ⟨hkey, hfs f (by simp)⟩
    · obtain ⟨hsw, hkeep⟩ := swept_free (slots_nodup h) (hfs f (by simp))
      obtain ⟨hsw', hfound, hnone⟩ := ih (hsw.slots.trans h)
        (fun g hg => hkeep g (hfs g (by simp [hg])) fun he =>
          hn.1 (he ▸ List.mem_map_of_mem hg)) hn.2
      refine ⟨hsw.trans hsw', hfound, fun hno g hg => ?_⟩
      rcases List.mem_cons.1 hg with rfl | hg
      · exact hkey
      · exact hnone hno g hg
    · obtain ⟨hsw', hfound, hnone⟩ := ih h (fun g hg => hfs g (by simp [hg])) hn.2
      refine ⟨hsw', hfound, fun hno g hg => ?_⟩
      rcases List.mem_cons.1 hg with rfl | hg
      · exact hkey
      · exact hnone hno g hg

theorem ipfragallo4_swept {n : ℕ} {ip : IP} (h : ip.slots.Perm (List.range n)) (hn : 0 < n)
    (now : ℕ) : ∃ ip₁ f fs, Swept ip ip₁ ∧ ip₁.fragfree4 = f :: fs ∧ ip.ipfragallo4 now =
      some (⟨{ f with age := now + 30000 } :: ip₁.flisthead4, fs, ip₁.freed⟩,
        { f with age := now + 30000 }) := by
  cases hfree : ip.fragfree4 with
  | cons f fs => exact ⟨ip, f, fs, .refl _, hfree, by simp [IP.ipfragallo4, hfree]⟩
  | nil =>
    have hne : ip.flisthead4 ≠ [] := fun he => by
      have hlen := h.length_eq
      simp only [IP.slots, he, hfree, List.append_nil, List.map_nil, List.length_nil,
        List.length_range] at hlen
      omega
    obtain ⟨hsw, -⟩ := swept_free (slots_nodup h) (List.getLast_mem hne)
    exact ⟨_, _, _, hsw, rfl, by
      simp [IP.ipfragallo4, hfree, List.getLast?_eq_getLast_of_ne_nil hne, IP.ipfragfree4]⟩

/-- Each of the `n` records is on one of the lists, no two queues have one key, and every
fragment stays within its block. -/
structure Sound (n : ℕ) (ip : IP) : Prop where
  slots : ip.slots.Perm (List.range n)
  keys : (ip.flisthead4.map (·.key)).Nodup
  fits : ∀ f ∈ ip.flisthead4, ∀ b ∈ f.blist, Fits b

theorem Sound.swept {n : ℕ} {ip ip' : IP} (h : Sound n ip) (hsw : Swept ip ip') : Sound n ip' :=
  ⟨hsw.slots.trans h.slots, h.keys.sublist (hsw.sub.map _),
    fun f hf => h.fits f (hsw.sub.subset hf)⟩

structure Accepted (a : Arrival) (pktlen : ℕ) : Prop where
  hdr : IP4HDR ≤ pktlen
  len : pktlen ≤ a.bp.bytes.length
  posn : (a.frag % 0x2000) * 8 ≤ IP_MAX - IP4HDR - 1
  size : pktlen - IP4HDR ≤ IP_MAX - IP4HDR - 1 - (a.frag % 0x2000) * 8
  more : more a.frag → (pktlen - IP4HDR) % 8 = 0

inductive Did (ip : IP) (key : Key) (bp : Block) : IP → Option (List Block) → Prop
  | first {ip₁ : IP} {f g : Fragment4} {fs : List Fragment4} (hsw : Swept ip ip₁)
      (hno : ∀ f ∈ ip.flisthead4, f.key ≠ key) (hfree : ip₁.fragfree4 = g :: fs)
      (hslot : f.slot = g.slot) (hkey : f.key = key) (hb : f.blist = [bp]) :
      Did ip key bp ⟨f :: ip₁.flisthead4, fs, ip₁.freed⟩ none
  | inside {ip₁ : IP} {f : Fragment4} (hsw : Swept ip ip₁) (hf : f ∈ ip₁.flisthead4)
      (hkey : f.key = key) (htrim : trim bp (f.blist.takeWhile (·.foff < bp.foff)) = none) :
      Did ip key bp (ip₁.freeblist [bp]) none
  | queued {ip₁ : IP} {f : Fragment4} {before after gone : List Block} (hsw : Swept ip ip₁)
      (hf : f ∈ ip₁.flisthead4) (hkey : f.key = key)
      (htrim : trim bp (f.blist.takeWhile (·.foff < bp.foff)) = some before)
      (hcover : cover (bp.foff + bp.flen) (f.blist.dropWhile (·.foff < bp.foff)) =
        some (after, gone))
      (hc : complete 0 (before ++ bp :: after) = some false) :
      Did ip key bp ((ip₁.freeblist gone).setf { f with blist := before ++ bp :: after }) none
  | returned {ip₁ : IP} {f : Fragment4} {before after gone bl : List Block} (hsw : Swept ip ip₁)
      (hf : f ∈ ip₁.flisthead4) (hkey : f.key = key)
      (htrim : trim bp (f.blist.takeWhile (·.foff < bp.foff)) = some before)
      (hcover : cover (bp.foff + bp.flen) (f.blist.dropWhile (·.foff < bp.foff)) =
        some (after, gone))
      (hc : complete 0 (before ++ bp :: after) = some true)
      (hpacket : packet (before ++ bp :: after) = some bl) :
      Did ip key bp ((ip₁.freeblist gone).ipfragfree4 { f with blist := [] }) (some bl)

theorem nhgets_take {bs : List UInt8} {i n : ℕ} (h : i + 1 < n) :
    nhgets (bs.take n) i = nhgets bs i := by
  simp [nhgets, h, (by omega : i < n)]

theorem piece_fits {a : Arrival} {pktlen : ℕ} (h : Accepted a pktlen)
    (hlen : nhgets a.bp.bytes 2 = some pktlen) : Fits (a.piece pktlen) := by
  have hbytes : (a.piece pktlen).bytes = a.bp.bytes.take pktlen := by
    simp only [Arrival.piece, padblock]
    split_ifs <;> rfl
  have hhdr := h.hdr
  have hle := h.len
  refine ⟨?_, fun _ => ?_⟩
  · rw [hbytes, List.length_take]
    simp only [Arrival.piece]
    omega
  · simp only [IP4HDR] at hhdr
    rw [hbytes, nhgets_take (by omega), hlen, List.length_take, min_eq_left hle]

theorem hdrkey_isSome {bs : List UInt8} (h : IP4HDR ≤ bs.length) : (hdrkey bs).isSome := by
  have hget : ∀ i, i + 1 < IP4HDR → ∃ v, nhgets bs i = some v := fun i hi =>
    Option.isSome_iff_exists.1 (nhgets_isSome (by omega))
  obtain ⟨a, ha⟩ := hget 12 (by decide)
  obtain ⟨b, hb⟩ := hget 14 (by decide)
  obtain ⟨c, hc⟩ := hget 16 (by decide)
  obtain ⟨d, hd⟩ := hget 18 (by decide)
  obtain ⟨e, he⟩ := hget 4 (by decide)
  simp [hdrkey, nhgetl, ha, hb, hc, hd, he]

theorem queue_fits {bp : Block} {bs before after gone : List Block} {p : Block → Bool}
    (hbp : Fits bp) (hf : ∀ b ∈ bs, Fits b) (htrim : trim bp (bs.takeWhile p) = some before)
    (hcover : cover (bp.foff + bp.flen) (bs.dropWhile p) = some (after, gone)) :
    ∀ b ∈ before ++ bp :: after, Fits b := by
  have hall : ∀ l l' : List Block, List.Forall₂ Left l l' → (∀ b ∈ l, Fits b) →
      ∀ b ∈ l', Fits b := fun l l' h hl => by
    induction h with
    | nil => simp
    | cons hb _ ih =>
      simp only [List.mem_cons, forall_eq_or_imp] at hl ⊢
      exact ⟨hb.fits hl.1, ih hl.2⟩
  have hdrop : ∀ b ∈ bs.dropWhile p, Fits b := fun b hb => hf b (List.dropWhile_subset p hb)
  obtain ⟨gone', rest, rest', hc, heq, hl⟩ := cover_left (bp.foff + bp.flen) hdrop
  rw [hcover] at hc
  obtain ⟨rfl, rfl⟩ := Prod.mk.inj (Option.some.inj hc)
  intro b hb
  rcases List.mem_append.1 hb with hb | hb
  · exact hall _ _ (trim_left htrim) (fun b hb => hf b (List.takeWhile_subset p hb)) b hb
  · rcases List.mem_cons.1 hb with rfl | hb
    · exact hbp
    · exact hall _ _ hl (fun b hb => hdrop b (by rw [heq]; simp [hb])) b hb

theorem setfrag_piece (a : Arrival) (pktlen : ℕ) :
    setfrag (padblock { a.bp with bytes := a.bp.bytes.take pktlen }) ((a.frag % 0x2000) * 8)
      (pktlen - IP4HDR) = some (a.piece pktlen) := by
  refine if_pos ?_
  simp only [padblock]
  split_ifs with h
  · rfl
  · exact (not_le.1 h).le

theorem ip4reassemble_cases {n : ℕ} {ip : IP} (hs : Sound n ip) (hn : 0 < n) (a : Arrival) :
    ∃ key pktlen ip' out, hdrkey a.bp.bytes = some key ∧ nhgets a.bp.bytes 2 = some pktlen ∧
      ip4reassemble ip a.now a.frag a.bp = some (ip', out) ∧
      (¬ Accepted a pktlen ∧ ip' = ip.freeblist [a.bp] ∧ out = none ∨
        Accepted a pktlen ∧ Did ip key (a.piece pktlen) ip' out) := by
  obtain ⟨key, hkey⟩ := Option.isSome_iff_exists.1 (hdrkey_isSome a.hdr)
  obtain ⟨pktlen, hlen⟩ := Option.isSome_iff_exists.1 (@nhgets_isSome a.bp.bytes 2
    (by have := a.hdr; simp only [IP4HDR] at this; omega))
  suffices h : ∃ ip' out, ip4reassemble ip a.now a.frag a.bp = some (ip', out) ∧
      (¬ Accepted a pktlen ∧ ip' = ip.freeblist [a.bp] ∧ out = none ∨
        Accepted a pktlen ∧ Did ip key (a.piece pktlen) ip' out) by
    obtain ⟨ip', out, h⟩ := h
    exact ⟨key, pktlen, ip', out, hkey, hlen, h⟩
  simp only [ip4reassemble, hkey, hlen, Option.bind_eq_bind, Option.bind_some]
  by_cases h₁ : pktlen < IP4HDR ∨ a.bp.bytes.length < pktlen
  · rw [if_pos h₁]
    refine ⟨_, _, rfl, .inl ⟨fun h => ?_, rfl, rfl⟩⟩
    have := h.hdr
    have := h.len
    omega
  rw [if_neg h₁]
  by_cases h₂ : IP_MAX - IP4HDR - 1 < a.frag % 8192 * 8 ∨
      IP_MAX - IP4HDR - 1 - a.frag % 8192 * 8 < pktlen - IP4HDR ∨
      (more a.frag ∧ (pktlen - IP4HDR) % 8 ≠ 0)
  · rw [if_pos h₂]
    refine ⟨_, _, rfl, .inl ⟨fun h => ?_, rfl, rfl⟩⟩
    rcases h₂ with h₂ | h₂ | ⟨hmore, h₂⟩
    · exact absurd h.posn (not_le.2 h₂)
    · exact absurd h.size (not_le.2 h₂)
    · exact h₂ (h.more hmore)
  rw [if_neg h₂]
  push Not at h₁ h₂
  have hacc : Accepted a pktlen := ⟨h₁.1, h₁.2, h₂.1, h₂.2.1, h₂.2.2⟩
  obtain ⟨hsw, hfound, hnone⟩ := findfrag_swept key a.now hs.slots
    (fun f hf => hf) (slots_nodup hs.slots)
  generalize IP.findfrag key a.now ip.flisthead4 ip = r at hsw hfound hnone
  obtain ⟨ip₁, o⟩ := r
  have hs₁ := hs.swept hsw
  have hfits := piece_fits hacc hlen
  rw [if_neg (not_not.2 a.fragmented), setfrag_piece, Option.bind_some]
  cases o with
  | none =>
    obtain ⟨ip₂, g, fs, hsw₂, hfree, hallo⟩ := ipfragallo4_swept hs₁.slots hn a.now
    have hnot : ∀ h ∈ ip₂.flisthead4, h.slot ≠ g.slot := fun h hh he => by
      have hnd := (hsw₂.slots.trans hs₁.slots).nodup_iff.2 List.nodup_range
      rw [IP.slots, List.map_append, hfree, List.map_cons] at hnd
      exact (List.nodup_append.1 hnd).2.2 h.slot (List.mem_map_of_mem hh) g.slot (by simp) he
    refine ⟨_, none, by simp only [hallo, Option.bind_some]; rfl, .inr ⟨hacc, ?_⟩⟩
    have hset : ∀ f : Fragment4, f.slot = g.slot →
        (IP.setf ⟨{ g with age := a.now + 30000 } :: ip₂.flisthead4, fs, ip₂.freed⟩ f) =
          ⟨f :: ip₂.flisthead4, fs, ip₂.freed⟩ := fun f hf => by
      simp only [IP.setf, List.map_cons, hf, if_true, IP.mk.injEq, List.cons.injEq, true_and,
        and_true]
      conv_rhs => rw [← List.map_id ip₂.flisthead4]
      exact List.map_congr_left fun h hh => by simp [hnot h hh]
    rw [hset ⟨g.slot, key.1, key.2.1, key.2.2, a.now + 30000, [a.piece pktlen]⟩ rfl]
    exact .first (hsw.trans hsw₂) (hnone rfl) hfree rfl rfl rfl
  | some f =>
    obtain ⟨hfkey, hf⟩ := hfound f rfl
    cases htrim : trim (a.piece pktlen) (f.blist.takeWhile (·.foff < (a.piece pktlen).foff)) with
    | none =>
      exact ⟨_, _, by simp only [htrim]; rfl, .inr ⟨hacc, .inside hsw hf hfkey htrim⟩⟩
    | some before =>
      have hfb := hs₁.fits f hf
      obtain ⟨gone, rest, after, hcover, -, -⟩ := cover_left
        ((a.piece pktlen).foff + (a.piece pktlen).flen)
        fun b hb => hfb b (List.dropWhile_subset (·.foff < (a.piece pktlen).foff) hb)
      have hall := queue_fits hfits hfb htrim hcover
      obtain ⟨c, hc⟩ := Option.isSome_iff_exists.1 (complete_isSome hall 0)
      simp only [htrim, hcover, Option.bind_some, hc]
      cases c with
      | false => exact ⟨_, _, rfl, .inr ⟨hacc, .queued hsw hf hfkey htrim hcover hc⟩⟩
      | true =>
        obtain ⟨bl, bs, heq, h₀⟩ := complete_head hc
        have hpacket := packet_eq (heq ▸ hall) h₀
        rw [← heq] at hpacket
        refine ⟨_, _, by simp only [hpacket, if_true, Option.bind_some]; rfl, .inr ⟨hacc, ?_⟩⟩
        exact .returned hsw hf hfkey htrim hcover hc hpacket

def outids (out : Option (List Block)) : List ℕ := out.elim [] ids

theorem Left.ids {l l' : List Block} (h : List.Forall₂ Left l l') : ids l' = ids l := by
  induction h with
  | nil => rfl
  | cons hb _ ih => simp only [Reasm.ids, List.map_cons] at ih ⊢; rw [hb.id, ih]

theorem queue_ids {bp : Block} {bs before after gone : List Block} {p : Block → Bool}
    (hf : ∀ b ∈ bs, Fits b) (htrim : trim bp (bs.takeWhile p) = some before)
    (hcover : cover (bp.foff + bp.flen) (bs.dropWhile p) = some (after, gone)) :
    (ids (before ++ bp :: after) ++ ids gone).Perm (bp.id :: ids bs) := by
  obtain ⟨gone', rest, rest', hc, heq, hl⟩ := cover_left (bp.foff + bp.flen)
    fun b hb => hf b (List.dropWhile_subset p hb)
  rw [hcover] at hc
  obtain ⟨rfl, rfl⟩ := Prod.mk.inj (Option.some.inj hc)
  have h₁ := Left.ids (trim_left htrim)
  have h₂ := Left.ids hl
  have hbs : ids bs = ids (bs.takeWhile p) ++ ids gone ++ ids rest := by
    rw [List.append_assoc, ids, ids, ids, ids, ← List.map_append, ← heq, ← List.map_append,
      List.takeWhile_append_dropWhile]
  refine List.perm_iff_count.2 fun x => ?_
  rw [hbs, show ids (before ++ bp :: after) = ids before ++ bp.id :: ids after by simp [ids], h₁, h₂]
  simp only [List.count_append, List.count_cons]
  omega

theorem packet_ids {bs bl : List Block} (hf : ∀ b ∈ bs, Fits b) (hc : complete 0 bs = some true)
    (h : packet bs = some bl) : ids bl = ids bs := by
  obtain ⟨b, bs, rfl, h₀⟩ := complete_head hc
  rw [packet_eq hf h₀] at h
  cases h
  simp [ids]

theorem Did.sound {n : ℕ} {ip ip' : IP} {key : Key} {bp : Block} {out : Option (List Block)}
    (h : Did ip key bp ip' out) (hs : Sound n ip) (hbp : Fits bp) :
    Sound n ip' ∧ (ip'.held ++ outids out).Perm (bp.id :: ip.held) := by
  cases h with
  | @first ip₁ f g fs hsw hno hfree hslot hkey hb =>
    have hs₁ := hs.swept hsw
    refine ⟨⟨?_, ?_, ?_⟩, ?_⟩
    · refine List.Perm.trans (List.perm_iff_count.2 fun x => ?_) hs₁.slots
      simp only [IP.slots, hfree, List.map_append, List.map_cons, hslot, List.count_append,
        List.count_cons]
      omega
    · refine List.nodup_cons.2 ⟨fun hmem => ?_, hs₁.keys⟩
      obtain ⟨h, hh, he⟩ := List.mem_map.1 hmem
      exact hno h (hsw.sub.subset hh) (he.trans hkey)
    · intro h hh b hmem
      rcases List.mem_cons.1 hh with rfl | hh
      · rw [hb, List.mem_singleton] at hmem
        exact hmem ▸ hbp
      · exact hs₁.fits h hh b hmem
    · refine List.Perm.trans (List.perm_iff_count.2 fun x => ?_) (hsw.held.cons bp.id)
      simp [IP.held, hb, ids, outids]
  | @inside ip₁ f hsw hf hkey htrim =>
    have hs₁ := hs.swept hsw
    refine ⟨⟨hs₁.slots, hs₁.keys, hs₁.fits⟩, ?_⟩
    refine List.Perm.trans (List.perm_iff_count.2 fun x => ?_) (hsw.held.cons bp.id)
    simp only [IP.held, IP.freeblist, ids, outids, Option.elim_none, List.append_nil,
      List.count_append, List.count_cons, List.map_cons, List.map_nil, List.count_nil]
    omega
  | @queued ip₁ f before after gone hsw hf hkey htrim hcover hc =>
    have hs₁ := hs.swept hsw
    have hall := queue_fits hbp (hs₁.fits f hf) htrim hcover
    have hids := queue_ids (hs₁.fits f hf) htrim hcover
    obtain ⟨l₁, l₂, hl, hset⟩ := split (slots_nodup hs₁.slots) hf
    have he := (hset { f with blist := before ++ bp :: after } rfl).2
    rw [hl] at he
    refine ⟨⟨?_, ?_, ?_⟩, ?_⟩
    · refine List.Perm.trans (List.Perm.of_eq ?_) hs₁.slots
      simp only [IP.slots, IP.setf, IP.freeblist, hl, he, List.map_append, List.map_cons]
    · have hk := hs₁.keys
      simp only [IP.setf, IP.freeblist, hl, he, List.map_append, List.map_cons] at hk ⊢
      exact hk
    · intro h hh b hmem
      simp only [IP.setf, IP.freeblist, hl, he] at hh
      rcases List.mem_append.1 hh with hh | hh
      · exact hs₁.fits h (by simp [hl, hh]) b hmem
      · rcases List.mem_cons.1 hh with rfl | hh
        · exact hall b hmem
        · exact hs₁.fits h (by simp [hl, hh]) b hmem
    · refine List.Perm.trans (List.perm_iff_count.2 fun x => ?_) (hsw.held.cons bp.id)
      have := List.perm_iff_count.1 hids x
      simp only [IP.held, IP.setf, IP.freeblist, hl, he, outids, Option.elim_none,
        List.flatMap_append, List.flatMap_cons, List.count_append, List.count_cons,
        List.count_nil] at this ⊢
      omega
  | @returned ip₁ f before after gone bl hsw hf hkey htrim hcover hc hpacket =>
    have hs₁ := hs.swept hsw
    have hall := queue_fits hbp (hs₁.fits f hf) htrim hcover
    have hids := queue_ids (hs₁.fits f hf) htrim hcover
    rw [← packet_ids hall hc hpacket] at hids
    obtain ⟨l₁, l₂, hl, hset⟩ := split (slots_nodup hs₁.slots) hf
    have he := (hset { f with blist := [] } rfl).1
    rw [hl] at he
    refine ⟨⟨?_, ?_, ?_⟩, ?_⟩
    · refine List.Perm.trans (List.perm_iff_count.2 fun x => ?_) hs₁.slots
      simp only [IP.slots, IP.ipfragfree4, IP.freeblist, hl, he, List.map_append, List.map_cons,
        List.count_append, List.count_cons]
      omega
    · have hk := hs₁.keys
      simp only [IP.ipfragfree4, IP.freeblist, hl, he]
      rw [hl] at hk
      exact hk.sublist (((List.sublist_cons_self f l₂).append_left l₁).map _)
    · intro h hh b hmem
      simp only [IP.ipfragfree4, IP.freeblist, hl, he] at hh
      exact hs₁.fits h (by rw [hl]; grind) b hmem
    · refine List.Perm.trans (List.perm_iff_count.2 fun x => ?_) (hsw.held.cons bp.id)
      have := List.perm_iff_count.1 hids x
      simp only [IP.held, IP.ipfragfree4, IP.freeblist, hl, he, outids, Option.elim_some,
        List.flatMap_append, List.flatMap_cons, List.count_append, List.count_cons, ids,
        List.map_nil, List.count_nil] at this ⊢
      omega

theorem ip4reassemble_sound {n : ℕ} {ip : IP} (hs : Sound n ip) (hn : 0 < n) (a : Arrival) :
    ∃ ip' out, ip4reassemble ip a.now a.frag a.bp = some (ip', out) ∧ Sound n ip' ∧
      (ip'.held ++ outids out).Perm (a.bp.id :: ip.held) := by
  obtain ⟨key, pktlen, ip', out, -, hlen, h, ⟨-, rfl, rfl⟩ | ⟨hacc, hdid⟩⟩ :=
    ip4reassemble_cases hs hn a
  · refine ⟨_, _, h, ⟨hs.slots, hs.keys, hs.fits⟩, List.perm_iff_count.2 fun x => ?_⟩
    simp only [IP.held, IP.freeblist, ids, outids, Option.elim_none, List.append_nil,
      List.count_append, List.count_cons, List.map_cons, List.map_nil, List.count_nil]
    omega
  · have hid : (a.piece pktlen).id = a.bp.id := by
      simp only [Arrival.piece, padblock]
      split_ifs <;> rfl
    obtain ⟨hs', hheld⟩ := hdid.sound hs (piece_fits hacc hlen)
    exact ⟨_, _, h, hs', hid ▸ hheld⟩

end Infernode.Reasm
