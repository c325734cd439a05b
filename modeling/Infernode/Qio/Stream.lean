import Infernode.Qio.Blocks

/-!
# The bytes and messages of a queue

`Stream` is what every step keeps: the bytes delivered, those a reader copies from
and those queued stand in the order in which they were queued, with the rest
dropped; the counters and the last pointer are right; a queue of messages keeps its
messages apart. A step takes blocks off the front, `Front`, or queues new ones.
-/

namespace Infernode.Qio
open Infernode.Lib

variable {α : Type*}

structure Pipe (α : Type*) where
  q : Queue α
  reader : Reader α
  fresh : ℕ
  entered : List (Entry α)
  delivered : List (Delivery α)
  dropped : List α
  pulled : Bool
  skimmed : Bool
  shut : Bool

def State.pipe (s : State α) : Pipe α :=
  ⟨s.q, s.reader, s.fresh, s.log.entered, s.log.delivered, s.log.dropped, s.log.pulled,
    s.log.skimmed, s.log.shut⟩

@[simp] theorem pipe_setcall (s : State α) (w : ℕ) (c : Option (Call α)) :
    (s.setcall w c).pipe = s.pipe := rfl

@[simp] theorem pipe_next (s : State α) (w : ℕ) (c : Call α) : (s.next w c).pipe = s.pipe := by
  rw [State.next]
  split_ifs <;> rfl

def Pipe.live (p : Pipe α) : List (Block α) :=
  p.reader.held ++ p.q.bfirst

def inbytes (es : List (Entry α)) : List α :=
  es.flatMap Entry.data

def outbytes (ds : List (Delivery α)) : List α :=
  ds.flatMap Delivery.data

def Copying (coalesce : Bool) : Reader α → Prop
  | .copying first n len =>
    n = blocklen first ∧ (blocklen first ≤ len ∧ first ≠ [] ∨ ∃ b, first = [b]) ∧
      (coalesce = false → ∃ b, first = [b])
  | _ => True

def Pipe.Plain (p : Pipe α) : Prop :=
  p.q.msg = true ∧ p.q.coalesce = false ∧ p.pulled = false

def Left (skimmed : Bool) (m data : List α) : Prop :=
  ∃ k, data = m.drop k ∧ (skimmed = false → k = 0)

structure Messages (p : Pipe α) : Prop where
  order : InOrder (p.entered.map Entry.id) (p.delivered.map Delivery.id) (p.live.map Block.id)
  whole : ∀ b ∈ p.live, ∃ e ∈ p.entered, e.id = b.id ∧ Left p.skimmed e.data b.data
  part : ∀ d ∈ p.delivered, ∃ e ∈ p.entered, e.id = d.id ∧
    ∃ m, Left p.skimmed e.data m ∧ d.data <+: m

structure Stream (p : Pipe α) : Prop where
  order : InOrder (inbytes p.entered) (outbytes p.delivered) (bytes p.live)
  account : Accounts (inbytes p.entered) (outbytes p.delivered) (bytes p.live) p.dropped
  counted : p.pulled = false → p.q.Counted
  last : p.q.Last
  nodup : (p.live.map Block.id).Nodup
  below : ∀ b ∈ p.live, b.id < p.fresh
  entered_nodup : (p.entered.map Entry.id).Nodup
  entered_below : ∀ e ∈ p.entered, e.id < p.fresh
  copying : Copying p.q.coalesce p.reader
  shut : p.shut = true → p.q.closed = true ∧ p.live = []
  messages : p.Plain → Messages p

structure Kept (p p' : Pipe α) : Prop where
  entered : p'.entered = p.entered
  fresh : p.fresh ≤ p'.fresh
  counted : p'.pulled = false → p'.q.Counted
  last : p'.q.Last
  copying : Copying p'.q.coalesce p'.reader
  shut : p'.shut = true → p'.q.closed = true ∧ p'.live = []
  plain : p'.Plain → p.Plain
  skimmed : p'.skimmed = false → p.skimmed = false

/-- From `p` to `p'` the blocks `front` become `back`, with `ds` delivered and `gone`
dropped; `rest` stays behind them. -/
structure Front (p p' : Pipe α) (front back rest : List (Block α)) (ds : List (Delivery α))
    (gone : List α) : Prop extends Kept p p' where
  live : p.live = front ++ rest
  live' : p'.live = back ++ rest
  delivered : p'.delivered = p.delivered ++ ds
  dropped : p'.dropped = p.dropped ++ gone
  order : (outbytes ds ++ bytes back).Sublist (bytes front)
  account : (bytes front).Perm (outbytes ds ++ bytes back ++ gone)
  nodup : (back.map Block.id).Nodup
  ids : ∀ b ∈ back, b.id ∈ front.map Block.id ∨ p.fresh ≤ b.id ∧ b.id < p'.fresh
  messages : p'.Plain → (ds.map Delivery.id ++ back.map Block.id).Sublist (front.map Block.id) ∧
    (∀ d ∈ ds, ∃ b ∈ front, b.id = d.id ∧ d.data <+: b.data) ∧
    ∀ c ∈ back, ∃ b ∈ front, b.id = c.id ∧ Left p'.skimmed b.data c.data

variable {p p' : Pipe α} {front back rest bs : List (Block α)} {ds : List (Delivery α)}
  {gone : List α}

theorem Left.refl (skimmed : Bool) (m : List α) : Left skimmed m m :=
  ⟨0, by simp, fun _ => rfl⟩

theorem Left.mono {skimmed skimmed' : Bool} {m data : List α} (h : Left skimmed m data)
    (hs : skimmed' = false → skimmed = false) : Left skimmed' m data := by
  obtain ⟨k, hk, hzero⟩ := h
  exact ⟨k, hk, fun hs' => hzero (hs hs')⟩

theorem Left.trans {skimmed : Bool} {m data data' : List α} (h : Left skimmed m data)
    (h' : Left skimmed data data') : Left skimmed m data' := by
  obtain ⟨k, rfl, hk⟩ := h
  obtain ⟨l, rfl, hl⟩ := h'
  refine ⟨k + l, by rw [List.drop_drop], fun hs => ?_⟩
  rw [hk hs, hl hs]

@[simp] theorem outbytes_append (ds es : List (Delivery α)) :
    outbytes (ds ++ es) = outbytes ds ++ outbytes es := by
  simp [outbytes]

@[simp] theorem inbytes_append (es fs : List (Entry α)) :
    inbytes (es ++ fs) = inbytes es ++ inbytes fs := by
  simp [inbytes]

theorem Messages.moves (h : Messages p) (hf : Front p p' front back rest ds gone)
    (hp : p'.Plain) : Messages p' := by
  obtain ⟨hids, hds, hback⟩ := hf.messages hp
  have horder := h.order
  have hwhole := h.whole
  rw [hf.live] at horder hwhole
  constructor
  · rw [hf.entered, hf.delivered, hf.live', List.map_append, List.map_append]
    rw [List.map_append] at horder
    exact horder.move hids
  · rw [hf.live', hf.entered]
    intro c hc
    rcases List.mem_append.mp hc with hc | hc
    · obtain ⟨b, hb, hbc, hleft⟩ := hback c hc
      obtain ⟨e, he, heb, hleft'⟩ := hwhole b (by simp [hb])
      exact ⟨e, he, heb.trans hbc, (hleft'.mono hf.skimmed).trans hleft⟩
    · obtain ⟨e, he, hec, hleft⟩ := hwhole c (by simp [hc])
      exact ⟨e, he, hec, hleft.mono hf.skimmed⟩
  · rw [hf.delivered, hf.entered]
    intro d hd
    rcases List.mem_append.mp hd with hd | hd
    · obtain ⟨e, he, hed, m, hm, hpre⟩ := h.part d hd
      exact ⟨e, he, hed, m, hm.mono hf.skimmed, hpre⟩
    · obtain ⟨b, hb, hbd, hpre⟩ := hds d hd
      obtain ⟨e, he, heb, hleft⟩ := hwhole b (by simp [hb])
      exact ⟨e, he, heb.trans hbd, b.data, hleft.mono hf.skimmed, hpre⟩

theorem Stream.moves (h : Stream p) (hf : Front p p' front back rest ds gone) : Stream p' := by
  have hnodup := h.nodup
  have hbelow := h.below
  rw [hf.live] at hnodup hbelow
  rw [List.map_append] at hnodup
  constructor
  · rw [hf.entered, hf.delivered, hf.live', outbytes_append, bytes_append]
    have horder := h.order
    rw [hf.live, bytes_append] at horder
    exact horder.move hf.order
  · rw [hf.entered, hf.delivered, hf.live', hf.dropped, outbytes_append, bytes_append]
    have haccount := h.account
    rw [hf.live, bytes_append] at haccount
    exact haccount.move hf.account
  · exact hf.counted
  · exact hf.last
  · rw [hf.live', List.map_append]
    refine hf.nodup.append hnodup.of_append_right ?_
    intro i hi hrest
    obtain ⟨b, hb, rfl⟩ := List.mem_map.mp hi
    obtain ⟨c, hc, hcb⟩ := List.mem_map.mp hrest
    rcases hf.ids b hb with hfront | ⟨hfresh, -⟩
    · exact (List.nodup_append.mp hnodup).2.2 _ hfront _ hrest rfl
    · have hlt := hbelow c (by simp [hc])
      omega
  · rw [hf.live']
    intro b hb
    rcases List.mem_append.mp hb with hb | hb
    · rcases hf.ids b hb with hfront | ⟨-, hlt⟩
      · obtain ⟨c, hc, hcb⟩ := List.mem_map.mp hfront
        have hlt := hbelow c (by simp [hc])
        have hle := hf.fresh
        omega
      · exact hlt
    · exact (hbelow b (by simp [hb])).trans_le hf.fresh
  · rw [hf.entered]
    exact h.entered_nodup
  · rw [hf.entered]
    exact fun e he => (h.entered_below e he).trans_le hf.fresh
  · exact hf.copying
  · exact hf.shut
  · exact fun hp => (h.messages (hf.plain hp)).moves hf hp

theorem Stream.kept (h : Stream p) (hentered : p'.entered = p.entered)
    (hfresh : p.fresh ≤ p'.fresh) (hcounted : p.pulled = false → p'.q.Counted)
    (hlast : p'.q.Last) (hcopy : Copying p'.q.coalesce p'.reader)
    (hclosed : p.q.closed = true → p'.q.closed = true) (hlive : p.live = [] → p'.live = [])
    (hmsg : p'.q.msg = p.q.msg) (hcoalesce : p'.q.coalesce = p.q.coalesce)
    (hflags : p'.pulled = p.pulled ∧ p'.skimmed = p.skimmed ∧ p'.shut = p.shut) : Kept p p' := by
  obtain ⟨hpulled, hskimmed, hshut⟩ := hflags
  constructor
  · exact hentered
  · exact hfresh
  · exact fun hp => hcounted (hpulled ▸ hp)
  · exact hlast
  · exact hcopy
  · intro hs
    obtain ⟨hc, hl⟩ := h.shut (hshut ▸ hs)
    exact ⟨hclosed hc, hlive hl⟩
  · rintro ⟨hm, hc, hp⟩
    exact ⟨hmsg ▸ hm, hcoalesce ▸ hc, hpulled ▸ hp⟩
  · exact fun hs => hskimmed ▸ hs

theorem Stream.quiet (h : Stream p) (hk : Kept p p') (hlive : p'.live = p.live)
    (hdelivered : p'.delivered = p.delivered) (hdropped : p'.dropped = p.dropped) :
    Stream p' := by
  have hfront : Front p p' [] [] p.live [] [] :=
    { hk with
      live := rfl
      live' := hlive
      delivered := by simpa using hdelivered
      dropped := by simpa using hdropped
      order := by simp [outbytes]
      account := by simp [outbytes]
      nodup := by simp
      ids := by simp
      messages := by simp }
  exact h.moves hfront

theorem Stream.leaves {b : Block α} {d : List α} (h : Stream p) (hk : Kept p p')
    (hlive : p.live = b :: rest) (hlive' : p'.live = rest)
    (hdelivered : p'.delivered = p.delivered ++ [⟨b.id, d⟩])
    (hdropped : p'.dropped = p.dropped ++ gone) (hdata : b.data = d ++ gone) : Stream p' := by
  have hfront : Front p p' [b] [] rest [⟨b.id, d⟩] gone :=
    { hk with
      live := by simpa using hlive
      live' := by simpa using hlive'
      delivered := hdelivered
      dropped := hdropped
      order := by simp [outbytes, hdata]
      account := by simp [outbytes, hdata]
      nodup := by simp
      ids := by simp
      messages := by simp [hdata] }
  exact h.moves hfront

theorem Stream.splits {b c : Block α} {d : List α} (h : Stream p) (hk : Kept p p')
    (hlive : p.live = b :: rest) (hlive' : p'.live = c :: rest)
    (hdelivered : p'.delivered = p.delivered ++ [⟨b.id, d⟩]) (hdropped : p'.dropped = p.dropped)
    (hdata : b.data = d ++ c.data) (hid : c.id = b.id ∨ p.fresh ≤ c.id ∧ c.id < p'.fresh)
    (hmsg : p'.q.msg = false) : Stream p' := by
  have hfront : Front p p' [b] [c] rest [⟨b.id, d⟩] [] :=
    { hk with
      live := by simpa using hlive
      live' := by simpa using hlive'
      delivered := hdelivered
      dropped := by simpa using hdropped
      order := by simp [outbytes, hdata]
      account := by simp [outbytes, hdata]
      nodup := by simp
      ids := by simpa using hid
      messages := fun hp => by simp [Pipe.Plain, hmsg] at hp }
  exact h.moves hfront

structure Enters (p p' : Pipe α) (w : ℕ) (bs : List (Block α)) : Prop where
  bfirst : p'.q.bfirst = p.q.bfirst ++ bs
  reader : p'.reader = p.reader
  fresh : p'.fresh = p.fresh + bs.length
  entered : p'.entered = p.entered ++ bs.map (fun b => ⟨w, b.id, b.data⟩)
  delivered : p'.delivered = p.delivered
  dropped : p'.dropped = p.dropped
  ids : bs.map Block.id = List.range' p.fresh bs.length
  counted : p'.pulled = false → p'.q.Counted
  last : p'.q.Last
  coalesce : p'.q.coalesce = p.q.coalesce
  shut : p'.shut = false
  plain : p'.Plain → p.Plain
  skimmed : p'.skimmed = p.skimmed

theorem inbytes_map (w : ℕ) (bs : List (Block α)) :
    inbytes (bs.map fun b => ⟨w, b.id, b.data⟩) = bytes bs := by
  simp [inbytes, bytes, List.flatMap_map]

theorem entry_ids (w : ℕ) (bs : List (Block α)) :
    (bs.map fun b => (⟨w, b.id, b.data⟩ : Entry α)).map Entry.id = bs.map Block.id := by
  simp [Function.comp_def]

theorem Enters.live {w : ℕ} (he : Enters p p' w bs) : p'.live = p.live ++ bs := by
  rw [Pipe.live, Pipe.live, he.reader, he.bfirst, List.append_assoc]

theorem Enters.mem_ids {w : ℕ} (he : Enters p p' w bs) {b : Block α} (hb : b ∈ bs) :
    p.fresh ≤ b.id ∧ b.id < p'.fresh := by
  have hmem := List.mem_map_of_mem (f := Block.id) hb
  rw [he.ids, List.mem_range'_1] at hmem
  rw [he.fresh]
  exact hmem

theorem Messages.enters {w : ℕ} (h : Messages p) (he : Enters p p' w bs) : Messages p' := by
  constructor
  · rw [he.live, he.entered, he.delivered, List.map_append, List.map_append, entry_ids]
    exact h.order.enter _
  · rw [he.live, he.entered, he.skimmed]
    intro b hb
    rcases List.mem_append.mp hb with hb | hb
    · obtain ⟨e, hmem, hid, hleft⟩ := h.whole b hb
      exact ⟨e, by simp [hmem], hid, hleft⟩
    · exact ⟨_, List.mem_append_right _ (List.mem_map_of_mem hb), rfl, Left.refl _ _⟩
  · rw [he.delivered, he.entered, he.skimmed]
    intro d hd
    obtain ⟨e, hmem, hpart⟩ := h.part d hd
    exact ⟨e, by simp [hmem], hpart⟩

theorem Stream.enters {w : ℕ} (h : Stream p) (he : Enters p p' w bs) : Stream p' := by
  have hids : (bs.map Block.id).Nodup := by
    rw [he.ids]
    exact List.nodup_range'
  constructor
  · rw [he.live, he.entered, he.delivered, inbytes_append, inbytes_map, bytes_append]
    exact h.order.enter _
  · rw [he.live, he.entered, he.delivered, he.dropped, inbytes_append, inbytes_map, bytes_append]
    exact h.account.enter _
  · exact he.counted
  · exact he.last
  · rw [he.live, List.map_append]
    refine h.nodup.append hids ?_
    intro i hi hnew
    obtain ⟨b, hb, rfl⟩ := List.mem_map.mp hi
    obtain ⟨c, hc, hcb⟩ := List.mem_map.mp hnew
    have hlt := h.below b hb
    have hge := (he.mem_ids hc).1
    omega
  · rw [he.live]
    intro b hb
    rcases List.mem_append.mp hb with hb | hb
    · have hlt := h.below b hb
      have hfresh := he.fresh
      omega
    · exact (he.mem_ids hb).2
  · rw [he.entered, List.map_append, entry_ids]
    refine h.entered_nodup.append hids ?_
    intro i hi hnew
    obtain ⟨e, hmem, rfl⟩ := List.mem_map.mp hi
    obtain ⟨c, hc, hcb⟩ := List.mem_map.mp hnew
    have hlt := h.entered_below e hmem
    have hge := (he.mem_ids hc).1
    omega
  · rw [he.entered]
    intro e hmem
    rcases List.mem_append.mp hmem with hmem | hmem
    · have hlt := h.entered_below e hmem
      have hfresh := he.fresh
      omega
    · obtain ⟨b, hb, rfl⟩ := List.mem_map.mp hmem
      exact (he.mem_ids hb).2
  · rw [he.coalesce, he.reader]
    exact h.copying
  · simp [he.shut]
  · exact fun hp => (h.messages (he.plain hp)).enters he

end Infernode.Qio
