import Infernode.Qio.Procs
import Infernode.Lib.Runs

/-!
# What the operations do to the blocks

The counters and the last pointer agree with the blocks queued, and each operation
keeps that. An operation that takes whole blocks off the front is `Queue.without`.
-/

namespace Infernode.Qio
open Infernode.Lib

variable {α : Type*} {q : Queue α} {b : Block α} {bs gone rest : List (Block α)}

@[simp] theorem blocklen_nil : blocklen ([] : List (Block α)) = 0 := rfl

@[simp] theorem blocklen_cons (b : Block α) (bs : List (Block α)) :
    blocklen (b :: bs) = b.BLEN + blocklen bs := by
  simp [blocklen]

@[simp] theorem blocklen_append (bs cs : List (Block α)) :
    blocklen (bs ++ cs) = blocklen bs + blocklen cs := by
  simp [blocklen]

@[simp] theorem blockalloclen_nil : blockalloclen ([] : List (Block α)) = 0 := rfl

@[simp] theorem blockalloclen_cons (b : Block α) (bs : List (Block α)) :
    blockalloclen (b :: bs) = b.BALLOC + blockalloclen bs := by
  simp [blockalloclen]

@[simp] theorem blockalloclen_append (bs cs : List (Block α)) :
    blockalloclen (bs ++ cs) = blockalloclen bs + blockalloclen cs := by
  simp [blockalloclen]

@[simp] theorem bytes_nil : bytes ([] : List (Block α)) = [] := rfl

@[simp] theorem bytes_cons (b : Block α) (bs : List (Block α)) :
    bytes (b :: bs) = b.data ++ bytes bs := by
  simp [bytes]

@[simp] theorem bytes_append (bs cs : List (Block α)) :
    bytes (bs ++ cs) = bytes bs ++ bytes cs := by
  simp [bytes]

theorem bytes_length (bs : List (Block α)) : (bytes bs).length = blocklen bs := by
  induction bs with
  | nil => rfl
  | cons b bs ih => simp [ih, Block.BLEN]

theorem blocklen_le_alloc (bs : List (Block α)) : blocklen bs ≤ blockalloclen bs := by
  induction bs with
  | nil => rfl
  | cons b bs ih =>
    have hb : b.BLEN ≤ b.BALLOC := by
      simp only [Block.BLEN, Block.BALLOC]
      omega
    simp only [blocklen_cons, blockalloclen_cons]
    omega

theorem BALLOC_advance {n : ℕ} (h : n ≤ b.BLEN) : (b.advance n).BALLOC = b.BALLOC := by
  simp only [Block.BLEN, Block.BALLOC, Block.advance, List.length_drop] at *
  omega

theorem BLEN_advance (b : Block α) (n : ℕ) : (b.advance n).BLEN = b.BLEN - n := by
  simp [Block.BLEN, Block.advance]

def Queue.Counted (q : Queue α) : Prop :=
  q.len = blockalloclen q.bfirst ∧ q.dlen = blocklen q.bfirst

def Queue.Last (q : Queue α) : Prop :=
  ∀ b ∈ q.bfirst.getLast?, q.blast = b.id

def Queue.without (q : Queue α) (gone rest : List (Block α)) : Queue α :=
  { q with
    bfirst := rest
    len := q.len - blockalloclen gone
    dlen := q.dlen - blocklen gone }

theorem without_nil (hq : q.bfirst = bs) : q.without [] bs = q := by
  subst hq
  simp [Queue.without]

theorem qremove_eq (q : Queue α) (b : Block α) (bs : List (Block α)) :
    q.qremove b bs = q.without [b] bs := by
  simp [Queue.without, Queue.qremove]

theorem qremove_without (q : Queue α) (b : Block α) (bs gone rest : List (Block α)) :
    (q.qremove b bs).without gone rest = q.without (b :: gone) rest := by
  simp only [Queue.without, Queue.qremove, blockalloclen_cons, blocklen_cons]
  congr 1 <;> push_cast <;> ring

theorem Queue.Counted.without (h : q.Counted) (hq : q.bfirst = gone ++ rest) :
    (q.without gone rest).Counted := by
  obtain ⟨hlen, hdlen⟩ := h
  rw [hq] at hlen hdlen
  constructor
  · simp only [Queue.without, hlen, blockalloclen_append]
    push_cast
    ring
  · simp only [Queue.without, hdlen, blocklen_append]
    push_cast
    ring

theorem Queue.Last.without (h : q.Last) (hq : q.bfirst = gone ++ rest) :
    (q.without gone rest).Last := by
  intro b hb
  refine h b ?_
  have hrest : rest.getLast? = some b := hb
  simp [hq, List.getLast?_append, hrest]

theorem Queue.Counted.qremove (h : q.Counted) (hq : q.bfirst = b :: bs) :
    (q.qremove b bs).Counted := by
  rw [qremove_eq]
  exact h.without hq

theorem Queue.Last.qremove (h : q.Last) (hq : q.bfirst = b :: bs) : (q.qremove b bs).Last := by
  rw [qremove_eq]
  exact @Queue.Last.without _ q [b] bs h hq

@[simp] theorem qwakeup_msg (q : Queue α) : q.qwakeup.msg = q.msg := rfl

@[simp] theorem qputback_msg (q : Queue α) (b : Block α) : (q.qputback b).msg = q.msg := rfl

theorem Queue.Counted.qwakeup (h : q.Counted) : q.qwakeup.Counted := h

theorem Queue.Last.qwakeup (h : q.Last) : q.qwakeup.Last := h

theorem Queue.Counted.advance {k : ℕ} (h : q.Counted) (hq : q.bfirst = b :: bs) (hk : k ≤ b.BLEN) :
    Queue.Counted { q with bfirst := b.advance k :: bs, dlen := q.dlen - k } := by
  obtain ⟨hlen, hdlen⟩ := h
  rw [hq] at hlen hdlen
  constructor
  · simp only [hlen, blockalloclen_cons, BALLOC_advance hk]
  · simp only [hdlen, blocklen_cons, BLEN_advance]
    omega

theorem Queue.Last.advance {k : ℕ} (h : q.Last) (hq : q.bfirst = b :: bs) (d : ℤ) :
    Queue.Last { q with bfirst := b.advance k :: bs, dlen := d } := by
  intro c hc
  cases bs with
  | nil =>
    obtain rfl : b.advance k = c := by simpa using hc
    exact h b (by simp [hq])
  | cons e es => exact h c (by rw [hq]; simpa using hc)

theorem link_last {blast : ℕ} {new : List (Block α)} (hbs : bs ≠ [])
    (hlast : ∀ b ∈ bs.getLast?, blast = b.id) (hnodup : (bs.map Block.id).Nodup) :
    link blast new bs = bs ++ new := by
  induction bs with
  | nil => exact absurd rfl hbs
  | cons b bs ih =>
    cases bs with
    | nil =>
      have hb : blast = b.id := hlast b (by simp)
      simp [link, hb]
    | cons c cs =>
      have hlast' : ∀ d ∈ (c :: cs).getLast?, blast = d.id := fun d hd => hlast d (by simpa using hd)
      have hb : b.id ≠ blast := by
        intro hb
        obtain ⟨d, hd⟩ : ∃ d, d ∈ (c :: cs).getLast? :=
          ⟨_, List.getLast?_eq_getLast_of_ne_nil (List.cons_ne_nil c cs)⟩
        refine (List.nodup_cons.mp hnodup).1 (List.mem_map.mpr ⟨d, List.mem_of_getLast? hd, ?_⟩)
        rw [hb, hlast' d hd]
      rw [link, if_neg hb, ih (by simp) hlast' hnodup.of_cons]
      rfl

theorem qaddlist_bfirst (h : q.Last) (hnodup : (q.bfirst.map Block.id).Nodup) :
    (q.qaddlist bs).bfirst = q.bfirst ++ bs := by
  cases hq : q.bfirst with
  | nil => simp [Queue.qaddlist, hq]
  | cons c cs =>
    simp only [Queue.qaddlist, hq]
    rw [← hq]
    exact link_last (by simp [hq]) h hnodup

theorem Queue.Last.qaddlist (h : q.Last) (hnodup : (q.bfirst.map Block.id).Nodup) :
    (q.qaddlist bs).Last := by
  intro b hb
  rw [qaddlist_bfirst h hnodup, List.getLast?_append] at hb
  simp only [Queue.qaddlist, lastid]
  cases hbs : bs.getLast? with
  | none =>
    rw [hbs] at hb
    exact h b (by simpa using hb)
  | some c =>
    rw [hbs] at hb
    obtain rfl : c = b := by simpa using hb
    rfl

theorem Queue.Counted.qaddlist (hc : q.Counted) (h : q.Last)
    (hnodup : (q.bfirst.map Block.id).Nodup) : (q.qaddlist bs).Counted := by
  obtain ⟨hlen, hdlen⟩ := hc
  rw [Queue.Counted, qaddlist_bfirst h hnodup, blockalloclen_append, blocklen_append]
  constructor
  · simp [Queue.qaddlist, hlen]
  · simp [Queue.qaddlist, hdlen]

theorem Queue.Counted.qputback (h : q.Counted) (b : Block α) : (q.qputback b).Counted := by
  obtain ⟨hlen, hdlen⟩ := h
  constructor
  · simp only [Queue.qputback, hlen, blockalloclen_cons]
    push_cast
    ring
  · simp only [Queue.qputback, hdlen, blocklen_cons]
    push_cast
    ring

theorem Queue.Last.qputback (h : q.Last) (b : Block α) : (q.qputback b).Last := by
  intro c hc
  cases hq : q.bfirst with
  | nil =>
    simp only [Queue.qputback, hq] at hc ⊢
    obtain rfl : b = c := by simpa using hc
    rfl
  | cons d ds =>
    simp only [Queue.qputback, hq] at hc ⊢
    refine h c ?_
    rw [hq]
    simpa using hc

theorem shed_eq (hq : q.bfirst = bs) :
    ∃ gone rest, bs = gone ++ rest ∧ bytes gone = [] ∧ shed bs q = q.without gone rest := by
  induction bs generalizing q with
  | nil => exact ⟨[], [], rfl, rfl, by rw [shed, without_nil hq]⟩
  | cons b bs ih =>
    rw [shed]
    split_ifs with hb
    · obtain ⟨gone, rest, hbs, hbytes, hshed⟩ := ih (q := q.qremove b bs) rfl
      refine ⟨b :: gone, rest, by simp [hbs], ?_, ?_⟩
      · simp [hbytes, List.length_eq_zero_iff.mp hb]
      · rw [hshed, qremove_without]
    · exact ⟨[], b :: bs, rfl, rfl, (without_nil hq).symm⟩

theorem grab_eq (len n : ℕ) (hq : q.bfirst = bs) :
    ∃ gone rest, bs = gone ++ rest ∧
      grab len bs n q = (gone, n + blocklen gone, q.without gone rest) ∧
      (gone = [] ∨ n + blocklen gone ≤ len) := by
  induction bs generalizing q n with
  | nil => exact ⟨[], [], rfl, by rw [grab, without_nil hq]; rfl, .inl rfl⟩
  | cons b bs ih =>
    rw [grab]
    split_ifs with hb
    · exact ⟨[], b :: bs, rfl, by rw [without_nil hq]; rfl, .inl rfl⟩
    · obtain ⟨gone, rest, hbs, hgrab, hfit⟩ := ih (n + b.BLEN) (q := q.qremove b bs) rfl
      refine ⟨b :: gone, rest, by simp [hbs], ?_, .inr ?_⟩
      · rw [hgrab, qremove_without, blocklen_cons]
        simp only [Prod.mk.injEq, true_and, and_true]
        ring
      · rw [blocklen_cons]
        rcases hfit with rfl | hfit
        · simp only [blocklen_nil]
          omega
        · omega

theorem take_eq (len : ℕ) (hq : q.bfirst = b :: bs) :
    ∃ first rest, b :: bs = first ++ rest ∧
      q.take len = (first, blocklen first, q.without first rest) ∧
      (blocklen first ≤ len ∧ first ≠ [] ∨ first = [b]) ∧ (q.coalesce = false → first = [b]) := by
  simp only [Queue.take, hq]
  split_ifs with hc
  · obtain ⟨gone, rest, hbs, hgrab, hfit⟩ := @grab_eq _ (q.qremove b bs) bs len b.BLEN rfl
    refine ⟨b :: gone, rest, by simp [hbs], ?_, ?_, by simp [hc]⟩
    · rw [hgrab, qremove_without, blocklen_cons]
    · rcases hfit with rfl | hfit
      · exact .inr rfl
      · exact .inl ⟨by simpa using hfit, by simp⟩
  · exact ⟨[b], bs, rfl, by rw [qremove_eq]; simp, .inr rfl, fun _ => rfl⟩

theorem bl2mem_fits {n : ℕ} (h : blocklen bs ≤ n) : bl2mem n bs = (bytes bs, []) := by
  induction bs generalizing n with
  | nil => rfl
  | cons b bs ih =>
    rw [blocklen_cons] at h
    rw [bl2mem, if_neg (by omega), ih (by omega), bytes_cons]

theorem bl2mem_part {n : ℕ} (h : n < b.BLEN) :
    bl2mem n [b] = (b.data.take n, [b.advance n]) := by
  rw [bl2mem, if_pos h]

theorem discardloop_eq (left : ℕ) (hq : q.bfirst = bs) :
    (∃ gone rest, bs = gone ++ rest ∧ (blocklen gone = left ∨ blocklen gone ≤ left ∧ rest = []) ∧
      discardloop bs left q = q.without gone rest ∧ cuts bs left = false) ∨
    ∃ gone b rest k, bs = gone ++ b :: rest ∧ left = blocklen gone + k ∧ k < b.BLEN ∧
      discardloop bs left q =
        { q.without gone (b.advance k :: rest) with dlen := q.dlen - blocklen gone - k } ∧
      cuts bs left = true := by
  induction bs generalizing q left with
  | nil =>
    refine .inl ⟨[], [], rfl, .inr ⟨by simp, rfl⟩, ?_, rfl⟩
    rw [discardloop, without_nil hq]
  | cons b bs ih =>
    rw [discardloop, cuts]
    split_ifs with hleft hb
    · refine .inl ⟨[], b :: bs, rfl, .inl (by simp [hleft]), ?_, rfl⟩
      rw [without_nil hq]
    · rcases ih (left - b.BLEN) (q := q.qremove b bs) rfl with
        ⟨gone, rest, hbs, hlen, hloop, hcut⟩ | ⟨gone, c, rest, k, hbs, hlen, hk, hloop, hcut⟩
      · refine .inl ⟨b :: gone, rest, by simp [hbs], ?_, ?_, hcut⟩
        · rw [blocklen_cons]
          rcases hlen with hlen | ⟨hlen, hrest⟩
          · exact .inl (by omega)
          · exact .inr ⟨by omega, hrest⟩
        · rw [hloop, qremove_without]
      · refine .inr ⟨b :: gone, c, rest, k, by simp [hbs], ?_, hk, ?_, hcut⟩
        · rw [blocklen_cons]
          omega
        · rw [hloop, qremove_without]
          simp only [Queue.qremove, blocklen_cons]
          congr 1
          push_cast
          ring
    · refine .inr ⟨[], b, bs, left, rfl, by simp, by omega, ?_, rfl⟩
      simp [Queue.without]

theorem pulluploop_eq (bp : Block α) (n : ℕ) (bs : List (Block α)) :
    pulluploop bp n bs = [] ∨
      bytes (pulluploop bp n bs) = bp.data ++ bytes bs ∧
        ((pulluploop bp n bs).map Block.id).Sublist (bp.id :: bs.map Block.id) := by
  induction bs generalizing bp n with
  | nil => exact .inl rfl
  | cons b bs ih =>
    rw [pulluploop]
    split_ifs with hlt heq
    · refine .inr ⟨?_, by simp [Block.extend, Block.advance]⟩
      simp only [bytes_cons, Block.extend, Block.advance]
      rw [List.append_assoc, ← List.append_assoc (b.data.take n), List.take_append_drop]
    · exact .inr ⟨by simp [Block.extend], by simp [Block.extend]⟩
    · rcases ih (bp.extend b.data) (n - b.BLEN) with hnil | ⟨hbytes, hids⟩
      · exact .inl hnil
      · refine .inr ⟨by rw [hbytes]; simp [Block.extend], hids.trans ?_⟩
        simp [Block.extend]

theorem pullupblock_eq (id : ℕ) (bp : Block α) (bs : List (Block α)) (n : ℕ) :
    pullupblock id bp bs n = [] ∨
      bytes (pullupblock id bp bs n) = bytes (bp :: bs) ∧
        ((pullupblock id bp bs n).map Block.id).Sublist (id :: bp.id :: bs.map Block.id) := by
  rw [pullupblock]
  split_ifs with hn hroom
  · exact .inr ⟨rfl, by simp⟩
  · simpa using pulluploop_eq ⟨id, 0, [], n⟩ n (bp :: bs)
  · rcases pulluploop_eq bp (n - bp.BLEN) bs with hnil | ⟨hbytes, hids⟩
    · exact .inl hnil
    · exact .inr ⟨by rw [hbytes, bytes_cons], hids.trans (by simp)⟩

end Infernode.Qio
