import Infernode.Audit.Chained

/-!
# What a head binds

A tip determines what was printed of the records under it. What `sprint` leaves out,
from a NUL on, it does not bind, nor lines that `replay` never reached; with an anchor
`verifychain` binds the records up to the anchored one in the same way. The text that
an accepted checkpoint signs names the head of the records before it, whatever the
records hold.
-/

namespace Infernode.Audit

open Limbo Lib

variable {hash : List UInt8 → List UInt8} {S : Set (List UInt8)} {pk : Option PK}
  {anchorhash : Str} {anchorseq : ℤ}

variable (hash) in
/-- `replay` finds no break: the number that it returns is taken for none when it is
negative. -/
def Accepted (data : Str) : Prop :=
  (replay hash data).2.2 < 0

instance (data : Str) : Decidable (Accepted hash data) :=
  inferInstanceAs (Decidable (_ < _))

def hidden (s : Str) : Str :=
  s.dropWhile (fun c => decide (c ≠ '\x00'))

def Rec.hidden (r : Rec) : Str × Str × Str :=
  (Audit.hidden r.source, Audit.hidden r.event, Audit.hidden r.msg)

theorem printed_append_hidden (s : Str) : printed s ++ hidden s = s :=
  List.takeWhile_append_dropWhile

theorem eq_of_printed_hidden {r r' : Rec} (hp : r.printed = r'.printed)
    (hh : r.hidden = r'.hidden) : r = r' := by
  obtain ⟨seq, time, source, event, msg⟩ := r
  obtain ⟨seq', time', source', event', msg'⟩ := r'
  simp only [Rec.printed, Rec.hidden, Rec.mk.injEq, Prod.mk.injEq] at hp hh ⊢
  refine ⟨hp.1, hp.2.1, ?_, ?_, ?_⟩
  · rw [← printed_append_hidden source, hp.2.2.1, hh.1, printed_append_hidden]
  · rw [← printed_append_hidden event, hp.2.2.2.1, hh.2.1, printed_append_hidden]
  · rw [← printed_append_hidden msg, hp.2.2.2.2, hh.2.2, printed_append_hidden]

theorem map_eq_iff_hidden {rs rs' : List Rec} (hp : rs.map Rec.printed = rs'.map Rec.printed) :
    rs = rs' ↔ rs.map Rec.hidden = rs'.map Rec.hidden := by
  refine ⟨fun h => by rw [h], ?_⟩
  intro hh
  induction rs generalizing rs' with
  | nil => simpa using hp
  | cons r rs ih =>
    cases rs' with
    | nil => simp at hp
    | cons r' rs' =>
      simp only [List.map_cons, List.cons.injEq] at hp hh ⊢
      exact ⟨eq_of_printed_hidden hp.1 hh.1, ih hp.2 hh.2⟩

/-- What a chain does not cover of a log: the text left out of the records that it
covers, and the records after these. -/
def uncovered (hash : List UInt8 → List UInt8) (data : Str) : List (Str × Str × Str) × List Rec :=
  ((chained hash data).map Rec.hidden, unchained hash data)

theorem replay_binding (hlen : ∀ b, (hash b).length = 32) (hinj : Set.InjOn hash S)
    {data data' : Str} (hS : ∀ b ∈ hashed hash (chained hash data), b ∈ S)
    (hS' : ∀ b ∈ hashed hash (chained hash data'), b ∈ S)
    (htip : (replay hash data).1 = (replay hash data').1) :
    records data = records data' ↔ uncovered hash data = uncovered hash data' := by
  rw [(replay_head hash data).1, (replay_head hash data').1] at htip
  have hp := chainof_binding hlen hinj hS hS' (chainedfrom_worded _ _) (chainedfrom_worded _ _) htip
  have hlength : (chained hash data).length = (chained hash data').length := by
    simpa using congrArg List.length hp
  rw [records_eq hash data, records_eq hash data', uncovered, uncovered,
    Prod.mk.injEq, ← map_eq_iff_hidden hp]
  constructor
  · exact fun h => List.append_inj h hlength
  · rintro ⟨hc, hu⟩
    rw [hc, hu]

def Checked (hash : List UInt8 → List UInt8) (pk : Option PK) (rs : List Rec) (r : Rec) : Prop :=
  (parsecheck r.msg).head = hex (chainof hash rs) ∧
    ∀ verify ∈ pk, verify (unhex (parsecheck r.msg).sig)
      (checkcontent (parsecheck r.msg).head (parsecheck r.msg).cseq) = true

def ischeck (r : Rec) : Bool :=
  r.event = lit "checkpoint"

structure Verified (hash : List UInt8 → List UInt8) (pk : Option PK) (anchorhash : Str)
    (anchorseq : ℤ) (rs : List Rec) (p : Progress) : Prop where
  prev : p.prev = chainof hash rs
  nrec : p.nrec = lastseq rs
  worded : ∀ r ∈ rs, r.Worded
  anchors : ∀ l r l', rs = l ++ r :: l' → r.seq = anchorseq →
    hex (chainof hash (l ++ [r])) = anchorhash
  anchored : p.anchored = true → (anchorseq = 0 ∧ anchorhash = hex (genesis hash)) ∨
    ∃ r ∈ rs, r.seq = anchorseq
  checks : ∀ l r l', rs = l ++ r :: l' → r.event = lit "checkpoint" → Checked hash pk l r
  ncheck : p.ncheck = (rs.filter ischeck).length
  nsig : p.nsig = if pk.isSome then p.ncheck else 0

theorem verified_start : Verified hash pk anchorhash anchorseq []
    (Progress.start hash anchorhash anchorseq) := by
  refine ⟨rfl, rfl, by simp, by simp, ?_, by simp, rfl, by simp [Progress.start]⟩
  intro h
  exact .inl (by simpa [Progress.start] using h)

theorem checkpoint_ok {p p' : Progress} {seqf : ℤ} {msg : Str}
    (h : p.checkpoint pk seqf msg = .ok p') :
    ((parsecheck msg).head = hex p.prev ∧ ∀ verify ∈ pk, verify (unhex (parsecheck msg).sig)
        (checkcontent (parsecheck msg).head (parsecheck msg).cseq) = true) ∧
      p'.anchored = p.anchored ∧ p'.ncheck = p.ncheck + 1 ∧
      p'.nsig = p.nsig + if pk.isSome then 1 else 0 := by
  cases pk with
  | none =>
    simp only [Progress.checkpoint] at h
    split_ifs at h with hhead
    obtain rfl := Except.ok.inj h
    exact ⟨⟨not_not.mp hhead, by simp⟩, rfl, rfl, rfl⟩
  | some verify =>
    simp only [Progress.checkpoint] at h
    split_ifs at h with hhead hsig hverify
    obtain rfl := Except.ok.inj h
    exact ⟨⟨not_not.mp hhead, by simpa using hverify⟩, rfl, rfl, rfl⟩

theorem append_singleton_eq {α : Type*} {rs l l' : List α} {r r' : α}
    (h : rs ++ [r] = l ++ r' :: l') :
    (∃ m, rs = l ++ r' :: m ∧ l' = m ++ [r]) ∨ (rs = l ∧ r = r' ∧ l' = []) := by
  rcases List.eq_nil_or_concat l' with rfl | ⟨m, r'', rfl⟩
  · obtain ⟨hrs, hr⟩ := List.append_inj' h rfl
    exact .inr ⟨hrs, by simpa using hr, rfl⟩
  · rw [List.concat_eq_append, ← List.cons_append, ← List.append_assoc] at h
    obtain ⟨hrs, hr⟩ := List.append_inj' h rfl
    obtain rfl : r = r'' := by simpa using hr
    exact .inl ⟨m, hrs, by simp⟩

theorem line_verified {rs : List Rec} {p p' : Progress} {line : Str}
    (hv : Verified hash pk anchorhash anchorseq rs p)
    (h : p.line hash pk anchorhash anchorseq line = .ok p') :
    ∃ r hashf, parserec line = some (r, hashf) ∧
      hex (extend hash p.prev (bytes (canon r))) = hashf ∧
      Verified hash pk anchorhash anchorseq (rs ++ [r]) p' := by
  rw [Progress.line] at h
  cases hline : parserec line with
  | none => simp [hline] at h
  | some rec =>
    obtain ⟨r, hashf⟩ := rec
    simp only [hline] at h
    by_cases hhash : hex (extend hash p.prev (bytes (canon r))) = hashf
    swap
    · simp [hhash] at h
    rw [if_neg (not_not.mpr hhash)] at h
    cases hcheck : p.check pk r with
    | error f => simp [hcheck, bind, Except.bind] at h
    | ok q =>
      have hq : q.anchored = p.anchored ∧
          (r.event = lit "checkpoint" → Checked hash pk rs r) ∧
          q.ncheck = ((rs ++ [r]).filter ischeck).length ∧
          q.nsig = if pk.isSome then q.ncheck else 0 := by
        rw [Progress.check] at hcheck
        split_ifs at hcheck with hevent
        · obtain ⟨hok, hanchored, hncheck, hnsig⟩ := checkpoint_ok hcheck
          refine ⟨hanchored, fun _ => by rwa [Checked, ← hv.prev], ?_, ?_⟩
          · simp [hncheck, hv.ncheck, ischeck, hevent]
          · rw [hnsig, hv.nsig, hncheck]
            split_ifs <;> rfl
        · obtain rfl := Except.ok.inj hcheck
          refine ⟨rfl, fun heq => absurd heq hevent, ?_, hv.nsig⟩
          simp [hv.ncheck, ischeck, hevent]
      simp only [hcheck, bind, Except.bind] at h
      refine ⟨r, hashf, rfl, hhash, ?_⟩
      have htip : hex (chainof hash (rs ++ [r])) = hashf := by
        rw [chainof_append_singleton, ← hv.prev, hhash]
      have hchecks : ∀ l r' l', rs ++ [r] = l ++ r' :: l' → r'.event = lit "checkpoint" →
          Checked hash pk l r' := by
        intro l r' l' heq hevent
        rcases append_singleton_eq heq with ⟨m, hrs, -⟩ | ⟨rfl, rfl, -⟩
        · exact hv.checks l r' m hrs hevent
        · exact hq.2.1 hevent
      have hworded : ∀ r' ∈ rs ++ [r], r'.Worded := by
        intro r' hr'
        rcases List.mem_append.mp hr' with hr' | hr'
        · exact hv.worded r' hr'
        · obtain rfl := List.mem_singleton.mp hr'
          exact parserec_worded hline
      have hanchors : r.seq ≠ anchorseq ∨ hashf = anchorhash →
          ∀ l r' l', rs ++ [r] = l ++ r' :: l' → r'.seq = anchorseq →
            hex (chainof hash (l ++ [r'])) = anchorhash := by
        intro hr l r' l' heq hseq
        rcases append_singleton_eq heq with ⟨m, hrs, -⟩ | ⟨rfl, rfl, -⟩
        · exact hv.anchors l r' m hrs hseq
        · rw [htip, hr.resolve_left (not_not.mpr hseq)]
      have hold : p.anchored = true → (anchorseq = 0 ∧ anchorhash = hex (genesis hash)) ∨
          ∃ r' ∈ rs ++ [r], r'.seq = anchorseq := by
        intro ha
        refine (hv.anchored ha).imp_right ?_
        rintro ⟨r', hr', hseq⟩
        exact ⟨r', by simp [hr'], hseq⟩
      split_ifs at h with hseq hanchor
      · obtain rfl := Except.ok.inj h
        exact ⟨by simp [hv.prev], by simp, hworded, hanchors (.inr (not_not.mp hanchor)),
          fun _ => .inr ⟨r, by simp, hseq⟩, hchecks, hq.2.2.1, hq.2.2.2⟩
      · obtain rfl := Except.ok.inj h
        exact ⟨by simp [hv.prev], by simp, hworded, hanchors (.inl hseq),
          fun ha => hold (hq.1 ▸ ha), hchecks, hq.2.2.1, hq.2.2.2⟩

theorem lines_verified {rs : List Rec} {p p' : Progress} {lines : List Str}
    (hv : Verified hash pk anchorhash anchorseq rs p)
    (h : lines.foldlM (fun p line => Progress.line hash p pk anchorhash anchorseq line) p = .ok p') :
    Verified hash pk anchorhash anchorseq (rs ++ parsed lines) p' ∧
      chainedfrom hash p.prev lines = (parsed lines, []) := by
  induction lines generalizing rs p with
  | nil =>
    obtain rfl := Except.ok.inj h
    exact ⟨by simpa [parsed] using hv, rfl⟩
  | cons line lines ih =>
    rw [List.foldlM_cons] at h
    cases hp : Progress.line hash p pk anchorhash anchorseq line with
    | error v => simp [hp, bind, Except.bind] at h
    | ok q =>
      simp only [hp, bind, Except.bind] at h
      obtain ⟨r, hashf, hline, hhash, hq⟩ := line_verified hv hp
      have hcons : parsed (line :: lines) = r :: parsed lines := by simp [parsed, hline]
      obtain ⟨hverified, hchained⟩ := ih hq h
      refine ⟨by simpa [hcons] using hverified, ?_⟩
      have hprev : q.prev = extend hash p.prev (bytes (canon r)) := by
        rw [hq.prev, chainof_append_singleton, hv.prev]
      rw [hprev] at hchained
      rw [chainedfrom, hline, hcons]
      simp [hhash, hchained]

theorem verifychain_ok {data : Str} (h : (verifychain hash data pk anchorhash anchorseq).ok = true) :
    chained hash data = records data ∧ unchained hash data = [] ∧
      ∃ p, Verified hash pk anchorhash anchorseq (records data) p ∧
        (0 ≤ anchorseq → p.anchored = true) := by
  rw [verifychain, verifylines] at h
  split at h
  · simp [Fault.verdict] at h
  · rename_i p hp
    obtain ⟨hverified, hchained⟩ := lines_verified verified_start hp
    refine ⟨?_, ?_, p, hverified, ?_⟩
    · exact congrArg Prod.fst hchained
    · rw [unchained]
      exact congrArg parsed (congrArg Prod.snd hchained)
    · intro hseq
      by_contra hanchored
      rw [Progress.finish, if_pos ⟨hseq, by simpa using hanchored⟩] at h
      simp [Fault.verdict] at h

theorem hashed_append (rs rs' : List Rec) {b : List UInt8} (hb : b ∈ hashed hash rs) :
    b ∈ hashed hash (rs ++ rs') := by
  rw [hashed, List.map_append, HashChain.inputs_append]
  exact List.mem_append_left _ hb

theorem hexval_hexchars {n : ℕ} (hn : n < 16) :
    hexval (hexchars.getD n '0') = n ∧ hexchars.getD n '0' ∈ hexchars := by
  interval_cases n <;> decide

theorem unhex_hex (h : List UInt8) : unhex (hex h) = h := by
  induction h with
  | nil => rfl
  | cons b h ih =>
    have hb : b.toNat / 16 < 16 := by
      have := b.toNat_lt
      omega
    rw [hex, List.flatMap_cons, List.cons_append, List.cons_append, List.nil_append, unhex]
    rw [(hexval_hexchars hb).1, (hexval_hexchars (Nat.mod_lt _ (by norm_num))).1]
    rw [show b.toNat / 16 * 16 + b.toNat % 16 = b.toNat by omega, UInt8.ofNat_toNat]
    exact congrArg _ ih

theorem hex_injective : Function.Injective hex :=
  Function.LeftInverse.injective unhex_hex

theorem hex_not_mem {d : Char} (hd : d ∉ hexchars) (h : List UInt8) : d ∉ hex h := by
  simp only [hex, List.mem_flatMap, List.mem_cons, List.not_mem_nil, or_false, not_exists, not_and,
    not_or]
  intro b _
  have hb : b.toNat / 16 < 16 := by
    have := b.toNat_lt
    omega
  constructor
  · rintro rfl
    exact hd (hexval_hexchars hb).2
  · rintro rfl
    exact hd (hexval_hexchars (Nat.mod_lt _ (by norm_num))).2

@[simp] theorem printed_hex (h : List UInt8) : printed (hex h) = hex h :=
  printed_of_nonul (hex_not_mem (by decide) h)

@[simp] theorem printed_dec (n : ℤ) : printed (dec n) = dec n :=
  printed_of_nonul (dec_not_mem n (by decide) (by decide))

section

variable (hlen : ∀ b, (hash b).length = 32) (hinj : Set.InjOn hash S)
include hlen hinj

theorem tip_length {rs rs' : List Rec} (hS : ∀ b ∈ hashed hash rs, b ∈ S)
    (hS' : ∀ b ∈ hashed hash rs', b ∈ S) (hw : ∀ r ∈ rs, r.Worded) (hw' : ∀ r ∈ rs', r.Worded)
    (h : chainof hash rs = chainof hash rs') : rs.length = rs'.length := by
  simpa using congrArg List.length (chainof_binding hlen hinj hS hS' hw hw' h)

theorem anchor_binding {data data' : Str} {tip : List UInt8} {broken : ℤ} (hseq : 0 ≤ anchorseq)
    (hok : (verifychain hash data pk (hex tip) anchorseq).ok = true)
    (hhead : replay hash data' = (tip, anchorseq, broken))
    (hS : ∀ b ∈ hashed hash (records data), b ∈ S)
    (hS' : ∀ b ∈ hashed hash (chained hash data'), b ∈ S) :
    ∃ l l', records data = l ++ l' ∧ (l = [] ∧ anchorseq = 0 ∨ lastseq l = anchorseq ∧ l ≠ []) ∧
      (∀ r ∈ l.dropLast ++ l', r.seq ≠ anchorseq) ∧
      (l = records data' ↔ (l.map Rec.hidden, []) = uncovered hash data') := by
  obtain ⟨-, -, p, hv, hanchored⟩ := verifychain_ok hok
  have htip : tip = chainof hash (chained hash data') := by
    rw [← (replay_head hash data').1, hhead]
  have hw' : ∀ r ∈ chained hash data', r.Worded := chainedfrom_worded _ _
  -- the prefixes of the log whose tip is the anchor's print as the other log does
  have hbind : ∀ l l', records data = l ++ l' → hex (chainof hash l) = hex tip →
      l.map Rec.printed = (chained hash data').map Rec.printed := by
    intro l l' hl hh
    refine chainof_binding hlen hinj ?_ hS' ?_ hw' (htip ▸ hex_injective hh)
    · exact fun b hb => hS b (hl ▸ hashed_append l l' hb)
    · exact fun r hr => hv.worded r (by simp [hl, hr])
  have hiff : ∀ l l', records data = l ++ l' → hex (chainof hash l) = hex tip →
      (l = records data' ↔ (l.map Rec.hidden, []) = uncovered hash data') := by
    intro l l' hl hh
    have hp := hbind l l' hl hh
    have hlength : l.length = (chained hash data').length := by
      simpa using congrArg List.length hp
    rw [records_eq hash data', uncovered, Prod.mk.injEq, ← map_eq_iff_hidden hp]
    constructor
    · intro h
      obtain ⟨h1, h2⟩ := List.append_inj ((List.append_nil l).trans h) hlength
      exact ⟨h1, h2⟩
    · rintro ⟨h1, h2⟩
      rw [← h2, List.append_nil, h1]
  have hlengths : ∀ l r l', records data = l ++ r :: l' → r.seq = anchorseq →
      l.length + 1 = (chained hash data').length := by
    intro l r l' hl hr
    have hp := hbind (l ++ [r]) l' (by simp [hl]) (hv.anchors l r l' hl hr)
    simpa using congrArg List.length hp
  rcases hv.anchored (hanchored hseq) with ⟨hzero, hgenesis⟩ | ⟨r, hr, hrseq⟩
  · have hh : hex (chainof hash ([] : List Rec)) = hex tip := by
      rw [hgenesis, chainof_nil]
    refine ⟨[], records data, rfl, .inl ⟨rfl, hzero⟩, ?_, hiff [] _ rfl hh⟩
    intro r hr hrseq
    obtain ⟨l, l', hl⟩ := List.append_of_mem (by simpa using hr)
    have h1 := hlengths l r l' hl hrseq
    have h2 := congrArg List.length (hbind [] (records data) rfl hh)
    simp at h2
    omega
  · obtain ⟨l, l', hl⟩ := List.append_of_mem hr
    have h1 := hlengths l r l' hl hrseq
    refine ⟨l ++ [r], l', by simp [hl], .inr ⟨by simp [hrseq], by simp⟩, ?_,
      hiff (l ++ [r]) l' (by simp [hl]) (hv.anchors l r l' hl hrseq)⟩
    intro r' hr' hrseq'
    rw [List.dropLast_concat] at hr'
    rcases List.mem_append.mp hr' with hr' | hr'
    · obtain ⟨m, m', hm⟩ := List.append_of_mem hr'
      have h2 := hlengths m r' (m' ++ r :: l') (by simp [hl, hm]) hrseq'
      have h3 := congrArg List.length hm
      simp at h3
      omega
    · obtain ⟨m, m', hm⟩ := List.append_of_mem hr'
      have h2 := hlengths (l ++ r :: m) r' m' (by simp [hl, hm]) hrseq'
      simp at h2
      omega

theorem checkpoint_binding {data : Str} {verify : PK}
    (hok : (verifychain hash data (some verify) anchorhash anchorseq).ok = true)
    (hsign : ∀ sig content, verify sig content = true → ∃ rs, (∀ r ∈ rs, Rec.Worded r) ∧
      (∀ b ∈ hashed hash rs, b ∈ S) ∧
      content = checkcontent (hex (chainof hash rs)) (dec (lastseq rs)))
    (hS : ∀ b ∈ hashed hash (records data), b ∈ S) {l l' : List Rec} {r : Rec}
    (hl : records data = l ++ r :: l') (hr : r.event = lit "checkpoint") :
    checkcontent (parsecheck r.msg).head (parsecheck r.msg).cseq =
      checkcontent (hex (chainof hash l)) (dec (lastseq l)) := by
  obtain ⟨-, -, p, hv, -⟩ := verifychain_ok hok
  obtain ⟨hhead, hverify⟩ := hv.checks l r l' hl hr
  obtain ⟨rs, hw, hSrs, hcontent⟩ := hsign _ _ (hverify verify rfl)
  have hspace : ∀ h : List UInt8, ' ' ∉ hex h := hex_not_mem (by decide)
  have hsame : hex (chainof hash l) = hex (chainof hash rs) := by
    rw [hhead, checkcontent, checkcontent, printed_hex, printed_hex] at hcontent
    simp only [List.append_assoc] at hcontent
    exact (space_inj (hspace _) (hspace _) (List.append_cancel_left hcontent)).1
  have hp := chainof_binding hlen hinj (fun b hb => hS b (hl ▸ hashed_append l (r :: l') hb)) hSrs
    (fun r' hr' => hv.worded r' (by simp [hl, hr'])) hw (hex_injective hsame)
  rw [hcontent, hsame, lastseq_printed hp]

end

end Infernode.Audit
