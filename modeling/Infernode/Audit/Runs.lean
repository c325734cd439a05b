import Infernode.Audit.Sealed

/-!
# Runs of the audit server

After every operation of a run whose records read back as they were sealed, the file
replays to the server's head and `verifychain` passes it, whatever pieces of whole
characters it reads; what it rebuilds of the checkpoints is what factotum signed.
-/

namespace Infernode.Audit

open Limbo Lib

variable {hash : List UInt8 → List UInt8} {pk : Option PK} {s : Server} {w : World}

def checkpoints (data : Str) : List Str :=
  ((records data).filter ischeck).map fun r =>
    checkcontent (parsecheck r.msg).head (parsecheck r.msg).cseq

variable (hash pk) in
structure Sound (s : Server) (p : Progress) : Prop where
  intact : Intact hash pk s.file p
  tip : p.prev = s.tiphash
  seq : p.nrec = s.seq
  signed : checkpoints (string s.file) = s.signed

/-- What the clock and factotum give: times are ints, and a certificate is one that the
public key verifies. -/
structure World.Honest (pk : Option PK) (w : World) : Prop where
  now : IsInt w.now
  checknow : IsInt w.checknow
  sign : ∀ verify ∈ pk, ∀ content cert, w.sign content = some cert →
    cert ≠ [] ∧ verify cert content = true

theorem clean1_mem {s : Str} {c : Char} (hc : c ∈ clean1 s) : c ≠ ' ' ∧ c ≠ '\n' := by
  simp only [clean1] at hc
  split_ifs at hc
  · obtain rfl := List.mem_singleton.mp hc
    decide
  · obtain ⟨d, -, rfl⟩ := List.mem_map.mp hc
    split_ifs with hd
    · decide
    · simp only [not_or] at hd
      exact ⟨hd.1, hd.2.2⟩

theorem cleannl_mem {s : Str} {c : Char} (hc : c ∈ cleannl s) : c ≠ '\n' := by
  obtain ⟨d, -, rfl⟩ := List.mem_map.mp hc
  split_ifs with hd
  · decide
  · exact fun h => hd (.inl h)

theorem record_clean {now : ℤ} (hnow : IsInt now) (s : Server) (source event msg : Str) :
    (s.record now source event msg).Clean :=
  ⟨⟨fun hc => (clean1_mem hc).1 rfl, fun hc => (clean1_mem hc).1 rfl⟩,
    ⟨fun hc => (clean1_mem hc).2 rfl, fun hc => (clean1_mem hc).2 rfl,
      fun hc => cleannl_mem hc rfl⟩,
    int_isInt _, hnow⟩

theorem splitkv_eq {k v : Str} (hk : '=' ∉ k) : splitkv (k ++ '=' :: v) = (k, v) := by
  have hall : ∀ c ∈ k, decide (c ≠ '=') = true := by
    intro c hc
    rw [decide_eq_true_eq]
    rintro rfl
    exact hk hc
  rw [splitkv, List.takeWhile_append_of_pos hall, List.dropWhile_append_of_pos hall]
  simp

theorem hex_space (h : List UInt8) : ' ' ∉ hex h :=
  hex_not_mem (by decide) h

theorem checkmsg_eq (s : Server) (cert : List UInt8) : s.checkmsg cert =
    join [lit "head" ++ '=' :: hex s.tiphash, lit "seq" ++ '=' :: dec s.seq,
      lit "sig" ++ '=' :: hex cert] := by
  rw [join_cons _ _ (by simp), Server.checkmsg, printed_hex, printed_hex]
  simp [lit]

theorem checkmsg_words (s : Server) (cert : List UInt8) :
    tokenize (s.checkmsg cert) [' '] = [lit "head" ++ '=' :: hex s.tiphash,
      lit "seq" ++ '=' :: dec s.seq, lit "sig" ++ '=' :: hex cert] := by
  have hdec : ' ' ∉ dec s.seq := dec_not_mem _ (by decide) (by decide)
  rw [checkmsg_eq, tokenize_join]
  intro w hw
  simp only [List.mem_cons, List.not_mem_nil, or_false] at hw
  rcases hw with rfl | rfl | rfl
  · exact space_word (by simp) (by simp [lit, hex_space])
  · exact space_word (by simp) (by simp [lit, hdec])
  · exact space_word (by simp) (by simp [lit, hex_space])

theorem parsecheck_checkmsg (s : Server) (cert : List UInt8) :
    parsecheck (s.checkmsg cert) = ⟨hex s.tiphash, dec s.seq, hex cert⟩ := by
  rw [parsecheck, checkmsg_words]
  simp only [List.foldl_cons, List.foldl_nil, Check.put]
  rw [splitkv_eq (by decide), splitkv_eq (by decide), splitkv_eq (by decide)]
  rfl

theorem checkmsg_not_mem {d : Char} (s : Server) (cert : List UInt8) (hhex : d ∉ hexchars)
    (hdigit : isdigit d = false) (hminus : d ≠ '-')
    (hlit : d ∉ lit "head=" ∧ d ∉ lit " seq=" ∧ d ∉ lit " sig=") : d ∉ s.checkmsg cert := by
  simp only [Server.checkmsg, printed_hex, List.mem_append, not_or]
  exact ⟨⟨⟨⟨⟨hlit.1, hex_not_mem hhex _⟩, hlit.2.1⟩, dec_not_mem _ hdigit hminus⟩, hlit.2.2⟩,
    hex_not_mem hhex _⟩

theorem checkmsg_plain (s : Server) (cert : List UInt8) :
    printed (cleannl (s.checkmsg cert)) = s.checkmsg cert := by
  have hnul : '\x00' ∉ s.checkmsg cert :=
    checkmsg_not_mem s cert (by decide) (by decide) (by decide) (by decide)
  have hnl : '\n' ∉ s.checkmsg cert :=
    checkmsg_not_mem s cert (by decide) (by decide) (by decide) (by decide)
  have hcr : '\r' ∉ s.checkmsg cert :=
    checkmsg_not_mem s cert (by decide) (by decide) (by decide) (by decide)
  have hclean : cleannl (s.checkmsg cert) = s.checkmsg cert := by
    rw [cleannl]
    refine List.map_congr_left (g := id) (fun c hc => ?_) |>.trans (List.map_id _)
    rw [if_neg]
    · rfl
    · rintro (rfl | rfl)
      · exact hnl hc
      · exact hcr hc
  rw [hclean, printed_of_nonul hnul]

def Server.checkrecord (s : Server) (now : ℤ) (cert : List UInt8) : Rec :=
  s.record now "-" "checkpoint" (s.checkmsg cert)

theorem checkrecord_printed (s : Server) (now : ℤ) (cert : List UInt8) :
    (s.checkrecord now cert).printed = ⟨int (s.seq + 1), now, "-", "checkpoint", s.checkmsg cert⟩ := by
  rw [Server.checkrecord, Server.record, Rec.printed]
  simp only [checkmsg_plain, Rec.mk.injEq, true_and, and_true]
  exact ⟨by decide, by decide⟩

theorem checkrecord_settled (s : Server) (now : ℤ) (cert : List UInt8) :
    (s.checkrecord now cert).Settled := by
  have hp := checkrecord_printed s now cert
  simp only [Rec.printed, Rec.mk.injEq] at hp
  obtain ⟨-, -, hsource, hevent, hmsg⟩ := hp
  refine ⟨by rw [hsource]; decide, by rw [hevent]; decide, ?_⟩
  rw [hmsg, checkmsg_words, checkmsg_eq]

section

variable (hlen : ∀ b, (hash b).length = 32)
include hlen

theorem appendrec_sound {p : Progress} (h : Sound hash pk s p) {now : ℤ} (hnow : IsInt now)
    (wrote : Bool) {source event msg : Str} (hs : (s.record now source event msg).Settled)
    (hnum : int (s.seq + 1) ≠ -1)
    (hevent : printed (clean1 event) ≠ lit "checkpoint") :
    ∃ p', Sound hash pk (s.appendrec hash now wrote source event msg).1 p' := by
  cases wrote with
  | false => exact ⟨p, h⟩
  | true =>
    have hcheck : p.check pk (s.record now source event msg).printed = .ok p :=
      if_neg hevent
    obtain ⟨hintact, hrecords⟩ :=
      h.intact.append hlen (record_clean hnow s source event msg) hs hnum hcheck
    rw [h.tip] at hintact hrecords
    refine ⟨_, hintact, rfl, rfl, ?_⟩
    have hcheck : ischeck (s.record now source event msg).printed = false := by
      rw [ischeck, decide_eq_false_iff_not]
      exact hevent
    simp only [Server.appendrec, if_true]
    rw [checkpoints, hrecords, ← h.signed, checkpoints]
    simp [hcheck]

omit hlen in
theorem check_checkrecord {p : Progress} (h : Sound hash pk s p) (now : ℤ) {cert : List UInt8}
    (hsign : ∀ verify ∈ pk, cert ≠ [] ∧ verify cert s.checkcontent = true) :
    ∃ q, p.check pk (s.checkrecord now cert).printed = .ok q := by
  have hcontent : checkcontent (hex s.tiphash) (dec s.seq) = s.checkcontent := by
    rw [checkcontent, Server.checkcontent, printed_dec]
  rw [Progress.check, checkrecord_printed, if_pos rfl]
  simp only [Progress.checkpoint, parsecheck_checkmsg, h.tip]
  cases pk with
  | none => simp
  | some verify =>
    obtain ⟨hne, hverify⟩ := hsign verify rfl
    have hhex : hex cert ≠ [] := by
      cases cert with
      | nil => exact absurd rfl hne
      | cons b cert => simp [hex]
    simp [hhex, unhex_hex, hcontent, hverify]

theorem docheckpoint_sound {p : Progress} (h : Sound hash pk s p) (hw : w.Honest pk)
    (hnum : int (s.seq + 1) ≠ -1) : ∃ p', Sound hash pk (s.docheckpoint hash w).1 p' := by
  rw [Server.docheckpoint]
  cases hsign : w.sign s.checkcontent with
  | none => exact ⟨p, h⟩
  | some cert =>
    cases hwrote : w.checkwrote with
    | false => exact ⟨p, h⟩
    | true =>
      obtain ⟨q, hcheck⟩ := check_checkrecord h w.checknow
        (fun verify hv => hw.sign verify hv _ cert hsign)
      obtain ⟨hintact, hrecords⟩ := h.intact.append hlen
        (record_clean hw.checknow s "-" "checkpoint" (s.checkmsg cert))
        (checkrecord_settled s w.checknow cert) hnum hcheck
      rw [h.tip] at hintact hrecords
      refine ⟨_, hintact, rfl, rfl, ?_⟩
      have hprinted := checkrecord_printed s w.checknow cert
      simp only [Server.checkrecord] at hprinted
      simp only [Server.appendrec, if_true]
      rw [checkpoints, hrecords, ← h.signed, checkpoints, hprinted]
      simp [ischeck, parsecheck_checkmsg, checkcontent, Server.checkcontent]

def Server.meets (hash : List UInt8 → List UInt8) (s : Server) : Act → Prop
  | .log data w => int (s.seq + 1) ≠ -1 ∧ int (s.seq + 2) ≠ -1 ∧
      ∀ source event toks, tokenize (stripnl (string data)) [' '] = source :: event :: toks →
        event ≠ lit "checkpoint" → (s.record w.now source event (join toks)).Settled ∧
          printed (clean1 event) ≠ lit "checkpoint"
  | .ctl _ _ => int (s.seq + 1) ≠ -1
  | .tick _ => int (s.seq + 1) ≠ -1
  | .restart sysname w => int (s.seq + 1) ≠ -1 ∧
      (s.record w.now "auditfs" "start"
        (startmsg sysname (replay hash (string s.file)).2.2)).Settled

def Act.world : Act → World
  | .log _ w => w
  | .ctl _ w => w
  | .tick w => w
  | .restart _ w => w

theorem writelog_sound {p : Progress} (h : Sound hash pk s p) {data : List UInt8}
    (hw : w.Honest pk) (hm : s.meets hash (.log data w)) :
    ∃ p', Sound hash pk (s.writelog hash w (stripnl (string data))).1 p' := by
  obtain ⟨hnum, hnum', hwords⟩ := hm
  rw [Server.writelog]
  split
  · rename_i source event toks htoks
    split_ifs with hcheck
    · exact ⟨p, h⟩
    obtain ⟨hs, hevent⟩ := hwords source event toks htoks hcheck
    obtain ⟨p', h'⟩ := appendrec_sound hlen h hw.now w.wrote hs hnum hevent
    have hseq : (s.appendrec hash w.now w.wrote source event (join toks)).1.seq = s.seq ∨
        (s.appendrec hash w.now w.wrote source event (join toks)).1.seq = int (s.seq + 1) := by
      rw [Server.appendrec]
      split_ifs
      · exact .inr rfl
      · exact .inl rfl
    generalize s.appendrec hash w.now w.wrote source event (join toks) = res at h' hseq
    obtain ⟨s', ok⟩ := res
    dsimp only at h' hseq ⊢
    split_ifs
    · exact ⟨p', h'⟩
    · refine docheckpoint_sound hlen (s := { s' with lastattempt := s'.seq })
        ⟨h'.intact, h'.tip, h'.seq, h'.signed⟩ hw ?_
      have hint : int (int (s.seq + 1) + 1) = int (s.seq + 2) := by
        rw [int, int, int, Int.bmod_add_bmod]
        congr 1
        ring
      rcases hseq with hseq | hseq
      · exact hseq ▸ hnum
      · exact hseq ▸ hint ▸ hnum'
    · exact ⟨p', h'⟩
  · exact ⟨p, h⟩

theorem act_sound {p : Progress} (h : Sound hash pk s p) {a : Act} (hw : a.world.Honest pk)
    (hm : s.meets hash a) : ∃ p', Sound hash pk (s.act hash a).1 p' := by
  cases a with
  | log data w => exact writelog_sound hlen h hw hm
  | ctl data w =>
    simp only [Server.act, Server.writectl]
    split_ifs
    · exact docheckpoint_sound hlen h hw hm
    · exact ⟨p, h⟩
  | tick w =>
    simp only [Server.act, Server.tick]
    split_ifs
    · exact docheckpoint_sound hlen (s := { s with lastattempt := s.seq })
        ⟨h.intact, h.tip, h.seq, h.signed⟩ hw hm
    · exact ⟨p, h⟩
  | restart sysname w =>
    obtain ⟨hnum, hsettled⟩ := hm
    have hload : Server.load hash s.file s.signed = { s with lastcheck := 0, lastattempt := 0 } := by
      rw [Server.load, h.intact.replay, h.tip, h.seq]
    simp only [Server.act, Server.init, hload]
    exact appendrec_sound hlen (s := { s with lastcheck := 0, lastattempt := 0 })
      ⟨h.intact, h.tip, h.seq, h.signed⟩ hw.now w.wrote hsettled hnum (by decide)

def Meets (hash : List UInt8 → List UInt8) (pk : Option PK) : Server → List Act → Prop
  | _, [] => True
  | s, a :: acts => a.world.Honest pk ∧ s.meets hash a ∧ Meets hash pk (s.act hash a).1 acts

theorem run_sound {p : Progress} (h : Sound hash pk s p) {acts : List Act}
    (hm : Meets hash pk s acts) : ∃ p', Sound hash pk (s.run hash acts) p' := by
  induction acts generalizing s p with
  | nil => exact ⟨p, h⟩
  | cons a acts ih =>
    obtain ⟨hw, ha, hrest⟩ := hm
    obtain ⟨p', h'⟩ := act_sound hlen h hw ha
    exact ih h' hrest

end

def Server.verdict (s : Server) (pk : Option PK) : Verdict :=
  if pk.isSome ∧ s.signed = [] then
    ⟨false, s.seq, 0, 0, "no signed checkpoints (chain is not attributable to the audit key)"⟩
  else ⟨true, s.seq, s.signed.length, if pk.isSome then s.signed.length else 0, []⟩

theorem sound_verdict {p : Progress} (h : Sound hash pk s p) :
    verifychain hash (string s.file) pk [] (-1) = s.verdict pk := by
  obtain ⟨hv, -⟩ := h.intact.verified
  have hncheck : p.ncheck = s.signed.length := by
    rw [hv.ncheck, ← h.signed, checkpoints, List.length_map]
  have hnsig := hv.nsig
  rw [verifychain, h.intact.passes]
  rw [hncheck] at hnsig
  have hanchor : ¬ ((-1 : ℤ) ≥ 0 ∧ p.anchored = false) := by simp
  have hiff : pk.isSome = true ∧ p.nsig = 0 ↔ pk.isSome = true ∧ s.signed = [] := by
    refine and_congr_right fun hpk => ?_
    rw [hnsig, if_pos hpk, List.length_eq_zero_iff]
  change p.finish pk (-1) = _
  rw [Progress.finish, if_neg hanchor, Server.verdict]
  by_cases hnone : pk.isSome = true ∧ s.signed = []
  · rw [if_pos (hiff.mpr hnone), if_pos hnone]
    simp [Fault.verdict, Progress.fault, h.seq, hncheck, hnsig, hnone.2]
  · rw [if_neg (fun hn => hnone (hiff.mp hn)), if_neg hnone, h.seq, hncheck, hnsig]

theorem readfd_bytes (texts : List Str) : readfd (texts.map bytes) = texts.flatten := by
  induction texts with
  | nil => rfl
  | cons t texts ih => simpa [readfd] using ih

theorem flatten_bytes (texts : List Str) : (texts.map bytes).flatten = bytes texts.flatten := by
  induction texts with
  | nil => rfl
  | cons t texts ih => simp [ih]

theorem appendrec_failed {now : ℤ} {wrote : Bool} {source event msg : Str}
    (h : (s.appendrec hash now wrote source event msg).2 = false) :
    (s.appendrec hash now wrote source event msg).1 = s := by
  cases wrote with
  | false => rfl
  | true => simp [Server.appendrec] at h

theorem docheckpoint_failed (h : (s.docheckpoint hash w).2 = false) :
    (s.docheckpoint hash w).1 = s := by
  rw [Server.docheckpoint] at h ⊢
  cases hsign : w.sign s.checkcontent with
  | none => rfl
  | some cert =>
    cases hwrote : w.checkwrote with
    | false => rfl
    | true => simp [hsign, hwrote, Server.appendrec] at h

theorem writelog_failed {data : Str} (h : (s.writelog hash w data).2 = false) :
    (s.writelog hash w data).1 = s := by
  rw [Server.writelog] at h ⊢
  split at h
  · rename_i source event toks htoks
    simp only at h ⊢
    split_ifs at h ⊢ with hcheck hok
    · rfl
    · exact appendrec_failed hok
  · rfl

theorem act_failed {p : Progress} (h : Sound hash pk s p) {a : Act}
    (hfail : (s.act hash a).2 = false) :
    (s.act hash a).1.file = s.file ∧ (s.act hash a).1.tiphash = s.tiphash ∧
      (s.act hash a).1.seq = s.seq := by
  cases a with
  | log data w =>
    simp only [Server.act] at hfail ⊢
    rw [writelog_failed hfail]
    exact ⟨rfl, rfl, rfl⟩
  | ctl data w =>
    simp only [Server.act, Server.writectl] at hfail ⊢
    split_ifs at hfail ⊢
    · rw [docheckpoint_failed hfail]
      exact ⟨rfl, rfl, rfl⟩
    · exact ⟨rfl, rfl, rfl⟩
  | tick w =>
    simp only [Server.act, Server.tick] at hfail ⊢
    split_ifs at hfail ⊢
    rw [docheckpoint_failed hfail]
    exact ⟨rfl, rfl, rfl⟩
  | restart sysname w =>
    simp only [Server.act, Server.init] at hfail ⊢
    rw [appendrec_failed hfail, Server.load, h.intact.replay, h.tip, h.seq]
    exact ⟨rfl, rfl, rfl⟩

/-- From an intact file on, after every run that meets the conditions. -/
theorem sealed_log_verifies (hlen : ∀ b, (hash b).length = 32) {file : List UInt8} {p : Progress}
    (hfile : Intact hash pk file p) (acts : List Act)
    (hm : Meets hash pk (Server.load hash file (checkpoints (string file))) acts) :
    let s := (Server.load hash file (checkpoints (string file))).run hash acts
    replay hash (string s.file) = (s.tiphash, s.seq, -1) ∧
      (∀ texts : List Str, (texts.map bytes).flatten = s.file →
        verifychain hash (readfd (texts.map bytes)) pk [] (-1) = s.verdict pk) ∧
      checkpoints (string s.file) = s.signed ∧
      ∀ a, (s.act hash a).2 = false → (s.act hash a).1.file = s.file ∧
        (s.act hash a).1.tiphash = s.tiphash ∧ (s.act hash a).1.seq = s.seq := by
  intro s
  have hstart : Sound hash pk (Server.load hash file (checkpoints (string file))) p := by
    rw [Server.load, hfile.replay]
    exact ⟨hfile, rfl, rfl, rfl⟩
  obtain ⟨p', h⟩ := run_sound hlen hstart hm
  refine ⟨?_, ?_, h.signed, fun a ha => act_failed h ha⟩
  · rw [h.intact.replay, h.tip, h.seq]
  · intro texts htexts
    rw [flatten_bytes] at htexts
    have htext : texts.flatten = string s.file := by
      rw [← htexts, string_bytes]
    rw [readfd_bytes, htext, sound_verdict h]

def keyless : World :=
  ⟨5, true, fun _ => none, 5, true⟩

set_option maxRecDepth 4000 in
/-- A message that ends in a newline is hashed with a space at its end, which the
reader drops. -/
theorem sealed_log_broken :
    let s := (Server.load tailhash [] []).run tailhash
      [.restart [] keyless, .log (bytes (lit "s e a\n\n")) keyless]
    replay tailhash (string s.file) ≠ (s.tiphash, s.seq, -1) := by
  decide

variable (hash pk) in
theorem intact_empty : Intact hash pk [] (Progress.start hash [] (-1)) :=
  ⟨by decide, .inl (by decide), rfl⟩

theorem keyless_honest : keyless.Honest none :=
  ⟨⟨by decide, by decide⟩, ⟨by decide, by decide⟩, by simp⟩

theorem sealed_log_verifies_plain :
    let s := (Server.load tailhash [] (checkpoints (string []))).run tailhash
      [.restart [] keyless, .log (bytes (lit "s e a b\n")) keyless]
    replay tailhash (string s.file) = (s.tiphash, s.seq, -1) := by
  refine (sealed_log_verifies tailhash_length (intact_empty tailhash none) _ ?_).1
  refine ⟨keyless_honest, ⟨by decide, ?_⟩, keyless_honest,
    ⟨by decide, by decide, ?_⟩, trivial⟩
  · refine ⟨?_, ?_, ?_⟩ <;> decide
  · intro source event toks htoks hevent
    have hwords : tokenize (stripnl (string (bytes (lit "s e a b\n")))) [' '] =
        [lit "s", lit "e", lit "a", lit "b"] := by
      decide
    rw [hwords] at htoks
    obtain ⟨rfl, rfl, rfl⟩ : lit "s" = source ∧ lit "e" = event ∧ [lit "a", lit "b"] = toks := by
      simpa using htoks
    refine ⟨⟨?_, ?_, ?_⟩, ?_⟩ <;> decide

end Infernode.Audit
