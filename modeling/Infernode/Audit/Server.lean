import Infernode.Audit.Binding

/-!
# Audit evidence

What the head of a log proves of its records, and the two ways round it: the text
after a NUL, which `sprint` does not print and the chain does not cover, and a line
with a negative number, at which `replay` stops without reporting a break.
-/

namespace Infernode.Audit

open Limbo Lib

variable {hash : List UInt8 → List UInt8} {S : Set (List UInt8)}

theorem joinfrom_mem {acc : Str} {toks : List Str} {c : Char} (hc : c ∈ joinfrom acc toks) :
    c ∈ acc ∨ c = ' ' ∨ ∃ w ∈ toks, c ∈ w := by
  induction toks generalizing acc with
  | nil => exact .inl hc
  | cons tok toks ih =>
    rcases ih hc with h | h | ⟨w, hw, h⟩
    · rcases List.mem_append.mp h with h | h
      · split_ifs at h
        · exact .inl h
        · exact (List.mem_append.mp h).imp_right (fun h => .inl (List.mem_singleton.mp h))
      · exact .inr (.inr ⟨tok, by simp, h⟩)
    · exact .inr (.inl h)
    · exact .inr (.inr ⟨w, by simp [hw], h⟩)

theorem hidden_nil {s : Str} (hs : '\x00' ∉ s) : hidden s = [] := by
  have h := printed_append_hidden s
  rw [printed_of_nonul hs] at h
  simpa using h

theorem parserec_hidden {line : Str} {r : Rec} {hashf : Str} (hline : '\x00' ∉ line)
    (h : parserec line = some (r, hashf)) : r.hidden = ([], [], []) := by
  have hmem : ∀ w ∈ tokenize line [' '], '\x00' ∉ w := by
    intro w hw hc
    rcases tokens_mem hw hc with h | h
    · simp at h
    · exact hline h
  rw [parserec] at h
  split at h
  · rename_i seqf tf source event hashf' toks htoks
    obtain ⟨rfl, rfl⟩ := Prod.mk.inj (Option.some.inj h)
    rw [htoks] at hmem
    have hjoin : '\x00' ∉ join toks := by
      intro hc
      rcases joinfrom_mem hc with h | h | ⟨w, hw, h⟩
      · simp at h
      · exact absurd h (by decide)
      · exact hmem w (by simp [hw]) h
    simp [Rec.hidden, hidden_nil (hmem source (by simp)), hidden_nil (hmem event (by simp)),
      hidden_nil hjoin]
  · simp at h

def Plain (data : Str) : Prop :=
  '\x00' ∉ data ∧
    ∀ line ∈ tokenize data ['\n'], ∃ r hashf, parserec line = some (r, hashf) ∧ 0 ≤ r.seq

theorem chainedfrom_plain {lines : List Str} (hnul : ∀ line ∈ lines, '\x00' ∉ line)
    (hlines : ∀ line ∈ lines, ∃ r hashf, parserec line = some (r, hashf) ∧ 0 ≤ r.seq)
    (prev : List UInt8) (last : ℤ) (hok : (replayfrom hash prev last lines).2.2 < 0) :
    (∀ r ∈ (chainedfrom hash prev lines).1, r.hidden = ([], [], [])) ∧
      (chainedfrom hash prev lines).2 = [] := by
  induction lines generalizing prev last with
  | nil => simp [chainedfrom]
  | cons line lines ih =>
    obtain ⟨r, hashf, hline, hseq⟩ := hlines line (by simp)
    simp only [replayfrom, chainedfrom, hline] at hok ⊢
    split_ifs at hok ⊢ with hhash
    · exact absurd hok (not_lt.mpr hseq)
    · obtain ⟨hrest, hnil⟩ := ih (fun line hl => hnul line (by simp [hl]))
        (fun line hl => hlines line (by simp [hl])) _ _ hok
      refine ⟨?_, hnil⟩
      intro r' hr'
      rcases List.mem_cons.mp hr' with rfl | hr'
      · exact parserec_hidden (hnul line (by simp)) hline
      · exact hrest r' hr'

theorem uncovered_plain {data : Str} (hplain : Plain data) (hok : Accepted hash data) :
    uncovered hash data = (List.replicate (chained hash data).length ([], [], []), []) := by
  have hnul : ∀ line ∈ tokenize data ['\n'], '\x00' ∉ line := by
    intro line hl hc
    rcases tokens_mem hl hc with h | h
    · simp at h
    · exact hplain.1 h
  obtain ⟨hhidden, hnil⟩ := chainedfrom_plain hnul hplain.2 (genesis hash) 0 hok
  rw [uncovered, unchained, hnil, Prod.mk.injEq]
  refine ⟨List.eq_replicate_iff.mpr ⟨by simp, ?_⟩, rfl⟩
  intro x hx
  obtain ⟨r, hr, rfl⟩ := List.mem_map.mp hx
  exact hhidden r hr

/-- Two logs with one tip have the same records just when they agree in what the chain
does not cover, which is nothing of plain ones; an anchor binds the records up to it
just so; and an accepted checkpoint signs the head of the records before it. -/
theorem evidence_binding (hlen : ∀ b, (hash b).length = 32) (hinj : Set.InjOn hash S)
    {data data' : Str} (hS : ∀ b ∈ hashed hash (records data), b ∈ S)
    (hS' : ∀ b ∈ hashed hash (records data'), b ∈ S) (haccept' : Accepted hash data') :
    (Accepted hash data → (replay hash data).1 = (replay hash data').1 →
      (records data = records data' ↔ uncovered hash data = uncovered hash data') ∧
      (Plain data → Plain data' → uncovered hash data = uncovered hash data')) ∧
    (∀ pk tip anchorseq, 0 ≤ anchorseq →
      (verifychain hash data pk (hex tip) anchorseq).ok = true →
      (replay hash data').1 = tip → (replay hash data').2.1 = anchorseq →
      ∃ l l', records data = l ++ l' ∧
        (l = [] ∧ anchorseq = 0 ∨ lastseq l = anchorseq ∧ l ≠ []) ∧
        (∀ r ∈ l.dropLast ++ l', r.seq ≠ anchorseq) ∧
        (l = records data' ↔ (l.map Rec.hidden, []) = uncovered hash data')) ∧
    ∀ verify anchorhash anchorseq,
      (verifychain hash data (some verify) anchorhash anchorseq).ok = true →
      (∀ sig content, verify sig content = true → ∃ rs, (∀ r ∈ rs, Rec.Worded r) ∧
        (∀ b ∈ hashed hash rs, b ∈ S) ∧
        content = checkcontent (hex (chainof hash rs)) (dec (lastseq rs))) →
      ∀ l r l', records data = l ++ r :: l' → r.event = lit "checkpoint" →
        checkcontent (parsecheck r.msg).head (parsecheck r.msg).cseq =
          checkcontent (hex (chainof hash l)) (dec (lastseq l)) := by
  have hchained : ∀ d, (∀ b ∈ hashed hash (records d), b ∈ S) →
      ∀ b ∈ hashed hash (chained hash d), b ∈ S := by
    intro d hd b hb
    exact hd b (records_eq hash d ▸ hashed_append _ (unchained hash d) hb)
  refine ⟨?_, ?_, ?_⟩
  · intro haccept htip
    have hiff := replay_binding hlen hinj (hchained data hS) (hchained data' hS') htip
    refine ⟨hiff, ?_⟩
    intro hplain hplain'
    rw [(replay_head hash data).1, (replay_head hash data').1] at htip
    rw [uncovered_plain hplain haccept, uncovered_plain hplain' haccept',
      tip_length hlen hinj (hchained data hS) (hchained data' hS') (chainedfrom_worded _ _)
        (chainedfrom_worded _ _) htip]
  · rintro pk tip anchorseq hseq hok rfl rfl
    exact anchor_binding hlen hinj hseq hok rfl hS (hchained data' hS')
  · intro verify anchorhash anchorseq hok hsign l r l' hl hr
    exact checkpoint_binding hlen hinj hok hsign hS hl hr

def tailhash (b : List UInt8) : List UInt8 :=
  (b.reverse ++ List.replicate 32 0).take 32

theorem tailhash_length (b : List UInt8) : (tailhash b).length = 32 := by
  simp [tailhash]

def plainlog : Str :=
  lit "1 5 s e " ++ hex (extend tailhash (genesis tailhash) (bytes (canon ⟨1, 5, "s", "e", "a"⟩))) ++
    lit " a\n"

def nullog : Str :=
  plainlog.dropLast ++ lit "\x00b\n"

set_option maxRecDepth 4000 in
theorem tailhash_injOn :
    Set.InjOn tailhash {b | b ∈ hashed tailhash (records plainlog)} := by
  have hdec : ∀ a ∈ hashed tailhash (records plainlog), ∀ b ∈ hashed tailhash (records plainlog),
      tailhash a = tailhash b → a = b := by decide
  exact fun a ha b hb hab => hdec a ha b hb hab

set_option maxRecDepth 4000 in
theorem nullog_hashed : hashed tailhash (records nullog) = hashed tailhash (records plainlog) := by
  decide

set_option maxRecDepth 4000 in
theorem nullog_accepted : Accepted tailhash plainlog ∧ Accepted tailhash nullog ∧
    (replay tailhash plainlog).1 = (replay tailhash nullog).1 := by
  decide

set_option maxRecDepth 4000 in
theorem evidence_unbound : ∃ (hash : List UInt8 → List UInt8) (S : Set (List UInt8))
    (data data' : Str), (∀ b, (hash b).length = 32) ∧ Set.InjOn hash S ∧
      (∀ b ∈ hashed hash (records data), b ∈ S) ∧ (∀ b ∈ hashed hash (records data'), b ∈ S) ∧
      Accepted hash data ∧ Accepted hash data' ∧
      (replay hash data).1 = (replay hash data').1 ∧ records data ≠ records data' :=
  ⟨tailhash, {b | b ∈ hashed tailhash (records plainlog)}, plainlog, nullog, tailhash_length,
    tailhash_injOn, fun _ hb => hb, fun _ hb => nullog_hashed ▸ hb, nullog_accepted.1,
    nullog_accepted.2.1, nullog_accepted.2.2, by decide⟩

theorem evidence_binding_nullog :
    records plainlog = records nullog ↔ uncovered tailhash plainlog = uncovered tailhash nullog :=
  ((evidence_binding tailhash_length tailhash_injOn (fun _ hb => hb)
    (fun _ hb => nullog_hashed ▸ hb) nullog_accepted.2.1).1 nullog_accepted.1
      nullog_accepted.2.2).1

/-!
## The audit server

The state of `auditfs` and what its operations do to it and to the backing file. An
operation comes with what it meets: the clock, whether the file takes the whole
record, and what factotum signs.
-/

/-- `signed` is what factotum signed of the checkpoints sealed so far; no operation
reads it. -/
structure Server where
  file : List UInt8
  tiphash : List UInt8
  seq : ℤ
  lastcheck : ℤ
  lastattempt : ℤ
  signed : List Str

def CHECKEVERY : ℤ := 64

/-- What an operation meets. `checknow` and `checkwrote` are of the checkpoint that the
operation may make. -/
structure World where
  now : ℤ
  wrote : Bool
  sign : Str → Option (List UInt8)
  checknow : ℤ
  checkwrote : Bool

inductive Act
  | log (data : List UInt8) (w : World)
  | ctl (data : List UInt8) (w : World)
  | tick (w : World)
  | restart (sysname : List UInt8) (w : World)

variable (hash : List UInt8 → List UInt8)

def Server.record (s : Server) (now : ℤ) (source event msg : Str) : Rec :=
  ⟨int (s.seq + 1), now, clean1 source, clean1 event, cleannl msg⟩

def Server.appendrec (s : Server) (now : ℤ) (wrote : Bool) (source event msg : Str) :
    Server × Bool :=
  let r := s.record now source event msg
  let newhash := extend hash s.tiphash (bytes (canon r))
  if wrote then
    ({ s with file := s.file ++ bytes (recline r newhash ++ ['\n']), tiphash := newhash, seq := r.seq }, true)
  else (s, false)

def Server.checkcontent (s : Server) : Str :=
  lit "audit-checkpoint " ++ printed (hex s.tiphash) ++ ' ' :: dec s.seq

def Server.checkmsg (s : Server) (cert : List UInt8) : Str :=
  lit "head=" ++ printed (hex s.tiphash) ++ lit " seq=" ++ dec s.seq ++
    lit " sig=" ++ printed (hex cert)

def Server.docheckpoint (s : Server) (w : World) : Server × Bool :=
  match w.sign s.checkcontent with
  | none => (s, false)
  | some cert =>
    let (s', ok) := s.appendrec hash w.checknow w.checkwrote "-" "checkpoint" (s.checkmsg cert)
    if ok then
      ({ s' with lastcheck := s'.seq, lastattempt := s'.seq,
                 signed := s.signed ++ [s.checkcontent] }, true)
    else (s', false)

def Server.writelog (s : Server) (w : World) (data : Str) : Server × Bool :=
  match tokenize data [' '] with
  | source :: event :: toks =>
    if event = lit "checkpoint" then (s, false)
    else
      let (s', ok) := s.appendrec hash w.now w.wrote source event (join toks)
      if ok = false then (s', false)
      else if int (s'.seq - s'.lastcheck) ≥ CHECKEVERY ∧
          int (s'.seq - s'.lastattempt) ≥ CHECKEVERY then
        (({ s' with lastattempt := s'.seq }.docheckpoint hash w).1, true)
      else (s', true)
  | _ => (s, false)

def Server.writectl (s : Server) (w : World) (data : Str) : Server × Bool :=
  if data = lit "checkpoint" then s.docheckpoint hash w else (s, false)

def Server.tick (s : Server) (w : World) : Server × Bool :=
  if s.seq > s.lastcheck then { s with lastattempt := s.seq }.docheckpoint hash w else (s, true)

def hostname (sysname : List UInt8) : Str :=
  let s := (string sysname).reverse.dropWhile (fun c => c = '\n' || c = ' ')
  if s = [] then ['-'] else s.reverse

def Server.load (file : List UInt8) (signed : List Str) : Server :=
  let (tip, last, _) := replay hash (string file)
  ⟨file, tip, last, 0, 0, signed⟩

def startmsg (sysname : List UInt8) (broken : ℤ) : Str :=
  let rst := if broken ≥ 0 then lit "broken@" ++ dec broken else lit "ok"
  lit "host=" ++ printed (hostname sysname) ++ lit " replay=" ++ printed rst

def Server.init (file : List UInt8) (signed : List Str) (sysname : List UInt8) (w : World) :
    Server × Bool :=
  (Server.load hash file signed).appendrec hash w.now w.wrote "auditfs" "start"
    (startmsg sysname (replay hash (string file)).2.2)

def Server.act (s : Server) : Act → Server × Bool
  | .log data w => s.writelog hash w (stripnl (string data))
  | .ctl data w => s.writectl hash w (stripnl (string data))
  | .tick w => s.tick hash w
  | .restart sysname w => Server.init hash s.file s.signed sysname w

def Server.run (s : Server) (acts : List Act) : Server :=
  acts.foldl (fun s a => (s.act hash a).1) s

end Infernode.Audit
