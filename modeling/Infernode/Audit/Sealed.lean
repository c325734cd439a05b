import Infernode.Audit.Server

/-!
# A sealed log verifies

A record whose text reads back as it was hashed, put at the end of a log that
verifies, leaves a log that verifies, with the server's head. Texts that read back:
no field is empty up to its first NUL, and the message, up to its first NUL, is words
with one space between two.
-/

namespace Infernode.Audit

open Limbo Lib

variable {hash : List UInt8 → List UInt8} {pk : Option PK}

def IsInt (n : ℤ) : Prop := -2 ^ 31 ≤ n ∧ n < 2 ^ 31

theorem int_isInt (n : ℤ) : IsInt (int n) := by
  have h1 := Int.le_bmod (x := n) (m := 2 ^ 32) (by norm_num)
  have h2 := Int.bmod_lt (x := n) (m := 2 ^ 32) (by norm_num)
  rw [IsInt, int]
  omega

theorem digit_space {c : Char} (hc : isdigit c = true) : isspace c = false := by
  have hlow : '0' ≤ c := by
    simp only [isdigit, Bool.and_eq_true, decide_eq_true_eq] at hc
    exact hc.1
  have hne : c ≠ ' ' := by
    rintro rfl
    exact absurd hlow (by decide)
  have hhigh : ¬ c ≤ '\r' := not_le.mpr (lt_of_lt_of_le (by decide) hlow)
  simp [isspace, hne, hhigh]

theorem takeWhile_decimal (n : ℕ) : (decimal n).takeWhile isdigit = decimal n := by
  rw [List.takeWhile_eq_self_iff]
  exact fun c hc => decimal_mem hc

theorem strtoint_dec {n : ℤ} (hn : IsInt n) : strtoint (dec n) = n := by
  obtain ⟨hlow, hhigh⟩ := hn
  rw [dec]
  split_ifs with hneg
  · have hspace : isspace '-' = false := by decide
    simp only [strtoint, List.dropWhile_cons, hspace, Bool.false_eq_true, if_false,
      takeWhile_decimal, decvalue_decimal]
    omega
  · have hval := decvalue_decimal n.natAbs
    have htake := takeWhile_decimal n.natAbs
    have hdigit : ∀ c ∈ decimal n.natAbs, isdigit c = true := fun c hc => decimal_mem hc
    obtain ⟨c, s, hs⟩ := List.exists_cons_of_ne_nil (decimal_ne_nil n.natAbs)
    rw [hs] at hval htake hdigit ⊢
    have hc := hdigit c (by simp)
    have hdrop : (c :: s).dropWhile isspace = c :: s := by
      simp [digit_space hc]
    rw [strtoint, hdrop]
    split
    · rename_i heq
      simp [(List.cons.inj heq).1, isdigit] at hc
    · rename_i heq
      simp [(List.cons.inj heq).1, isdigit] at hc
    · rw [htake, hval]
      omega

def Rec.Settled (r : Rec) : Prop :=
  Audit.printed r.source ≠ [] ∧ Audit.printed r.event ≠ [] ∧
    join (tokenize (Audit.printed r.msg) [' ']) = Audit.printed r.msg

structure Rec.Clean (r : Rec) : Prop where
  worded : r.Worded
  oneline : '\n' ∉ r.source ∧ '\n' ∉ r.event ∧ '\n' ∉ r.msg
  seq : IsInt r.seq
  time : IsInt r.time

theorem space_word {s : Str} (hs : s ≠ []) (hspace : ' ' ∉ s) :
    Word (fun c => decide (c ∈ [' '])) s := by
  refine ⟨hs, fun c hc => ?_⟩
  rw [decide_eq_false_iff_not, List.mem_singleton]
  rintro rfl
  exact hspace hc

theorem parserec_recline {r : Rec} {h : List UInt8} (hc : r.Clean) (hs : r.Settled) (hh : h ≠ []) :
    parserec (recline r h) = some (r.printed, hex h) := by
  have hdec : ∀ n, Word (fun c => decide (c ∈ [' '])) (dec n) := fun n =>
    space_word (dec_ne_nil n) (dec_not_mem n (by decide) (by decide))
  have hprinted : ∀ {s : Str}, printed s ≠ [] → ' ' ∉ s →
      Word (fun c => decide (c ∈ [' '])) (printed s) := fun hne hsp =>
    space_word hne (fun hc => hsp (printed_sub _ _ hc))
  have hhex : Word (fun c => decide (c ∈ [' '])) (hex h) := by
    refine space_word ?_ (hex_not_mem (by decide) h)
    cases h with
    | nil => exact absurd rfl hh
    | cons b h => simp [hex]
  have htok : tokenize (recline r h) [' '] = dec r.seq :: dec r.time :: printed r.source ::
      printed r.event :: hex h :: tokenize (printed r.msg) [' '] := by
    simp only [recline, List.append_assoc, List.cons_append, tokenize]
    rw [tokens_word_delim (hdec _) (by simp), tokens_word_delim (hdec _) (by simp),
      tokens_word_delim (hprinted hs.1 hc.worded.1) (by simp),
      tokens_word_delim (hprinted hs.2.1 hc.worded.2) (by simp),
      tokens_word_delim hhex (by simp)]
  rw [parserec, htok]
  simp [strtoint_dec hc.seq, strtoint_dec hc.time, hs.2.2, Rec.printed]

theorem canon_printed (r : Rec) : canon r.printed = canon r := by
  simp [canon, Rec.printed, printed_of_nonul (printed_nonul _)]

theorem recline_newline {r : Rec} {h : List UInt8} (hc : r.Clean) :
    Word (fun c => decide (c ∈ ['\n'])) (recline r h) := by
  have hdec : ∀ n, '\n' ∉ dec n := fun n => dec_not_mem n (by decide) (by decide)
  have hprinted : ∀ {s : Str}, '\n' ∉ s → '\n' ∉ printed s := fun hs hc => hs (printed_sub _ _ hc)
  have hhex : '\n' ∉ hex h := hex_not_mem (by decide) h
  refine ⟨by simp [recline], fun c hmem => ?_⟩
  rw [decide_eq_false_iff_not, List.mem_singleton]
  rintro rfl
  simp [recline, hdec, hhex, hprinted hc.oneline.1, hprinted hc.oneline.2.1,
    hprinted hc.oneline.2.2] at hmem

def Ended (text : Str) : Prop :=
  text = [] ∨ ∃ t, text = t ++ ['\n']

theorem tokenize_line {text line : Str} (hend : Ended text)
    (hline : Word (fun c => decide (c ∈ ['\n'])) line) :
    tokenize (text ++ (line ++ ['\n'])) ['\n'] = tokenize text ['\n'] ++ [line] := by
  have hlast : tokenize (line ++ ['\n']) ['\n'] = [line] := by
    rw [tokenize, tokens_word_delim hline (by simp)]
    rfl
  rcases hend with rfl | ⟨t, rfl⟩
  · rw [List.nil_append, hlast]
    rfl
  · have hsplit : ∀ u, tokenize (t ++ '\n' :: u) ['\n'] = tokenize t ['\n'] ++ tokenize u ['\n'] :=
      fun u => tokens_append_delim u (by simp)
    rw [List.append_assoc, List.singleton_append, hsplit, hsplit, hlast]
    simp [tokenize, tokens]

variable (hash pk) in
structure Intact (file : List UInt8) (p : Progress) : Prop where
  utf : bytes (string file) = file
  ended : Ended (string file)
  passes : verifylines hash (string file) pk [] (-1) = .ok p

theorem Intact.verified {file : List UInt8} {p : Progress} (h : Intact hash pk file p) :
    Verified hash pk [] (-1) (records (string file)) p ∧
      chainedfrom hash (genesis hash) (tokenize (string file) ['\n']) =
        (records (string file), []) :=
  lines_verified verified_start h.passes

theorem replayfrom_whole {prev : List UInt8} {last : ℤ} {lines : List Str}
    (h : (chainedfrom hash prev lines).2 = []) : (replayfrom hash prev last lines).2.2 = -1 := by
  induction lines generalizing prev last with
  | nil => rfl
  | cons line lines ih =>
    cases hline : parserec line with
    | none => simp [chainedfrom, hline] at h
    | some rec =>
      obtain ⟨r, hashf⟩ := rec
      simp only [chainedfrom, replayfrom, hline] at h ⊢
      split_ifs at h ⊢
      exact ih h

theorem Intact.replay {file : List UInt8} {p : Progress} (h : Intact hash pk file p) :
    replay hash (string file) = (p.prev, p.nrec, -1) := by
  obtain ⟨hv, hc⟩ := h.verified
  obtain ⟨htip, hlast⟩ := replay_head hash (string file)
  have hchained : chained hash (string file) = records (string file) := congrArg Prod.fst hc
  have hwhole : (Audit.replay hash (string file)).2.2 = -1 :=
    replayfrom_whole (congrArg Prod.snd hc)
  rw [hchained, ← hv.prev] at htip
  rw [hchained, ← hv.nrec] at hlast
  exact Prod.ext htip (Prod.ext hlast hwhole)

theorem string_append {file : List UInt8} (h : bytes (string file) = file) (s : Str) :
    string (file ++ bytes s) = string file ++ s := by
  conv_lhs => rw [← h, ← bytes_append]
  exact string_bytes _

theorem records_append {text line : Str} (hend : Ended text)
    (hline : Word (fun c => decide (c ∈ ['\n'])) line) {r : Rec} {hashf : Str}
    (hr : parserec line = some (r, hashf)) :
    records (text ++ (line ++ ['\n'])) = records text ++ [r] := by
  rw [records, tokenize_line hend hline, parsed, List.filterMap_append]
  simp [hr, records, parsed]

variable (hlen : ∀ b, (hash b).length = 32)
include hlen

theorem extend_ne_nil (prev record : List UInt8) : extend hash prev record ≠ [] := by
  intro h
  have hl := hlen (prev ++ record)
  rw [extend, HashChain.extend] at h
  simp [h] at hl

theorem Intact.append {file : List UInt8} {p q : Progress} (h : Intact hash pk file p) {r : Rec}
    (hc : r.Clean) (hs : r.Settled) (hnum : r.seq ≠ -1) (hcheck : p.check pk r.printed = .ok q) :
    Intact hash pk
        (file ++ bytes (recline r (extend hash p.prev (bytes (canon r))) ++ ['\n']))
        { q with prev := extend hash p.prev (bytes (canon r)), nrec := r.seq } ∧
      records (string (file ++ bytes (recline r (extend hash p.prev (bytes (canon r))) ++ ['\n'])))
        = records (string file) ++ [r.printed] := by
  have hword := recline_newline (h := extend hash p.prev (bytes (canon r))) hc
  have hparse := parserec_recline hc hs (extend_ne_nil hlen p.prev (bytes (canon r)))
  have htext := string_append h.utf (recline r (extend hash p.prev (bytes (canon r))) ++ ['\n'])
  refine ⟨⟨?_, ?_, ?_⟩, ?_⟩
  · rw [htext, bytes_append, h.utf]
  · rw [htext]
    exact .inr ⟨_, (List.append_assoc _ _ _).symm⟩
  · have hpass := h.passes
    rw [verifylines] at hpass
    rw [htext, verifylines, tokenize_line h.ended hword, List.foldlM_append, hpass]
    have hprinted : r.printed.seq = r.seq := rfl
    simp [Progress.line, hparse, canon_printed, hcheck, hprinted, hnum, bind, Except.bind, pure,
      Except.pure]
  · rw [htext, records_append h.ended hword hparse]

end Infernode.Audit
