import Infernode.Audit.Verify

/-!
# The records that a chain covers

`chained` are the records that `replay` reads before it stops and `unchained` the
lines left. The tip is the hash chain of the canonical texts, and these texts
determine what was printed of each record.
-/

namespace Infernode.Audit

open Limbo Lib

variable {hash : List UInt8 → List UInt8} {s t u v : Str}

theorem printed_sub (s : Str) : ∀ c ∈ printed s, c ∈ s :=
  fun _ hc => (List.takeWhile_sublist _).subset hc

theorem printed_nonul (s : Str) : '\x00' ∉ printed s := by
  intro hc
  simpa using List.mem_takeWhile_imp hc

theorem printed_of_nonul (hs : '\x00' ∉ s) : printed s = s := by
  rw [printed, List.takeWhile_eq_self_iff]
  intro c hc
  rw [decide_eq_true_eq]
  rintro rfl
  exact hs hc

theorem decimal_mem {n : ℕ} {c : Char} (hc : c ∈ decimal n) : isdigit c = true :=
  List.all_eq_true.mp (decimal_isdigit n) c hc

theorem dec_mem {n : ℤ} {c : Char} (hc : c ∈ dec n) : c = '-' ∨ isdigit c = true := by
  rw [dec] at hc
  split_ifs at hc
  · rcases List.mem_cons.mp hc with rfl | hc
    · exact .inl rfl
    · exact .inr (decimal_mem hc)
  · exact .inr (decimal_mem hc)

theorem dec_not_mem (n : ℤ) {d : Char} (hd : isdigit d = false) (hminus : d ≠ '-') :
    d ∉ dec n := by
  intro hc
  rcases dec_mem hc with rfl | hc
  · exact hminus rfl
  · simp [hc] at hd

theorem dec_ne_nil (n : ℤ) : dec n ≠ [] := by
  rw [dec]
  split_ifs
  · simp
  · exact decimal_ne_nil _

theorem dec_injective : Function.Injective dec := by
  intro m n h
  have hne : ∀ k l : ℕ, '-' :: decimal k ≠ decimal l := by
    intro k l heq
    have hminus := decimal_mem (n := l) (c := '-') (by simp [← heq])
    simp [isdigit] at hminus
  simp only [dec] at h
  split_ifs at h with hm hn hn
  · have := decimal_injective (List.cons.inj h).2
    omega
  · exact absurd h (hne _ _)
  · exact absurd h.symm (hne _ _)
  · have := decimal_injective h
    omega

theorem space_inj (hs : ' ' ∉ s) (ht : ' ' ∉ t) (h : s ++ ' ' :: u = t ++ ' ' :: v) :
    s = t ∧ u = v := by
  induction s generalizing t with
  | nil =>
    cases t with
    | nil => exact ⟨rfl, (List.cons.inj h).2⟩
    | cons d t => exact absurd (List.mem_cons.mpr (.inl (List.cons.inj h).1)) ht
  | cons c s ih =>
    cases t with
    | nil => exact absurd (List.mem_cons.mpr (.inl (List.cons.inj h).1.symm)) hs
    | cons d t =>
      obtain ⟨rfl, htail⟩ := List.cons.inj h
      obtain ⟨rfl, rfl⟩ := ih (fun hc => hs (by simp [hc])) (fun hc => ht (by simp [hc])) htail
      exact ⟨rfl, rfl⟩

theorem canon_inj {r r' : Rec} (hr : r.Worded) (hr' : r'.Worded) (h : canon r = canon r') :
    r.printed = r'.printed := by
  have hdec : ∀ n, ' ' ∉ dec n := fun n => dec_not_mem n (by decide) (by decide)
  have hword : ∀ {s : Str}, ' ' ∉ s → ' ' ∉ printed s := fun hs hc => hs (printed_sub _ _ hc)
  simp only [canon, List.append_assoc, List.cons_append] at h
  obtain ⟨hseq, h⟩ := space_inj (hdec _) (hdec _) h
  obtain ⟨htime, h⟩ := space_inj (hdec _) (hdec _) h
  obtain ⟨hsource, h⟩ := space_inj (hword hr.1) (hword hr'.1) h
  obtain ⟨hevent, hmsg⟩ := space_inj (hword hr.2) (hword hr'.2) h
  simp [Rec.printed, dec_injective hseq, dec_injective htime, hsource, hevent, hmsg]

variable (hash) in
def chainof (rs : List Rec) : List UInt8 :=
  HashChain.chain hash (bytes GENESIS) (rs.map fun r => bytes (canon r))

variable (hash) in
def hashed (rs : List Rec) : List (List UInt8) :=
  HashChain.inputs hash (bytes GENESIS) (rs.map fun r => bytes (canon r))

def lastseq (rs : List Rec) : ℤ :=
  (rs.getLast?.map Rec.seq).getD 0

theorem genesis_length : (bytes GENESIS).length < 32 := by decide

@[simp] theorem chainof_nil : chainof hash [] = genesis hash := rfl

@[simp] theorem chainof_append_singleton (rs : List Rec) (r : Rec) :
    chainof hash (rs ++ [r]) = extend hash (chainof hash rs) (bytes (canon r)) := by
  simp [chainof, extend]

@[simp] theorem lastseq_append_singleton (rs : List Rec) (r : Rec) :
    lastseq (rs ++ [r]) = r.seq := by
  simp [lastseq]

theorem chainof_binding {S : Set (List UInt8)} (hlen : ∀ b, (hash b).length = 32)
    (hinj : Set.InjOn hash S) {rs rs' : List Rec} (hS : ∀ b ∈ hashed hash rs, b ∈ S)
    (hS' : ∀ b ∈ hashed hash rs', b ∈ S) (hw : ∀ r ∈ rs, r.Worded) (hw' : ∀ r ∈ rs', r.Worded)
    (h : chainof hash rs = chainof hash rs') : rs.map Rec.printed = rs'.map Rec.printed := by
  have htexts := HashChain.chain_binding hlen genesis_length hinj hS hS' h
  clear h hS hS'
  induction rs generalizing rs' with
  | nil => simpa using (congrArg List.length htexts).symm
  | cons r rs ih =>
    cases rs' with
    | nil => simp at htexts
    | cons r' rs' =>
      simp only [List.map_cons, List.cons.injEq] at htexts ⊢
      refine ⟨canon_inj (hw r (by simp)) (hw' r' (by simp)) (bytes_injective htexts.1), ?_⟩
      exact ih (fun r hr => hw r (by simp [hr])) (fun r hr => hw' r (by simp [hr])) htexts.2

theorem lastseq_printed {rs rs' : List Rec} (h : rs.map Rec.printed = rs'.map Rec.printed) :
    lastseq rs = lastseq rs' := by
  have hseq : ∀ rs : List Rec, lastseq rs = lastseq (rs.map Rec.printed) := by
    intro rs
    simp only [lastseq, List.getLast?_map, Option.map_map]
    rfl
  rw [hseq, h, ← hseq]

theorem parserec_worded {line : Str} {r : Rec} {hashf : Str} (h : parserec line = some (r, hashf)) :
    r.Worded := by
  have hwords := tokenize_words line [' ']
  rw [parserec] at h
  split at h
  · rename_i seqf tf source event hashf' toks htoks
    obtain ⟨rfl, rfl⟩ := Prod.mk.inj (Option.some.inj h)
    rw [htoks] at hwords
    constructor
    · intro hc
      simpa using (hwords source (by simp)).2 ' ' hc
    · intro hc
      simpa using (hwords event (by simp)).2 ' ' hc
  · simp at h

variable (hash) in
def chainedfrom (prev : List UInt8) : List Str → List Rec × List Str
  | [] => ([], [])
  | line :: lines =>
    match parserec line with
    | none => ([], line :: lines)
    | some (r, hashf) =>
      let h := extend hash prev (bytes (canon r))
      if hex h ≠ hashf then ([], line :: lines)
      else (r :: (chainedfrom h lines).1, (chainedfrom h lines).2)

def parsed (lines : List Str) : List Rec :=
  lines.filterMap fun line => (parserec line).map Prod.fst

def records (data : Str) : List Rec :=
  parsed (tokenize data ['\n'])

variable (hash) in
def chained (data : Str) : List Rec :=
  (chainedfrom hash (genesis hash) (tokenize data ['\n'])).1

variable (hash) in
def unchained (data : Str) : List Rec :=
  parsed (chainedfrom hash (genesis hash) (tokenize data ['\n'])).2

theorem parsed_chainedfrom (prev : List UInt8) (lines : List Str) :
    parsed lines = (chainedfrom hash prev lines).1 ++ parsed (chainedfrom hash prev lines).2 := by
  induction lines generalizing prev with
  | nil => rfl
  | cons line lines ih =>
    rw [chainedfrom]
    split
    · simp
    · rename_i r hashf hline
      dsimp only
      split_ifs
      · simp
      · have hcons : parsed (line :: lines) = r :: parsed lines := by simp [parsed, hline]
        rw [hcons, ih (extend hash prev (bytes (canon r))), List.cons_append]

variable (hash) in
theorem records_eq (data : Str) : records data = chained hash data ++ unchained hash data :=
  parsed_chainedfrom _ _

theorem chainedfrom_worded (prev : List UInt8) (lines : List Str) :
    ∀ r ∈ (chainedfrom hash prev lines).1, r.Worded := by
  induction lines generalizing prev with
  | nil => simp [chainedfrom]
  | cons line lines ih =>
    rw [chainedfrom]
    split
    · simp
    · rename_i r hashf hline
      dsimp only
      split_ifs
      · simp
      · intro r' hr'
        rcases List.mem_cons.mp hr' with rfl | hr'
        · exact parserec_worded hline
        · exact ih _ r' hr'

theorem replayfrom_eq (prev : List UInt8) (last : ℤ) (lines : List Str) :
    (replayfrom hash prev last lines).1 = (chainedfrom hash prev lines).1.foldl
        (fun prev r => extend hash prev (bytes (canon r))) prev ∧
      (replayfrom hash prev last lines).2.1 =
        ((chainedfrom hash prev lines).1.getLast?.map Rec.seq).getD last := by
  induction lines generalizing prev last with
  | nil => simp [replayfrom, chainedfrom]
  | cons line lines ih =>
    cases hline : parserec line with
    | none => simp [replayfrom, chainedfrom, hline]
    | some rec =>
      obtain ⟨r, hashf⟩ := rec
      simp only [replayfrom, chainedfrom, hline]
      split_ifs
      · simp
      · obtain ⟨htip, hlast⟩ := ih (extend hash prev (bytes (canon r))) r.seq
        refine ⟨htip, ?_⟩
        rw [hlast, List.getLast?_cons]
        cases (chainedfrom hash (extend hash prev (bytes (canon r))) lines).1.getLast? <;> rfl

theorem chainof_eq (rs : List Rec) :
    chainof hash rs = rs.foldl (fun prev r => extend hash prev (bytes (canon r))) (genesis hash) := by
  rw [chainof, HashChain.chain, List.foldl_map]
  rfl

variable (hash) in
theorem replay_head (data : Str) :
    (replay hash data).1 = chainof hash (chained hash data) ∧
      (replay hash data).2.1 = lastseq (chained hash data) := by
  rw [chainof_eq]
  exact replayfrom_eq _ _ _

end Infernode.Audit
