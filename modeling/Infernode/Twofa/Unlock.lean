import Infernode.Twofa.Slots

/-!
# unlock

`unlock` writes nothing but the hint of the credential that worked, which is no slot. It
recovers the data key that the slots open to.
-/

namespace Infernode.Twofa

open Limbo Lib

variable {S : Secstore} {user : Str} {s s' : Account} {w : World}

def Plain (name : Str) : Prop :=
  name ≠ [] ∧ '/' ∉ name ∧ name ≠ lit "." ∧ name ≠ lit ".."

theorem resolve_plain {name : Str} (h : Plain name) (dir : Path) :
    resolve dir name = dir ++ [name] := by
  have hword : Word (fun c => decide (c ∈ ['/'])) name := by
    refine ⟨h.1, fun c hc => decide_eq_false ?_⟩
    rw [List.mem_singleton]
    rintro rfl
    exact h.2.1 hc
  rw [resolve, tokenize, tokens_single hword]
  simp [h.2.2.1, h.2.2.2]

theorem readfile_write (user : Str) (s : Account) (name other : Str) (o : Wrote) (content : List UInt8) :
    readfile user (s.write (dirpath user ++ [name]) o content).files other =
      if other = name then o.file (readfile user s.files name) content
      else readfile user s.files other := by
  simp only [readfile, Account.write, Function.update_apply, List.append_cancel_left_eq,
    List.cons.injEq, and_true]

theorem unlocks_congr {files files' : Files} {name : Str}
    (h : readfile user files' name = readfile user files name) :
    unlocks S user files' name = unlocks S user files name := by
  funext rootkey derive pin recoverypass
  rw [unlocks, unlocks, slotfile, slotfile, h]

theorem live_congr {files files' : Files} {name : Str}
    (h : readfile user files' name = readfile user files name) :
    Live S user files' name ↔ Live S user files name := by
  rw [Live, Live, unlocks_congr h]

theorem slot_wrap_none {ls : List Str} (hls : ∀ l ∈ ls, l ≠ [] ∧ ∀ c ∈ l, c ∉ [' ', '\t'])
    {t : Slot} (ht : t.wrap = none) : (ls.foldl Slot.line t).wrap = none := by
  induction ls generalizing t with
  | nil => exact ht
  | cons l ls ih =>
    obtain ⟨hne, hl⟩ := hls l (by simp)
    refine ih (fun l hl => hls l (by simp [hl])) ?_
    rcases line_wrap t l with h | ⟨f, hf, h⟩
    · rw [h, ht]
    · rw [tokenize, tokens_single ⟨hne, fun c hc => decide_eq_false (hl c hc)⟩] at hf
      rw [h, ← (List.cons.inj hf).2]
      rfl

theorem hint_wrap {cred : Str} (hcred : ∀ c ∈ cred, c ∉ [' ', '\t']) {k : ℕ} {t : Slot}
    (h : readslot ((bytes (cred ++ ['\n'])).take k) = some t) : t.wrap = none := by
  rw [readslot, List.take_take] at h
  split_ifs at h
  obtain rfl := Option.some.inj h
  refine slot_wrap_none (fun l hl => ⟨(tokenize_words _ _ l hl).1, fun c hc => ?_⟩) rfl
  have hmem := (string_take (cred ++ ['\n']) (min SLOTMAX k)).subset
    ((tokens_mem hl hc).resolve_left (by simp))
  rcases List.mem_append.mp hmem with h | h
  · exact hcred c h
  · simp [List.mem_singleton.mp h]

theorem Wrote.file_cases (o : Wrote) (old : Option (List UInt8)) (content : List UInt8) :
    o.file old content = old ∨ ∃ k, o.file old content = some (content.take k) := by
  rcases o with _ | (_ | k) | (_ | k)
  · exact .inr ⟨content.length, by simp [Wrote.file]⟩
  · exact .inl rfl
  · exact .inr ⟨k, rfl⟩
  · exact .inl rfl
  · exact .inr ⟨k, rfl⟩

theorem readslot_cred {file : List UInt8} {t : Slot} (h : readslot file = some t) :
    ∀ c ∈ t.cred, c ∉ [' ', '\t'] := by
  have hline : ∀ (t : Slot) (line : Str), (∀ c ∈ t.cred, c ∉ [' ', '\t']) →
      ∀ c ∈ (t.line line).cred, c ∉ [' ', '\t'] := by
    intro t line ht
    rw [Slot.line]
    split
    · exact ht
    · rename_i key f hf
      have hval : ∀ c ∈ f.headD [], c ∉ [' ', '\t'] := by
        cases f with
        | nil => simp
        | cons val f =>
          have hword := tokenize_words line [' ', '\t'] val (by simp [hf])
          exact fun c hc => of_decide_eq_false (hword.2 c hc)
      dsimp only
      split_ifs
      · exact ht
      · exact hval
      · exact ht
      · exact ht
      · exact ht
  rw [readslot] at h
  split_ifs at h
  obtain rfl := Option.some.inj h
  exact foldl_invariant (I := fun t : Slot => ∀ c ∈ t.cred, c ∉ [' ', '\t']) hline (by simp) _

structure Hinted (S : Secstore) (user : Str) (s s' : Account) : Prop where
  blob : s'.blob = s.blob
  files : ∀ name, name ≠ lit ".lastgood" → readfile user s'.files name = readfile user s.files name
  hint : ¬ Live S user s.files (lit ".lastgood") → ¬ Live S user s'.files (lit ".lastgood")

theorem Hinted.refl (s : Account) : Hinted S user s s :=
  ⟨rfl, fun _ _ => rfl, id⟩

theorem hinted_write {cred : Str} (hcred : ∀ c ∈ cred, c ∉ [' ', '\t']) (o : Wrote) :
    Hinted S user s (s.write (dirpath user ++ [lit ".lastgood"]) o (bytes (cred ++ ['\n']))) := by
  refine ⟨rfl, fun name hname => by rw [readfile_write, if_neg hname], fun hlive => ?_⟩
  rintro ⟨rootkey, derive, pin, recoverypass, DK, hopen⟩
  have hfile := readfile_write user s (lit ".lastgood") (lit ".lastgood") o
    (bytes (cred ++ ['\n']))
  rw [if_pos rfl] at hfile
  rcases o.file_cases (readfile user s.files (lit ".lastgood")) (bytes (cred ++ ['\n'])) with
    hold | ⟨k, hcut⟩
  · rw [unlocks_congr (hfile.trans hold)] at hopen
    exact hlive ⟨rootkey, derive, pin, recoverypass, DK, hopen⟩
  · obtain ⟨t, ht, hopen⟩ := Option.bind_eq_some_iff.mp hopen
    rw [slotfile, hfile, hcut, Option.bind_some] at ht
    obtain ⟨wrap, -, hwrap, -⟩ := opens_wrap hopen
    rw [hint_wrap hcred ht] at hwrap
    exact absurd hwrap (by simp)

theorem ensures_fail {α : Type} {msg : Str} {Q : α → Account → Prop} {E : Fault → Account → Prop}
    (h : E (.failed msg) s) : Ensures (fail msg : Call α) s Q E := h

theorem writelastgood_spec {cred : Str} {Q : PUnit → Account → Prop} {E : Fault → Account → Prop}
    (hQ : (∀ cut, w.hint ≠ .stopped cut) →
      Q ⟨⟩ (s.write (dirpath user ++ [lit ".lastgood"]) w.hint (bytes (cred ++ ['\n']))))
    (hE : (∃ cut, w.hint = .stopped cut) → E .stopped
      (s.write (dirpath user ++ [lit ".lastgood"]) w.hint (bytes (cred ++ ['\n'])))) :
    Ensures (writelastgood user w cred) s Q E := by
  rw [writelastgood]
  refine ensures_bind (ensures_modify ?_)
  split
  · rename_i cut hcut
    exact ensures_throw (hE ⟨cut, hcut⟩)
  · rename_i hcut
    exact ensures_pure (hQ hcut)

section

variable {rootkey : Key} {recoverypass pin : Str}

theorem slot_unlocks {files : Files} {listing : List Str} {cred : Str} {t : Slot}
    {derive : Derive} {DK : List UInt8} (ht : t ∈ frontload (listslots user files listing) cred)
    (h : opens S user rootkey derive pin recoverypass t = some DK) :
    ∃ name, unlocks S user files name rootkey derive pin recoverypass = some DK := by
  obtain ⟨name, -, hslot, -⟩ := mem_listslots.mp (mem_frontload.mp ht)
  exact ⟨name, by rw [unlocks, hslot, Option.bind_some, h]⟩

theorem unlock_spec : Ensures (unlock S user w rootkey recoverypass pin) s
    (fun DK s' => Hinted S user s s' ∧ ∃ name,
      unlocks S user s.files name rootkey w.unlocks pin recoverypass = some DK)
    (fun _ s' => Hinted S user s s') := by
  rw [unlock]
  refine ensures_get ?_
  dsimp only
  split_ifs
  · exact ensures_fail (Hinted.refl s)
  · split
    · rename_i cred DK hkeys
      obtain ⟨t, ht, hopen⟩ := trykeys_mem hkeys
      have hcred : ∀ c ∈ cred, c ∉ [' ', '\t'] := by
        obtain ⟨name, -, hslot, -⟩ := mem_listslots.mp (mem_frontload.mp ht)
        obtain ⟨file, -, hread⟩ := Option.bind_eq_some_iff.mp hslot
        exact (trykeys_single.mp hopen).2.1 ▸ readslot_cred hread
      have hhint : Hinted S user s
          (s.write (dirpath user ++ [lit ".lastgood"]) w.hint (bytes (cred ++ ['\n']))) :=
        hinted_write hcred w.hint
      refine ensures_bind (writelastgood_spec (fun _ => ?_) (fun _ => hhint))
      exact ensures_pure ⟨hhint, slot_unlocks ht (opens_of_keys hopen)⟩
    · split
      · rename_i DK hrec
        obtain ⟨t, ht, hopen⟩ := tryrecovery_mem hrec
        exact ensures_pure ⟨Hinted.refl s, slot_unlocks ht (opens_of_recovery hopen)⟩
      · split_ifs
        · exact ensures_fail (Hinted.refl s)
        · exact ensures_fail (Hinted.refl s)

variable (S user rootkey) in
/-- There are a device, a PIN and a passphrase with which `unlock` returns the data key,
in whatever order the directory is read. -/
def Recoverable (files : Files) (DK : List UInt8) : Prop :=
  ∃ derive pin recoverypass, ∀ (w : World) (s : Account), s.files = files → w.unlocks = derive →
    (∀ name, slotfile user files name ≠ none → name ∈ w.listing) →
    (∀ cut, w.hint ≠ .stopped cut) →
    ∃ s', unlock S user w rootkey recoverypass pin s = .ok DK s'

def Only (S : Secstore) (user : Str) (files : Files) (DK : List UInt8) : Prop :=
  ∀ name rootkey derive pin recoverypass DK',
    unlocks S user files name rootkey derive pin recoverypass = some DK' → DK' = DK

theorem listed {files : Files} {listing : List Str} {name cred : Str} {t : Slot}
    {derive : Derive} {DK : List UInt8} (hname : name ∈ listing)
    (ht : slotfile user files name = some t)
    (h : opens S user rootkey derive pin recoverypass t = some DK) :
    t ∈ frontload (listslots user files listing) cred :=
  mem_frontload.mpr (mem_listslots.mpr ⟨name, hname, ht, opens_kind h⟩)

theorem unlock_returns {DK : List UInt8} (honly : Only S user s.files DK) {t : Slot}
    (ht : t ∈ frontload (listslots user s.files w.listing) (readlastgood user s.files))
    (hhint : ∀ cut, w.hint ≠ .stopped cut)
    (hreach : (∃ r, trykeys S rootkey w.unlocks pin
        (frontload (listslots user s.files w.listing) (readlastgood user s.files)) [] = .ok r) ∨
      ∃ DK', tryrecovery S user recoverypass
        (frontload (listslots user s.files w.listing) (readlastgood user s.files)) = some DK') :
    ∃ s', unlock S user w rootkey recoverypass pin s = .ok DK s' := by
  have hensures : Ensures (unlock S user w rootkey recoverypass pin) s (fun DK' _ => DK' = DK)
      (fun _ _ => False) := by
    rw [unlock]
    refine ensures_get ?_
    dsimp only
    rw [if_neg (List.ne_nil_of_mem ht)]
    split
    · rename_i cred DK' hkeys
      obtain ⟨t', ht', hopen⟩ := trykeys_mem hkeys
      have hopens : opens S user rootkey w.unlocks pin recoverypass t' = some DK' :=
        opens_of_keys hopen
      obtain ⟨name, h⟩ := slot_unlocks ht' hopens
      refine ensures_bind (writelastgood_spec (fun _ => ensures_pure (honly _ _ _ _ _ _ h)) ?_)
      exact fun ⟨cut, hcut⟩ => hhint cut hcut
    · rename_i lastderr hkeys
      obtain ⟨DK', hrec⟩ := hreach.resolve_left (fun ⟨r, hr⟩ => by simp [hr] at hkeys)
      rw [hrec]
      obtain ⟨t', ht', hopen⟩ := tryrecovery_mem hrec
      have hopens : opens S user rootkey w.unlocks pin recoverypass t' = some DK' :=
        opens_of_recovery hopen
      obtain ⟨name, h⟩ := slot_unlocks ht' hopens
      exact ensures_pure (honly _ _ _ _ _ _ h)
  obtain ⟨a, s', hrun, rfl⟩ := hensures.returns
  exact ⟨s', hrun⟩

theorem recoverable_of_works {files : Files} {DK : List UInt8} (honly : Only S user files DK)
    {name : Str} {derive : Derive}
    (hworks : unlocks S user files name rootkey derive pin recoverypass = some DK) :
    Recoverable S user rootkey files DK := by
  obtain ⟨t, ht, hopen⟩ := Option.bind_eq_some_iff.mp hworks
  rcases opens_cases hopen with ⟨cred, hkey⟩ | hrec
  · obtain ⟨hkind, hcred, wrap, salt, R, hwrap, hsalt, -, hDK⟩ := trykeys_single.mp hkey
    -- the device knows this credential and no other
    refine ⟨fun c sa p => if c = t.cred ∧ sa = salt ∧ p = pin then .ok R else .error [], pin, [],
      fun w s hs hw hlist hhint => ?_⟩
    subst hs
    have hkey' : trykeys S rootkey w.unlocks pin [t] [] = .ok (cred, DK) :=
      trykeys_single.mpr ⟨hkind, hcred, wrap, salt, R, hwrap, hsalt, by simp [hw], hDK⟩
    have hpin : ∀ c sa p e, w.unlocks c sa p = .error e → ispinerr e = false := by
      intro c sa p e he
      simp only [hw] at he
      split_ifs at he
      obtain rfl := Except.error.inj he
      decide
    have hin : t ∈ frontload (listslots user s.files w.listing) (readlastgood user s.files) :=
      listed (hlist name (by simp [ht])) ht hopen
    exact unlock_returns honly hin hhint (.inl (trykeys_reaches hpin hin hkey' _))
  · refine ⟨fun _ _ _ => .error [], pin, recoverypass, fun w s hs hw hlist hhint => ?_⟩
    subst hs
    have hin : t ∈ frontload (listslots user s.files w.listing) (readlastgood user s.files) :=
      listed (hlist name (by simp [ht])) ht hopen
    exact unlock_returns honly hin hhint (.inr (tryrecovery_reaches hin hrec))

end

end Infernode.Twofa
