import Infernode.Twofa.Written

/-!
# Never bricked

The blob of an account opens with the password, or with the one data key that its slots
open to, and one slot opens. Every call keeps this, and a call that fails leaves every
slot as good as it was, when no slot that unlocks is in the way.
-/

namespace Infernode.Twofa

open Limbo Lib

variable {S : Secstore} {user password : Str} {s s' : Account} {w : World}

variable (S password user) in
def Passworded (blob : List UInt8) : Prop :=
  ∃ plaintext, S.decrypt3 blob (S.mkfilekey3 user password) (some (S.mkfilekey2 password))
    (some (S.mkfilekey password)) = some plaintext

variable (S user password) in
structure Keyed (files : Files) (blob DK : List UInt8) : Prop where
  length : DK.length = 32
  blob : ∃ plaintext, S.decrypt3 blob DK none none = some plaintext
  only : Only S user files DK
  works : ∃ name derive pin recoverypass,
    unlocks S user files name (S.mkfilekey3 user password) derive pin recoverypass = some DK

variable (S user password) in
structure Kept (s : Account) : Prop where
  hint : ¬ Live S user s.files (lit ".lastgood")
  blob : ∀ blob ∈ s.blob, Passworded S user password blob ∨
    ∃ DK, Keyed S user password s.files blob DK

def Ends (S : Secstore) (user password : Str) (s : Account) (e : Fault) (s' : Account) : Prop :=
  Kept S user password s' ∧ ∀ msg, e = .failed msg → Preserves S user s.files s'.files

theorem Preserves.refl (files : Files) : Preserves S user files files :=
  fun _ _ _ _ _ _ h => h

theorem Kept.ends (h : Kept S user password s) (e : Fault) : Ends S user password s e s :=
  ⟨h, fun _ _ => Preserves.refl _⟩

theorem Hinted.preserves (h : Hinted S user s s') (hs : Kept S user password s) :
    Preserves S user s.files s'.files := by
  intro name rootkey derive pin recoverypass DK hopen
  by_cases hname : name = lit ".lastgood"
  · exact absurd ⟨rootkey, derive, pin, recoverypass, DK, hname ▸ hopen⟩ hs.hint
  · rw [unlocks_congr (h.files name hname), hopen]

theorem Hinted.live (h : Hinted S user s s') (hs : Kept S user password s) {name : Str} :
    Live S user s'.files name ↔ Live S user s.files name := by
  by_cases hname : name = lit ".lastgood"
  · subst hname
    exact iff_of_false (h.hint hs.hint) hs.hint
  · exact live_congr (h.files name hname)

theorem Hinted.unlocked (h : Hinted S user s s') (hs : Kept S user password s) {name : Str}
    {rootkey : Key} {derive : Derive} {pin recoverypass : Str} {DK : List UInt8}
    (hopen : unlocks S user s'.files name rootkey derive pin recoverypass = some DK) :
    unlocks S user s.files name rootkey derive pin recoverypass = some DK := by
  by_cases hname : name = lit ".lastgood"
  · exact absurd ⟨rootkey, derive, pin, recoverypass, DK, hname ▸ hopen⟩ (h.hint hs.hint)
  · rw [← hopen, unlocks_congr (h.files name hname)]

theorem Hinted.kept (h : Hinted S user s s') (hs : Kept S user password s) :
    Kept S user password s' := by
  refine ⟨h.hint hs.hint, fun blob hblob => ?_⟩
  rcases hs.blob blob (h.blob ▸ hblob) with hpass | ⟨DK, hDK⟩
  · exact .inl hpass
  · obtain ⟨name, derive, pin, recoverypass, hworks⟩ := hDK.works
    exact .inr ⟨DK, hDK.length, hDK.blob,
      fun _ _ _ _ _ _ hopen => hDK.only _ _ _ _ _ _ (h.unlocked hs hopen),
      name, derive, pin, recoverypass, h.preserves hs _ _ _ _ _ _ hworks⟩

theorem without_unlocks {paths : List Path} {name : Str} {rootkey : Key} {derive : Derive}
    {pin recoverypass : Str} {DK : List UInt8}
    (h : unlocks S user (s.without paths).files name rootkey derive pin recoverypass = some DK) :
    unlocks S user s.files name rootkey derive pin recoverypass = some DK := by
  simp only [unlocks, slotfile, readfile, Account.without] at h ⊢
  split_ifs at h
  · exact absurd h (by simp)
  · exact h

theorem without_hint {paths : List Path} (h : ¬ Live S user s.files (lit ".lastgood")) :
    ¬ Live S user (s.without paths).files (lit ".lastgood") := by
  rintro ⟨rootkey, derive, pin, recoverypass, DK, hopen⟩
  exact h ⟨rootkey, derive, pin, recoverypass, DK, without_unlocks hopen⟩

theorem removeslots_spec {Q : PUnit → Account → Prop} {E : Fault → Account → Prop}
    (hQ : ∀ paths, Q ⟨⟩ (s.without paths)) (hE : ∀ paths, E .stopped (s.without paths)) :
    Ensures (removeslots user w) s Q E := by
  rw [removeslots]
  refine ensures_bind (ensures_modify ?_)
  split_ifs
  · exact ensures_throw (hE _)
  · exact ensures_pure (hQ _)

theorem putfile_spec {newfile : List UInt8} {Q : Bool → Account → Prop}
    {E : Fault → Account → Prop} (hstored : Q true { s with blob := some newfile })
    (hfailed : w.put = .failed → Q false s)
    (hstopped : E .stopped { s with blob := some newfile }) (hstopped' : E .stopped s) :
    Ensures (putfile w newfile) s Q E := by
  rw [putfile]
  split
  · exact ensures_bind (ensures_modify (ensures_pure hstored))
  · rename_i hput
    exact ensures_pure (hfailed hput)
  · rename_i stored hput
    refine ensures_bind (ensures_modify (ensures_throw ?_))
    cases stored
    · exact hstopped'
    · exact hstopped

theorem touched_hint {recs : List (Str × List UInt8)} {os : List Wrote}
    (h : Touched user recs os s s') (hrecs : ∀ r ∈ recs, r.1 ≠ lit ".lastgood")
    (hs : ¬ Live S user s.files (lit ".lastgood")) : ¬ Live S user s'.files (lit ".lastgood") := by
  rcases h.2 (lit ".lastgood") with hsame | ⟨content, k, hmem, -⟩
  · rwa [live_congr hsame]
  · exact absurd rfl (hrecs _ hmem)

variable (S user password) in
def Meets (s : Account) : World × Act → Prop
  | (w, .enroll _ recoverypass keys _) => Fit keys recoverypass ∧
      (w.gives = true ∨ ∀ blob ∈ s.blob, Passworded S user password blob) ∧
      ((∀ name, ¬ Live S user s.files name) ∨ (∀ o ∈ w.writes, o = .wrote) ∧ w.put ≠ .failed ∧
        ∀ name, Live S user s.files name → name ∈ slotnames keys recoverypass)
  | (w, .addkey pass _ cred salthex _) => Fit [(keyname cred, cred, salthex)] [] ∧
      (¬ Live S user s.files (keyname cred) ∨ (∀ o ∈ w.writes, o = .wrote) ∧ pass = password)
  | (_, .disable _ _ _) => True

section

variable {rootkey DK : Key} {pass recoverypass pin : Str} {keys : List (Str × Str × Str)}
  {recs : List (Str × List UInt8)}

theorem enrolled (hS : S.Sound) (hfit : Fit keys recoverypass) (hs : Kept S user password s)
    (hDK : DK.length = 32)
    (hrecs : slotrecs S user w (S.mkfilekey3 user password) DK keys recoverypass pin = .ok recs)
    (hnil : recs ≠ []) (htouched : Touched user recs w.writes s s')
    (hall : ∀ r ∈ recs, readfile user s'.files r.1 = some r.2)
    (hlive : ∀ name, Live S user s.files name → name ∈ slotnames keys recoverypass)
    {newfile plaintext : List UInt8} (hnew : S.decrypt3 newfile DK none none = some plaintext) :
    Kept S user password { s' with blob := some newfile } := by
  have hwraps := slotrecs_wraps hfit hrecs
  have hhint := touched_hint htouched (fun r hr => (hwraps r hr).2.2) hs.hint
  have honly : Only S user s'.files DK := by
    refine touched_only hS htouched (fun r hr => (hwraps r hr).1) ?_
    intro name hsame rootkey derive pin recoverypass' DK' hopen
    have hname := hlive name ⟨rootkey, derive, pin, recoverypass', DK', hopen⟩
    rw [← (slotrecs_spec hrecs).1.mem_iff] at hname
    obtain ⟨r, hr, rfl⟩ := List.mem_map.mp hname
    rw [← unlocks_congr hsame] at hopen
    obtain ⟨t, ht, hopen⟩ := Option.bind_eq_some_iff.mp hopen
    rw [slotfile, hall r hr, Option.bind_some, ← List.take_length (l := r.2)] at ht
    exact wraps_only hS (hwraps r hr).1 ht hopen
  refine ⟨hhint, fun blob hblob => ?_⟩
  obtain rfl := Option.some.inj hblob
  obtain ⟨r, hr⟩ := List.exists_mem_of_ne_nil recs hnil
  obtain ⟨derive, pin, recoverypass, hworks⟩ := slotrecs_works hS hfit hDK hrecs hr (hall r hr)
  exact .inr ⟨DK, hDK, ⟨plaintext, hnew⟩, honly, r.1, derive, pin, recoverypass, hworks⟩

theorem kept_of_passworded (hhint : ¬ Live S user s.files (lit ".lastgood"))
    (h : ∀ blob ∈ s.blob, Passworded S user password blob) : Kept S user password s :=
  ⟨hhint, fun blob hblob => .inl (h blob hblob)⟩

theorem enroll_spec (hS : S.Sound) (hs : Kept S user password s)
    (hm : Meets S user password s (w, .enroll pass recoverypass keys pin)) :
    Ensures (enroll S user password w pass recoverypass keys pin) s
      (fun _ s' => Kept S user password s') (Ends S user password s) := by
  obtain ⟨hfit, hgives, hway⟩ := hm
  have hlive : ∀ name, Live S user s.files name → name ∈ slotnames keys recoverypass :=
    hway.elim (fun hdead name h => absurd h (hdead name)) (fun h => h.2.2)
  have hdead : (∃ o ∈ w.writes, o ≠ .wrote) ∨ w.put = .failed → ∀ files',
      Preserves S user s.files files' := by
    intro hfailed files' name rootkey derive pin recoverypass DK hopen
    refine absurd ⟨rootkey, derive, pin, recoverypass, DK, hopen⟩ (hway.resolve_right ?_ name)
    rintro ⟨hwrote, hput, -⟩
    exact hfailed.elim (fun ⟨o, ho, hne⟩ => hne (hwrote o ho)) hput
  rw [enroll]
  by_cases hconn : w.connects = false ∨ pass ≠ password
  · rw [if_pos hconn]
    exact ensures_fail (hs.ends _)
  rw [if_neg hconn]
  obtain ⟨-, hpass⟩ := not_or.mp hconn
  obtain rfl := not_not.mp hpass
  refine ensures_get ?_
  dsimp only
  split
  · exact ensures_fail (hs.ends _)
  rename_i plaintext hplaintext
  have hpassworded : ∀ blob ∈ s.blob, Passworded S user pass blob := by
    rcases hgives with hgives | h
    · intro blob hblob
      rw [if_pos hgives, Option.mem_def.mp hblob] at hplaintext
      exact ⟨plaintext, hplaintext⟩
    · exact h
  split
  · exact ensures_fail (hs.ends _)
  rename_i DK hDK
  have hDK : DK.length = 32 := by simpa using (Option.filter_eq_some_iff.mp hDK).2
  split
  · exact ensures_fail (hs.ends _)
  rename_i newfile hnewfile
  have hnew : S.decrypt3 newfile DK none none = some plaintext := by
    simpa using (Option.filter_eq_some_iff.mp hnewfile).2
  have hkept : ∀ {recs os s'}, slotrecs S user w (S.mkfilekey3 user pass) DK keys recoverypass pin
      = .ok recs → Touched user recs os s s' → Kept S user pass s' := by
    intro recs os s' hrecs htouched
    refine kept_of_passworded (touched_hint htouched
      (fun r hr => (slotrecs_wraps hfit hrecs r hr).2.2) hs.hint) ?_
    rw [htouched.1]
    exact hpassworded
  refine Ensures.call (ensures_adapt (F := Ends S user pass s)
    ((writeslots_spec hfit).mono (fun _ _ h => h) ?_)) ?_ (fun _ _ h => h)
  · rintro e s' (rfl | ⟨recs, hrecs, htouched, hfailed⟩)
    · exact hs.ends _
    · refine ⟨hkept hrecs htouched, fun msg hmsg => ?_⟩
      cases e with
      | failed msg' => exact hdead (.inl (hfailed msg' rfl)) _
      | stopped => exact absurd hmsg nofun
  · rintro - s' ⟨recs, hrecs, hnil, htouched, hall⟩
    have hkept' := hkept hrecs htouched
    have hsuccess := enrolled hS hfit hs hDK hrecs hnil htouched hall hlive hnew
    refine ensures_bind (putfile_spec (ensures_pure hsuccess) (fun hput => ?_)
      ⟨hsuccess, nofun⟩ ⟨hkept', nofun⟩)
    have hremoved : ∀ paths, Kept S user pass (s'.without paths) :=
      fun paths => kept_of_passworded (without_hint hkept'.hint) (htouched.1 ▸ hpassworded)
    exact ensures_bind (removeslots_spec
      (fun paths => ensures_fail ⟨hremoved paths, fun _ _ => hdead (.inr hput) _⟩)
      (fun paths => ⟨hremoved paths, nofun⟩))

theorem added (hS : S.Sound) {name cred salthex : Str} (hfit : Fit [(name, cred, salthex)] [])
    (hs : Kept S user password s)
    (hrecs : slotrecs S user w (S.mkfilekey3 user pass) DK [(name, cred, salthex)] [] pin =
      .ok recs)
    (htouched : Touched user recs w.writes s s')
    (hway : ¬ Live S user s.files name ∨ (∀ o ∈ w.writes, o = .wrote) ∧ pass = password)
    (hDK : ∀ DK', Only S user s.files DK' → DK' = DK) : Kept S user password s' := by
  have hwraps := slotrecs_wraps hfit hrecs
  have hname : ∀ r ∈ recs, r.1 = name := by
    intro r hr
    have hmem : r.1 ∈ slotnames [(name, cred, salthex)] [] :=
      (slotrecs_spec hrecs).1.mem_iff.mp (List.mem_map_of_mem hr)
    simpa [slotnames] using hmem
  refine ⟨touched_hint htouched (fun r hr => (hwraps r hr).2.2) hs.hint, fun blob hblob => ?_⟩
  rcases hs.blob blob (htouched.1 ▸ hblob) with hpass | ⟨DK', hkeyed⟩
  · exact .inl hpass
  obtain rfl := hDK DK' hkeyed.only
  refine .inr ⟨DK', hkeyed.length, hkeyed.blob, ?_, ?_⟩
  · exact touched_only hS htouched (fun r hr => (hwraps r hr).1)
      (fun name _ _ _ _ _ _ hopen => hkeyed.only _ _ _ _ _ _ hopen)
  · obtain ⟨name', derive, pin', recoverypass', hworks⟩ := hkeyed.works
    rcases htouched.2 name' with hsame | ⟨content, k, hmem, hfile, hfull⟩
    · exact ⟨name', derive, pin', recoverypass', by rw [unlocks_congr hsame, hworks]⟩
    · obtain rfl : name' = name := hname _ hmem
      -- written over: whole, or it did not unlock
      obtain ⟨hwrote, rfl⟩ :=
        hway.resolve_left (not_not.mpr ⟨_, derive, pin', recoverypass', DK', hworks⟩)
      rw [hfull hwrote, List.take_length] at hfile
      obtain ⟨derive, pin, recoverypass, hworks⟩ :=
        slotrecs_works hS hfit hkeyed.length hrecs hmem hfile
      exact ⟨name', derive, pin, recoverypass, hworks⟩

theorem addkey_spec (hS : S.Sound) (hs : Kept S user password s) {cred salthex newpin : Str}
    (hm : Meets S user password s (w, .addkey pass recoverypass cred salthex newpin)) :
    Ensures (addkey S user w pass recoverypass cred salthex newpin) s
      (fun _ s' => Kept S user password s') (Ends S user password s) := by
  obtain ⟨hfit, hway⟩ := hm
  rw [addkey]
  split_ifs
  · exact ensures_fail (hs.ends _)
  refine Ensures.call (ensures_adapt (F := fun _ s' => Hinted S user s s') unlock_spec) ?_ ?_
  · rintro DK s₁ ⟨hhint, name, hopen⟩
    have hs₁ := hhint.kept hs
    have hDK : ∀ DK', Only S user s₁.files DK' → DK' = DK := by
      intro DK' honly
      exact (honly _ _ _ _ _ _ (hhint.preserves hs _ _ _ _ _ _ hopen)).symm
    have hway₁ : ¬ Live S user s₁.files (keyname cred) ∨
        (∀ o ∈ w.writes, o = .wrote) ∧ pass = password := by
      rwa [hhint.live hs]
    refine (writeslots_spec hfit).mono ?_ ?_
    · rintro - s' ⟨recs, hrecs, -, htouched, -⟩
      exact added hS hfit hs₁ hrecs htouched hway₁ hDK
    · rintro e s' (rfl | ⟨recs, hrecs, htouched, hfailed⟩)
      · exact ⟨hs₁, fun _ _ => hhint.preserves hs⟩
      · refine ⟨added hS hfit hs₁ hrecs htouched hway₁ hDK, fun msg hmsg => ?_⟩
        obtain ⟨o, ho, hne⟩ := hfailed msg hmsg
        have hdead := hway₁.resolve_right (fun h => hne (h.1 o ho))
        have hpreserves : Preserves S user s₁.files s'.files := by
          refine touched_preserves htouched (fun r hr => ?_)
          have hmem : r.1 ∈ slotnames [(keyname cred, cred, salthex)] [] :=
            (slotrecs_spec hrecs).1.mem_iff.mp (List.mem_map_of_mem hr)
          have hname : r.1 = keyname cred := by simpa [slotnames] using hmem
          rwa [hname]
        exact fun _ _ _ _ _ _ h => hpreserves _ _ _ _ _ _ (hhint.preserves hs _ _ _ _ _ _ h)
  · exact fun _ s' hhint => ⟨hhint.kept hs, fun _ _ => hhint.preserves hs⟩

theorem disable_spec (hS : S.Sound) (hs : Kept S user password s) :
    Ensures (disable S user password w pass recoverypass pin) s
      (fun _ s' => Kept S user password s') (Ends S user password s) := by
  rw [disable]
  refine ensures_get ?_
  by_cases hslots : listslots user s.files w.listing = []
  · rw [if_pos hslots]
    exact ensures_pure hs
  rw [if_neg hslots]
  refine Ensures.call (ensures_adapt (F := fun _ s' => Hinted S user s s') unlock_spec) ?_ ?_
  · rintro DK s₁ ⟨hhint, name, hopen⟩
    have hs₁ := hhint.kept hs
    have hends : ∀ e, Ends S user password s e s₁ :=
      fun _ => ⟨hs₁, fun _ _ => hhint.preserves hs⟩
    by_cases hconn : w.connects = false ∨ pass ≠ password
    · rw [if_pos hconn]
      exact ensures_fail (hends _)
    rw [if_neg hconn]
    obtain ⟨-, hpass⟩ := not_or.mp hconn
    obtain rfl := not_not.mp hpass
    split
    · exact ensures_fail (hends _)
    split
    · exact ensures_fail (hends _)
    rename_i plaintext _
    split
    · exact ensures_fail (hends _)
    rename_i newfile hnewfile
    have hpassworded : Passworded S user pass newfile :=
      ⟨plaintext, hS.own (Option.filter_eq_some_iff.mp hnewfile).1 _ _⟩
    have hstored : ∀ files : Files, ¬ Live S user files (lit ".lastgood") →
        Kept S user pass ⟨some newfile, files⟩ := by
      intro files hfiles
      refine kept_of_passworded hfiles (fun blob hblob => ?_)
      obtain rfl := Option.some.inj hblob
      exact hpassworded
    refine ensures_bind (putfile_spec ?_ (fun _ => ensures_fail (hends _))
      ⟨hstored _ hs₁.hint, nofun⟩ (hends _))
    exact removeslots_spec (fun paths => hstored _ (without_hint hs₁.hint))
      (fun paths => ⟨hstored _ (without_hint hs₁.hint), nofun⟩)
  · exact fun _ s' hhint => ⟨hhint.kept hs, fun _ _ => hhint.preserves hs⟩

theorem call_spec (hS : S.Sound) (hs : Kept S user password s) {a : World × Act}
    (hm : Meets S user password s a) :
    Ensures (call S user password a.1 a.2) s (fun _ s' => Kept S user password s')
      (Ends S user password s) := by
  obtain ⟨w, a⟩ := a
  cases a with
  | enroll pass recoverypass keys pin => exact enroll_spec hS hs hm
  | addkey pass recoverypass cred salthex newpin => exact addkey_spec hS hs hm
  | disable pass recoverypass pin => exact disable_spec hS hs

theorem step_kept (hS : S.Sound) (hs : Kept S user password s) {a : World × Act}
    (hm : Meets S user password s a) : Kept S user password (step S user password s a) := by
  have hcall := call_spec hS hs hm
  rw [step]
  split
  · rename_i s' hcalled
    exact hcall.ok hcalled
  · rename_i e s' hcalled
    exact (hcall.error hcalled).1

end

end Infernode.Twofa
