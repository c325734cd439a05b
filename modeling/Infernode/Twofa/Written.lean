import Infernode.Twofa.Unlock

/-!
# writeslots

What `writeslots` makes of its keys and what of it reaches the directory. Every file that
it leaves, cut off or whole, opens to the data key or to nothing; a whole one opens.
-/

namespace Infernode.Twofa

open Limbo Lib

variable {S : Secstore} {user : Str} {s s' : Account} {w : World}

def Wraps (S : Secstore) (DK content : List UInt8) : Prop :=
  ∃ kind cred salt wrap k r, Field kind ∧ Field cred ∧ Field salt ∧
    S.encrypt3 DK k r = some wrap ∧ content = bytes (slottext kind cred salt wrap)

theorem wraps_only (hS : S.Sound) {DK DK' content : List UInt8} (h : Wraps S DK content) {k : ℕ}
    {t : Slot} (hread : readslot (content.take k) = some t) {rootkey : Key} {derive : Derive}
    {pin recoverypass : Str} (hopen : opens S user rootkey derive pin recoverypass t = some DK') :
    DK' = DK := by
  obtain ⟨kind, cred, salt, wrap, key, r, hkind, hcred, hsalt, henc, rfl⟩ := h
  obtain ⟨c, key', hwrap, hdec⟩ := opens_wrap hopen
  have hpre := readslot_cut hkind hcred hsalt hread hwrap
  by_cases hc : c = wrap
  · subst hc
    by_cases hkey : key' = key
    · rw [hkey, hS.own henc] at hdec
      exact (Option.some.inj hdec).symm
    · rw [hS.other henc _ _ _ hkey] at hdec
      exact absurd hdec (by simp)
  · rw [hS.cut henc _ _ hpre hc] at hdec
    exact absurd hdec (by simp)

def Made (S : Secstore) (w : World) (rootkey DK : Key) (pin : Str) (j : ℕ)
    (key : Str × Str × Str) (content : List UInt8) : Prop :=
  ∃ salt R wrap, (fromhex key.2.2).filter (·.length = 32) = some salt ∧
    w.touch j key.2.1 salt pin = .ok R ∧
    S.encrypt3 DK (S.mkkek2fa rootkey R) (w.random (j + 1)) = some wrap ∧
    content = bytes (slottext "key" key.2.1 key.2.2 wrap)

section

variable {rootkey DK : Key} {pin recoverypass : Str} {keys : List (Str × Str × Str)}
  {recs recs' : List (Str × List UInt8)}

theorem keyrecs_spec {i : ℕ} (h : keyrecs S w rootkey DK pin i keys recs = .ok recs') :
    recs'.map Prod.fst = (keys.map Prod.fst).reverse ++ recs.map Prod.fst ∧
      (∀ r ∈ recs, r ∈ recs') ∧
      (∀ r ∈ recs', r ∈ recs ∨ ∃ j, ∃ key ∈ keys, r.1 = key.1 ∧
        Made S w rootkey DK pin j key r.2) ∧
      ∀ j key, keys[j]? = some key → ∃ content, Made S w rootkey DK pin (i + j) key content ∧
        (key.1, content) ∈ recs' := by
  induction keys generalizing i recs with
  | nil =>
    obtain rfl := Except.ok.inj h
    exact ⟨rfl, fun r hr => hr, fun r hr => .inl hr, by simp⟩
  | cons key keys ih =>
    obtain ⟨name, cred, salthex⟩ := key
    rw [keyrecs] at h
    split at h
    · exact absurd h (by simp)
    · rename_i salt hsalt
      split at h
      · exact absurd h (by simp)
      · rename_i R hR
        dsimp only at h
        split at h
        · exact absurd h (by simp)
        · rename_i wrap hwrap
          split_ifs at h
          obtain ⟨hnames, hkeep, hfrom, hmade⟩ := ih h
          have hnew : Made S w rootkey DK pin i (name, cred, salthex)
              (bytes (slottext "key" cred salthex wrap)) := ⟨salt, R, wrap, hsalt, hR, hwrap, rfl⟩
          refine ⟨by simp [hnames], fun r hr => hkeep r (by simp [hr]), ?_, ?_⟩
          · intro r hr
            rcases hfrom r hr with hr | ⟨j, key, hkey, hname, hmade⟩
            · rcases List.mem_cons.mp hr with rfl | hr
              · exact .inr ⟨i, _, by simp, rfl, hnew⟩
              · exact .inl hr
            · exact .inr ⟨j, key, by simp [hkey], hname, hmade⟩
          · intro j key hj
            cases j with
            | zero =>
              obtain rfl := Option.some.inj hj
              exact ⟨_, hnew, hkeep _ (by simp)⟩
            | succ j =>
              obtain ⟨content, hm, hmem⟩ := hmade j key (by simpa using hj)
              rw [Nat.add_right_comm, Nat.add_assoc] at hm
              exact ⟨content, hm, hmem⟩

def Recovers (S : Secstore) (user : Str) (DK : Key) (recoverypass : Str) (content : List UInt8) :
    Prop :=
  ∃ wrap r, S.encrypt3 DK (S.mkfilekey3 user recoverypass) r = some wrap ∧
    content = bytes (slottext "recovery" "-" "-" wrap)

def slotnames (keys : List (Str × Str × Str)) (recoverypass : Str) : List Str :=
  keys.map Prod.fst ++ if recoverypass = [] then [] else [lit "recovery"]

theorem slotrecs_spec (h : slotrecs S user w rootkey DK keys recoverypass pin = .ok recs) :
    (recs.map Prod.fst).Perm (slotnames keys recoverypass) ∧
      (∀ r ∈ recs, (∃ j, ∃ key ∈ keys, r.1 = key.1 ∧ Made S w rootkey DK pin j key r.2) ∨
        recoverypass ≠ [] ∧ r.1 = lit "recovery" ∧ Recovers S user DK recoverypass r.2) ∧
      (∀ j key, keys[j]? = some key → ∃ content, Made S w rootkey DK pin j key content ∧
        (key.1, content) ∈ recs) ∧
      (recoverypass ≠ [] → ∃ content, Recovers S user DK recoverypass content ∧
        (lit "recovery", content) ∈ recs) := by
  rw [slotrecs] at h
  cases hkeys : keyrecs S w rootkey DK pin 0 keys [] with
  | error e => simp [hkeys, bind, Except.bind] at h
  | ok recs' =>
    replace h : recoveryrecs S user w DK recoverypass keys.length recs' = .ok recs := by
      rw [← h, hkeys]
      rfl
    obtain ⟨hnames, -, hfrom, hmade⟩ := keyrecs_spec hkeys
    have hfrom' : ∀ r ∈ recs', ∃ j, ∃ key ∈ keys, r.1 = key.1 ∧
        Made S w rootkey DK pin j key r.2 :=
      fun r hr => (hfrom r hr).resolve_left (by simp)
    have hperm : (recs'.map Prod.fst).Perm (keys.map Prod.fst) := by
      rw [hnames, List.map_nil, List.append_nil]
      exact List.reverse_perm _
    simp only [Nat.zero_add] at hmade
    rw [recoveryrecs] at h
    split_ifs at h with hpass
    · obtain rfl := Except.ok.inj h
      exact ⟨by simpa [slotnames, hpass] using hperm, fun r hr => .inl (hfrom' r hr), hmade,
        fun hne => absurd hpass hne⟩
    · dsimp only at h
      split at h
      · exact absurd h (by simp)
      · rename_i wrap hwrap
        split_ifs at h
        obtain rfl := Except.ok.inj h
        have hrec : Recovers S user DK recoverypass (bytes (slottext "recovery" "-" "-" wrap)) :=
          ⟨wrap, _, hwrap, rfl⟩
        refine ⟨?_, ?_, ?_, fun _ => ⟨_, hrec, by simp⟩⟩
        · rw [slotnames, if_neg hpass, List.map_cons]
          exact (List.Perm.cons _ hperm).trans (List.perm_append_singleton _ _).symm
        · intro r hr
          rcases List.mem_cons.mp hr with rfl | hr
          · exact .inr ⟨hpass, rfl, hrec⟩
          · exact .inl (hfrom' r hr)
        · intro j key hj
          obtain ⟨content, hm, hmem⟩ := hmade j key hj
          exact ⟨content, hm, by simp [hmem]⟩

/-- What `writeslots` is asked for can be kept: the names are apart and stay in the
directory, none is the hint's, and every slot reads back whole. -/
structure Fit (keys : List (Str × Str × Str)) (recoverypass : Str) : Prop where
  apart : (slotnames keys recoverypass).Nodup
  plain : ∀ key ∈ keys, Plain key.1 ∧ key.1 ≠ lit ".lastgood"
  field : ∀ key ∈ keys, Field key.2.1
  size : ∀ key ∈ keys, (bytes (slottext "key" key.2.1 key.2.2 [])).length + 164 ≤ SLOTMAX

theorem fromhex_salt {s : Str} {salt : List UInt8}
    (h : (fromhex s).filter (·.length = 32) = some salt) : fromhex s = some salt :=
  (Option.filter_eq_some_iff.mp h).1

theorem made_wraps (hfit : Fit keys recoverypass) {j : ℕ} {key : Str × Str × Str}
    (hkey : key ∈ keys) {content : List UInt8} (h : Made S w rootkey DK pin j key content) :
    Wraps S DK content := by
  obtain ⟨salt, R, wrap, hsalt, -, henc, rfl⟩ := h
  exact ⟨_, _, _, wrap, _, _, key_field, hfit.field key hkey,
    fromhex_field (fromhex_salt hsalt), henc, rfl⟩

theorem recovers_wraps {content : List UInt8} (h : Recovers S user DK recoverypass content) :
    Wraps S DK content := by
  obtain ⟨wrap, r, henc, rfl⟩ := h
  exact ⟨_, _, _, wrap, _, _, recovery_field, dash_field, dash_field, henc, rfl⟩

theorem slotrecs_wraps (hfit : Fit keys recoverypass)
    (h : slotrecs S user w rootkey DK keys recoverypass pin = .ok recs) :
    ∀ r ∈ recs, Wraps S DK r.2 ∧ Plain r.1 ∧ r.1 ≠ lit ".lastgood" := by
  intro r hr
  rcases (slotrecs_spec h).2.1 r hr with ⟨j, key, hkey, hname, hmade⟩ | ⟨-, hname, hrec⟩
  · exact ⟨made_wraps hfit hkey hmade, hname ▸ hfit.plain key hkey⟩
  · rw [hname]
    exact ⟨recovers_wraps hrec, ⟨by decide, by decide, by decide, by decide⟩, by decide⟩

variable (user) in
theorem made_opens (hS : S.Sound) (hfit : Fit keys recoverypass) (hDK : DK.length = 32) {j : ℕ}
    {key : Str × Str × Str} (hkey : key ∈ keys) {content : List UInt8}
    (h : Made S w rootkey DK pin j key content) :
    ∃ t salt R, readslot content = some t ∧ fromhex key.2.2 = some salt ∧
      w.touch j key.2.1 salt pin = .ok R ∧
      ∀ (derive : Derive) (pin' recoverypass' : Str), derive key.2.1 salt pin' = .ok R →
        opens S user rootkey derive pin' recoverypass' t = some DK := by
  obtain ⟨salt, R, wrap, hsalt, hR, henc, rfl⟩ := h
  have hlen := hS.length henc
  have hne : wrap ≠ [] := by
    rintro rfl
    simp at hlen
  refine ⟨_, salt, R, readslot_slottext key_field (hfit.field key hkey)
    (fromhex_field (fromhex_salt hsalt)) hne ?_, fromhex_salt hsalt, hR, ?_⟩
  · have hsize := hfit.size key hkey
    rw [slottext_length]
    omega
  · intro derive pin' recoverypass' hderive
    exact opens_of_keys (trykeys_single.mpr ⟨rfl, rfl, wrap, salt, R, rfl, hsalt, hderive,
      hS.own henc none none⟩)

theorem recovers_opens (hS : S.Sound) (hDK : DK.length = 32) (hpass : recoverypass ≠ [])
    {content : List UInt8} (h : Recovers S user DK recoverypass content) :
    ∃ t, readslot content = some t ∧ ∀ (rootkey' : Key) (derive : Derive) (pin' : Str),
      opens S user rootkey' derive pin' recoverypass t = some DK := by
  obtain ⟨wrap, r, henc, rfl⟩ := h
  have hlen := hS.length henc
  have hne : wrap ≠ [] := by
    rintro rfl
    simp at hlen
  refine ⟨_, readslot_slottext recovery_field dash_field dash_field hne ?_, fun rootkey' derive pin' => ?_⟩
  · have hsmall : (bytes (slottext "recovery" "-" "-" [])).length + 164 ≤ SLOTMAX := by
      decide
    rw [slottext_length]
    omega
  · exact opens_of_recovery (tryrecovery_single.mpr ⟨hpass, rfl, wrap, rfl, hS.own henc none none⟩)

end

def Touched (user : Str) (recs : List (Str × List UInt8)) (os : List Wrote) (s s' : Account) :
    Prop :=
  s'.blob = s.blob ∧ ∀ name, readfile user s'.files name = readfile user s.files name ∨
    ∃ content k, (name, content) ∈ recs ∧ readfile user s'.files name = some (content.take k) ∧
      ((∀ o ∈ os, o = .wrote) → k = content.length)

variable {recs : List (Str × List UInt8)} {os : List Wrote}

theorem Touched.refl (s : Account) : Touched user recs os s s :=
  ⟨rfl, fun _ => .inl rfl⟩

theorem touched_write {name : Str} {content : List UInt8} {o : Wrote} :
    Touched user ((name, content) :: recs) (o :: os) s
      (s.write (dirpath user ++ [name]) o content) := by
  refine ⟨rfl, fun other => ?_⟩
  rw [readfile_write]
  split_ifs with hname
  · subst hname
    cases o with
    | wrote => exact .inr ⟨content, content.length, by simp, by simp [Wrote.file], fun _ => rfl⟩
    | failed cut | stopped cut =>
      cases cut with
      | none => exact .inl rfl
      | some k => exact .inr ⟨content, k, by simp, rfl, fun h => absurd (h _ List.mem_cons_self) (by simp)⟩
  · exact .inl rfl

theorem touched_wrote {name : Str} {content : List UInt8}
    (h : Touched user recs os (s.write (dirpath user ++ [name]) .wrote content) s') :
    Touched user ((name, content) :: recs) (.wrote :: os) s s' := by
  refine ⟨h.1, fun other => ?_⟩
  rcases h.2 other with hsame | ⟨content', k, hmem, hfile, hfull⟩
  · rw [readfile_write] at hsame
    split_ifs at hsame with hname
    · exact .inr ⟨content, content.length, by simp [hname], by simp [hsame, Wrote.file],
        fun _ => rfl⟩
    · exact .inl hsame
  · exact .inr ⟨content', k, by simp [hmem], hfile,
      fun h => hfull (fun o ho => h o (by simp [ho]))⟩

theorem writefiles_spec {errstr : Str} (hplain : ∀ r ∈ recs, Plain r.1)
    (hnodup : (recs.map Prod.fst).Nodup) :
    Ensures (writefiles user errstr recs os) s
      (fun _ s' => Touched user recs os s s' ∧
        ∀ r ∈ recs, readfile user s'.files r.1 = some r.2)
      (fun e s' => Touched user recs os s s' ∧
        ∀ msg, e = .failed msg → ∃ o ∈ os, o ≠ .wrote) := by
  induction recs generalizing os s with
  | nil => exact ensures_pure ⟨Touched.refl s, by simp⟩
  | cons r recs ih =>
    obtain ⟨name, content⟩ := r
    rw [List.map_cons, List.nodup_cons] at hnodup
    cases os with
    | nil => exact ensures_throw ⟨Touched.refl s, by simp⟩
    | cons o os =>
      have hname : resolve (dirpath user) name = dirpath user ++ [name] :=
        resolve_plain (hplain (name, content) (by simp)) _
      rw [writefiles.eq_def]
      dsimp only
      rw [hname]
      refine ensures_bind (ensures_modify ?_)
      split
      · refine (ih (fun r hr => hplain r (by simp [hr])) hnodup.2).mono ?_ ?_
        · rintro - s' ⟨htouched, hall⟩
          refine ⟨touched_wrote htouched, fun r hr => ?_⟩
          rcases List.mem_cons.mp hr with rfl | hr
          · rcases htouched.2 name with hsame | ⟨content', k, hmem, -⟩
            · rw [hsame, readfile_write, if_pos rfl]
              rfl
            · exact absurd (List.mem_map.mpr ⟨_, hmem, rfl⟩) hnodup.1
          · exact hall r hr
        · rintro e s' ⟨htouched, hfailed⟩
          refine ⟨touched_wrote htouched, fun msg hmsg => ?_⟩
          obtain ⟨o, ho, hne⟩ := hfailed msg hmsg
          exact ⟨o, by simp [ho], hne⟩
      · exact ensures_fail ⟨touched_write, fun _ _ => ⟨_, List.mem_cons_self, nofun⟩⟩
      · exact ensures_fail ⟨touched_write, fun _ _ => ⟨_, List.mem_cons_self, nofun⟩⟩
      · exact ensures_throw ⟨touched_write, by simp⟩

theorem writeslots_spec {rootkey DK : Key} {pin recoverypass : Str} {keys : List (Str × Str × Str)}
    (hfit : Fit keys recoverypass) :
    Ensures (writeslots S user w rootkey DK keys recoverypass pin) s
      (fun _ s' => ∃ recs, slotrecs S user w rootkey DK keys recoverypass pin = .ok recs ∧
        recs ≠ [] ∧ Touched user recs w.writes s s' ∧
        ∀ r ∈ recs, readfile user s'.files r.1 = some r.2)
      (fun e s' => s' = s ∨ ∃ recs, slotrecs S user w rootkey DK keys recoverypass pin = .ok recs ∧
        Touched user recs w.writes s s' ∧ ∀ msg, e = .failed msg → ∃ o ∈ w.writes, o ≠ .wrote) := by
  rw [writeslots]
  split
  · exact ensures_fail (.inl rfl)
  · rename_i recs hrecs
    split_ifs with hnil hdir
    · exact ensures_fail (.inl rfl)
    · exact ensures_fail (.inl rfl)
    · have hplain : ∀ r ∈ recs, Plain r.1 := fun r hr => (slotrecs_wraps hfit hrecs r hr).2.1
      have hnodup : (recs.map Prod.fst).Nodup :=
        (slotrecs_spec hrecs).1.nodup_iff.mpr hfit.apart
      refine (writefiles_spec hplain hnodup).mono ?_ ?_
      · exact fun _ s' h => ⟨recs, hrecs, hnil, h.1, h.2⟩
      · exact fun e s' h => .inr ⟨recs, hrecs, h.1, h.2⟩

def Preserves (S : Secstore) (user : Str) (files files' : Files) : Prop :=
  ∀ name rootkey derive pin recoverypass DK,
    unlocks S user files name rootkey derive pin recoverypass = some DK →
      unlocks S user files' name rootkey derive pin recoverypass = some DK

theorem touched_preserves (h : Touched user recs os s s')
    (hdead : ∀ r ∈ recs, ¬ Live S user s.files r.1) : Preserves S user s.files s'.files := by
  intro name rootkey derive pin recoverypass DK hopen
  rcases h.2 name with hsame | ⟨content, k, hmem, -⟩
  · rw [unlocks_congr hsame, hopen]
  · exact absurd ⟨rootkey, derive, pin, recoverypass, DK, hopen⟩ (hdead _ hmem)

theorem touched_only (hS : S.Sound) {DK : List UInt8} (h : Touched user recs os s s')
    (hwraps : ∀ r ∈ recs, Wraps S DK r.2)
    (hkept : ∀ name, readfile user s'.files name = readfile user s.files name →
      ∀ rootkey derive pin recoverypass DK',
        unlocks S user s.files name rootkey derive pin recoverypass = some DK' → DK' = DK) :
    Only S user s'.files DK := by
  intro name rootkey derive pin recoverypass DK' hopen
  rcases h.2 name with hsame | ⟨content, k, hmem, hfile, -⟩
  · rw [unlocks_congr hsame] at hopen
    exact hkept name hsame _ _ _ _ _ hopen
  · obtain ⟨t, ht, hopen⟩ := Option.bind_eq_some_iff.mp hopen
    rw [slotfile, hfile, Option.bind_some] at ht
    exact wraps_only hS (hwraps _ hmem) ht hopen

theorem slotrecs_works (hS : S.Sound) {rootkey DK : Key} {pin recoverypass : Str}
    {keys : List (Str × Str × Str)} (hfit : Fit keys recoverypass) (hDK : DK.length = 32)
    (hrecs : slotrecs S user w rootkey DK keys recoverypass pin = .ok recs)
    {r : Str × List UInt8} (hr : r ∈ recs) (hfile : readfile user s.files r.1 = some r.2) :
    ∃ derive pin recoverypass,
      unlocks S user s.files r.1 rootkey derive pin recoverypass = some DK := by
  have hslot : slotfile user s.files r.1 = readslot r.2 := by
    rw [slotfile, hfile, Option.bind_some]
  rcases (slotrecs_spec hrecs).2.1 r hr with ⟨j, key, hkey, -, hmade⟩ | ⟨hpass, -, hrec⟩
  · obtain ⟨t, salt, R, ht, -, -, hopens⟩ := made_opens user hS hfit hDK hkey hmade
    refine ⟨fun _ _ _ => .ok R, [], [], ?_⟩
    rw [unlocks, hslot, ht, Option.bind_some]
    exact hopens _ _ _ rfl
  · obtain ⟨t, ht, hopens⟩ := recovers_opens hS hDK hpass hrec
    refine ⟨fun _ _ _ => .error [], [], recoverypass, ?_⟩
    rw [unlocks, hslot, ht, Option.bind_some]
    exact hopens _ _ _

end Infernode.Twofa
