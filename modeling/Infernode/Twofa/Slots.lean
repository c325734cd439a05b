import Infernode.Twofa.Account

/-!
# What slots open

A slot opens to a data key under what the device answers or under the recovery
passphrase. `unlock` finds the data key when the slots open to no other and one opens;
it changes no slot.
-/

namespace Infernode.Twofa

open Limbo Lib

/-- What the cipher of `secstore.b` guarantees. A part of what it made opens under no
key. -/
structure Secstore.Sound (S : Secstore) : Prop where
  own : ∀ {x k r c}, S.encrypt3 x k r = some c → ∀ g l, S.decrypt3 c k g l = some x
  other : ∀ {x k r c}, S.encrypt3 x k r = some c → ∀ k' g l, k' ≠ k → S.decrypt3 c k' g l = none
  cut : ∀ {x k r c}, S.encrypt3 x k r = some c → ∀ c' k', c' <+: c → c' ≠ c →
    S.decrypt3 c' k' none none = none
  length : ∀ {x k r c}, S.encrypt3 x k r = some c → c.length = x.length + 50

variable (S : Secstore) (user : Str)

def opens (rootkey : Key) (derive : Derive) (pin recoverypass : Str) (s : Slot) :
    Option (List UInt8) :=
  match trykeys S rootkey derive pin [s] [] with
  | .ok (_, DK) => some DK
  | .error _ => tryrecovery S user recoverypass [s]

def slotfile (files : Files) (name : Str) : Option Slot :=
  (readfile user files name).bind readslot

def unlocks (files : Files) (name : Str) (rootkey : Key) (derive : Derive)
    (pin recoverypass : Str) : Option (List UInt8) :=
  (slotfile user files name).bind (opens S user rootkey derive pin recoverypass)

def Live (files : Files) (name : Str) : Prop :=
  ∃ rootkey derive pin recoverypass DK,
    unlocks S user files name rootkey derive pin recoverypass = some DK

variable {S user}

theorem trykeys_nil {rootkey : Key} {derive : Derive} {pin lastderr : Str} :
    trykeys S rootkey derive pin [] lastderr = .error lastderr := rfl

theorem trykeys_cons {rootkey : Key} {derive : Derive} {pin lastderr : Str} {s : Slot}
    {slots : List Slot} : trykeys S rootkey derive pin (s :: slots) lastderr =
    match s.wrap with
    | none => trykeys S rootkey derive pin slots lastderr
    | some wrap =>
      if s.kind ≠ lit "key" then trykeys S rootkey derive pin slots lastderr
      else
        match (fromhex s.salt).filter (·.length = 32) with
        | none => trykeys S rootkey derive pin slots "bad salt in slot"
        | some salt =>
          match derive s.cred salt pin with
          | .error e => if ispinerr e then .error e else trykeys S rootkey derive pin slots e
          | .ok R =>
            match S.decrypt3 wrap (S.mkkek2fa rootkey R) none none with
            | some DK => .ok (s.cred, DK)
            | none =>
              trykeys S rootkey derive pin slots
                "slot wrap did not decrypt with derived key" := rfl

theorem trykeys_single {rootkey : Key} {derive : Derive} {pin lastderr cred : Str} {s : Slot}
    {DK : List UInt8} :
    trykeys S rootkey derive pin [s] lastderr = .ok (cred, DK) ↔
      s.kind = lit "key" ∧ s.cred = cred ∧ ∃ wrap salt R, s.wrap = some wrap ∧
        (fromhex s.salt).filter (·.length = 32) = some salt ∧ derive s.cred salt pin = .ok R ∧
        S.decrypt3 wrap (S.mkkek2fa rootkey R) none none = some DK := by
  cases hwrap : s.wrap with
  | none => simp [trykeys_cons, trykeys_nil, hwrap]
  | some wrap =>
    by_cases hkind : s.kind = lit "key"
    · cases hsalt : (fromhex s.salt).filter (·.length = 32) with
      | none => simp [trykeys_cons, trykeys_nil, hwrap, hkind, hsalt]
      | some salt =>
        cases hR : derive s.cred salt pin with
        | error e => simp [trykeys_cons, trykeys_nil, hwrap, hkind, hsalt, hR]
        | ok R =>
          cases hDK : S.decrypt3 wrap (S.mkkek2fa rootkey R) none none with
          | none => simp [trykeys_cons, trykeys_nil, hwrap, hkind, hsalt, hR, hDK]
          | some DK => simp [trykeys_cons, hwrap, hkind, hsalt, hR, hDK]
    · simp [trykeys_cons, trykeys_nil, hwrap, hkind]

theorem tryrecovery_single {recoverypass : Str} {s : Slot} {DK : List UInt8} :
    tryrecovery S user recoverypass [s] = some DK ↔
      recoverypass ≠ [] ∧ s.kind = lit "recovery" ∧ ∃ wrap, s.wrap = some wrap ∧
        S.decrypt3 wrap (S.mkfilekey3 user recoverypass) none none = some DK := by
  by_cases hpass : recoverypass = []
  · simp [tryrecovery, hpass]
  · by_cases hkind : s.kind = lit "recovery"
    · simp [tryrecovery, hpass, hkind, Option.bind_eq_some_iff]
    · simp [tryrecovery, hpass, hkind]

section

variable {rootkey : Key} {derive : Derive} {pin recoverypass cred : Str} {s : Slot}
  {slots : List Slot} {DK : List UInt8}

theorem trykeys_mem {lastderr : Str}
    (h : trykeys S rootkey derive pin slots lastderr = .ok (cred, DK)) :
    ∃ s ∈ slots, trykeys S rootkey derive pin [s] [] = .ok (cred, DK) := by
  induction slots generalizing lastderr with
  | nil => exact absurd h (by simp [trykeys_nil])
  | cons s slots ih =>
    have hrest : ∀ e, trykeys S rootkey derive pin slots e = .ok (cred, DK) →
        ∃ s' ∈ s :: slots, trykeys S rootkey derive pin [s'] [] = .ok (cred, DK) := by
      intro e he
      obtain ⟨s', hs', h'⟩ := ih he
      exact ⟨s', by simp [hs'], h'⟩
    rw [trykeys_cons] at h
    split at h
    · exact hrest _ h
    · rename_i wrap hwrap
      split_ifs at h with hkind
      · exact hrest _ h
      · split at h
        · exact hrest _ h
        · rename_i salt hsalt
          split at h
          · split_ifs at h
            exact hrest _ h
          · rename_i R hR
            split at h
            · rename_i DK' hDK
              obtain ⟨rfl, rfl⟩ := Prod.mk.inj (Except.ok.inj h)
              exact ⟨s, by simp, trykeys_single.mpr ⟨not_not.mp hkind, rfl, wrap, salt, R, hwrap,
                hsalt, hR, hDK⟩⟩
            · exact hrest _ h

theorem trykeys_reaches (hpin : ∀ c salt p e, derive c salt p = .error e → ispinerr e = false)
    (hs : s ∈ slots) (h : trykeys S rootkey derive pin [s] [] = .ok (cred, DK)) (lastderr : Str) :
    ∃ r, trykeys S rootkey derive pin slots lastderr = .ok r := by
  induction slots generalizing lastderr with
  | nil => exact absurd hs (by simp)
  | cons t slots ih =>
    rcases List.mem_cons.mp hs with rfl | hs
    · obtain ⟨hkind, hcred, wrap, salt, R, hwrap, hsalt, hR, hDK⟩ := trykeys_single.mp h
      exact ⟨(s.cred, DK), by simp [trykeys_cons, hwrap, hkind, hsalt, hR, hDK]⟩
    · rw [trykeys_cons]
      split
      · exact ih hs _
      · split_ifs
        · exact ih hs _
        · split
          · exact ih hs _
          · split
            · rename_i e he
              rw [if_neg (by simp [hpin _ _ _ _ he])]
              exact ih hs _
            · split
              · exact ⟨_, rfl⟩
              · exact ih hs _

theorem tryrecovery_mem (h : tryrecovery S user recoverypass slots = some DK) :
    ∃ s ∈ slots, tryrecovery S user recoverypass [s] = some DK := by
  rw [tryrecovery] at h
  split_ifs at h with hpass
  obtain ⟨s, hs, h⟩ := List.exists_of_findSome?_eq_some h
  exact ⟨s, hs, by simpa [tryrecovery, hpass] using h⟩

theorem tryrecovery_reaches (hs : s ∈ slots) (h : tryrecovery S user recoverypass [s] = some DK) :
    ∃ DK', tryrecovery S user recoverypass slots = some DK' := by
  rw [tryrecovery] at h ⊢
  split_ifs at h ⊢ with hpass
  rw [← Option.isSome_iff_exists, List.findSome?_isSome_iff]
  exact ⟨s, hs, by simp at h; simp [h]⟩

theorem opens_eq : opens S user rootkey derive pin recoverypass s =
    match trykeys S rootkey derive pin [s] [] with
    | .ok (_, DK) => some DK
    | .error _ => tryrecovery S user recoverypass [s] := rfl

theorem opens_of_keys (h : trykeys S rootkey derive pin [s] [] = .ok (cred, DK)) :
    opens S user rootkey derive pin recoverypass s = some DK := by
  rw [opens_eq, h]

theorem opens_of_recovery (h : tryrecovery S user recoverypass [s] = some DK) :
    opens S user rootkey derive pin recoverypass s = some DK := by
  cases hk : trykeys S rootkey derive pin [s] [] with
  | error e => rw [opens_eq, hk, h]
  | ok r =>
    have hkey := (trykeys_single.mp (hk : _ = Except.ok (r.1, r.2))).1
    have hrec := (tryrecovery_single.mp h).2.1
    exact absurd (hkey.symm.trans hrec) (by decide)

theorem opens_cases (h : opens S user rootkey derive pin recoverypass s = some DK) :
    (∃ cred, trykeys S rootkey derive pin [s] [] = .ok (cred, DK)) ∨
      tryrecovery S user recoverypass [s] = some DK := by
  rw [opens_eq] at h
  split at h
  · rename_i cred DK' hk
    obtain rfl := Option.some.inj h
    exact .inl ⟨cred, hk⟩
  · exact .inr h

theorem opens_wrap (h : opens S user rootkey derive pin recoverypass s = some DK) :
    ∃ wrap k, s.wrap = some wrap ∧ S.decrypt3 wrap k none none = some DK := by
  rcases opens_cases h with ⟨cred, h⟩ | h
  · obtain ⟨-, -, wrap, -, R, hwrap, -, -, hDK⟩ := trykeys_single.mp h
    exact ⟨wrap, _, hwrap, hDK⟩
  · obtain ⟨-, -, wrap, hwrap, hDK⟩ := tryrecovery_single.mp h
    exact ⟨wrap, _, hwrap, hDK⟩

theorem opens_kind (h : opens S user rootkey derive pin recoverypass s = some DK) :
    s.kind ≠ [] := by
  rcases opens_cases h with ⟨cred, h⟩ | h
  · rw [(trykeys_single.mp h).1]
    decide
  · rw [(tryrecovery_single.mp h).2.1]
    decide

end

theorem mem_listslots {files : Files} {listing : List Str} {s : Slot} :
    s ∈ listslots user files listing ↔
      ∃ name ∈ listing, slotfile user files name = some s ∧ s.kind ≠ [] := by
  simp only [listslots, List.mem_reverse, List.mem_filter, List.mem_filterMap, slotfile,
    decide_eq_true_eq]
  constructor
  · rintro ⟨⟨name, hname, h⟩, hkind⟩
    exact ⟨name, hname, h, hkind⟩
  · rintro ⟨name, hname, h, hkind⟩
    exact ⟨⟨name, hname, h⟩, hkind⟩

theorem mem_frontload {slots : List Slot} {cred : Str} {s : Slot} :
    s ∈ frontload slots cred ↔ s ∈ slots := by
  rw [frontload]
  split_ifs
  · rfl
  · split
    · rfl
    · rename_i t ht
      obtain ⟨hgood, as, bs, rfl, has⟩ := List.find?_eq_some_iff_append.mp ht
      rw [List.eraseP_append_right _ (fun a ha => by simpa [imp_iff_not_or] using has a ha),
        List.eraseP_cons, hgood]
      simp only [cond_true, List.mem_cons, List.mem_append]
      tauto

end Infernode.Twofa
