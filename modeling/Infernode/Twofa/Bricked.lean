import Infernode.Twofa.Kept

/-!
# Runs of an account

Every run whose calls find no slot that unlocks in their way leaves an account that can
be opened. Adding a key again, where its slot is the only one, is a run that does not:
the file is cut off before it is written.
-/

namespace Infernode.Twofa

open Limbo Lib

variable {S : Secstore} {user password : Str}

def clear : Secstore where
  mkfilekey3 _ pass := (bytes pass ++ List.replicate 32 0).take 32
  mkfilekey2 pass := (bytes pass ++ List.replicate 32 0).take 32
  mkfilekey pass := (bytes pass ++ List.replicate 32 0).take 32
  mkkek2fa _ R := (R ++ List.replicate 32 0).take 32
  encrypt3 x k _ :=
    if x.length < 256 ∧ k.length = 32 then
      some (UInt8.ofNat x.length :: (List.replicate 17 0 ++ (k ++ x)))
    else none
  decrypt3 c k _ _ :=
    if c.length = (c.headD 0).toNat + 50 ∧ (c.drop 18).take 32 = k then some (c.drop 50) else none

theorem clear_encrypt {x k r c : List UInt8} (h : clear.encrypt3 x k r = some c) :
    c.length = x.length + 50 ∧ (c.headD 0).toNat = x.length ∧ (c.drop 18).take 32 = k ∧
      c.drop 50 = x := by
  simp only [clear] at h
  split_ifs at h with hx
  obtain ⟨hlen, hk⟩ := hx
  obtain rfl := Option.some.inj h
  have hdrop : (UInt8.ofNat x.length :: (List.replicate 17 0 ++ (k ++ x))).drop 18 = k ++ x := rfl
  refine ⟨by simp [hk]; omega, ?_, ?_, ?_⟩
  · simpa using Nat.mod_eq_of_lt hlen
  · rw [hdrop, ← hk, List.take_left]
  · rw [show 50 = 18 + 32 from rfl, ← List.drop_drop, hdrop, ← hk, List.drop_left]

theorem clear_sound : clear.Sound where
  own h g l := by
    obtain ⟨hlen, hhead, hkey, hx⟩ := clear_encrypt h
    simp only [clear]
    rw [if_pos ⟨by rw [hlen, hhead], hkey⟩, hx]
  other h k' g l hne := by
    obtain ⟨-, -, hkey, -⟩ := clear_encrypt h
    simp only [clear]
    exact if_neg (fun hk => hne (hk.2.symm.trans hkey))
  cut h c' k' hpre hne := by
    obtain ⟨hlen, hhead, -, -⟩ := clear_encrypt h
    simp only [clear]
    refine if_neg (fun hk => hne ?_)
    -- a part that is not empty begins with the whole length
    obtain ⟨t, rfl⟩ := hpre
    cases c' with
    | nil =>
      have hzero := hk.1
      simp at hzero
    | cons b c' =>
      have hfull := hk.1
      simp only [List.cons_append, List.headD_cons, List.length_cons, List.length_append]
        at hlen hhead hfull
      have ht : t = [] := List.eq_nil_of_length_eq_zero (by omega)
      rw [ht, List.append_nil]
  length h := (clear_encrypt h).1

def fair : World where
  listing := [lit "key-aa"]
  unlocks _ _ _ := .ok [9]
  touch _ _ _ _ := .ok [9]
  hint := .failed none
  datakey := some (List.replicate 32 7)
  random _ := []
  connects := true
  gives := true
  makesdir := true
  writes := [.wrote]
  put := .stored
  removes := [lit "key-aa"]
  stops := false
  errstr := []

def zerosalt : Str := List.replicate 64 '0'

def enrolling : World × Act :=
  (fair, .enroll "pw" [] [(lit "key-aa", lit "aa", zerosalt)] [])

def readding : World × Act :=
  ({ fair with writes := [.failed (some 0)] }, .addkey "pw" "r" "aa" zerosalt [])

def unslotted : Account := ⟨none, fun _ => none⟩

def enrolledkey : Account :=
  step clear "u" "pw" unslotted enrolling

def given (s : Account) : Option (List UInt8) × Option (Option (List UInt8)) :=
  (unlocks clear "u" s.files "key-aa" (clear.mkfilekey3 "u" "pw") (fun _ _ _ => .ok [9]) [] [],
    s.blob.map fun blob => clear.decrypt3 blob (clear.mkfilekey3 "u" "pw") none none)

def givenfailed : EStateM.Result Fault Account Unit →
    Option (Option (List UInt8) × Option (Option (List UInt8)))
  | .error (.failed _) t => some (given t)
  | _ => none

set_option maxRecDepth 10000 in
theorem given_enrolled : given enrolledkey = (some (List.replicate 32 7), some none) := by
  decide

set_option maxRecDepth 10000 in
theorem given_readded : givenfailed (call clear "u" "pw" readding.1 readding.2 enrolledkey) =
    some (none, some none) := by
  decide

theorem enrolling_meets : Meets clear "u" "pw" unslotted enrolling := by
  have hsalt : (bytes (slottext "key" "aa" zerosalt [])).length + 164 ≤ SLOTMAX := by
    decide
  refine ⟨⟨by decide, ?_, ?_, ?_⟩, .inl rfl, .inl ?_⟩
  · intro key hkey
    obtain rfl := List.mem_singleton.mp hkey
    refine ⟨⟨by decide, by decide, by decide, by decide⟩, by decide⟩
  · intro key hkey
    obtain rfl := List.mem_singleton.mp hkey
    exact ⟨by simp [lit], by simp [lit]⟩
  · intro key hkey
    obtain rfl := List.mem_singleton.mp hkey
    exact hsalt
  · rintro name ⟨rootkey, derive, pin, recoverypass, DK, hopen⟩
    simp [unlocks, slotfile, readfile, unslotted] at hopen

end Infernode.Twofa
