import Infernode.Wallet.Authorized

/-!
# Addresses as they are written

`strtoaddr` and `addrtostr` of `ethcrypto.b`, and what the payments make of a recipient.
A prefix is stripped before the length is tested and once more by `hexdecode`, so two
prefixes and 38 digits pass for an address of 19 bytes.
-/

namespace Infernode.Wallet
open Infernode.Limbo

variable {s t : Str} {b : List UInt8} {c : Char} {v : ℕ}

def Digits (t : Str) (b : List UInt8) : Prop := t.map Char.toLower = hexencode b

def Prefix (p : Str) : Prop := ∃ x, (x = 'x' ∨ x = 'X') ∧ p = ['0', x]

/-- The 40 digits of an address, after a prefix or none. -/
def Written (s : Str) (a : Address) : Prop :=
  ∃ p t, (p = [] ∨ Prefix p) ∧ s = p ++ t ∧ Digits t a.1

def Doubled (s : Str) : Prop :=
  ∃ p q t b, Prefix p ∧ Prefix q ∧ s = p ++ (q ++ t) ∧ t.length = 38 ∧ Digits t b

theorem hextoval_ascii : ∀ k < 128, ∀ v < 16,
    (hextoval (Char.ofNat k) = some v ↔ (Char.ofNat k).toLower = Nat.digitChar v) := by
  decide

theorem hextoval_lt (h : hextoval c = some v) : c.toNat < 128 ∧ v < 16 := by
  have hle : ∀ d e : Char, d ≤ e ↔ d.toNat ≤ e.toNat := fun _ _ => Iff.rfl
  have hvals : '0'.toNat = 48 ∧ '9'.toNat = 57 ∧ 'a'.toNat = 97 ∧ 'f'.toNat = 102 ∧
      'A'.toNat = 65 ∧ 'F'.toNat = 70 := by decide
  obtain ⟨h0, h9, ha, hf, hA, hF⟩ := hvals
  simp only [hextoval, hle, h0, h9, ha, hf, hA, hF] at h
  split_ifs at h
  all_goals
    obtain rfl := Option.some.inj h
    omega

theorem hextoval_iff : hextoval c = some v ↔ v < 16 ∧ c.toLower = Nat.digitChar v := by
  have hc : Char.ofNat c.toNat = c := Char.ofNat_toNat c
  constructor
  · intro h
    obtain ⟨hlow, hv⟩ := hextoval_lt h
    rw [← hc] at h ⊢
    exact ⟨hv, (hextoval_ascii c.toNat hlow v hv).1 h⟩
  · rintro ⟨hv, h⟩
    have hlow : c.toNat < 128 := by
      by_contra hhigh
      have hupper : ¬(c.val ≥ 'A'.val ∧ c.val ≤ 'Z'.val) := fun hupper =>
        hhigh (lt_of_le_of_lt (UInt32.le_iff_toNat_le.1 hupper.2) (by decide))
      have hdigit : (Nat.digitChar v).toNat < 128 := by interval_cases v <;> decide
      rw [Char.toLower, dif_neg hupper] at h
      exact hhigh (h ▸ hdigit)
    rw [← hc] at h ⊢
    exact (hextoval_ascii c.toNat hlow v hv).2 h

theorem digits_cons {hi lo : Char} {x : UInt8} :
    Digits (hi :: lo :: t) (x :: b) ↔
      hextoval hi = some (x.toNat / 16) ∧ hextoval lo = some (x.toNat % 16) ∧ Digits t b := by
  have hx := x.toNat_lt
  rw [hextoval_iff, hextoval_iff, Digits, Digits, hexencode, List.flatMap_cons, ← hexencode]
  simp only [List.map_cons, List.cons_append, List.nil_append, List.cons.injEq]
  constructor
  · rintro ⟨hhi, hlo, hrest⟩
    exact ⟨⟨by omega, hhi⟩, ⟨by omega, hlo⟩, hrest⟩
  · rintro ⟨⟨-, hhi⟩, ⟨-, hlo⟩, hrest⟩
    exact ⟨hhi, hlo, hrest⟩

theorem digits_length (h : Digits t b) : t.length = 2 * b.length := by
  rw [← hexencode_length, ← h, List.length_map]

theorem hexpairs_iff : ∀ {t : Str} {b : List UInt8}, t.length % 2 = 0 →
    (hexpairs t = some b ↔ Digits t b)
  | [], b, _ => by
    cases b with
    | nil | cons x b => simp [hexpairs, Digits, hexencode]
  | [c], b, heven => by simp at heven
  | hi :: lo :: t, b, heven => by
    have hrest : t.length % 2 = 0 := by
      simp only [List.length_cons] at heven
      omega
    cases b with
    | nil =>
      refine ⟨fun h => ?_, fun h => absurd (digits_length h) (by simp)⟩
      rw [hexpairs] at h
      split at h <;> cases h
    | cons x b =>
      have hx := x.toNat_lt
      rw [digits_cons, ← hexpairs_iff hrest, hexpairs]
      constructor
      · intro h
        split at h
        · next h1 l1 bs hhi hlo hbs =>
          obtain ⟨rfl, rfl⟩ := List.cons.inj (Option.some.inj h)
          have h16 := (hextoval_iff.1 hhi).1
          have l16 := (hextoval_iff.1 hlo).1
          have hval : (UInt8.ofNat (h1 * 16 + l1)).toNat = h1 * 16 + l1 := by
            rw [UInt8.toNat_ofNat']
            omega
          rw [hval]
          exact ⟨hhi.trans (by congr 1; omega), hlo.trans (by congr 1; omega), hbs⟩
        · cases h
      · rintro ⟨hhi, hlo, hbs⟩
        simp only [hhi, hlo, hbs]
        rw [show x.toNat / 16 * 16 + x.toNat % 16 = x.toNat by omega]
        simp

theorem Digits.striphex (h : Digits t b) : striphex t = t := by
  have heven : t.length % 2 = 0 := by
    rw [digits_length h]
    omega
  exact striphex_of_hexpairs ((hexpairs_iff heven).2 h) heven

theorem Prefix.striphex {p : Str} (hp : Prefix p) (t : Str) : striphex (p ++ t) = t := by
  obtain ⟨x, hx, rfl⟩ := hp
  exact if_pos ⟨rfl, hx⟩

theorem Written.strtoaddr {a : Address} (h : Written s a) : strtoaddr s = some a.1 := by
  obtain ⟨p, t, hp, rfl, ht⟩ := h
  have hlen : t.length = 40 := by rw [digits_length ht, a.2]
  have hstrip : Wallet.striphex (p ++ t) = t := by
    rcases hp with rfl | hp
    · exact ht.striphex
    · exact hp.striphex t
  rw [Wallet.strtoaddr, hstrip, if_neg (not_not.mpr hlen), hexdecode, if_neg (by rw [hlen]; simp),
    ht.striphex]
  exact (hexpairs_iff (by rw [hlen])).2 ht

theorem written_or_doubled (h : strtoaddr s = some b) :
    (∃ a : Address, Written s a ∧ b = a.1) ∨ Doubled s := by
  obtain ⟨hlen, hpairs⟩ := strtoaddr_some h
  have hpre : ∀ {d : Char}, d = 'x' ∨ d = 'X' → Prefix ['0', d] := fun hd => ⟨_, hd, rfl⟩
  rcases striphex_cases (striphex s) with htwice | ⟨e, he, htwice⟩
  · rw [htwice] at hpairs
    have hdigits := (hexpairs_iff (by rw [hlen])).1 hpairs
    have hb : b.length = 20 := by
      have := digits_length hdigits
      omega
    refine .inl ⟨⟨b, hb⟩, ?_, rfl⟩
    rcases striphex_cases s with hs | ⟨d, hd, hs⟩
    · exact ⟨[], s, .inl rfl, rfl, hs ▸ hdigits⟩
    · exact ⟨['0', d], striphex s, .inr (hpre hd), hs, hdigits⟩
  · have hshort : (striphex (striphex s)).length = 38 := by
      rw [htwice] at hlen
      simpa using hlen
    have hdigits := (hexpairs_iff (by rw [hshort])).1 hpairs
    rcases striphex_cases s with hs | ⟨d, hd, hs⟩
    · rw [hs] at hshort hlen
      rw [hs] at hshort
      omega
    · exact .inr ⟨['0', d], ['0', e], _, b, hpre hd, hpre he,
        hs.trans (congrArg (fun u => '0' :: d :: u) htwice), hshort, hdigits⟩

theorem Doubled.strtoaddr (h : Doubled s) : ∃ b, strtoaddr s = some b ∧ b.length = 19 := by
  obtain ⟨p, q, t, b, hp, hq, rfl, hlen, ht⟩ := h
  refine ⟨b, ?_, by have := digits_length ht; omega⟩
  have hlong : (q ++ t).length = 40 := by
    obtain ⟨x, -, rfl⟩ := hq
    simp [hlen]
  rw [Wallet.strtoaddr, hp.striphex, if_neg (not_not.mpr hlong), hexdecode,
    if_neg (by rw [hlong]; simp), hq.striphex]
  exact (hexpairs_iff (by rw [hlen])).2 ht

def Parsed (s : Str) : Prop := ∀ b, strtoaddr s = some b ↔ ∃ a : Address, Written s a ∧ b = a.1

theorem parsed_iff (s : Str) : Parsed s ↔ ¬Doubled s := by
  constructor
  · intro h hdoubled
    obtain ⟨b, hb, hlen⟩ := hdoubled.strtoaddr
    obtain ⟨a, -, rfl⟩ := (h b).1 hb
    exact absurd (hlen.symm.trans a.2) (by decide)
  · intro h b
    constructor
    · intro hb
      exact (written_or_doubled hb).resolve_right h
    · rintro ⟨a, ha, rfl⟩
      exact ha.strtoaddr

theorem prepareerc20_recipient {env : Env} {net : NetworkConfig} {acct : Account}
    {amount : Str} {budgets : List (Str × Budget Str)} {tx : EthTx} {raw amt : List UInt8}
    (h : prepareerc20 env net acct amount s budgets = .ok (tx, raw, amt)) :
    ∃ b key, strtoaddr s = some b ∧ tx.data = some (calldata b amt) ∧
      env.signtx tx key = some raw := by
  obtain ⟨-, -, h⟩ := bind_ok h
  obtain ⟨-, -, h⟩ := bind_ok h
  obtain ⟨b, hb, h⟩ := bind_ok h
  obtain ⟨amt', -, h⟩ := bind_ok h
  obtain ⟨-, -, h⟩ := bind_ok h
  obtain ⟨-, -, h⟩ := bind_ok h
  obtain ⟨nonce, -, h⟩ := bind_ok h
  obtain ⟨tokenaddr, -, h⟩ := bind_ok h
  obtain ⟨key, -, h⟩ := bind_ok h
  obtain ⟨rawtx, hsign, h⟩ := bind_ok h
  obtain ⟨rfl, rfl, rfl⟩ : _ ∧ _ ∧ _ := by simpa using Except.ok.inj h
  exact ⟨b, key, need_ok hb, rfl, need_ok hsign⟩

theorem preparepayment_recipient {env : Env} {net : NetworkConfig} {acct : Account}
    {amount : Str} {budgets : List (Str × Budget Str)} {tx : EthTx} {raw : List UInt8}
    (h : preparepayment env net acct amount s budgets = .ok (tx, raw)) :
    ∃ key, strtoaddr s = some tx.dst ∧ env.signtx tx key = some raw := by
  obtain ⟨-, -, h⟩ := bind_ok h
  obtain ⟨amt, -, h⟩ := bind_ok h
  obtain ⟨b, hb, h⟩ := bind_ok h
  obtain ⟨-, -, h⟩ := bind_ok h
  obtain ⟨-, -, h⟩ := bind_ok h
  obtain ⟨nonce, -, h⟩ := bind_ok h
  obtain ⟨key, -, h⟩ := bind_ok h
  obtain ⟨rawtx, hsign, h⟩ := bind_ok h
  obtain ⟨rfl, rfl⟩ : _ ∧ _ := by simpa using Except.ok.inj h
  exact ⟨key, need_ok hb, need_ok hsign⟩

/-- The recipient's bytes are at 16 in the call, and are where a payment goes. -/
def Paid (s : Str) : Prop :=
  (∀ env net acct amount budgets tx raw amt,
    prepareerc20 env net acct amount s budgets = .ok (tx, raw, amt) →
      ∃ (a : Address) (d : List UInt8) (key : List UInt8), Written s a ∧ tx.data = some d ∧
        (d.drop 16).take 20 = a.1 ∧ env.signtx tx key = some raw) ∧
  ∀ env net acct amount budgets tx raw,
    preparepayment env net acct amount s budgets = .ok (tx, raw) →
      ∃ (a : Address) (key : List UInt8), Written s a ∧ tx.dst = a.1 ∧
        env.signtx tx key = some raw

theorem calldata_recipient (a : Address) (amt : List UInt8) :
    ((calldata a.1 amt).drop 16).take 20 = a.1 := by
  have hhead : ([0xa9, 0x05, 0x9c, 0xbb] ++ List.replicate 12 (0 : UInt8)).length = 16 := rfl
  rw [calldata, List.append_assoc, List.append_assoc, List.drop_left' hhead,
    List.take_left' a.2]

theorem Parsed.paid (h : Parsed s) : Paid s := by
  constructor
  · intro env net acct amount budgets tx raw amt hok
    obtain ⟨b, key, hb, hdata, hsign⟩ := prepareerc20_recipient hok
    obtain ⟨a, ha, rfl⟩ := (h b).1 hb
    exact ⟨a, _, key, ha, hdata, calldata_recipient a amt, hsign⟩
  · intro env net acct amount budgets tx raw hok
    obtain ⟨key, hb, hsign⟩ := preparepayment_recipient hok
    obtain ⟨a, ha, hdst⟩ := (h tx.dst).1 hb
    exact ⟨a, key, ha, hdst, hsign⟩

/-- A letter is put in upper case where the nibble of the hash is 8 or more. -/
def addrtostr (keccak256 : List UInt8 → List UInt8) (addr : Bytes) : Str :=
  if (addr.getD []).length ≠ 20 then []
  else
    let hex := hexencode (addr.getD [])
    let hash := keccak256 (hex.map fun c => UInt8.ofNat c.toNat)
    lit "0x" ++ hex.zipIdx.map fun (c, i) =>
      let hashbyte := (hash.getD (i / 2) 0).toNat
      let nibble := if i % 2 = 0 then hashbyte >>> 4 else hashbyte &&& 0xf
      if 8 ≤ nibble ∧ 'a' ≤ c ∧ c ≤ 'f' then Char.ofNat (c.toNat - 'a'.toNat + 'A'.toNat) else c

theorem hexencode_lower (hc : c ∈ hexencode b) : c.toLower = c ∧
    ('a' ≤ c ∧ c ≤ 'f' → (Char.ofNat (c.toNat - 'a'.toNat + 'A'.toNat)).toLower = c) := by
  obtain ⟨x, -, hc⟩ := List.mem_flatMap.1 hc
  have hx := x.toNat_lt
  have hall : ∀ v < 16, (Nat.digitChar v).toLower = Nat.digitChar v ∧
      ('a' ≤ Nat.digitChar v ∧ Nat.digitChar v ≤ 'f' →
        (Char.ofNat ((Nat.digitChar v).toNat - 'a'.toNat + 'A'.toNat)).toLower =
          Nat.digitChar v) := by decide
  simp only [List.mem_cons, List.not_mem_nil, or_false] at hc
  rcases hc with rfl | rfl
  · exact hall _ (by omega)
  · exact hall _ (by omega)

theorem addrtostr_written (keccak256 : List UInt8 → List UInt8) (a : Address) :
    Written (addrtostr keccak256 (some a.1)) a := by
  refine ⟨['0', 'x'], _, .inr ⟨'x', .inl rfl, rfl⟩, if_neg (not_not.mpr a.2), ?_⟩
  rw [Digits, List.map_map]
  refine Eq.trans (List.map_congr_left fun e he => ?_) (List.zipIdx_map_fst 0 (hexencode a.1))
  obtain ⟨hlower, hupper⟩ := hexencode_lower (List.fst_mem_of_mem_zipIdx he)
  have hcase : ∀ nibble : ℕ, (if 8 ≤ nibble ∧ 'a' ≤ e.1 ∧ e.1 ≤ 'f' then
      Char.ofNat (e.1.toNat - 'a'.toNat + 'A'.toNat) else e.1).toLower = e.1 := fun nibble => by
    split_ifs with h
    · exact hupper h.2
    · exact hlower
  exact hcase _

/-- Every string but two prefixes before 38 digits is parsed and paid exactly, and every address
is read back from its text. -/
theorem addresses_exact (s : Str) (keccak256 : List UInt8 → List UInt8) (a : Address) :
    (Parsed s ∧ Paid s ↔ ¬Doubled s) ∧
      strtoaddr (addrtostr keccak256 (some a.1)) = some a.1 := by
  refine ⟨?_, (addrtostr_written keccak256 a).strtoaddr⟩
  rw [← parsed_iff s]
  exact ⟨fun h => h.1, fun h => ⟨h, h.paid⟩⟩

/-- Nineteen bytes pass for an address. -/
theorem doubled_accepted :
    strtoaddr ("0x0x" ++ List.replicate 38 '1') = some (List.replicate 19 0x11) ∧
      ¬Parsed ("0x0x" ++ List.replicate 38 '1') := by
  have hshort : strtoaddr ("0x0x" ++ List.replicate 38 '1') = some (List.replicate 19 0x11) := by
    decide
  refine ⟨hshort, fun h => ?_⟩
  obtain ⟨a, -, ha⟩ := (h _).1 hshort
  exact absurd ((congrArg List.length ha).trans a.2) (by decide)

end Infernode.Wallet
