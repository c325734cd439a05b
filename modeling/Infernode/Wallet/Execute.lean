import Infernode.Wallet.Budget

/-!
# Executing a payment

The four execution paths of `wallet9p.b`. What the outside answers during one
execution (RPC, factotum, signer, entropy, Stripe) is an `Env`; the calls that
other holders of `budgetsema` make in the meantime are its `others`, one list
before each place where the execution looks at the books. Account history is
left out.
-/

namespace Infernode.Wallet
open Infernode.Limbo Infernode.Lib.BigEndian

structure NetworkConfig where
  name : Str
  rpcurl : Str
  usdc : Str
  chainid : ℕ
  deriving DecidableEq

structure AuthReq where
  network : Str
  asset : Str
  payto : Str
  amount : Str
  timeout : ℕ
  tokenname : Str
  tokenver : Str
  resource : Str
  deriving DecidableEq

structure Env where
  others : ℕ → List Call
  chainid : Except Str ℤ
  nonce : Except Str ℤ
  gasprice : Except Str Str
  password : Option Str
  signtx : EthTx → List UInt8 → Option (List UInt8)
  sendrawtx : Str → Except Str Str
  random : Option (List UInt8)
  now : ℤ
  authdigest : AuthReq → Str → ℤ → ℤ → List UInt8 → Except Str (List UInt8)
  signhash : Account → List UInt8 → Except Str (List UInt8)
  initstripe : Option Str
  createpayment : ℕ → Str → Str → Except Str Str

def hextoval (c : Char) : Option ℕ :=
  if '0' ≤ c ∧ c ≤ '9' then some (c.toNat - '0'.toNat)
  else if 'a' ≤ c ∧ c ≤ 'f' then some (c.toNat - 'a'.toNat + 10)
  else if 'A' ≤ c ∧ c ≤ 'F' then some (c.toNat - 'A'.toNat + 10)
  else none

def hexpairs : Str → Option (List UInt8)
  | hi :: lo :: s =>
    match hextoval hi, hextoval lo, hexpairs s with
    | some h, some l, some bs => some (UInt8.ofNat (h * 16 + l) :: bs)
    | _, _, _ => none
  | _ => some []

def striphex : Str → Str
  | c :: d :: s => if c = '0' ∧ (d = 'x' ∨ d = 'X') then s else c :: d :: s
  | s => s

def hexdecode (s : Str) : Option (List UInt8) :=
  if s.length % 2 ≠ 0 then none else hexpairs (striphex s)

def hexencode (b : List UInt8) : Str :=
  b.flatMap fun x => [Nat.digitChar (x.toNat / 16), Nat.digitChar (x.toNat % 16)]

def strtoaddr (s : Str) : Option (List UInt8) :=
  if (striphex s).length ≠ 40 then none else hexdecode (striphex s)

def strbig (s : Str) : Option ℕ :=
  if s = [] ∨ 18 < s.length then none else if s.all isdigit then some (decvalue s) else none

def validamount (s : Str) : Bool := s ≠ [] && s.all isdigit && s.any (· ≠ '0')

def hascontrol (s : Str) : Bool := s.any fun c => c < ' ' || c == Char.ofNat 0x7f

def budgeterr (budgets : List (Str × Budget Str)) (acct : Account) (currency : Str)
    (amt : Bytes) : Option Str :=
  match getbudget acct.name budgets with
  | none => none
  | some b =>
    if b.currency ≠ currency then
      some ("budget is in " ++ b.currency ++ lit "; cannot evaluate a " ++ currency ++
        lit " payment against it")
    else checkbudget budgets (some acct) amt

def confirmchainid (env : Env) (net : NetworkConfig) : Option Str :=
  match env.chainid with
  | .error err => some ("cannot confirm chain id: " ++ err)
  | .ok rpcid =>
    if rpcid ≠ net.chainid then
      some ("RPC chain id " ++ (toString rpcid).toList ++ lit " does not match configured network " ++
        net.name ++ lit " (" ++ decimal net.chainid ++ lit "); refusing to sign")
    else none

def queriedgas (env : Env) : ℕ :=
  match env.gasprice with
  | .error _ => 1000000000
  | .ok gp => if gp ≠ [] ∧ gp ≠ lit "0" then (strbig gp).getD 1000000000 else 1000000000

def gasprice (env : Env) : ℕ :=
  if queriedgas env > 100000000000 then 100000000000 else queriedgas env

def refuse (err : Option Str) (pre : Str) : Except Str Unit :=
  match err with
  | none => .ok ()
  | some e => .error (pre ++ e)

def reject (c : Prop) [Decidable c] (err : Str) : Except Str Unit :=
  if c then .error err else .ok ()

def need {α : Type} (a : Option α) (err : Str) : Except Str α :=
  match a with
  | none => .error err
  | some a => .ok a

def privkey (env : Env) (acct : Account) : Except Str (List UInt8) := do
  let password ← need (env.password.filter (· ≠ [])) ("no key in factotum for " ++ acct.name)
  need ((hexdecode password).filter (·.length = 32)) "invalid key in factotum"

/-- `executepayment` up to the signed transaction; what it returns is the
transaction, its raw form and the amount. -/
def preparepayment (env : Env) (net : NetworkConfig) (acct : Account) (amount recipient : Str)
    (budgets : List (Str × Budget Str)) : Except Str (EthTx × List UInt8) := do
  reject (acct.address = []) "account has no address"
  let amt ← need (dectobe amount) ("invalid amount (must be integer wei): " ++ amount)
  let dstaddr ← need (strtoaddr recipient) ("invalid recipient address: " ++ recipient)
  refuse (budgeterr budgets acct "ETH" (some amt)) "budget: "
  refuse (confirmchainid env net) ""
  let nonce ← env.nonce.mapError (lit "nonce: " ++ ·)
  let tx : EthTx := ⟨nonce, gasprice env, 21000, dstaddr, some amt, none, net.chainid⟩
  let key ← privkey env acct
  let rawtx ← need (env.signtx tx key) "transaction signing failed"
  return (tx, rawtx)

def maxfee (tx : EthTx) : Bytes := dectobe (decimal (tx.gasprice * tx.gaslimit))

def submit (env : Env) (rawtx : List UInt8) (uncertain : Str) : Except Str Str :=
  (env.sendrawtx (hexencode rawtx)).mapError (uncertain ++ ·)

def executestripepayment (env : Env) (acct : Account) (amount description : Str) (B : Books) :
    Books × Except Str Str :=
  match env.initstripe with
  | some err => (B, .error ("Stripe: " ++ err))
  | none =>
    match (strint amount).filter (0 < ·) with
    | none => (B, .error ("invalid amount: " ++ amount))
    | some cents =>
      let B := B.calls (env.others 0)
      match budgeterr B.budgets acct "USD" (dectobe amount) with
      | some err => (B, .error ("budget: " ++ err))
      | none =>
        match env.random with
        | none => (B, .error (lit "no entropy source for Stripe idempotency key"))
        | some keybytes =>
          match (B.calls (env.others 1)).reserve .self acct (dectobe amount) with
          | (B, some err) => (B, .error ("budget: " ++ err))
          | (B, none) =>
            (B.release acct.name (.charge cents),
              (env.createpayment cents description ("infernode-" ++ hexencode keybytes)).mapError
                (lit "Stripe outcome uncertain; reserved budget retained: " ++ ·))

def executepayment (env : Env) (net : NetworkConfig) (acct : Account) (amount recipient : Str)
    (B : Books) : Books × Except Str Str :=
  if acct.accttype = .stripe then executestripepayment env acct amount recipient B
  else if acct.accttype ≠ .eth then
    (B, .error (lit "only ETH and Stripe accounts can send payments"))
  else
    let B := B.calls (env.others 0)
    match preparepayment env net acct amount recipient B.budgets with
    | .error err => (B, .error err)
    | .ok (tx, rawtx) =>
      match beadd tx.value (maxfee tx) with
      | none => (B, .error (lit "transaction charge overflows uint256"))
      | some charge =>
        let B := B.calls (env.others 1)
        match budgeterr B.budgets acct "ETH" (some charge) with
        | some err => (B, .error ("budget including gas: " ++ err))
        | none =>
          match (B.calls (env.others 2)).reserve .self acct (some charge) with
          | (B, some err) => (B, .error ("budget including gas: " ++ err))
          | (B, none) =>
            (B.release acct.name (.transfer tx),
              submit env rawtx "send outcome uncertain; reserved budget retained: ")

def calldata (recipaddr amt : List UInt8) : List UInt8 :=
  ([0xa9, 0x05, 0x9c, 0xbb] ++ List.replicate 12 0 ++ recipaddr ++
    List.replicate (20 - recipaddr.length) 0) ++ (List.replicate (32 - amt.length) 0 ++ amt)

def prepareerc20 (env : Env) (net : NetworkConfig) (acct : Account) (amount recipient : Str)
    (budgets : List (Str × Budget Str)) : Except Str (EthTx × List UInt8 × List UInt8) := do
  reject (acct.accttype ≠ .eth) "only ETH accounts can send ERC-20"
  reject (acct.address = []) "account has no address"
  let recipaddr ← need (strtoaddr recipient) ("invalid recipient: " ++ recipient)
  let amt ← need (dectobe amount) ("invalid amount (must be integer base units): " ++ amount)
  refuse (budgeterr budgets acct "USDC" (some amt)) "budget: "
  refuse (confirmchainid env net) ""
  let nonce ← env.nonce.mapError (lit "nonce: " ++ ·)
  let tokenaddr ← need (strtoaddr net.usdc) "invalid token contract address"
  let tx : EthTx := ⟨nonce, gasprice env, 100000, tokenaddr, none,
    some (calldata recipaddr amt), net.chainid⟩
  let key ← privkey env acct
  let rawtx ← need (env.signtx tx key) "transaction signing failed"
  return (tx, rawtx, amt)

/-- `executeerc20` up to its fee reservation: the books as that call finds
them, or the books and the error it stopped with before. -/
def erc20fee (env : Env) (net : NetworkConfig) (acct : Account) (amount recipient : Str)
    (B : Books) : Except (Books × Str) (Books × EthTx × List UInt8) :=
  let B := B.calls (env.others 0)
  match prepareerc20 env net acct amount recipient B.budgets with
  | .error err => .error (B, err)
  | .ok (tx, rawtx, amt) =>
    let B := B.calls (env.others 1)
    match checkbudget B.budgets (some acct) (some amt) with
    | some err => .error (B, "budget: " ++ err)
    | none =>
      let B := B.calls (env.others 2)
      match checkfee B.feebudgets (some acct) (maxfee tx) with
      | some err => .error (B, "gas budget: " ++ err)
      | none =>
        match (B.calls (env.others 3)).reserve .self acct (some amt) with
        | (B, some err) => .error (B, "budget: " ++ err)
        | (B, none) => .ok (B.calls (env.others 4), tx, rawtx)

def executeerc20 (env : Env) (net : NetworkConfig) (acct : Account) (amount recipient : Str)
    (B : Books) : Books × Except Str Str :=
  match erc20fee env net acct amount recipient B with
  | .error (B, err) => (B, .error err)
  | .ok (B, tx, rawtx) =>
    match B.reservefee .self acct (maxfee tx) with
    | (B, some err) =>
      ({ B with trace := .feerefused acct.name :: B.trace }, .error ("gas budget: " ++ err))
    | (B, none) =>
      (B.release acct.name (.tokens tx),
        submit env rawtx "send outcome uncertain; reserved budgets retained: ")

def assetcurrency (net : NetworkConfig) (asset : Str) : Str :=
  if asciilower asset = asciilower net.usdc then "USDC" else "token:" ++ asset

def networktochainid (network : Str) : ℕ :=
  if prefixed network "eip155:" then (strint (network.drop 7)).getD 0 else 0

def validateauth (net : NetworkConfig) (acct : Account) (req : AuthReq)
    (budgets : List (Str × Budget Str)) : Except Str Unit := do
  reject (acct.accttype ≠ .eth) "only ETH accounts can authorize x402 payments"
  reject (acct.address = []) "account has no address"
  reject (networktochainid req.network ≠ net.chainid)
    ("request network " ++ req.network ++ lit " does not match active network " ++ net.name ++
      lit " (eip155:" ++ decimal net.chainid ++ lit ")")
  let _ ← need (strtoaddr req.asset) "invalid asset address"
  let _ ← need (strtoaddr req.payto) "invalid payto address"
  let amt ← need (dectobe req.amount) "invalid amount (must be integer base units)"
  if req.tokenname = [] ∨ 64 < req.tokenname.length ∨ 16 < req.tokenver.length then
    throw (lit "invalid token name/version")
  refuse (budgeterr budgets acct (assetcurrency net req.asset) (some amt)) ""

def preparex402 (env : Env) (net : NetworkConfig) (acct : Account) (req : AuthReq)
    (budgets : List (Str × Budget Str)) :
    Except Str (List UInt8 × List UInt8 × ℤ × ℤ) := do
  validateauth net acct req budgets
  let nonce ← need env.random "no entropy source for nonce generation"
  reject (env.now ≤ 0) "no time source for validity window"
  let validafter := if env.now - 600 < 0 then 0 else env.now - 600
  let validbefore := env.now + req.timeout
  let digest ← (env.authdigest req acct.address validafter validbefore nonce).mapError
    (lit "digest: " ++ ·)
  let sig ← (env.signhash acct digest).mapError (lit "sign: " ++ ·)
  reject (sig.length ≠ 65) "sign: malformed signature"
  return (sig, nonce, validafter, validbefore)

def executex402 (env : Env) (net : NetworkConfig) (acct : Account) (req : AuthReq) (B : Books) :
    Books × Except Str Str :=
  let B := B.calls (env.others 0)
  match preparex402 env net acct req B.budgets with
  | .error err => (B, .error err)
  | .ok (sig, nonce, validafter, validbefore) =>
    match (B.calls (env.others 1)).reserve .self acct (dectobe req.amount) with
    | (B, some err) => (B, .error ("budget: " ++ err))
    | (B, none) =>
      (B.release acct.name (.authorization req.amount),
        .ok ("sig " ++ hexencode sig ++ lit " from " ++ acct.address ++ lit " nonce " ++
          hexencode nonce ++ lit " validafter " ++ (toString validafter).toList ++
          lit " validbefore " ++ (toString validbefore).toList))

theorem bind_ok {ε α β : Type} {x : Except ε α} {f : α → Except ε β} {b : β}
    (h : (x >>= f) = .ok b) : ∃ a, x = .ok a ∧ f a = .ok b := by
  cases x with
  | error e => cases h
  | ok a => exact ⟨a, rfl, h⟩

theorem need_ok {α : Type} {a : Option α} {err : Str} {b : α} (h : need a err = .ok b) :
    a = some b := by
  cases a with
  | none => cases h
  | some a => rw [Except.ok.inj h]

theorem gasprice_le (env : Env) : gasprice env ≤ 10 ^ 11 := by
  simp only [gasprice]
  split_ifs <;> omega

theorem dectobe_decimal {n : ℕ} (h : n < 2 ^ 256) : amountval (dectobe (decimal n)) = n := by
  have hne : dectobe (decimal n) ≠ none := by
    have hlen : (decimal n).length ≤ 78 :=
      (decimal_length_le (by norm_num)).mpr (h.trans (by norm_num))
    have hbytes : (strip (tobytes n)).length ≤ 32 := by
      rw [(strip_stripped _).length_le_iff, value_strip, value_tobytes]
      exact h.trans_eq (by norm_num)
    simp only [dectobe, decimal_ne_nil, false_or, not_lt.mpr hlen, gt_iff_lt, if_false,
      decimal_isdigit, decvalue_decimal, not_lt.mpr hbytes]
    simp
  rw [dectobe_value hne, decvalue_decimal]

theorem preparepayment_ok {env : Env} {net : NetworkConfig} {acct : Account}
    {amount recipient : Str} {budgets : List (Str × Budget Str)} {tx : EthTx} {raw : List UInt8}
    (h : preparepayment env net acct amount recipient budgets = .ok (tx, raw)) :
    tx.gasprice = gasprice env ∧ tx.gaslimit = 21000 := by
  obtain ⟨-, -, h⟩ := bind_ok h
  obtain ⟨amt, -, h⟩ := bind_ok h
  obtain ⟨dstaddr, -, h⟩ := bind_ok h
  obtain ⟨-, -, h⟩ := bind_ok h
  obtain ⟨-, -, h⟩ := bind_ok h
  obtain ⟨nonce, -, h⟩ := bind_ok h
  obtain ⟨key, -, h⟩ := bind_ok h
  obtain ⟨rawtx, -, h⟩ := bind_ok h
  obtain ⟨rfl, -⟩ := Prod.mk.inj (Except.ok.inj h)
  exact ⟨rfl, rfl⟩

theorem striphex_length (s : Str) : (striphex s).length ≤ s.length := by
  match s with
  | [] => simp [striphex]
  | [c] => simp [striphex]
  | c :: d :: s =>
    simp only [striphex]
    split_ifs
    · simp; omega
    · simp

theorem hexpairs_length : ∀ {s : Str} {b : List UInt8}, hexpairs s = some b →
    b.length ≤ s.length / 2
  | [], b, h => by simp [hexpairs] at h; simp [h]
  | [c], b, h => by simp [hexpairs] at h; simp [h]
  | hi :: lo :: s, b, h => by
    simp only [hexpairs] at h
    split at h
    · rename_i bs _ _ hbs
      have hrec := hexpairs_length hbs
      rw [← Option.some.inj h]
      simp only [List.length_cons]
      omega
    · cases h

theorem strtoaddr_length {s : Str} {b : List UInt8} (h : strtoaddr s = some b) :
    b.length ≤ 20 := by
  simp only [strtoaddr, hexdecode] at h
  split_ifs at h with h40 h2
  have hpairs := hexpairs_length h
  have hstrip := striphex_length (striphex s)
  omega

theorem prepareerc20_ok {env : Env} {net : NetworkConfig} {acct : Account}
    {amount recipient : Str} {budgets : List (Str × Budget Str)} {tx : EthTx}
    {raw amt : List UInt8}
    (h : prepareerc20 env net acct amount recipient budgets = .ok (tx, raw, amt)) :
    tx.gasprice = gasprice env ∧ tx.gaslimit = 100000 ∧
      ∃ recipaddr, recipaddr.length ≤ 20 ∧ tx.data = some (calldata recipaddr amt) := by
  obtain ⟨-, -, h⟩ := bind_ok h
  obtain ⟨-, -, h⟩ := bind_ok h
  obtain ⟨recipaddr, hr, h⟩ := bind_ok h
  obtain ⟨amt', -, h⟩ := bind_ok h
  obtain ⟨-, -, h⟩ := bind_ok h
  obtain ⟨-, -, h⟩ := bind_ok h
  obtain ⟨nonce, -, h⟩ := bind_ok h
  obtain ⟨tokenaddr, -, h⟩ := bind_ok h
  obtain ⟨key, -, h⟩ := bind_ok h
  obtain ⟨rawtx, -, h⟩ := bind_ok h
  obtain ⟨rfl, -, rfl⟩ : _ ∧ _ ∧ _ := by simpa using Except.ok.inj h
  exact ⟨rfl, rfl, recipaddr, strtoaddr_length (need_ok hr), rfl⟩

theorem calldata_amount {recipaddr : List UInt8} (amt : List UInt8) (h : recipaddr.length ≤ 20) :
    value ((calldata recipaddr amt).drop 36) = value amt := by
  have hlen : ([0xa9, 0x05, 0x9c, 0xbb] ++ List.replicate 12 0 ++ recipaddr ++
      List.replicate (20 - recipaddr.length) (0 : UInt8)).length = 36 := by
    simp
    omega
  rw [calldata, ← hlen, List.drop_left, value_zeros]

theorem maxfee_value {env : Env} {tx : EthTx} (hp : tx.gasprice = gasprice env)
    (hl : tx.gaslimit ≤ 100000) : amountval (maxfee tx) = tx.gasprice * tx.gaslimit := by
  refine dectobe_decimal ?_
  have hg := gasprice_le env
  rw [← hp] at hg
  calc tx.gasprice * tx.gaslimit ≤ 10 ^ 11 * 100000 := Nat.mul_le_mul hg hl
    _ < 2 ^ 256 := by norm_num

theorem Books.Good.release_reserved {B : Books} (h : B.Good) (acct : Account) {amount : Bytes}
    {r : Release} (hfee : r.fee = none) (hcost : amount ≠ none → r.cost = amountval amount) :
    (∃ err, B.reserve .self acct amount = (B, some err)) ∨
    ∃ B', B.reserve .self acct amount = (B', none) ∧ (B'.release acct.name r).Good := by
  rcases B.reserve_cases .self acct amount with he | ⟨l', hr, hne, hok⟩
  · exact Or.inl he
  · refine Or.inr ⟨_, hr, (hok h.ok).release _ _, ?_⟩
    exact Settled.released h.settled hfee (hcost hne)

theorem Books.Good.executestripepayment {B : Books} (h : B.Good) (env : Env) (acct : Account)
    (amount description : Str) :
    (executestripepayment env acct amount description B).1.Good := by
  simp only [Wallet.executestripepayment]
  cases env.initstripe with
  | some err => exact h
  | none =>
    cases hc : (strint amount).filter (0 < ·) with
    | none => exact h
    | some cents =>
      have h0 := h.calls (env.others 0)
      simp only []
      cases budgeterr (B.calls (env.others 0)).budgets acct "USD" (dectobe amount) with
      | some err => exact h0
      | none =>
        cases env.random with
        | none => exact h0
        | some keybytes =>
          have h1 := h0.calls (env.others 1)
          have hcost : dectobe amount ≠ none →
              (Release.charge cents).cost = amountval (dectobe amount) := by
            intro hne
            rw [dectobe_value hne, strint_value (Option.filter_eq_some_iff.mp hc).1]
            rfl
          rcases h1.release_reserved acct rfl hcost with
            ⟨err, he⟩ | ⟨B', hr, hgood⟩
          · simp only [he]
            exact h1
          · simp only [hr]
            exact hgood

theorem Books.Good.executepayment {B : Books} (h : B.Good) (env : Env) (net : NetworkConfig)
    (acct : Account) (amount recipient : Str) :
    (executepayment env net acct amount recipient B).1.Good := by
  simp only [Wallet.executepayment]
  split_ifs
  · exact h.executestripepayment env acct amount recipient
  · exact h
  · have h0 := h.calls (env.others 0)
    cases hp : preparepayment env net acct amount recipient (B.calls (env.others 0)).budgets with
    | error err => exact h0
    | ok p =>
      obtain ⟨tx, rawtx⟩ := p
      obtain ⟨hgp, hgl⟩ := preparepayment_ok hp
      simp only []
      cases hc : beadd tx.value (maxfee tx) with
      | none => exact h0
      | some charge =>
        have h1 := h0.calls (env.others 1)
        simp only []
        cases budgeterr ((B.calls (env.others 0)).calls (env.others 1)).budgets acct "ETH"
            (some charge) with
        | some err => exact h1
        | none =>
          have h2 := h1.calls (env.others 2)
          have hcost : some charge ≠ none →
              (Release.transfer tx).cost = amountval (some charge) := by
            intro _
            have hsum : amountval (some charge) = amountval tx.value + amountval (maxfee tx) :=
              beadd_eq_some hc
            rw [hsum, maxfee_value hgp (by omega)]
            rfl
          rcases h2.release_reserved acct rfl hcost with
            ⟨err, he⟩ | ⟨B', hr, hgood⟩
          · simp only [he]
            exact h2
          · simp only [hr]
            exact hgood

theorem Books.Good.executex402 {B : Books} (h : B.Good) (env : Env) (net : NetworkConfig)
    (acct : Account) (req : AuthReq) : (executex402 env net acct req B).1.Good := by
  have h0 := h.calls (env.others 0)
  simp only [Wallet.executex402]
  cases hp : preparex402 env net acct req (B.calls (env.others 0)).budgets with
  | error err => exact h0
  | ok p =>
    obtain ⟨sig, nonce, validafter, validbefore⟩ := p
    have h1 := h0.calls (env.others 1)
    have hcost : dectobe req.amount ≠ none →
        (Release.authorization req.amount).cost = amountval (dectobe req.amount) :=
      fun hne => (dectobe_value hne).symm
    rcases h1.release_reserved acct rfl hcost with
      ⟨err, he⟩ | ⟨B', hr, hgood⟩
    · simp only [he]
      exact h1
    · simp only [hr]
      exact hgood

def feelimits (name : Str) (B : Books) : Option (Bytes × Bytes) :=
  (getbudget name B.feebudgets).map fun b => (b.maxpertx, b.maxpersess)

theorem feelimits_addspent {l l' : List (Str × FeeBudget)} {acct : Option Account}
    {amount : Bytes} {overflow : Str} {e : Option Str}
    (h : addspent l acct amount overflow = (l', e)) (name : Str) :
    (getbudget name l').map (fun b => (b.maxpertx, b.maxpersess)) =
      (getbudget name l).map fun b => (b.maxpertx, b.maxpersess) := by
  simp only [addspent] at h
  split at h
  · rw [(Prod.mk.inj h).1]
  · split at h
    · rw [(Prod.mk.inj h).1]
    · rw [← (Prod.mk.inj h).1, getbudget_setspent]
      split_ifs
      · simp [Function.comp_def]
      · rfl

theorem feelimits_call (name : Str) (B : Books) (c : Call) :
    feelimits name (B.call c) = feelimits name B := by
  cases c with
  | reserve acct amount =>
    rcases B.reserve_cases .other acct amount with ⟨err, he⟩ | ⟨l', hr, -⟩
    · simp [Books.call, he]
    · simp [Books.call, hr, feelimits]
  | reservefee acct amount =>
    rcases reservefee_cases B.feebudgets acct amount with ⟨err, he⟩ | ⟨l', hr, -, -, ha⟩
    · simp [Books.call, Books.reservefee, he]
    · simp [Books.call, Books.reservefee, hr, feelimits, feelimits_addspent ha]

theorem feelimits_calls (name : Str) (B : Books) (cs : List Call) :
    feelimits name (B.calls cs) = feelimits name B := by
  induction cs generalizing B with
  | nil => rfl
  | cons c cs ih => exact (ih (B.call c)).trans (feelimits_call name B c)

theorem checkfee_none {l : List (Str × FeeBudget)} {acct : Account} {fee : Bytes}
    (h : checkfee l (some acct) fee = none) :
    fee ≠ none ∧ ∃ b, getbudget acct.name l = some b ∧ breach b fee = none := by
  cases fee with
  | none => simp [checkfee] at h
  | some fee =>
    refine ⟨by simp, ?_⟩
    cases hb : getbudget acct.name l with
    | none => simp [checkfee, hb] at h
    | some b => exact ⟨b, rfl, by simpa [checkfee, hb] using h⟩

def FeeRoom (B : Books) (acct : Account) (tx : EthTx) : Prop :=
  ∀ b, getbudget acct.name B.feebudgets = some b →
    amountval b.spent + tx.gasprice * tx.gaslimit < 2 ^ 256 ∧
      (amountval b.maxpersess ≠ 0 →
        amountval b.spent + tx.gasprice * tx.gaslimit ≤ amountval b.maxpersess)

/-- The state in which `executeerc20` reserves the fee: the token charge is
reserved last, and the fee is within its per-transaction limit. -/
structure AtFee (B : Books) (acct : Account) (tx : EthTx) : Prop where
  ok : B.OK
  fee : amountval (maxfee tx) = tx.gasprice * tx.gaslimit
  feenil : maxfee tx ≠ none
  budget : ∃ b, getbudget acct.name B.feebudgets = some b ∧
    (amountval b.maxpertx ≠ 0 → amountval (maxfee tx) ≤ amountval b.maxpertx)
  reserved : ∃ amt l, own B.trace = .reserved .self acct.name (some amt) :: l ∧ Settled l ∧
    (Release.tokens tx).cost = value amt

theorem erc20fee_spec {B : Books} (h : B.Good) (env : Env) (net : NetworkConfig) (acct : Account)
    (amount recipient : Str) :
    match erc20fee env net acct amount recipient B with
    | .error (B', _) => B'.Good
    | .ok (B', tx, _) => AtFee B' acct tx := by
  have h0 := h.calls (env.others 0)
  simp only [erc20fee]
  cases hp : prepareerc20 env net acct amount recipient (B.calls (env.others 0)).budgets with
  | error err => exact h0
  | ok p =>
    obtain ⟨tx, raw, amt⟩ := p
    obtain ⟨hgp, hgl, recipaddr, hlen, hdata⟩ := prepareerc20_ok hp
    have h1 := h0.calls (env.others 1)
    simp only []
    generalize (B.calls (env.others 0)).calls (env.others 1) = B1 at h1 ⊢
    cases checkbudget B1.budgets (some acct) (some amt) with
    | some err => exact h1
    | none =>
      have h2 := h1.calls (env.others 2)
      simp only []
      generalize B1.calls (env.others 2) = B2 at h2 ⊢
      cases hf : checkfee B2.feebudgets (some acct) (maxfee tx) with
      | some err => exact h2
      | none =>
        have h3 := h2.calls (env.others 3)
        have hlim3 := feelimits_calls acct.name B2 (env.others 3)
        simp only []
        generalize B2.calls (env.others 3) = B3 at h3 hlim3 ⊢
        rcases B3.reserve_cases .self acct (some amt) with ⟨err, he⟩ | ⟨l', hr, -, hok⟩
        · simp only [he]
          exact h3
        · simp only [hr]
          set B4 : Books := { B3 with
            budgets := l', trace := .reserved .self acct.name (some amt) :: B3.trace } with hB4
          have hown4 : own B4.trace = .reserved .self acct.name (some amt) :: own B3.trace := rfl
          obtain ⟨hfeenil, b, hb, hbr⟩ := checkfee_none hf
          have hlim : feelimits acct.name (B4.calls (env.others 4)) =
              some (b.maxpertx, b.maxpersess) := by
            rw [feelimits_calls]
            exact hlim3.trans (by simp [feelimits, hb])
          refine ⟨(B4.calls_spec _).1 (hok h3.ok), maxfee_value hgp (by omega), hfeenil, ?_, amt,
            own B3.trace, by rw [(B4.calls_spec _).2, hown4], h3.settled, ?_⟩
          · simp only [feelimits, Option.map_eq_some_iff, Prod.mk.injEq] at hlim
            obtain ⟨c, hc, hpertx, -⟩ := hlim
            exact ⟨c, hc, by rw [hpertx]; exact (breach_none hbr).1⟩
          · simp [Release.cost, hdata, amountval, calldata_amount amt hlen]

theorem AtFee.reservefee {B : Books} {acct : Account} {tx : EthTx} (h : AtFee B acct tx)
    (hroom : FeeRoom B acct tx) :
    ∃ B', B.reservefee .self acct (maxfee tx) = (B', none) ∧
      (B'.release acct.name (.tokens tx)).Good := by
  obtain ⟨b, hb, hpertx⟩ := h.budget
  obtain ⟨hlt, hsess⟩ := hroom b hb
  obtain ⟨amt, l, hown, hsettled, hcost⟩ := h.reserved
  rcases B.reservefee_cases .self acct (maxfee tx) with ⟨err, he⟩ | ⟨l', hr, hok⟩
  · have hbr : breach b (maxfee tx) = none :=
      breach_none_of_le hpertx (by rw [h.fee]; exact hlt) (by rw [h.fee]; exact hsess)
    have hadd : beadd b.spent (maxfee tx) ≠ none := by
      rw [Ne, beadd_eq_none, h.fee]
      omega
    obtain ⟨total, ht⟩ := Option.ne_none_iff_exists'.mp hadd
    obtain ⟨fee, hfee⟩ := Option.ne_none_iff_exists'.mp h.feenil
    rw [hfee] at he hbr ht
    simp [Books.reservefee, Wallet.reservefee, checkfee, addspent, hb, hbr, ht] at he
  · refine ⟨_, hr, (hok h.ok).release _ _, ?_⟩
    have hown' : own (({ B with
        feebudgets := l', trace := .feereserved .self acct.name (maxfee tx) :: B.trace } :
          Books).release acct.name (.tokens tx)).trace =
        .released acct.name (.tokens tx) :: .feereserved .self acct.name (maxfee tx) ::
          own B.trace := rfl
    rw [hown', hown]
    exact Settled.tokens hsettled (by rw [h.fee]; rfl) hcost

theorem Books.Good.executeerc20 {B : Books} (h : B.Good) (env : Env) (net : NetworkConfig)
    (acct : Account) (amount recipient : Str)
    (hroom : ∀ B' tx raw, erc20fee env net acct amount recipient B = .ok (B', tx, raw) →
      FeeRoom B' acct tx) :
    (executeerc20 env net acct amount recipient B).1.Good := by
  have hspec := erc20fee_spec h env net acct amount recipient
  simp only [Wallet.executeerc20]
  cases he : erc20fee env net acct amount recipient B with
  | error p => 
    rw [he] at hspec
    exact hspec
  | ok p =>
    obtain ⟨B', tx, raw⟩ := p
    rw [he] at hspec
    obtain ⟨B'', hr, hgood⟩ := hspec.reservefee (hroom B' tx raw he)
    simp only [hr]
    exact hgood

end Infernode.Wallet
