import Infernode.Wallet.Amount

/-!
# Budgets

The two budget lists of `wallet.b` and the operations on them. A fee budget
has the fields of a budget without a currency (it is always ETH wei), so both
are `Budget κ`. `reserve` and `reservefee` hold `budgetsema` from their check
to their update and are single steps here; `Books` adds the trace of what was
set and reserved, newest first, and `BookOK` ties each list to its trace.
-/

namespace Infernode.Wallet
open Infernode.Limbo

inductive AcctType
  | eth
  | sol
  | stripe
  deriving DecidableEq

structure Account where
  name : Str
  accttype : AcctType
  chain : Str
  address : Str
  deriving DecidableEq

structure Budget (κ : Type) where
  maxpertx : Bytes
  maxpersess : Bytes
  spent : Bytes
  currency : κ
  deriving DecidableEq

abbrev FeeBudget := Budget Unit

section Lists
variable {κ : Type}

def getbudget (name : Str) : List (Str × Budget κ) → Option (Budget κ)
  | [] => none
  | (n, b) :: l => if n = name then some b else getbudget name l

def setbudget (name : Str) (b : Budget κ) (l : List (Str × Budget κ)) : List (Str × Budget κ) :=
  (name, b) :: (l.filter fun e => e.1 ≠ name).reverse

def setspent (name : Str) (total : Bytes) : List (Str × Budget κ) → List (Str × Budget κ)
  | [] => []
  | (n, b) :: l =>
    if n = name then (n, { b with spent := total }) :: l else (n, b) :: setspent name total l

inductive Breach
  | pertx
  | overflow
  | session
  deriving DecidableEq

def breach (b : Budget κ) (amount : Bytes) : Option Breach :=
  if 0 < becmp b.maxpertx none ∧ 0 < becmp amount b.maxpertx then some .pertx
  else if 0 < becmp b.maxpersess none then
    match beadd b.spent amount with
    | none => some .overflow
    | some total => if 0 < becmp (some total) b.maxpersess then some .session else none
  else none

end Lists

def budgetbreach (b : Budget Str) (amount : Bytes) : Breach → Str
  | .pertx => "amount " ++ betodec amount ++ lit " exceeds per-tx limit " ++ betodec b.maxpertx ++
      lit " " ++ b.currency
  | .overflow => "session total would overflow uint256"
  | .session => "amount " ++ betodec amount ++ lit " would exceed session limit " ++
      betodec b.maxpersess ++ lit " " ++ b.currency ++ lit " (spent: " ++ betodec b.spent ++ lit ")"

def feebreach (b : FeeBudget) (amount : Bytes) : Breach → Str
  | .pertx => "fee " ++ betodec amount ++ lit " exceeds per-tx fee limit " ++ betodec b.maxpertx ++
      lit " ETH wei"
  | .overflow => "fee session total would overflow uint256"
  | .session => "fee " ++ betodec amount ++ lit " would exceed session fee limit " ++
      betodec b.maxpersess ++ lit " ETH wei (spent: " ++ betodec b.spent ++ lit ")"

def checkbudget (budgets : List (Str × Budget Str)) (acct : Option Account) (amount : Bytes) :
    Option Str :=
  match acct, amount with
  | none, _ => some "nil account"
  | some _, none => some "nil amount"
  | some a, some amt =>
    match getbudget a.name budgets with
    | none => none
    | some b => (breach b (some amt)).map (budgetbreach b (some amt))

def checkfee (feebudgets : List (Str × FeeBudget)) (acct : Option Account) (amount : Bytes) :
    Option Str :=
  match acct, amount with
  | none, _ => some "nil account"
  | some _, none => some "nil fee"
  | some a, some amt =>
    match getbudget a.name feebudgets with
    | none => some "no ETH fee budget configured"
    | some b => (breach b (some amt)).map (feebreach b (some amt))

def addspent {κ : Type} (l : List (Str × Budget κ)) (acct : Option Account) (amount : Bytes)
    (overflow : Str) : List (Str × Budget κ) × Option Str :=
  match acct.bind fun a => (getbudget a.name l).map fun b => (a.name, b) with
  | none => (l, none)
  | some (name, b) =>
    match beadd b.spent amount with
    | none => (l, some overflow)
    | some total => (setspent name (some total) l, none)

def reserve (budgets : List (Str × Budget Str)) (acct : Option Account) (amount : Bytes) :
    List (Str × Budget Str) × Option Str :=
  match checkbudget budgets acct amount with
  | some err => (budgets, some err)
  | none => addspent budgets acct amount "session total would overflow uint256"

def reservefee (feebudgets : List (Str × FeeBudget)) (acct : Option Account) (amount : Bytes) :
    List (Str × FeeBudget) × Option Str :=
  match checkfee feebudgets acct amount with
  | some err => (feebudgets, some err)
  | none => addspent feebudgets acct amount "fee session total would overflow uint256"

section Lookup
variable {κ : Type}

theorem getbudget_setspent (m name : Str) (total : Bytes) (l : List (Str × Budget κ)) :
    getbudget m (setspent name total l) =
      if m = name then (getbudget m l).map fun b => { b with spent := total }
      else getbudget m l := by
  induction l with
  | nil => simp [setspent, getbudget]
  | cons e l ih =>
    obtain ⟨n, b⟩ := e
    simp only [setspent]
    split_ifs with hn hm hm
    · simp [getbudget, hn, hm]
    · simp [getbudget, hn, Ne.symm hm]
    · subst hm
      simp [getbudget, hn, ih]
    · simp only [getbudget, ih, if_neg hm]

theorem keys_setspent (name : Str) (total : Bytes) (l : List (Str × Budget κ)) :
    (setspent name total l).map Prod.fst = l.map Prod.fst := by
  induction l with
  | nil => rfl
  | cons e l ih =>
    simp only [setspent]
    split_ifs
    · rfl
    · simp [ih]

theorem getbudget_iff_mem {l : List (Str × Budget κ)} (h : (l.map Prod.fst).Nodup) (m : Str)
    (b : Budget κ) : getbudget m l = some b ↔ (m, b) ∈ l := by
  induction l with
  | nil => simp [getbudget]
  | cons e l ih =>
    obtain ⟨n, c⟩ := e
    obtain ⟨hn, hl⟩ : n ∉ l.map Prod.fst ∧ (l.map Prod.fst).Nodup := List.nodup_cons.mp h
    simp only [getbudget, List.mem_cons, Prod.mk.injEq]
    split_ifs with hm
    · subst hm
      constructor
      · intro hb
        exact Or.inl ⟨rfl, (Option.some.inj hb).symm⟩
      · rintro (⟨-, rfl⟩ | hmem)
        · rfl
        · exact absurd (List.mem_map.mpr ⟨_, hmem, rfl⟩) hn
    · rw [ih hl]
      simp [Ne.symm hm]

theorem keys_setbudget {l : List (Str × Budget κ)} (h : (l.map Prod.fst).Nodup) (name : Str)
    (b : Budget κ) : ((setbudget name b l).map Prod.fst).Nodup := by
  simp only [setbudget, List.map_cons, List.map_reverse, List.nodup_cons, List.mem_reverse,
    List.nodup_reverse]
  constructor
  · simp
  · exact h.sublist (List.filter_sublist.map _)

theorem getbudget_setbudget {l : List (Str × Budget κ)} (h : (l.map Prod.fst).Nodup)
    (m name : Str) (b : Budget κ) :
    getbudget m (setbudget name b l) = if m = name then some b else getbudget m l := by
  by_cases hm : m = name
  · simp [setbudget, getbudget, hm]
  · ext c
    rw [getbudget_iff_mem (keys_setbudget h name b), if_neg hm, getbudget_iff_mem h]
    simp [setbudget, hm]

theorem breach_none {b : Budget κ} {amount : Bytes} (h : breach b amount = none) :
    (amountval b.maxpertx ≠ 0 → amountval amount ≤ amountval b.maxpertx) ∧
      (amountval b.maxpersess ≠ 0 →
        amountval b.spent + amountval amount ≤ amountval b.maxpersess) := by
  simp only [breach, becmp_pos, amountval_nil] at h
  split_ifs at h with hp hs
  · refine ⟨fun h0 => by omega, fun _ => ?_⟩
    cases ht : beadd b.spent amount with
    | none => simp [ht] at h
    | some total =>
      simp only [ht] at h
      split_ifs at h with hlt
      have hval : amountval (some total) = amountval b.spent + amountval amount :=
        beadd_eq_some ht
      omega
  · exact ⟨fun h0 => by omega, fun h0 => by omega⟩

theorem breach_none_of_le {b : Budget κ} {amount : Bytes}
    (hp : amountval b.maxpertx ≠ 0 → amountval amount ≤ amountval b.maxpertx)
    (hlt : amountval b.spent + amountval amount < 2 ^ 256)
    (hs : amountval b.maxpersess ≠ 0 →
      amountval b.spent + amountval amount ≤ amountval b.maxpersess) : breach b amount = none := by
  have hp' : ¬(0 < becmp b.maxpertx none ∧ 0 < becmp amount b.maxpertx) := by
    rw [becmp_pos, becmp_pos, amountval_nil]
    omega
  rw [breach, if_neg hp']
  split_ifs with h0
  · rw [becmp_pos, amountval_nil] at h0
    cases ht : beadd b.spent amount with
    | none => exact absurd ((beadd_eq_none _ _).mp ht) (by omega)
    | some total =>
      have hval : amountval (some total) = amountval b.spent + amountval amount :=
        beadd_eq_some ht
      have hle : ¬0 < becmp (some total) b.maxpersess := by
        rw [becmp_pos, hval]
        have := hs (by omega)
        omega
      simp only [if_neg hle]
  · rfl

end Lookup

inductive Caller
  | self
  | other
  deriving DecidableEq

structure EthTx where
  nonce : ℤ
  gasprice : ℕ
  gaslimit : ℕ
  dst : List UInt8
  value : Bytes
  data : Bytes
  chainid : ℤ
  deriving DecidableEq

/-- What leaves the server: a raw transaction or a Stripe charge sent out, or
an authorization handed to a client. -/
inductive Release
  | transfer (tx : EthTx)
  | tokens (tx : EthTx)
  | authorization (amount : Str)
  | charge (cents : ℕ)
  deriving DecidableEq

def Release.cost : Release → ℕ
  | .transfer tx => amountval tx.value + tx.gasprice * tx.gaslimit
  | .tokens tx => amountval (tx.data.map (List.drop 36))
  | .authorization amount => decvalue amount
  | .charge cents => cents

def Release.fee : Release → Option ℕ
  | .tokens tx => some (tx.gasprice * tx.gaslimit)
  | _ => none

inductive Event
  | budget (name : Str) (b : Budget Str)
  | feebudget (name : Str) (b : FeeBudget)
  | reserved (who : Caller) (name : Str) (amount : Bytes)
  | feereserved (who : Caller) (name : Str) (amount : Bytes)
  | feerefused (name : Str)
  | released (name : Str) (r : Release)
  deriving DecidableEq

structure Books where
  budgets : List (Str × Budget Str)
  feebudgets : List (Str × FeeBudget)
  trace : List Event

def Books.setbudget (B : Books) (name : Str) (b : Budget Str) : Books :=
  { B with
    budgets := Wallet.setbudget name b B.budgets
    trace := .budget name b :: B.trace }

def Books.setfeebudget (B : Books) (name : Str) (b : FeeBudget) : Books :=
  { B with
    feebudgets := Wallet.setbudget name b B.feebudgets
    trace := .feebudget name b :: B.trace }

def Books.reserve (B : Books) (who : Caller) (acct : Account) (amount : Bytes) :
    Books × Option Str :=
  match Wallet.reserve B.budgets (some acct) amount with
  | (l, some err) => ({ B with budgets := l }, some err)
  | (l, none) =>
    ({ B with budgets := l, trace := .reserved who acct.name amount :: B.trace }, none)

def Books.reservefee (B : Books) (who : Caller) (acct : Account) (amount : Bytes) :
    Books × Option Str :=
  match Wallet.reservefee B.feebudgets (some acct) amount with
  | (l, some err) => ({ B with feebudgets := l }, some err)
  | (l, none) =>
    ({ B with feebudgets := l, trace := .feereserved who acct.name amount :: B.trace }, none)

def Books.release (B : Books) (name : Str) (r : Release) : Books :=
  { B with trace := .released name r :: B.trace }

inductive Call
  | reserve (acct : Account) (amount : Bytes)
  | reservefee (acct : Account) (amount : Bytes)
  deriving DecidableEq

def Books.call (B : Books) : Call → Books
  | .reserve acct amount => (B.reserve .other acct amount).1
  | .reservefee acct amount => (B.reservefee .other acct amount).1

def Books.calls (B : Books) (cs : List Call) : Books := cs.foldl Books.call B

inductive Entry
  | set (maxpertx maxpersess : ℕ)
  | charge (amount : ℕ)
  deriving DecidableEq

def Event.entry : Event → Option (Str × Entry)
  | .budget n b => some (n, .set (amountval b.maxpertx) (amountval b.maxpersess))
  | .reserved _ n a => some (n, .charge (amountval a))
  | _ => none

def Event.feeentry : Event → Option (Str × Entry)
  | .feebudget n b => some (n, .set (amountval b.maxpertx) (amountval b.maxpersess))
  | .feereserved _ n a => some (n, .charge (amountval a))
  | _ => none

def entriesof (sel : Event → Option (Str × Entry)) (name : Str) : List Event → List Entry
  | [] => []
  | e :: es =>
    match sel e with
    | none => entriesof sel name es
    | some (n, x) => if n = name then x :: entriesof sel name es else entriesof sel name es

def entries : Str → List Event → List Entry := entriesof Event.entry

def feeentries : Str → List Event → List Entry := entriesof Event.feeentry

def charged : List Entry → ℕ
  | [] => 0
  | .set _ _ :: _ => 0
  | .charge c :: es => c + charged es

def limits : List Entry → Option (ℕ × ℕ)
  | [] => none
  | .set p s :: _ => some (p, s)
  | .charge _ :: es => limits es

def Obeys : List Entry → Prop
  | [] => True
  | .set _ _ :: es => Obeys es
  | .charge c :: es => (∀ p s, limits es = some (p, s) → p ≠ 0 → c ≤ p) ∧ Obeys es

structure Tracks {κ : Type} (b : Budget κ) (es : List Entry) : Prop where
  limits : limits es = some (amountval b.maxpertx, amountval b.maxpersess)
  exact : amountval b.spent = charged es
  capped : amountval b.maxpersess ≠ 0 → amountval b.spent ≤ amountval b.maxpersess

structure BookOK {κ : Type} (l : List (Str × Budget κ)) (es : Str → List Entry) : Prop where
  keyed : (l.map Prod.fst).Nodup
  tracks : ∀ name b, getbudget name l = some b → Tracks b (es name)
  unset : ∀ name, getbudget name l = none → limits (es name) = none
  obeys : ∀ name, Obeys (es name)

section BookOK
variable {κ : Type} {l : List (Str × Budget κ)} {es : Str → List Entry}

theorem BookOK.set (h : BookOK l es) (name : Str) (b : Budget κ) (hs : amountval b.spent = 0) :
    BookOK (setbudget name b l) fun m =>
      if name = m then .set (amountval b.maxpertx) (amountval b.maxpersess) :: es m else es m where
  keyed := keys_setbudget h.keyed name b
  tracks := by
    intro m c hc
    rw [getbudget_setbudget h.keyed] at hc
    split_ifs at hc with hm
    · subst hm
      obtain rfl := Option.some.inj hc
      rw [if_pos rfl]
      exact ⟨rfl, hs, fun _ => by omega⟩
    · rw [if_neg (Ne.symm hm)]
      exact h.tracks m c hc
  unset := by
    intro m hm
    rw [getbudget_setbudget h.keyed] at hm
    split_ifs at hm with hne
    rw [if_neg (Ne.symm hne)]
    exact h.unset m hm
  obeys := by
    intro m
    split_ifs
    · exact h.obeys m
    · exact h.obeys m

theorem BookOK.addspent (h : BookOK l es) {acct : Account} {amount : Bytes} {overflow : Str}
    {l' : List (Str × Budget κ)}
    (hcheck : ∀ b, getbudget acct.name l = some b → breach b amount = none)
    (hadd : addspent l (some acct) amount overflow = (l', none)) :
    BookOK l' fun m => if acct.name = m then .charge (amountval amount) :: es m else es m := by
  have hobeys : ∀ m, Obeys (if acct.name = m then .charge (amountval amount) :: es m else es m) := by
    intro m
    split_ifs with hm
    · subst hm
      refine ⟨fun p s hlim hp => ?_, h.obeys _⟩
      cases hb : getbudget acct.name l with
      | none =>
        rw [h.unset _ hb] at hlim
        cases hlim
      | some b =>
        have heq := (h.tracks _ b hb).limits
        rw [hlim, Option.some.injEq, Prod.mk.injEq] at heq
        have := (breach_none (hcheck b hb)).1
        omega
    · exact h.obeys m
  simp only [Wallet.addspent, Option.bind_some] at hadd
  cases hb : getbudget acct.name l with
  | none =>
    simp only [hb, Option.map_none, Prod.mk.injEq, and_true] at hadd
    subst hadd
    refine ⟨h.keyed, fun m c hc => ?_, fun m hm => ?_, hobeys⟩
    · have hne : acct.name ≠ m := by
        rintro rfl
        rw [hb] at hc
        cases hc
      rw [if_neg hne]
      exact h.tracks m c hc
    · split_ifs
      · exact h.unset m hm
      · exact h.unset m hm
  | some b =>
    simp only [hb, Option.map_some] at hadd
    cases ht : beadd b.spent amount with
    | none => simp [ht] at hadd
    | some total =>
      simp only [ht, Prod.mk.injEq, and_true] at hadd
      subst hadd
      have hval : amountval (some total) = amountval b.spent + amountval amount := beadd_eq_some ht
      refine ⟨by rw [keys_setspent]; exact h.keyed, fun m c hc => ?_, fun m hm => ?_, hobeys⟩
      · rw [getbudget_setspent] at hc
        split_ifs at hc with hm
        · subst hm
          rw [hb, Option.map_some, Option.some.injEq] at hc
          subst hc
          rw [if_pos rfl]
          have htr := h.tracks _ b hb
          refine ⟨htr.limits, ?_, fun hs => ?_⟩
          · have := htr.exact
            simp only [charged]
            omega
          · have hle := (breach_none (hcheck b hb)).2 hs
            rwa [← hval] at hle
        · rw [if_neg (Ne.symm hm)]
          exact h.tracks m c hc
      · rw [getbudget_setspent] at hm
        split_ifs at hm with hne
        · subst hne
          simp [hb] at hm
        · rw [if_neg (Ne.symm hne)]
          exact h.unset m hm

end BookOK

structure Books.OK (B : Books) : Prop where
  budgets : BookOK B.budgets fun name => entries name B.trace
  fees : BookOK B.feebudgets fun name => feeentries name B.trace

theorem Books.OK.setbudget {B : Books} (h : B.OK) (name : Str) (b : Budget Str)
    (hs : amountval b.spent = 0) : (B.setbudget name b).OK where
  budgets := h.budgets.set name b hs
  fees := h.fees

theorem Books.OK.setfeebudget {B : Books} (h : B.OK) (name : Str) (b : FeeBudget)
    (hs : amountval b.spent = 0) : (B.setfeebudget name b).OK where
  budgets := h.budgets
  fees := h.fees.set name b hs

theorem Books.OK.release {B : Books} (h : B.OK) (name : Str) (r : Release) :
    (B.release name r).OK := ⟨h.budgets, h.fees⟩

theorem addspent_error {κ : Type} {l l' : List (Str × Budget κ)} {acct : Option Account}
    {amount : Bytes} {overflow err : Str} (h : addspent l acct amount overflow = (l', some err)) :
    l' = l := by
  simp only [addspent] at h
  split at h
  · exact (Prod.mk.inj h).1.symm
  · split at h
    · exact (Prod.mk.inj h).1.symm
    · simp at h

theorem reserve_cases (l : List (Str × Budget Str)) (acct : Account) (amount : Bytes) :
    (∃ err, reserve l (some acct) amount = (l, some err)) ∨
    ∃ l', reserve l (some acct) amount = (l', none) ∧ amount ≠ none ∧
      (∀ b, getbudget acct.name l = some b → breach b amount = none) ∧
      addspent l (some acct) amount "session total would overflow uint256" = (l', none) := by
  simp only [reserve]
  cases hc : checkbudget l (some acct) amount with
  | some err => exact Or.inl ⟨err, rfl⟩
  | none =>
    cases ha : addspent l (some acct) amount "session total would overflow uint256" with
    | mk l' e =>
      cases e with
      | some err => exact Or.inl ⟨err, by rw [addspent_error ha]⟩
      | none =>
        refine Or.inr ⟨l', rfl, ?_, fun b hb => ?_, rfl⟩
        · rintro rfl
          simp [checkbudget] at hc
        · cases amount with
          | none => simp [checkbudget] at hc
          | some amt => simpa [checkbudget, hb] using hc

theorem reservefee_cases (l : List (Str × FeeBudget)) (acct : Account) (amount : Bytes) :
    (∃ err, reservefee l (some acct) amount = (l, some err)) ∨
    ∃ l', reservefee l (some acct) amount = (l', none) ∧ amount ≠ none ∧
      (∃ b, getbudget acct.name l = some b ∧ breach b amount = none) ∧
      addspent l (some acct) amount "fee session total would overflow uint256" = (l', none) := by
  simp only [reservefee]
  cases hc : checkfee l (some acct) amount with
  | some err => exact Or.inl ⟨err, rfl⟩
  | none =>
    cases ha : addspent l (some acct) amount "fee session total would overflow uint256" with
    | mk l' e =>
      cases e with
      | some err => exact Or.inl ⟨err, by rw [addspent_error ha]⟩
      | none =>
        refine Or.inr ⟨l', rfl, ?_, ?_, rfl⟩
        · rintro rfl
          simp [checkfee] at hc
        · cases amount with
          | none => simp [checkfee] at hc
          | some amt =>
            cases hb : getbudget acct.name l with
            | none => simp [checkfee, hb] at hc
            | some b => exact ⟨b, rfl, by simpa [checkfee, hb] using hc⟩

theorem Books.reserve_cases (B : Books) (who : Caller) (acct : Account) (amount : Bytes) :
    (∃ err, B.reserve who acct amount = (B, some err)) ∨
    ∃ l', B.reserve who acct amount =
        ({ B with budgets := l', trace := .reserved who acct.name amount :: B.trace }, none) ∧
      amount ≠ none ∧ (B.OK → ({ B with
        budgets := l', trace := .reserved who acct.name amount :: B.trace } : Books).OK) := by
  rcases Wallet.reserve_cases B.budgets acct amount with ⟨err, he⟩ | ⟨l', hr, hne, hb, ha⟩
  · exact Or.inl ⟨err, by simp [Books.reserve, he]⟩
  · exact Or.inr ⟨l', by simp [Books.reserve, hr], hne,
      fun h => ⟨h.budgets.addspent hb ha, h.fees⟩⟩

theorem Books.reservefee_cases (B : Books) (who : Caller) (acct : Account) (amount : Bytes) :
    (∃ err, B.reservefee who acct amount = (B, some err)) ∨
    ∃ l', B.reservefee who acct amount =
        ({ B with feebudgets := l', trace := .feereserved who acct.name amount :: B.trace }, none) ∧
      (B.OK → ({ B with
        feebudgets := l', trace := .feereserved who acct.name amount :: B.trace } : Books).OK) := by
  rcases Wallet.reservefee_cases B.feebudgets acct amount with
    ⟨err, he⟩ | ⟨l', hr, -, ⟨b, hb, hbr⟩, ha⟩
  · exact Or.inl ⟨err, by simp [Books.reservefee, he]⟩
  · refine Or.inr ⟨l', by simp [Books.reservefee, hr], fun h => ⟨h.budgets, h.fees.addspent ?_ ha⟩⟩
    intro c hc
    rw [hb] at hc
    rwa [← Option.some.inj hc]

def Event.mine : Event → Bool
  | .reserved .other _ _ => false
  | .feereserved .other _ _ => false
  | _ => true

def own (trace : List Event) : List Event := trace.filter Event.mine

/-- The server's own events pair every release with the reservation (for
tokens, the two reservations) of just that charge right before it, and leave
no reservation without its release. -/
inductive Settled : List Event → Prop
  | nil : Settled []
  | budget {l : List Event} (name : Str) (b : Budget Str) :
      Settled l → Settled (.budget name b :: l)
  | feebudget {l : List Event} (name : Str) (b : FeeBudget) :
      Settled l → Settled (.feebudget name b :: l)
  | feerefused {l : List Event} (name : Str) : Settled l → Settled (.feerefused name :: l)
  | released {l : List Event} {name : Str} {r : Release} {amount : Bytes} :
      Settled l → r.fee = none → r.cost = amountval amount →
      Settled (.released name r :: .reserved .self name amount :: l)
  | tokens {l : List Event} {name : Str} {r : Release} {amount fee : Bytes} :
      Settled l → r.fee = some (amountval fee) → r.cost = amountval amount →
      Settled (.released name r :: .feereserved .self name fee :: .reserved .self name amount :: l)

structure Books.Good (B : Books) : Prop where
  ok : B.OK
  settled : Settled (own B.trace)

theorem Books.call_spec (B : Books) (c : Call) :
    (B.OK → (B.call c).OK) ∧ own (B.call c).trace = own B.trace := by
  cases c with
  | reserve acct amount =>
    rcases B.reserve_cases .other acct amount with ⟨err, he⟩ | ⟨l', hr, -, hok⟩
    · simp [Books.call, he]
    · simp only [Books.call, hr]
      exact ⟨hok, rfl⟩
  | reservefee acct amount =>
    rcases B.reservefee_cases .other acct amount with ⟨err, he⟩ | ⟨l', hr, hok⟩
    · simp [Books.call, he]
    · simp only [Books.call, hr]
      exact ⟨hok, rfl⟩

theorem Books.calls_spec (B : Books) (cs : List Call) :
    (B.OK → (B.calls cs).OK) ∧ own (B.calls cs).trace = own B.trace := by
  induction cs generalizing B with
  | nil => exact ⟨id, rfl⟩
  | cons c cs ih =>
    obtain ⟨hok, hown⟩ := ih (B.call c)
    obtain ⟨hok', hown'⟩ := B.call_spec c
    exact ⟨fun h => hok (hok' h), hown.trans hown'⟩

theorem Books.Good.calls {B : Books} (h : B.Good) (cs : List Call) : (B.calls cs).Good :=
  ⟨(B.calls_spec cs).1 h.ok, by rw [(B.calls_spec cs).2]; exact h.settled⟩

end Infernode.Wallet
