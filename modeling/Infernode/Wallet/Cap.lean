import Infernode.Wallet.Server

/-!
# The budget cap

In every run the books stay exact and within their limits, and every release
is paid for by the reservations right before it, as long as no other caller
takes the fee budget that an ERC-20 execution has checked and not yet
reserved.
-/

namespace Infernode.Wallet
open Infernode.Limbo Infernode.Lib

/-- What the budget cap says of one state of the books: what is spent is what
was reserved since the last setting and is within the session limit, no
release costs more than the limit per transaction, and each release has its
one reservation, none being left without its release. -/
structure Capped (B : Books) : Prop where
  spent : ∀ name b, getbudget name B.budgets = some b →
    amountval b.spent = charged (entries name B.trace) ∧
      (amountval b.maxpersess ≠ 0 → amountval b.spent ≤ amountval b.maxpersess)
  feespent : ∀ name b, getbudget name B.feebudgets = some b →
    amountval b.spent = charged (feeentries name B.trace) ∧
      (amountval b.maxpersess ≠ 0 → amountval b.spent ≤ amountval b.maxpersess)
  pertx : ∀ post name r pre, B.trace = post ++ .released name r :: pre →
    ∀ p s, limits (entries name pre) = some (p, s) → p ≠ 0 → r.cost ≤ p
  feepertx : ∀ post name r pre f, B.trace = post ++ .released name r :: pre → r.fee = some f →
    ∀ p s, limits (feeentries name pre) = some (p, s) → p ≠ 0 → f ≤ p
  paired : Settled (own B.trace)

def Event.sets : Event → Bool
  | .budget _ _ => true
  | .feebudget _ _ => true
  | _ => false

structure Selects (sel : Event → Option (Str × Entry)) : Prop where
  charges : ∀ e n x, e.sets = false → sel e = some (n, x) → ∃ c, x = .charge c

theorem entry_selects : Selects Event.entry where
  charges e n x he hx := by
    cases e with
    | reserved w m a => exact ⟨_, (Prod.mk.inj (Option.some.inj hx)).2.symm⟩
    | budget m b => simp [Event.sets] at he
    | _ => simp [Event.entry] at hx

theorem feeentry_selects : Selects Event.feeentry where
  charges e n x he hx := by
    cases e with
    | feereserved w m a => exact ⟨_, (Prod.mk.inj (Option.some.inj hx)).2.symm⟩
    | feebudget m b => simp [Event.sets] at he
    | _ => simp [Event.feeentry] at hx

theorem Selects.limits_append {sel : Event → Option (Str × Entry)} (hsel : Selects sel) (name : Str)
    {mid : List Event} (h : ∀ e ∈ mid, e.sets = false) (pre : List Event) :
    limits (entriesof sel name (mid ++ pre)) = limits (entriesof sel name pre) := by
  induction mid with
  | nil => rfl
  | cons e mid ih =>
    have hmid := ih fun x hx => h x (by simp [hx])
    simp only [List.cons_append, entriesof]
    cases hx : sel e with
    | none => exact hmid
    | some nx =>
      obtain ⟨n, x⟩ := nx
      obtain ⟨c, rfl⟩ := hsel.charges e n x (h e (by simp)) hx
      simp only []
      split_ifs
      · exact hmid
      · exact hmid

theorem Obeys.charge {sel : Event → Option (Str × Entry)} {name : Str} {e : Event} {c : ℕ}
    (he : sel e = some (name, .charge c)) {post pre : List Event}
    (h : Obeys (entriesof sel name (post ++ e :: pre))) :
    ∀ p s, limits (entriesof sel name pre) = some (p, s) → p ≠ 0 → c ≤ p := by
  induction post with
  | nil =>
    simp only [List.nil_append, entriesof, he, if_true] at h
    exact h.1
  | cons x post ih =>
    simp only [List.cons_append, entriesof] at h
    cases hx : sel x with
    | none => exact ih (by simpa [hx] using h)
    | some ny =>
      obtain ⟨n, y⟩ := ny
      simp only [hx] at h
      split_ifs at h
      · cases y with
        | set p s => exact ih h
        | charge d => exact ih h.2
      · exact ih h

theorem sets_of_own {mid : List Event} (h : own mid = []) : ∀ e ∈ mid, e.sets = false := by
  intro e he
  have hmine : ¬e.mine = true := List.filter_eq_nil_iff.mp h e he
  cases e with
  | budget n b | feebudget n b => simp [Event.mine] at hmine
  | _ => rfl

theorem own_eq_cons {trace l : List Event} {e : Event} (h : own trace = e :: l) :
    ∃ mid pre, trace = mid ++ e :: pre ∧ own mid = [] ∧ own pre = l := by
  induction trace with
  | nil => simp [own] at h
  | cons x trace ih =>
    by_cases hx : x.mine = true
    · rw [own, List.filter_cons_of_pos hx, List.cons.injEq] at h
      exact ⟨[], trace, by simp [h.1], rfl, h.2⟩
    · rw [own, List.filter_cons_of_neg hx] at h
      obtain ⟨mid, pre, rfl, hmid, hpre⟩ := ih h
      exact ⟨x :: mid, pre, rfl, by rw [own, List.filter_cons_of_neg hx]; exact hmid, hpre⟩

theorem Settled.before_release {l : List Event} (h : Settled l) :
    ∀ {post : List Event} {name : Str} {r : Release} {pre : List Event},
      l = post ++ .released name r :: pre →
      ∃ amount l', r.cost = amountval amount ∧
        (r.fee = none ∧ pre = .reserved .self name amount :: l' ∨
          ∃ fee, r.fee = some (amountval fee) ∧
            pre = .feereserved .self name fee :: .reserved .self name amount :: l') := by
  induction h with
  | nil => intro post name r pre hl; simp at hl
  | budget n b _ ih | feebudget n b _ ih | feerefused n _ ih =>
    intro post name r pre hl
    cases post with
    | nil => simp at hl
    | cons x post => exact ih (List.cons.inj hl).2
  | @released l n r' amount _ hfee hcost ih =>
    intro post name r pre hl
    match post with
    | [] =>
      obtain ⟨⟨rfl, rfl⟩, rfl⟩ : (n = name ∧ r' = r) ∧ _ = pre := by simpa using hl
      exact ⟨amount, l, hcost, Or.inl ⟨hfee, rfl⟩⟩
    | [x] => simp at hl
    | x :: y :: post => exact ih (List.cons.inj (List.cons.inj hl).2).2
  | @tokens l n r' amount fee _ hfee hcost ih =>
    intro post name r pre hl
    match post with
    | [] =>
      obtain ⟨⟨rfl, rfl⟩, rfl⟩ : (n = name ∧ r' = r) ∧ _ = pre := by simpa using hl
      exact ⟨amount, l, hcost, Or.inr ⟨fee, hfee, rfl⟩⟩
    | [x] => simp at hl
    | [x, y] => simp at hl
    | x :: y :: z :: post => exact ih (List.cons.inj (List.cons.inj (List.cons.inj hl).2).2).2

theorem Books.Good.before_release {B : Books} (h : B.Good) {post : List Event} {name : Str}
    {r : Release} {pre : List Event} (htrace : B.trace = post ++ .released name r :: pre) :
    (∃ amount mid pre', r.cost = amountval amount ∧ pre = mid ++ .reserved .self name amount :: pre' ∧
      ∀ e ∈ mid, e.sets = false) ∧
    ∀ f, r.fee = some f → ∃ fee mid pre', f = amountval fee ∧
      pre = mid ++ .feereserved .self name fee :: pre' ∧ ∀ e ∈ mid, e.sets = false := by
  have hown : own B.trace = own post ++ .released name r :: own pre := by
    rw [htrace, own, List.filter_append]
    rfl
  obtain ⟨amount, l', hcost, ⟨hfee, hpre⟩ | ⟨fee, hfee, hpre⟩⟩ := h.settled.before_release hown
  · obtain ⟨mid, pre', rfl, hmid, -⟩ := own_eq_cons hpre
    exact ⟨⟨amount, mid, pre', hcost, rfl, sets_of_own hmid⟩, fun f hf => by simp [hfee] at hf⟩
  · obtain ⟨mid, pre', rfl, hmid, hpre'⟩ := own_eq_cons hpre
    obtain ⟨mid', pre'', rfl, hmid', -⟩ := own_eq_cons hpre'
    refine ⟨⟨amount, mid ++ .feereserved .self name fee :: mid', pre'', hcost, by simp, ?_⟩,
      fun f hf => ⟨fee, mid, _, by simpa [hfee, eq_comm] using hf, rfl, sets_of_own hmid⟩⟩
    intro e he
    rcases List.mem_append.mp he with he | he
    · exact sets_of_own hmid e he
    · rcases List.mem_cons.mp he with rfl | he
      · rfl
      · exact sets_of_own hmid' e he

theorem limit_at {sel : Event → Option (Str × Entry)} (hsel : Selects sel) {name : Str} {e : Event}
    {c : ℕ} (he : sel e = some (name, .charge c)) {trace post mid pre' : List Event}
    {x : Event} (htrace : trace = post ++ x :: (mid ++ e :: pre'))
    (hobeys : Obeys (entriesof sel name trace)) (hmid : ∀ e ∈ mid, e.sets = false) {p s : ℕ}
    (hlim : limits (entriesof sel name (mid ++ e :: pre')) = some (p, s)) (hp : p ≠ 0) : c ≤ p := by
  have hskip : limits (entriesof sel name (e :: pre')) = limits (entriesof sel name pre') := by
    simp [entriesof, he, limits]
  rw [hsel.limits_append name hmid, hskip] at hlim
  rw [htrace, show post ++ x :: (mid ++ e :: pre') = (post ++ x :: mid) ++ e :: pre' by simp]
    at hobeys
  exact hobeys.charge he p s hlim hp

theorem Books.Good.capped {B : Books} (h : B.Good) : Capped B where
  spent name b hb := ⟨(h.ok.budgets.tracks name b hb).exact, (h.ok.budgets.tracks name b hb).capped⟩
  feespent name b hb := ⟨(h.ok.fees.tracks name b hb).exact, (h.ok.fees.tracks name b hb).capped⟩
  pertx post name r pre htrace p s hlim hp := by
    obtain ⟨amount, mid, pre', hcost, rfl, hmid⟩ := (h.before_release htrace).1
    rw [hcost]
    exact limit_at entry_selects rfl htrace (h.ok.budgets.obeys name) hmid hlim hp
  feepertx post name r pre f htrace hf p s hlim hp := by
    obtain ⟨fee, mid, pre', rfl, rfl, hmid⟩ := (h.before_release htrace).2 f hf
    exact limit_at feeentry_selects rfl htrace (h.ok.fees.obeys name) hmid hlim hp
  paired := h.settled

@[simp] theorem setstates_books (s : Server) (f : File) (l : List FidResult) :
    (setstates s f l).books = s.books := by
  cases f <;> rfl

@[simp] theorem setfidresult_books (s : Server) (f : File) (fid : ℕ) (r : Str) :
    (setfidresult s f fid r).books = s.books := by
  simp only [setfidresult]
  split <;> simp

@[simp] theorem fillpending_books (s : Server) (g : PendingPay → PendingPay) :
    (fillpending s g).books = s.books := rfl

@[simp] theorem propose_books (s : Server) (f : File) (fid : ℕ) (id : ℤ) :
    (propose s f fid id).books = s.books := by
  simp [propose]

@[simp] theorem postevent_books (time : ℕ → ℤ) (s : Server) (msg : Str) :
    (postevent time s msg).books = s.books := rfl

theorem newpending_books {time : ℕ → ℤ} {s s' : Server} {kind : Kind}
    {acct amount recipient token : Str} {r : Except Str ℤ}
    (h : newpending time s kind acct amount recipient token = (s', r)) : s'.books = s.books := by
  have hfst : s' = (newpending time s kind acct amount recipient token).1 := by rw [h]
  rw [hfst, newpending]
  simp only []
  split_ifs <;> rfl

theorem writepay_books (time : ℕ → ℤ) (s : Server) (fid aid : ℕ) (usdc : Bool)
    (amount recipient : Str) :
    (writepay time s fid aid usdc amount recipient).1.books = s.books := by
  simp only [writepay]
  cases findacctbyid s aid with
  | none => rfl
  | some acct =>
    simp only []
    split_ifs
    · rfl
    · split
      · rfl
      · split
        · rename_i hn
          exact newpending_books hn
        · rename_i hn
          rw [propose_books, fillpending_books]
          exact newpending_books hn

theorem writeauthorize_books (time : ℕ → ℤ) (s : Server) (fid aid : ℕ) (areq : AuthReq) :
    (writeauthorize time s fid aid areq).1.books = s.books := by
  simp only [writeauthorize]
  cases findacctbyid s aid with
  | none => rfl
  | some acct =>
    simp only []
    split
    · rfl
    · split
      · rename_i hn
        exact newpending_books hn
      · rename_i hn
        rw [propose_books, fillpending_books]
        exact newpending_books hn

theorem readresult_books (time : ℕ → ℤ) (s : Server) (f : File) (m : Tread) :
    (readresult time s f m).books = s.books := by
  simp only [readresult]
  cases getfidresult (states s f) m.fid with
  | none => rfl
  | some fr =>
    simp only []
    split_ifs <;> simp

theorem readfile_books (time : ℕ → ℤ) (s : Server) (f : File) (aid : ℕ) (m : Tread) :
    (readfile time s f aid m).books = s.books := by
  simp only [readfile]
  split
  · rfl
  · rw [readresult_books]

theorem readevent_books (s : Server) (m : Tread) : (readevent s m).books = s.books := by
  simp only [readevent]
  split
  · rfl
  · split <;> rfl

theorem expire_books (time : ℕ → ℤ) (s : Server) (id : ℤ) :
    (expire time s id).books = s.books := by
  simp only [expire]
  split
  · rfl
  · split_ifs <;> simp

theorem denypending_books (time : ℕ → ℤ) (s : Server) (id : ℤ) :
    (denypending time s id).1.books = s.books := by
  simp only [denypending]
  split <;> simp

theorem setnetwork_books (s : Server) (name : Str) : (setnetwork s name).books = s.books := by
  simp only [setnetwork]
  split <;> rfl

theorem addaccount_books (s : Server) (acct : Account) :
    (addaccount s acct).1.books = s.books := by
  simp only [addaccount]
  split_ifs <;> rfl

theorem admission_books (time : ℕ → ℤ) (s : Server) (id : ℤ) :
    (admission time s id).1.books = s.books := by
  simp only [admission]
  split
  · rfl
  · split_ifs
    · rfl
    · rfl
    · split <;> rfl
    · split <;> rfl

/-- While an approved ERC-20 payment executes, the others leave its fee budget
the room that its fee reservation needs. -/
def FeeOK (time : ℕ → ℤ) (s : Server) : Request → Prop
  | .approve id env => ∀ s' acct pp, admission time s id = (s', .ok (acct, pp)) →
      pp.kind = .pay → pp.token = lit "usdc" →
      ∀ B tx raw, erc20fee env (getnetwork s') acct pp.amount pp.recipient s'.books =
        .ok (B, tx, raw) → FeeRoom B acct tx
  | _ => True

theorem execute_good {B : Books} (h : B.Good) (env : Env) (net : NetworkConfig) (acct : Account)
    (pp : PendingPay)
    (hfee : pp.kind = .pay → pp.token = lit "usdc" → ∀ B' tx raw,
      erc20fee env net acct pp.amount pp.recipient B = .ok (B', tx, raw) → FeeRoom B' acct tx) :
    (execute env net acct pp B).1.Good := by
  simp only [execute]
  cases hk : pp.kind with
  | x402 => exact h.executex402 env net acct _
  | pay =>
    simp only []
    split_ifs with ht
    · exact h.executeerc20 env net acct pp.amount pp.recipient (hfee hk ht)
    · exact h.executepayment env net acct pp.amount pp.recipient

theorem approvepending_good {time : ℕ → ℤ} {s : Server} (h : s.books.Good) (id : ℤ) (env : Env)
    (hfee : FeeOK time s (.approve id env)) :
    (approvepending time env s id).1.books.Good := by
  simp only [approvepending, approvepending0, postevent_books]
  have hbooks := admission_books time s id
  cases ha : admission time s id with
  | mk s' r =>
    rw [ha] at hbooks
    cases r with
    | error err =>
      exact hbooks ▸ h
    | ok p =>
      obtain ⟨acct, pp⟩ := p
      have hgood : s'.books.Good := hbooks ▸ h
      have hexec := execute_good hgood env (getnetwork s') acct pp (hfee s' acct pp ha)
      simp only []
      split
      · exact hexec
      · exact hexec

theorem step_good {time : ℕ → ℤ} {s : Server} (h : s.books.Good) (r : Request)
    (hfee : FeeOK time s r) : (step time s r).books.Good := by
  cases r with
  | account acct => simpa only [step, serve, addaccount_books] using h
  | network name => simpa only [step, serve, setnetwork_books] using h
  | budget aid maxpertx maxpersess currency =>
    simp only [step, serve, writebudget]
    split
    · exact h
    · split_ifs
      · exact h
      · exact ⟨h.ok.setbudget _ _ rfl, Settled.budget _ _ h.settled⟩
  | gasbudget aid maxpertx maxpersess =>
    simp only [step, serve, writegasbudget]
    split
    · exact h
    · split_ifs
      · exact h
      · exact ⟨h.ok.setfeebudget _ _ rfl, Settled.feebudget _ _ h.settled⟩
  | pay fid aid usdc amount recipient => simpa only [step, serve, writepay_books] using h
  | authorize fid aid areq => simpa only [step, serve, writeauthorize_books] using h
  | approve id env =>
    simp only [step, serve]
    split_ifs
    · exact h
    · exact approvepending_good h id env hfee
  | deny id =>
    simp only [step, serve]
    split_ifs
    · exact h
    · simpa only [denypending_books] using h
  | read f aid m => simpa only [step, serve, readfile_books] using h
  | readpending | openevent fid | flush oldtag | clunk fid => exact h
  | readevent m => simpa only [step, serve, readevent_books] using h
  | expire id => simpa only [step, serve, expire_books] using h
  | call c =>
    exact ⟨(s.books.call_spec c).1 h.ok, by
      simp only [step, serve, (s.books.call_spec c).2]
      exact h.settled⟩

instance (B : Books) (acct : Account) (tx : EthTx) : Decidable (FeeRoom B acct tx) :=
  inferInstanceAs (Decidable (∀ b ∈ getbudget acct.name B.feebudgets,
    amountval b.spent + tx.gasprice * tx.gaslimit < 2 ^ 256 ∧
      (amountval b.maxpersess ≠ 0 →
        amountval b.spent + tx.gasprice * tx.gaslimit ≤ amountval b.maxpersess)))

theorem init_good (accts : List Account) : (Server.init accts).books.Good where
  ok := ⟨⟨List.nodup_nil, fun _ _ h => by simp [Server.init, getbudget] at h, fun _ _ => rfl,
      fun _ => trivial⟩,
    ⟨List.nodup_nil, fun _ _ h => by simp [Server.init, getbudget] at h, fun _ _ => rfl,
      fun _ => trivial⟩⟩
  settled := Settled.nil

theorem run_capped (time : ℕ → ℤ) (accts : List Account) (rs : List Request)
    (hfee : Always (step time) (FeeOK time) (Server.init accts) rs) :
    Capped (run time (Server.init accts) rs).books :=
  (hfee.invariant (fun s : Server => s.books.Good) (fun _ r h hf => step_good h r hf)
    (init_good accts)).capped

def mainacct : Account := ⟨"main", .eth, "ethereum", "0x00000000000000000000000000000000000000aa"⟩

/-- An outside that signs and sends everything, with the others reserving
`fees` between the reservation of the tokens and that of the fee. -/
def agreeable (fees : List Call) : Env where
  others n := if n = 4 then fees else []
  chainid := .ok 11155111
  nonce := .ok 0
  gasprice := .ok "1000000000"
  password := some (List.replicate 64 '1')
  signtx _ _ := some [1]
  sendrawtx _ := .ok "0xhash"
  random := some (List.replicate 32 7)
  now := 5000
  authdigest _ _ _ _ _ := .ok (List.replicate 32 9)
  signhash _ _ := .ok (List.replicate 65 3)
  initstripe := none
  createpayment _ _ _ := .ok "pi_1"

def erc20run (fees : List Call) : List Request :=
  [.budget 0 "0" "100" "USDC", .gasbudget 0 "0" "200000000000000",
    .pay 1 0 true "5" "0x00000000000000000000000000000000000000bb", .approve 1 (agreeable fees)]

def erc20books (fees : List Call) : Books :=
  (run (fun _ => 1000) (Server.init [mainacct]) (erc20run fees)).books

theorem erc20run_feeok :
    Always (step fun _ => 1000) (FeeOK fun _ => 1000) (Server.init [mainacct]) (erc20run []) := by
  refine ⟨trivial, trivial, trivial, ?_, trivial⟩
  intro s' acct pp hadm hk ht B tx raw hfee
  obtain rfl : s' = (admission (fun _ => 1000) (run (fun _ => 1000) (Server.init [mainacct])
    ((erc20run []).take 3)) 1).1 := (congrArg Prod.fst hadm).symm
  have hpp := congrArg (fun r => r.2.toOption.map fun p => (p.1, p.2.amount, p.2.recipient)) hadm
  obtain ⟨rfl, hamount, hrecipient⟩ : mainacct = acct ∧ lit "5" = pp.amount ∧
      lit "0x00000000000000000000000000000000000000bb" = pp.recipient := by
    have hval : (admission (fun _ => 1000) (run (fun _ => 1000) (Server.init [mainacct])
        ((erc20run []).take 3)) 1).2.toOption.map (fun p => (p.1, p.2.amount, p.2.recipient)) =
        some (mainacct, lit "5", lit "0x00000000000000000000000000000000000000bb") := by
      decide
    simpa only [Except.toOption, Option.map_some, Option.some.injEq, Prod.mk.injEq] using
      hval.symm.trans hpp
  rw [← hamount, ← hrecipient] at hfee
  have hroom : ((erc20fee (agreeable []) (getnetwork (admission (fun _ => 1000)
      (run (fun _ => 1000) (Server.init [mainacct]) ((erc20run []).take 3)) 1).1) mainacct "5"
      "0x00000000000000000000000000000000000000bb" (admission (fun _ => 1000)
      (run (fun _ => 1000) (Server.init [mainacct]) ((erc20run []).take 3)) 1).1.books).toOption.all
      fun r => decide (FeeRoom r.1 mainacct r.2.1)) = true := by
    decide
  rw [hfee] at hroom
  exact of_decide_eq_true hroom

theorem erc20run_capped : Capped (erc20books []) :=
  run_capped (fun _ => 1000) [mainacct] (erc20run []) erc20run_feeok

theorem erc20books_taken :
    own (erc20books [.reservefee mainacct (dectobe (lit "200000000000000"))]).trace =
      [.feerefused "main", .reserved .self "main" (some [5]),
        .feebudget "main" ⟨some [], dectobe (lit "200000000000000"), none, ()⟩,
        .budget "main" ⟨some [], some [100], none, "USDC"⟩] := by
  decide

theorem tokens_spent_unpaid :
    ¬∀ (time : ℕ → ℤ) (accts : List Account) (rs : List Request),
      Capped (run time (Server.init accts) rs).books := by
  intro hall
  have hpaired := (hall (fun _ => 1000) [mainacct]
    (erc20run [.reservefee mainacct (dectobe (lit "200000000000000"))])).paired
  rw [← erc20books, erc20books_taken] at hpaired
  cases hpaired with
  | feerefused _ h => cases h

end Infernode.Wallet
