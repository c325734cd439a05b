import Infernode.Limbo.Utf
import Infernode.Wallet.Server

/-!
# Transfers with authorization

What the holder of a key agrees to under EIP-3009, and the EIP-712 digest that stands for it.
-/

namespace Infernode.Wallet
open Infernode.Limbo Infernode.Lib.BigEndian

structure Hash where
  hash : List UInt8 → List UInt8
  length : ∀ b, (hash b).length = 32

abbrev Address := { b : List UInt8 // b.length = 20 }

structure Transfer where
  name : Str
  version : Str
  chainid : Fin (2 ^ 256)
  asset : Address
  payer : Address
  payee : Address
  amount : Fin (2 ^ 256)
  validafter : Fin (2 ^ 256)
  validbefore : Fin (2 ^ 256)
  nonce : { b : List UInt8 // b.length = 32 }

def word (n : ℕ) : List UInt8 :=
  List.replicate (32 - (strip (tobytes n)).length) 0 ++ strip (tobytes n)

def addressword (a : Address) : List UInt8 := List.replicate 12 0 ++ a.1

def domaintype : List UInt8 := bytes (lit
  "EIP712Domain(string name,string version,uint256 chainId,address verifyingContract)")

def transfertype : List UInt8 := bytes
  (lit "TransferWithAuthorization(address from,address to,uint256 value," ++
    lit "uint256 validAfter,uint256 validBefore,bytes32 nonce)")

section
variable (K : Hash) (t : Transfer)

def Transfer.domain : List UInt8 :=
  K.hash domaintype ++ K.hash (bytes t.name) ++ K.hash (bytes t.version) ++ word t.chainid ++
    addressword t.asset

def Transfer.struct : List UInt8 :=
  K.hash transfertype ++ addressword t.payer ++ addressword t.payee ++ word t.amount ++
    word t.validafter ++ word t.validbefore ++ t.nonce.1

def Transfer.message : List UInt8 := 0x19 :: 0x01 :: (K.hash (t.domain K) ++ K.hash (t.struct K))

def Transfer.digest : List UInt8 := K.hash (t.message K)

def Transfer.hashed : Set (List UInt8) :=
  {b | b = bytes t.name ∨ b = bytes t.version ∨ b = t.domain K ∨ b = t.struct K ∨ b = t.message K}

end

theorem strip_length {n : ℕ} (h : n < 2 ^ 256) : (strip (tobytes n)).length ≤ 32 := by
  rw [(strip_stripped _).length_le_iff, value_strip, value_tobytes]
  exact h.trans_eq (by norm_num)

theorem word_length {n : ℕ} (h : n < 2 ^ 256) : (word n).length = 32 := by
  have hlen := strip_length h
  simp only [word, List.length_append, List.length_replicate]
  omega

theorem value_word (n : ℕ) : value (word n) = n := by
  rw [word, value_zeros, value_strip, value_tobytes]

theorem word_injective : Function.Injective word :=
  Function.LeftInverse.injective value_word

theorem addressword_length (a : Address) : (addressword a).length = 32 := by
  simp [addressword, a.2]

theorem addressword_injective : Function.Injective addressword := by
  intro a b h
  exact Subtype.ext (List.append_cancel_left h)

theorem digest_injective {K : Hash} {t t' : Transfer}
    (hinj : Set.InjOn K.hash (t.hashed K ∪ t'.hashed K)) (h : t.digest K = t'.digest K) :
    t = t' := by
  have heq : ∀ {b b' : List UInt8}, b ∈ t.hashed K → b' ∈ t'.hashed K → K.hash b = K.hash b' →
      b = b' := fun hb hb' he => hinj (.inl hb) (.inr hb') he
  have hword : ∀ {m n : Fin (2 ^ 256)}, (word m).length = (word n).length := fun {m n} => by
    rw [word_length m.2, word_length n.2]
  have haddr : ∀ {a b : Address}, (addressword a).length = (addressword b).length :=
    fun {a b} => by rw [addressword_length, addressword_length]
  have hlen : ∀ b b', (K.hash b).length = (K.hash b').length := fun b b' => by
    rw [K.length, K.length]
  have hmsg : t.message K = t'.message K := heq (by simp [Transfer.hashed])
    (by simp [Transfer.hashed]) h
  obtain ⟨hdomain, hstruct⟩ := List.append_inj (List.cons.inj (List.cons.inj hmsg).2).2 (hlen _ _)
  replace hdomain := heq (by simp [Transfer.hashed]) (by simp [Transfer.hashed]) hdomain
  replace hstruct := heq (by simp [Transfer.hashed]) (by simp [Transfer.hashed]) hstruct
  obtain ⟨hdomain, hasset⟩ := List.append_inj' hdomain haddr
  obtain ⟨hdomain, hchain⟩ := List.append_inj' hdomain hword
  obtain ⟨hdomain, hversion⟩ := List.append_inj' hdomain (hlen _ _)
  obtain ⟨-, hname⟩ := List.append_inj' hdomain (hlen _ _)
  obtain ⟨hstruct, hnonce⟩ := List.append_inj' hstruct (t.nonce.2.trans t'.nonce.2.symm)
  obtain ⟨hstruct, hbefore⟩ := List.append_inj' hstruct hword
  obtain ⟨hstruct, hafter⟩ := List.append_inj' hstruct hword
  obtain ⟨hstruct, hamount⟩ := List.append_inj' hstruct hword
  obtain ⟨hstruct, hpayee⟩ := List.append_inj' hstruct haddr
  obtain ⟨-, hpayer⟩ := List.append_inj' hstruct haddr
  have hnames : t.name = t'.name :=
    bytes_injective (heq (by simp [Transfer.hashed]) (by simp [Transfer.hashed]) hname)
  have hversions : t.version = t'.version :=
    bytes_injective (heq (by simp [Transfer.hashed]) (by simp [Transfer.hashed]) hversion)
  cases t
  cases t'
  simp only [Transfer.mk.injEq]
  exact ⟨hnames, hversions, Fin.ext (word_injective hchain), addressword_injective hasset,
    addressword_injective hpayer, addressword_injective hpayee, Fin.ext (word_injective hamount),
    Fin.ext (word_injective hafter), Fin.ext (word_injective hbefore), Subtype.ext hnonce⟩

/-!
## x402 requests

An option of a 402 response becomes the lines that `authorize` of `x402.b` writes, `wallet9p.b`
parses them, and `authdigest` makes the digest that is signed.
-/

structure PaymentReq where
  scheme : Str
  network : Str
  amount : Str
  asset : Str
  payto : Str
  timeout : ℤ
  name : Str
  version : Str

def noctl (s : Str) : Bool := s.all fun c => ' ' ≤ c && c ≤ '~'

def validnetwork (s : Str) : Bool :=
  8 ≤ s.length && s.length ≤ 32 && s.take 7 == lit "eip155:" && (s.drop 7).all isdigit

def validtoken (s : Str) : Bool := s ≠ [] && s.length ≤ 64 && noctl s

def validurlfield (s : Str) : Bool :=
  s ≠ [] && s.length ≤ 1024 && noctl s && s.all (· ≠ ' ')

def clean (s : Str) : Str := (s.take 64).map fun c => if c < ' ' || '~' < c then '?' else c

def validacct (s : Str) : Bool :=
  s ∉ [[], ['.'], ['.', '.']] && s.length ≤ 64 && s.all fun c =>
    ('a' ≤ c && c ≤ 'z') || ('A' ≤ c && c ≤ 'Z') || ('0' ≤ c && c ≤ '9') || c ∈ ['-', '_', '.']

def fieldline (f : Str × Str) : Str := f.1 ++ ' ' :: f.2 ++ ['\n']

def fields (req : PaymentReq) (url : Str) : List (Str × Str) :=
  [(lit "scheme", req.scheme), (lit "network", req.network), (lit "asset", req.asset),
    (lit "payto", req.payto), (lit "amount", req.amount), (lit "timeout", intstr req.timeout),
    (lit "name", req.name), (lit "version", req.version)] ++
  if url = [] then [] else [(lit "resource", url)]

def requesttext (req : PaymentReq) (url acctname : Str) : Except Str Str := do
  reject (!validacct acctname) "unsafe wallet account name"
  reject (req.scheme ≠ lit "exact") ("unsupported payment scheme: " ++ clean req.scheme)
  reject (!validnetwork req.network) ("malformed network in 402 response: " ++ clean req.network)
  reject (strtoaddr req.asset = none)
    ("malformed asset address in 402 response: " ++ clean req.asset)
  reject (strtoaddr req.payto = none)
    ("malformed payTo address in 402 response: " ++ clean req.payto)
  reject (dectobe req.amount = none) ("malformed amount in 402 response: " ++ clean req.amount)
  reject (req.timeout < 0) "malformed timeout in 402 response"
  reject (!validtoken req.name || !validtoken req.version)
    "malformed token name/version in 402 response"
  reject (url ≠ [] ∧ !validurlfield url) "malformed resource url in 402 response"
  return (fields req url).flatMap fieldline

def setfield (req : AuthReq) (key val : Str) : Except Str AuthReq :=
  if key = lit "scheme" then
    if val ≠ lit "exact" then .error "unsupported scheme" else .ok req
  else if key = lit "network" then .ok { req with network := val }
  else if key = lit "asset" then .ok { req with asset := val }
  else if key = lit "payto" then .ok { req with payto := val }
  else if key = lit "amount" then .ok { req with amount := val }
  else if key = lit "timeout" then
    (need (strint val) "bad timeout").map fun t => { req with timeout := t }
  else if key = lit "name" then .ok { req with tokenname := val }
  else if key = lit "version" then .ok { req with tokenver := val }
  else if key = lit "resource" then
    .ok (if val.length ≤ 1024 then { req with resource := val } else req)
  else .error "unknown field"

def parselines (req : AuthReq) (seen : List Str) : List Str → Except Str AuthReq
  | [] => .ok req
  | line :: lines =>
    let key := line.takeWhile (· ≠ ' ')
    match line.dropWhile (· ≠ ' ') with
    | [] => parselines req seen lines
    | _ :: val =>
      if inlist key seen then .error ("duplicate field: " ++ key)
      else
        match setfield req key val with
        | .error err => .error err
        | .ok req => parselines req (key :: seen) lines

def clamp (t : ℕ) : ℕ := if t < 30 then 30 else if 3600 < t then 3600 else t

def parseauthreq (data : Str) : Except Str AuthReq := do
  let req ← parselines ⟨[], [], [], [], 0, [], [], []⟩ [] (tokenize data (lit "\n\r"))
  reject (req.network = [] ∨ req.asset = [] ∨ req.payto = [] ∨ req.amount = [])
    "missing required field (network/asset/payto/amount)"
  return { req with timeout := clamp req.timeout }

def pad32 (b : Bytes) : List UInt8 :=
  b.elim (List.replicate 32 0) fun b => List.replicate (32 - b.length) 0 ++ b.take 32

def pad32addr (addr : Bytes) : List UInt8 :=
  match addr with
  | some a => if a.length = 20 then List.replicate 12 0 ++ a else List.replicate 32 0
  | none => List.replicate 32 0

def bigtobytes (v : ℕ) : List UInt8 := tobytes v

section
variable (K : Hash)

def eip712domainhash (name version : Str) (chainid : ℕ) (contract : Str) : List UInt8 :=
  K.hash (K.hash domaintype ++ K.hash (bytes name) ++ K.hash (bytes version) ++
    pad32 (some (bigtobytes chainid)) ++ pad32addr (strtoaddr contract))

def eip712structhash (sender recipient value validafter validbefore nonce : Str) : List UInt8 :=
  let noncebytes := ((hexdecode nonce).filter (·.length = 32)).getD (List.replicate 32 0)
  K.hash (K.hash transfertype ++ pad32addr (strtoaddr sender) ++ pad32addr (strtoaddr recipient) ++
    pad32 (dectobe value) ++ pad32 (dectobe validafter) ++ pad32 (dectobe validbefore) ++
    noncebytes)

def eip712hash (domainsep structhash : List UInt8) : Option (List UInt8) :=
  if domainsep.length ≠ 32 ∨ structhash.length ≠ 32 then none
  else some (K.hash (0x19 :: 0x01 :: (domainsep ++ structhash)))

def authdigest (network asset payto sender amount : Str) (validafter validbefore : ℤ)
    (nonce : List UInt8) (tokenname tokenversion : Str) : Except Str (List UInt8) := do
  let chainid := networktochainid network
  reject (chainid = 0) ("unknown network: " ++ network)
  reject (strtoaddr asset = none) "invalid asset address"
  reject (strtoaddr payto = none) "invalid payto address"
  reject (strtoaddr sender = none) "invalid from address"
  reject (dectobe amount = none) "invalid amount (must be integer base units)"
  reject (nonce.length ≠ 32) "nonce must be 32 bytes"
  reject (validafter < 0 ∨ validbefore ≤ validafter) "invalid validity window"
  reject (tokenname = [] ∨ 64 < tokenname.length ∨ 16 < tokenversion.length)
    "invalid token name/version"
  let domainhash := eip712domainhash K tokenname tokenversion chainid asset
  let structhash := eip712structhash K sender payto amount (intstr validafter)
    (intstr validbefore) (hexencode nonce)
  need (eip712hash K domainhash structhash) "EIP-712 hash failed"

def Env.withdigest (env : Env) : Env :=
  { env with
    authdigest := fun req sender validafter validbefore nonce =>
      Wallet.authdigest K req.network req.asset req.payto sender req.amount validafter validbefore
        nonce req.tokenname req.tokenver }

end

end Infernode.Wallet
