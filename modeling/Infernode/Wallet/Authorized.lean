import Infernode.Wallet.Cap
import Infernode.Wallet.X402

/-!
# What an x402 signature authorizes

The request that is signed is the option that was chosen, and its digest stands for exactly
that transfer, where each address is one of 20 bytes.
-/

namespace Infernode.Wallet
open Infernode.Limbo Infernode.Lib.BigEndian

theorem reject_ok {c : Prop} [Decidable c] {err : Str} {u : Unit} (h : reject c err = .ok u) :
    ¬c := by
  rw [reject] at h
  split_ifs at h with hc
  exact hc

theorem striphex_cases (s : Str) : striphex s = s ∨
    ∃ d, (d = 'x' ∨ d = 'X') ∧ s = '0' :: d :: striphex s := by
  match s with
  | [] => exact .inl rfl
  | [c] => exact .inl rfl
  | c :: d :: s =>
    rw [striphex]
    split_ifs with h
    · exact .inr ⟨d, h.2, by rw [h.1]⟩
    · exact .inl rfl

theorem hexpairs_digits : ∀ {s : Str} {b : List UInt8}, hexpairs s = some b → s.length % 2 = 0 →
    b.length = s.length / 2 ∧ ∀ c ∈ s, (hextoval c).isSome
  | [], b, h, _ => by
    rw [← Option.some.inj h]
    simp
  | [c], b, _, heven => by simp at heven
  | hi :: lo :: s, b, h, heven => by
    rw [hexpairs] at h
    split at h
    · next h1 l1 bs hhi hlo hbs =>
      have hrest : s.length % 2 = 0 := by
        simp only [List.length_cons] at heven
        omega
      obtain ⟨hlen, hall⟩ := hexpairs_digits hbs hrest
      rw [← Option.some.inj h]
      refine ⟨by simp only [List.length_cons, hlen]; omega, ?_⟩
      simpa [hhi, hlo] using hall
    · cases h

theorem hextoval_not {c : Char} (h : (hextoval c).isSome) :
    c ≠ 'x' ∧ c ≠ 'X' ∧ c ≠ '\n' ∧ c ≠ '\r' := by
  refine ⟨?_, ?_, ?_, ?_⟩ <;>
    (rintro rfl
     revert h
     decide)

theorem striphex_of_hexpairs {s : Str} {b : List UInt8} (h : hexpairs s = some b)
    (heven : s.length % 2 = 0) : striphex s = s := by
  rcases striphex_cases s with he | ⟨d, hd, he⟩
  · exact he
  · obtain ⟨hx, hX, -⟩ := hextoval_not ((hexpairs_digits h heven).2 d (he ▸ by simp))
    rcases hd with rfl | rfl
    · exact absurd rfl hx
    · exact absurd rfl hX

theorem strtoaddr_some {s : Str} {b : List UInt8} (h : strtoaddr s = some b) :
    (striphex s).length = 40 ∧ hexpairs (striphex (striphex s)) = some b := by
  rw [strtoaddr] at h
  split_ifs at h with hlen
  rw [hexdecode] at h
  split_ifs at h
  exact ⟨not_not.mp hlen, h⟩

def Unbroken (s : Str) : Prop := ∀ c ∈ s, c ≠ '\n' ∧ c ≠ '\r'

theorem unbroken_of_all {s : Str} (h : (s.all fun c => c ≠ '\n' && c ≠ '\r') = true) :
    Unbroken s := by
  simpa [Unbroken] using h

theorem strtoaddr_unbroken {s : Str} {b : List UInt8} (h : strtoaddr s = some b) : Unbroken s := by
  obtain ⟨hlen, hpairs⟩ := strtoaddr_some h
  have hstrip : ∀ {t : Str}, Unbroken (striphex t) → Unbroken t := fun {t} ht => by
    rcases striphex_cases t with he | ⟨d, hd, he⟩
    · rwa [he] at ht
    · rw [he]
      intro c hc
      rcases List.mem_cons.mp hc with rfl | hc
      · decide
      rcases List.mem_cons.mp hc with rfl | hc
      · rcases hd with rfl | rfl <;> decide
      · exact ht c hc
  refine hstrip (hstrip fun c hc => ?_)
  have heven : (striphex (striphex s)).length % 2 = 0 := by
    rcases striphex_cases (striphex s) with he | ⟨d, -, he⟩
    · rw [he, hlen]
    · rw [he, List.length_cons, List.length_cons] at hlen
      omega
  exact (hextoval_not ((hexpairs_digits hpairs heven).2 c hc)).2.2

theorem digits_unbroken {s : Str} (h : s.all isdigit = true) : Unbroken s := by
  intro c hc
  have hd := List.all_eq_true.mp h c hc
  constructor <;>
    (rintro rfl
     revert hd
     decide)

theorem noctl_unbroken {s : Str} (h : noctl s = true) : Unbroken s := by
  intro c hc
  have hd := List.all_eq_true.mp h c hc
  constructor <;>
    (rintro rfl
     revert hd
     decide)

theorem dectobe_digits {s : Str} (h : dectobe s ≠ none) : s.all isdigit = true := by
  rw [dectobe] at h
  split_ifs at h with h0 hd
  · exact absurd rfl h
  · exact absurd rfl h
  · simpa using hd

theorem cut_field {key : Str} (val : Str) (hkey : ' ' ∉ key) :
    (key ++ ' ' :: val).takeWhile (· ≠ ' ') = key ∧
      (key ++ ' ' :: val).dropWhile (· ≠ ' ') = ' ' :: val := by
  have hne : ∀ c ∈ key, decide (c ≠ ' ') = true := fun c hc => by
    simpa using fun he : c = ' ' => hkey (he ▸ hc)
  rw [List.takeWhile_append_of_pos hne, List.dropWhile_append_of_pos hne]
  simp

theorem parselines_set {key val : Str} {req req' : AuthReq} {seen : List Str} (lines : List Str)
    (hkey : ' ' ∉ key) (hnew : inlist key seen = false) (hset : setfield req key val = .ok req') :
    parselines req seen ((key ++ ' ' :: val) :: lines) = parselines req' (key :: seen) lines := by
  rw [parselines, (cut_field val hkey).1, (cut_field val hkey).2]
  simp [hnew, hset]

theorem parselines_stop {key val err : Str} {req : AuthReq} {seen : List Str} (lines : List Str)
    (hkey : ' ' ∉ key) (hnew : inlist key seen = false) (hset : setfield req key val = .error err) :
    parselines req seen ((key ++ ' ' :: val) :: lines) = .error err := by
  rw [parselines, (cut_field val hkey).1, (cut_field val hkey).2]
  simp [hnew, hset]

theorem tokens_lines {fs : List (Str × Str)}
    (h : ∀ f ∈ fs, Unbroken (f.1 ++ ' ' :: f.2)) :
    tokenize (fs.flatMap fieldline) (lit "\n\r") = fs.map fun f => f.1 ++ ' ' :: f.2 := by
  rw [tokenize]
  induction fs with
  | nil => rfl
  | cons f fs ih =>
    have hword : Word (fun c => decide (c ∈ lit "\n\r")) (f.1 ++ ' ' :: f.2) := by
      refine ⟨by simp, fun c hc => ?_⟩
      have hp := h f List.mem_cons_self c hc
      simpa [lit] using hp
    rw [List.flatMap_cons, fieldline, List.append_assoc, List.map_cons, List.singleton_append,
      tokens_word_delim hword (by decide), ih fun g hg => h g (List.mem_cons_of_mem _ hg)]

def requested (req : PaymentReq) (url : Str) : AuthReq :=
  ⟨req.network, req.asset, req.payto, req.amount, clamp req.timeout.toNat, req.name, req.version,
    url⟩

def sentkeys : List Str :=
  [lit "version", lit "name", lit "timeout", lit "amount", lit "payto", lit "asset",
    lit "network", lit "scheme"]

theorem setfield_timeout (r : AuthReq) (v : Str) : setfield r (lit "timeout") v =
    (need (strint v) "bad timeout").map fun t => { r with timeout := t } := rfl

theorem parselines_sent {req : PaymentReq} {t : ℕ} (hscheme : req.scheme = lit "exact")
    (ht : strint (intstr req.timeout) = some t) (lines : List Str) :
    parselines ⟨[], [], [], [], 0, [], [], []⟩ []
        (((fields req []).map fun f => f.1 ++ ' ' :: f.2) ++ lines) =
      parselines ⟨req.network, req.asset, req.payto, req.amount, t, req.name, req.version, []⟩
        sentkeys lines := by
  have hset : ∀ r : AuthReq, setfield r (lit "timeout") (intstr req.timeout) =
      .ok { r with timeout := t } := fun r => by
    rw [setfield_timeout, ht]
    rfl
  rw [fields, if_pos rfl, List.append_nil]
  simp only [List.map_cons, List.map_nil, List.cons_append, List.nil_append]
  rw [parselines_set _ (by decide) rfl (by rw [hscheme]; rfl), parselines_set _ (by decide) rfl rfl,
    parselines_set _ (by decide) rfl rfl, parselines_set _ (by decide) rfl rfl,
    parselines_set _ (by decide) rfl rfl, parselines_set _ (by decide) (by rfl) (hset _),
    parselines_set _ (by decide) rfl rfl, parselines_set _ (by decide) rfl rfl]
  rfl

theorem parselines_untimed {req : PaymentReq} (hscheme : req.scheme = lit "exact")
    (ht : strint (intstr req.timeout) = none) (lines : List Str) :
    parselines ⟨[], [], [], [], 0, [], [], []⟩ []
        (((fields req []).map fun f => f.1 ++ ' ' :: f.2) ++ lines) = .error "bad timeout" := by
  have hset : ∀ r : AuthReq, setfield r (lit "timeout") (intstr req.timeout) =
      .error "bad timeout" := fun r => by
    rw [setfield_timeout, ht]
    rfl
  rw [fields, if_pos rfl, List.append_nil]
  simp only [List.map_cons, List.map_nil, List.cons_append, List.nil_append]
  rw [parselines_set _ (by decide) rfl (by rw [hscheme]; rfl), parselines_set _ (by decide) rfl rfl,
    parselines_set _ (by decide) rfl rfl, parselines_set _ (by decide) rfl rfl,
    parselines_set _ (by decide) rfl rfl, parselines_stop _ (by decide) (by rfl) (hset _)]

theorem parselines_fields {req : PaymentReq} {url : Str} {areq : AuthReq}
    (hscheme : req.scheme = lit "exact") (hurl : url.length ≤ 1024)
    (h : parselines ⟨[], [], [], [], 0, [], [], []⟩ []
      ((fields req url).map fun f => f.1 ++ ' ' :: f.2) = .ok areq) :
    ∃ t, strint (intstr req.timeout) = some t ∧
      areq = ⟨req.network, req.asset, req.payto, req.amount, t, req.name, req.version, url⟩ := by
  have hsplit : fields req url =
      fields req [] ++ if url = [] then [] else [(lit "resource", url)] := by
    simp only [fields, if_true, List.append_nil]
  rw [hsplit, List.map_append] at h
  cases ht : strint (intstr req.timeout) with
  | none =>
    rw [parselines_untimed hscheme ht] at h
    cases h
  | some t =>
    rw [parselines_sent hscheme ht] at h
    refine ⟨t, rfl, ?_⟩
    split_ifs at h with h0
    · rw [List.map_nil, parselines] at h
      rw [← Except.ok.inj h, h0]
    · have hset : ∀ r : AuthReq, setfield r (lit "resource") url = .ok { r with resource := url } :=
        fun r => by
          rw [show setfield r (lit "resource") url =
            .ok (if url.length ≤ 1024 then { r with resource := url } else r) from rfl, if_pos hurl]
      rw [List.map_cons, List.map_nil, parselines_set _ (by decide) (by rfl) (hset _),
        parselines] at h
      rw [← Except.ok.inj h]

theorem requesttext_ok {req : PaymentReq} {url acctname text : Str}
    (h : requesttext req url acctname = .ok text) :
    text = (fields req url).flatMap fieldline ∧ req.scheme = lit "exact" ∧
      validnetwork req.network = true ∧ (∃ a, strtoaddr req.asset = some a) ∧
      (∃ a, strtoaddr req.payto = some a) ∧ dectobe req.amount ≠ none ∧ 0 ≤ req.timeout ∧
      validtoken req.name = true ∧ validtoken req.version = true ∧
      (url = [] ∨ validurlfield url = true) := by
  obtain ⟨_, -, h⟩ := bind_ok h
  obtain ⟨_, hscheme, h⟩ := bind_ok h
  obtain ⟨_, hnet, h⟩ := bind_ok h
  obtain ⟨_, hasset, h⟩ := bind_ok h
  obtain ⟨_, hpayto, h⟩ := bind_ok h
  obtain ⟨_, hamount, h⟩ := bind_ok h
  obtain ⟨_, htime, h⟩ := bind_ok h
  obtain ⟨_, htoken, h⟩ := bind_ok h
  obtain ⟨_, hurl, h⟩ := bind_ok h
  have htokens := reject_ok htoken
  simp only [Bool.or_eq_true, Bool.not_eq_true', not_or, Bool.not_eq_false] at htokens
  refine ⟨(Except.ok.inj h).symm, not_not.mp (reject_ok hscheme), by simpa using reject_ok hnet,
    Option.ne_none_iff_exists'.mp (reject_ok hasset),
    Option.ne_none_iff_exists'.mp (reject_ok hpayto), reject_ok hamount,
    not_lt.mp (reject_ok htime), htokens.1, htokens.2, ?_⟩
  by_cases h0 : url = []
  · exact .inl h0
  · exact .inr (by simpa [h0] using reject_ok hurl)

theorem intstr_decimal {n : ℤ} (h : 0 ≤ n) : intstr n = decimal n.toNat := by
  rw [intstr, if_neg (not_lt.mpr h)]
  congr 1
  omega

theorem parse_requesttext {req : PaymentReq} {url acctname text : Str} {areq : AuthReq}
    (htext : requesttext req url acctname = .ok text) (h : parseauthreq text = .ok areq) :
    areq = requested req url := by
  obtain ⟨rfl, hscheme, hnet, ⟨a, hasset⟩, ⟨p, hpayto⟩, hamount, htime, hname, hversion, hurl⟩ :=
    requesttext_ok htext
  have hlen : url.length ≤ 1024 := by
    rcases hurl with rfl | hurl
    · simp
    · simp only [validurlfield, Bool.and_eq_true, decide_eq_true_eq] at hurl
      exact hurl.1.1.2
  have htoken : ∀ {s : Str}, validtoken s = true → Unbroken s := fun hs => by
    simp only [validtoken, Bool.and_eq_true] at hs
    exact noctl_unbroken hs.2
  have hfield : ∀ {key val : Str}, Unbroken key → Unbroken val → Unbroken (key ++ ' ' :: val) :=
    fun hk hv c hc => by
      rcases List.mem_append.mp hc with hc | hc
      · exact hk c hc
      · rcases List.mem_cons.mp hc with rfl | hc
        · decide
        · exact hv c hc
  have hplain : ∀ f ∈ fields req url, Unbroken (f.1 ++ ' ' :: f.2) := by
    intro f hf
    have hnetwork : Unbroken req.network := by
      simp only [validnetwork, Bool.and_eq_true, beq_iff_eq] at hnet
      rw [← List.take_append_drop 7 req.network, hnet.1.2]
      intro c hc
      rcases List.mem_append.mp hc with hc | hc
      · exact unbroken_of_all (s := lit "eip155:") rfl c hc
      · exact digits_unbroken hnet.2 c hc
    have htimes : Unbroken (intstr req.timeout) := by
      rw [intstr_decimal htime]
      exact digits_unbroken (decimal_isdigit _)
    have hexact : Unbroken req.scheme := by
      rw [hscheme]
      exact unbroken_of_all rfl
    rcases List.mem_append.mp hf with hf | hf
    · simp only [List.mem_cons, List.not_mem_nil, or_false] at hf
      rcases hf with rfl | rfl | rfl | rfl | rfl | rfl | rfl | rfl
      · exact hfield (unbroken_of_all rfl) hexact
      · exact hfield (unbroken_of_all rfl) hnetwork
      · exact hfield (unbroken_of_all rfl) (strtoaddr_unbroken hasset)
      · exact hfield (unbroken_of_all rfl) (strtoaddr_unbroken hpayto)
      · exact hfield (unbroken_of_all rfl) (digits_unbroken (dectobe_digits hamount))
      · exact hfield (unbroken_of_all rfl) htimes
      · exact hfield (unbroken_of_all rfl) (htoken hname)
      · exact hfield (unbroken_of_all rfl) (htoken hversion)
    · rcases hurl with rfl | hurl
      · simp at hf
      · split_ifs at hf with h0
        · simp at hf
        · obtain rfl := List.mem_singleton.mp hf
          simp only [validurlfield, Bool.and_eq_true] at hurl
          exact hfield (unbroken_of_all rfl) (noctl_unbroken hurl.1.2)
  obtain ⟨req', hlines, h⟩ := bind_ok h
  obtain ⟨_, -, h⟩ := bind_ok h
  rw [tokens_lines hplain] at hlines
  obtain ⟨t, ht, rfl⟩ := parselines_fields hscheme hlen hlines
  have hvalue := strint_value ht
  rw [intstr_decimal htime, decvalue_decimal] at hvalue
  rw [← Except.ok.inj h, ← hvalue]
  rfl

theorem pad32_some {b : List UInt8} (h : b.length ≤ 32) : pad32 (some b) = word (value b) := by
  have hlt : value b < 2 ^ 256 := (value_lt b).trans_le
    ((Nat.pow_le_pow_right (by norm_num) h).trans_eq (by norm_num))
  rw [pad32, Option.elim_some, List.take_of_length_le h]
  refine value_inj ?_ ?_
  · rw [word_length hlt, List.length_append, List.length_replicate]
    omega
  · rw [value_zeros, value_word]

theorem pad32_dectobe {s : Str} (h : dectobe s ≠ none) :
    decvalue s < 2 ^ 256 ∧ pad32 (dectobe s) = word (decvalue s) := by
  obtain ⟨b, hb⟩ := Option.ne_none_iff_exists'.mp h
  have hval := dectobe_value h
  rw [hb] at hval ⊢
  have hlen : b.length ≤ 32 := by
    rw [dectobe] at hb
    simp only at hb
    split_ifs at hb with h0 hd hlen
    rw [← Option.some.inj hb]
    exact not_lt.mp hlen
  rw [pad32_some hlen, show value b = decvalue s from hval]
  refine ⟨?_, rfl⟩
  rw [← hval]
  exact (value_lt b).trans_le ((Nat.pow_le_pow_right (by norm_num) hlen).trans_eq (by norm_num))

theorem dectobe_decimal_ne {n : ℕ} (h : n < 2 ^ 256) : dectobe (decimal n) ≠ none := by
  intro hnone
  have hval := dectobe_decimal h
  rw [hnone] at hval
  obtain rfl : n = 0 := hval.symm
  revert hnone
  decide

theorem pad32_intstr {n : ℤ} (h0 : 0 ≤ n) (h : n.toNat < 2 ^ 256) :
    pad32 (dectobe (intstr n)) = word n.toNat := by
  rw [intstr_decimal h0, (pad32_dectobe (dectobe_decimal_ne h)).2, decvalue_decimal]

theorem decvalue_lt {s : Str} (h : s.all isdigit = true) : decvalue s < 10 ^ s.length := by
  induction s using List.reverseRecOn with
  | nil => decide
  | append_singleton s c ih =>
    simp only [List.all_append, List.all_cons, List.all_nil, Bool.and_true, Bool.and_eq_true] at h
    have hlt := ih h.1
    have hdigit : digitval c < 10 := by
      have hc : 48 ≤ c.toNat ∧ c.toNat ≤ 57 := by
        simpa [isdigit, Char.le_def, UInt32.le_iff_toNat_le] using h.2
      rw [digitval, show '0'.toNat = 48 from rfl]
      omega
    rw [decvalue_append, List.length_append, List.length_singleton, pow_succ]
    omega

theorem strint_lt {s : Str} {n : ℕ} (h : strint s = some n) : n < 10 ^ 9 := by
  have hval := strint_value h
  rw [strint] at h
  split_ifs at h with h0 hd
  rw [← hval]
  exact (decvalue_lt hd).trans_le (Nat.pow_le_pow_right (by norm_num) (not_lt.mp (not_or.mp h0).2))

theorem pad32_bigtobytes {n : ℕ} (h : n < 10 ^ 9) : pad32 (some (bigtobytes n)) = word n := by
  have hlen : (bigtobytes n).length ≤ 32 := by
    rw [bigtobytes, tobytes, List.length_map, List.length_reverse]
    exact (Nat.digits_length_le_iff (by norm_num) n).mpr (h.trans (by norm_num))
  rw [pad32_some hlen, bigtobytes, value_tobytes]

theorem hextoval_digitChar {d : ℕ} (h : d < 16) : hextoval (Nat.digitChar d) = some d := by
  interval_cases d <;> decide

theorem hexpairs_hexencode (b : List UInt8) : hexpairs (hexencode b) = some b := by
  induction b with
  | nil => rfl
  | cons x b ih =>
    have hx := x.toNat_lt
    rw [hexencode, List.flatMap_cons]
    rw [hexencode] at ih
    simp only [List.cons_append, List.nil_append, hexpairs,
      hextoval_digitChar (show x.toNat / 16 < 16 by omega),
      hextoval_digitChar (Nat.mod_lt x.toNat (by norm_num)), ih]
    rw [show x.toNat / 16 * 16 + x.toNat % 16 = x.toNat by omega]
    simp

theorem hexencode_length (b : List UInt8) : (hexencode b).length = 2 * b.length := by
  induction b with
  | nil => rfl
  | cons x b ih =>
    rw [hexencode, List.flatMap_cons, List.length_append, ← hexencode, ih]
    simp only [List.length_cons, List.length_nil]
    omega

theorem hexdecode_hexencode (b : List UInt8) : hexdecode (hexencode b) = some b := by
  have heven : (hexencode b).length % 2 = 0 := by
    rw [hexencode_length]
    omega
  rw [hexdecode, if_neg (by rw [heven]; simp),
    striphex_of_hexpairs (hexpairs_hexencode b) heven, hexpairs_hexencode]

def Once (s : Str) : Prop := striphex (striphex s) = striphex s

instance (s : Str) : Decidable (Once s) :=
  inferInstanceAs (Decidable (striphex (striphex s) = striphex s))

def Names (s : Str) (a : Address) : Prop :=
  (striphex s).length = 40 ∧ hexpairs (striphex s) = some a.1

theorem Names.once {s : Str} {a : Address} (h : Names s a) : Once s :=
  striphex_of_hexpairs h.2 (by rw [h.1])

theorem Names.strtoaddr {s : Str} {a : Address} (h : Names s a) : strtoaddr s = some a.1 := by
  rw [Wallet.strtoaddr, if_neg (not_not.mpr h.1), hexdecode, if_neg (by rw [h.1]; simp),
    show striphex (striphex s) = striphex s from h.once, h.2]

theorem exists_names {s : Str} {b : List UInt8} (h : strtoaddr s = some b) (ho : Once s) :
    ∃ a, Names s a := by
  obtain ⟨hlen, hpairs⟩ := strtoaddr_some h
  rw [show striphex (striphex s) = striphex s from ho] at hpairs
  have hb : b.length = 20 := by rw [(hexpairs_digits hpairs (by rw [hlen])).1, hlen]
  exact ⟨⟨b, hb⟩, hlen, hpairs⟩

theorem pad32addr_names {s : Str} {a : Address} (h : Names s a) :
    pad32addr (strtoaddr s) = addressword a := by
  rw [h.strtoaddr, pad32addr, if_pos a.2, addressword]

/-- The transfer of an option, from the account and at the time of an execution. -/
structure Transfer.For (t : Transfer) (req : PaymentReq) (acct : Account) (env : Env) : Prop where
  name : t.name = req.name
  version : t.version = req.version
  chainid : networktochainid req.network = t.chainid
  asset : Names req.asset t.asset
  payer : Names acct.address t.payer
  payee : Names req.payto t.payee
  amount : decvalue req.amount = t.amount
  validafter : max 0 (env.now - 600) = (t.validafter : ℕ)
  validbefore : env.now + clamp req.timeout.toNat = (t.validbefore : ℕ)
  nonce : env.random = some t.nonce.1

def answer (sig : List UInt8) (sender : Str) (nonce : List UInt8) (validafter validbefore : ℤ) :
    Str :=
  "sig " ++ hexencode sig ++ lit " from " ++ sender ++ lit " nonce " ++ hexencode nonce ++
    lit " validafter " ++ (toString validafter).toList ++ lit " validbefore " ++
      (toString validbefore).toList

/-- The signature is over the digest of the option's transfer, which no other transfer has, and
its amount is what is charged. -/
structure Exact (K : Hash) (req : PaymentReq) (url : Str) (acct : Account) (env : Env)
    (areq : AuthReq) (B : Books) (out : Str) : Prop where
  parsed : areq = requested req url
  signed : ∃ t : Transfer, t.For req acct env ∧
    (∃ sig, env.signhash acct (t.digest K) = .ok sig ∧
      out = answer sig acct.address t.nonce.1 (t.validafter : ℕ) (t.validbefore : ℕ)) ∧
    (∃ pre amt, B.trace = .released acct.name (.authorization req.amount) ::
      .reserved .self acct.name amt :: pre ∧ amountval amt = t.amount) ∧
    ∀ t' : Transfer, Set.InjOn K.hash (t'.hashed K ∪ t.hashed K) → t'.digest K = t.digest K →
      t' = t

section
variable {K : Hash} {env : Env} {net : NetworkConfig} {acct : Account} {areq : AuthReq}
  {B B' : Books} {out : Str}

theorem mapError_ok {α : Type} {x : Except Str α} {f : Str → Str} {a : α}
    (h : x.mapError f = .ok a) : x = .ok a := by
  cases x with
  | error err => cases h
  | ok b => rw [show b = a from Except.ok.inj h]

theorem executex402_ok (h : executex402 env net acct areq B = (B', .ok out)) :
    ∃ nonce digest sig va vb, env.random = some nonce ∧ 0 < env.now ∧ va = max 0 (env.now - 600) ∧
      vb = env.now + areq.timeout ∧ env.authdigest areq acct.address va vb nonce = .ok digest ∧
      env.signhash acct digest = .ok sig ∧ out = answer sig acct.address nonce va vb ∧
      dectobe areq.amount ≠ none ∧ ∃ pre, B'.trace = .released acct.name
        (.authorization areq.amount) :: .reserved .self acct.name (dectobe areq.amount) :: pre := by
  simp only [executex402] at h
  split at h
  · simp at h
  next sig nonce va vb hprep =>
  have hreserve := ((B.calls (env.others 0)).calls (env.others 1)).reserve_cases .self acct
    (dectobe areq.amount)
  split at h
  · simp at h
  next B₁ hr =>
  rcases hreserve with ⟨err, he⟩ | ⟨l', hl, hne, -⟩
  · rw [he] at hr
    simp at hr
  obtain ⟨rfl, hout⟩ := Prod.mk.inj h
  obtain rfl := (Prod.mk.inj (hl.symm.trans hr)).1
  obtain ⟨_, -, hprep⟩ := bind_ok hprep
  obtain ⟨nonce', hrandom, hprep⟩ := bind_ok hprep
  obtain ⟨_, hnow, hprep⟩ := bind_ok hprep
  obtain ⟨digest, hdigest, hprep⟩ := bind_ok hprep
  obtain ⟨sig', hsig, hprep⟩ := bind_ok hprep
  obtain ⟨_, -, hprep⟩ := bind_ok hprep
  have hpos : 0 < env.now := not_le.mp (reject_ok hnow)
  have hafter : (if env.now - 600 < 0 then 0 else env.now - 600) = max 0 (env.now - 600) := by
    split_ifs <;> omega
  rw [hafter] at hprep hdigest
  obtain ⟨rfl, rfl, rfl, rfl⟩ := by simpa only [Prod.mk.injEq] using Except.ok.inj hprep
  exact ⟨_, digest, _, _, _, need_ok hrandom, hpos, rfl, rfl, mapError_ok hdigest,
    mapError_ok hsig, (Except.ok.inj hout).symm, hne, _, rfl⟩

theorem authdigest_ok {network asset payto sender amount name version : Str} {va vb : ℤ}
    {nonce digest : List UInt8}
    (h : authdigest K network asset payto sender amount va vb nonce name version = .ok digest) :
    (∃ a, strtoaddr asset = some a) ∧ (∃ a, strtoaddr payto = some a) ∧
      (∃ a, strtoaddr sender = some a) ∧ networktochainid network < 10 ^ 9 ∧ nonce.length = 32 ∧
      0 ≤ va ∧ va < vb ∧ digest = K.hash (0x19 :: 0x01 :: (
        eip712domainhash K name version (networktochainid network) asset ++
          eip712structhash K sender payto amount (intstr va) (intstr vb) (hexencode nonce))) := by
  obtain ⟨_, hchain, h⟩ := bind_ok h
  obtain ⟨_, hasset, h⟩ := bind_ok h
  obtain ⟨_, hpayto, h⟩ := bind_ok h
  obtain ⟨_, hsender, h⟩ := bind_ok h
  obtain ⟨_, hamount, h⟩ := bind_ok h
  obtain ⟨_, hnonce, h⟩ := bind_ok h
  obtain ⟨_, hwindow, h⟩ := bind_ok h
  obtain ⟨_, -, h⟩ := bind_ok h
  have hlt : networktochainid network < 10 ^ 9 := by
    rw [networktochainid]
    split_ifs
    · cases hs : strint (network.drop 7) with
      | none => norm_num
      | some n => exact strint_lt hs
    · norm_num
  have hwindows := not_or.mp (reject_ok hwindow)
  refine ⟨Option.ne_none_iff_exists'.mp (reject_ok hasset),
    Option.ne_none_iff_exists'.mp (reject_ok hpayto),
    Option.ne_none_iff_exists'.mp (reject_ok hsender), hlt, not_not.mp (reject_ok hnonce),
    not_lt.mp hwindows.1, not_le.mp hwindows.2, ?_⟩
  have hhash := need_ok h
  rw [eip712hash, if_neg (by simp [eip712domainhash, eip712structhash, K.length])] at hhash
  exact (Option.some.inj hhash).symm

theorem authdigest_digest {t : Transfer} {req : PaymentReq}
    (ht : t.For req acct env) (hamount : dectobe req.amount ≠ none)
    (hchain : networktochainid req.network < 10 ^ 9) :
    K.hash (0x19 :: 0x01 :: (
      eip712domainhash K req.name req.version (networktochainid req.network) req.asset ++
        eip712structhash K acct.address req.payto req.amount (intstr (t.validafter : ℕ))
          (intstr (t.validbefore : ℕ)) (hexencode t.nonce.1))) = t.digest K := by
  have hdomain : eip712domainhash K req.name req.version (networktochainid req.network) req.asset =
      K.hash (t.domain K) := by
    rw [eip712domainhash, pad32_bigtobytes hchain, pad32addr_names ht.asset, Transfer.domain,
      ht.name, ht.version, ht.chainid]
  have hstruct : eip712structhash K acct.address req.payto req.amount (intstr (t.validafter : ℕ))
      (intstr (t.validbefore : ℕ)) (hexencode t.nonce.1) = K.hash (t.struct K) := by
    have hnonce : ((hexdecode (hexencode t.nonce.1)).filter (·.length = 32)).getD
        (List.replicate 32 0) = t.nonce.1 := by
      rw [hexdecode_hexencode, Option.filter_some, if_pos (by simp [t.nonce.2]), Option.getD_some]
    have hword : ∀ n : Fin (2 ^ 256), pad32 (dectobe (intstr (n : ℕ))) = word n := fun n => by
      rw [pad32_intstr (Int.natCast_nonneg _) (by simp), Int.toNat_natCast]
    simp only [eip712structhash]
    rw [hnonce, pad32addr_names ht.payer, pad32addr_names ht.payee, (pad32_dectobe hamount).2,
      hword, hword, ht.amount, Transfer.struct]
  rw [hdomain, hstruct, Transfer.digest, Transfer.message]

/-- A payment is authorized exactly as it was requested if and only if no address in it has a
second 0x. The clock is a `big` of microseconds. -/
theorem authorization_exact {req : PaymentReq} {url acctname text : Str}
    (htext : requesttext req url acctname = .ok text) (hparse : parseauthreq text = .ok areq)
    (hnow : env.now ≤ 9223372036854)
    (hrun : executex402 (env.withdigest K) net acct areq B = (B', .ok out)) :
    Exact K req url acct env areq B' out ↔
      Once req.asset ∧ Once req.payto ∧ Once acct.address := by
  constructor
  · rintro ⟨-, t, ht, -⟩
    exact ⟨ht.asset.once, ht.payee.once, ht.payer.once⟩
  · rintro ⟨hasset, hpayto, haddress⟩
    obtain rfl := parse_requesttext htext hparse
    obtain ⟨nonce, digest, sig, va, vb, hrandom, hpos, rfl, rfl, hdigest, hsig, hout, hamount, pre,
      htrace⟩ := executex402_ok hrun
    obtain ⟨⟨_, hstrasset⟩, ⟨_, hstrpayto⟩, ⟨_, hstrsender⟩, hchain, hnonce, hva, hvb, rfl⟩ :=
      authdigest_ok hdigest
    obtain ⟨asset, hasset⟩ := exists_names hstrasset hasset
    obtain ⟨payee, hpayee⟩ := exists_names hstrpayto hpayto
    obtain ⟨payer, hpayer⟩ := exists_names hstrsender haddress
    have hclamp : clamp req.timeout.toNat ≤ 3600 := by
      rw [clamp]
      split_ifs <;> omega
    have hbefore : 0 < env.now + clamp req.timeout.toNat ∧
        env.now + clamp req.timeout.toNat < 2 ^ 256 := by
      have hstart : 0 < env.now := hpos
      omega
    have hamounts := (pad32_dectobe hamount).1
    let t : Transfer :=
      { name := req.name
        version := req.version
        chainid := ⟨networktochainid req.network, hchain.trans (by norm_num)⟩
        asset := asset
        payer := payer
        payee := payee
        amount := ⟨decvalue req.amount, hamounts⟩
        validafter := ⟨(max 0 (env.now - 600)).toNat, by omega⟩
        validbefore := ⟨(env.now + clamp req.timeout.toNat).toNat, by omega⟩
        nonce := ⟨nonce, hnonce⟩ }
    have hafters : ((max 0 (env.now - 600)).toNat : ℤ) = max 0 (env.now - 600) :=
      Int.toNat_of_nonneg hva
    have hbefores : ((env.now + clamp req.timeout.toNat).toNat : ℤ) =
        env.now + clamp req.timeout.toNat := Int.toNat_of_nonneg hbefore.1.le
    have ht : t.For req acct env :=
      ⟨rfl, rfl, rfl, hasset, hpayer, hpayee, rfl, hafters.symm, hbefores.symm, hrandom⟩
    have hdigest := authdigest_digest (K := K) ht hamount hchain
    refine ⟨rfl, t, ht, ⟨sig, ?_, ?_⟩, ⟨pre, _, htrace, dectobe_value hamount⟩, fun t' hinj he =>
      digest_injective hinj he⟩
    · rw [← hdigest]
      simp only [t, hafters, hbefores]
      exact hsig
    · simp only [t, hafters, hbefores]
      exact hout

end

def zerohash : Hash := ⟨fun _ => List.replicate 32 0, fun _ => List.length_replicate⟩

def usdcoption (first : Str) : PaymentReq :=
  ⟨"exact", "eip155:11155111", "5", "0x" ++ first ++ lit "000000000000000000000000000000000000cc",
    "0x00000000000000000000000000000000000000bb", 60, "USD Coin", "2"⟩

def sepolia : NetworkConfig := ⟨"ethereum-sepolia", [], [], 11155111⟩

def payeracct : Account := ⟨"payer", .eth, "ethereum", "0x00000000000000000000000000000000000000aa"⟩

def usdcanswer : Str :=
  answer (List.replicate 65 3) payeracct.address (List.replicate 32 7) 4400 5060

set_option maxRecDepth 4000 in
theorem authorization_exact_usdc : ∃ B, Exact zerohash (usdcoption "00") [] payeracct
    (agreeable []) (requested (usdcoption "00") []) B usdcanswer := by
  have htext : requesttext (usdcoption "00") [] "payer" =
      .ok ((fields (usdcoption "00") []).flatMap fieldline) := by
    decide
  have hparse : parseauthreq ((fields (usdcoption "00") []).flatMap fieldline) =
      .ok (requested (usdcoption "00") []) := by
    decide
  have hrun : executex402 ((agreeable []).withdigest zerohash) sepolia payeracct
      (requested (usdcoption "00") []) ⟨[], [], []⟩ = (_, .ok usdcanswer) :=
    Prod.ext rfl (by decide)
  exact ⟨_, (authorization_exact htext hparse (by decide) hrun).mpr (by decide)⟩

set_option maxRecDepth 4000 in
/-- What follows the second 0x is 19 bytes, and zeros are signed for them. -/
theorem secondprefix_signed : ¬∀ (K : Hash) (req : PaymentReq) (url acctname text : Str)
    (areq : AuthReq) (env : Env) (net : NetworkConfig) (acct : Account) (B B' : Books) (out : Str),
    requesttext req url acctname = .ok text → parseauthreq text = .ok areq →
      env.now ≤ 9223372036854 →
      executex402 (env.withdigest K) net acct areq B = (B', .ok out) →
      Exact K req url acct env areq B' out := by
  intro h
  obtain ⟨-, t, ht, -⟩ := h zerohash (usdcoption "0x") [] "payer"
    ((fields (usdcoption "0x") []).flatMap fieldline) (requested (usdcoption "0x") [])
    (agreeable []) sepolia payeracct ⟨[], [], []⟩ _ usdcanswer (by decide)
    (by decide) (by decide) (Prod.ext rfl (by decide))
  exact absurd ht.asset.once (by decide)

end Infernode.Wallet
