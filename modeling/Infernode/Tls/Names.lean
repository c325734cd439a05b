import Infernode.Tls.Signatures
import Infernode.Web.Groups

/-!
# Server names

`verifyhostname` of `tls.b` over a decoded certificate, with `IPaddr.parse`, which takes more
texts than those of addresses: a server name is matched as it should be, whatever the
certificate, where the name is read as the address it is or as none.
-/

namespace Infernode.Tls

open Limbo (Str lit asciilower isdigit decvalue)
open Dis (int)

variable {hostname : Str} {cert : Certificate}

def byte (v : ℤ) : UInt8 := UInt8.ofNat (v % 256).toNat

/-- The digits of a group, as far as a dot, a colon or the end. -/
def scan : BitVec 32 → Str → Option (BitVec 32 × Str)
  | v, [] => some (v, [])
  | v, c :: s =>
    if c = '.' ∨ c = ':' then some (v, c :: s)
    else (Web.digit 16 c).bind fun d => scan (v <<< 4 ||| BitVec.ofNat 32 d) s

def intbig (s : Str) : ℤ := int (min (decvalue s) (2 ^ 63 - 1) : ℕ)

def v4parts : ℕ → Str → Option (List ℤ)
  | 0, _ => some []
  | n + 1, s =>
    if s = [] then some []
    else
      let part := s.takeWhile (· ≠ '.')
      if part.all isdigit && part ≠ [] then
        (v4parts n ((s.dropWhile (· ≠ '.')).drop 1)).map (intbig part :: ·)
      else none

def v4bytes : List ℤ → List UInt8
  | [x] => [byte (x / 2 ^ 24), byte (x / 2 ^ 16), byte (x / 2 ^ 8), byte x]
  | [x, y] =>
    if x < 256 then [byte x, byte (y / 2 ^ 16), byte (y / 2 ^ 8), byte y]
    else if x < 65536 then [byte (x / 2 ^ 8), byte x, byte (y / 2 ^ 16), byte y]
    else [byte (x / 2 ^ 16), byte (x / 2 ^ 8), byte x, byte y]
  | [x, y, z] => [byte x, byte y, byte (z / 2 ^ 16), byte z]
  | parts => parts.map byte

/-- `parseipv4` into the array from `i` on. An array that ends before raises. -/
def parseipv4 (a : Vector UInt8 16) (i : ℕ) (s : Str) : Option (Option (Vector UInt8 16)) :=
  if i ≤ 12 then
    some ((v4parts 4 s).map fun parts =>
      (v4bytes parts).zipIdx.foldl (fun a e => a.setIfInBounds (i + e.2) e.1) a)
  else if (v4parts 3 s).isNone then some none else none

/-- The array, its end, the gap and whether there was a colon, where the loop stops. -/
def parseloop : ℕ → Str → Vector UInt8 16 → ℕ → ℕ → Bool →
    Option (Option (Vector UInt8 16 × ℕ × ℕ × Bool))
  | 0, _, a, i, gap, col => some (some (a, i, gap, col))
  | n + 1, s, a, i, gap, col =>
    if s = [] then some (some (a, i, gap, col))
    else
      match scan 0 s with
      | none => some none
      | some (_, '.' :: _) => (parseipv4 a i s).map (Option.map fun a => (a, i + 4, gap, col))
      | some (v, rest) =>
        if 0xFFFF < v.toInt then some none
        else
          let a := (a.setIfInBounds i (UInt8.ofNat (v.toNat / 256))).setIfInBounds (i + 1)
            (UInt8.ofNat v.toNat)
          match rest with
          | ':' :: ':' :: s =>
            if gap > 0 then some none else parseloop n s a (i + 2) (i + 2) true
          | ':' :: s => parseloop n s a (i + 2) gap true
          | s => parseloop n s a (i + 2) gap col

/-- The bytes behind the gap moved to the end. -/
def mindgap (a : Vector UInt8 16) (i gap : ℕ) : Vector UInt8 16 :=
  if i < 16 then
    (List.range (i - gap)).foldl (fun a j =>
      (a.setIfInBounds (15 - j) (a.toList.getD (i - 1 - j) 0)).setIfInBounds (i - 1 - j) 0) a
  else a

/-- `IPaddr.parse`: -1 is an inner none. -/
def ipparse (s : Str) : Option (Option (Vector UInt8 16)) :=
  (parseloop 8 s (Vector.replicate 16 0) 0 0 false).map fun r => r.map fun (a, i, gap, col) =>
    let a := mindgap a i gap
    if col then a else v4prefix.zipIdx.foldl (fun a e => a.setIfInBounds e.2 e.1) a

def ipliteral (s : Str) : Option (Option (Vector UInt8 16)) :=
  if s = [] ∨ !(s.contains ':' || s.all fun c => c == '.' || ('0' ≤ c && c ≤ '9')) then some none
  else ipparse s

def checkedname (hostname : Str) (addr : Option (List UInt8)) (cert : Certificate) :
    Except Str Unit := do
  let (found, checked) ← sanloop hostname addr cert.exts false
  if found then .ok ()
  else do
    require (!checked) (lit "tls: hostname does not match any subjectAltName")
    require addr.isNone (lit "tls: certificate names no IP address")
    require (cert.subject.any fun rdn => rdn.any fun ava =>
        ava.1 == id_at_commonName && matchhostname hostname ava.2)
      (lit "tls: hostname does not match certificate")

theorem verifyhostname_checked (K : Keyring) {addr : Option (Vector UInt8 16)}
    (certder : List UInt8) (hparse : ∀ s, K.ipparse s = (ipparse s).join.map Vector.toList)
    (h : ipliteral hostname = some addr) : K.verifyhostname hostname certder =
      (K.leaf [certder] []).bind (checkedname hostname (addr.map Vector.toList)) := by
  have haddr : K.ipliteral hostname = addr.map Vector.toList := by
    rw [ipliteral] at h
    rw [Keyring.ipliteral]
    split_ifs at h ⊢
    · rw [← Option.some.inj h]
      rfl
    · rw [hparse, h]
      rfl
  rw [Keyring.verifyhostname, haddr]
  rfl

/-- The certificate is accepted for the server name; reading the name may raise. -/
def Accepted (hostname : Str) (cert : Certificate) : Prop :=
  ipliteral hostname ≠ none ∧ ∀ (K : Keyring) (certder : List UInt8),
    (∀ s, K.ipparse s = (ipparse s).join.map Vector.toList) →
      K.leaf [certder] [] = .ok cert → K.verifyhostname hostname certder = .ok ()

theorem accepted_iff : Accepted hostname cert ↔ ∃ addr, ipliteral hostname = some addr ∧
    checkedname hostname (addr.map Vector.toList) cert = .ok () := by
  constructor
  · rintro ⟨hread, h⟩
    obtain ⟨addr, haddr⟩ := Option.ne_none_iff_exists'.1 hread
    let K : Keyring := { peerkeys 0 with
      decodecert := fun _ => .ok cert
      ipparse := fun s => (ipparse s).join.map Vector.toList }
    have hleaf : K.leaf [[]] [] = .ok cert := rfl
    have hok := h K [] (fun _ => rfl) hleaf
    rw [verifyhostname_checked K [] (fun _ => rfl) haddr, hleaf] at hok
    exact ⟨addr, haddr, hok⟩
  · rintro ⟨addr, haddr, hok⟩
    refine ⟨haddr ▸ nofun, fun K certder hparse hleaf => ?_⟩
    rw [verifyhostname_checked K certder hparse haddr, hleaf]
    exact hok

def Literal (s : Str) (a : Vector UInt8 16) : Prop :=
  (∃ octets, Web.octets s = some octets ∧ a.toList = v4prefix ++ octets.map UInt8.ofNat) ∨
    ∃ g, Web.Denotes s g ∧ a.toList = g.flatMap fun v => [UInt8.ofNat (v / 256), UInt8.ofNat v]

def Matches (hostname pattern : Str) : Prop :=
  asciilower hostname = asciilower pattern ∨
    ∃ label domain, label ≠ [] ∧ '.' ∉ label ∧ domain ≠ [] ∧
      asciilower pattern = '*' :: '.' :: domain ∧ asciilower hostname = label ++ '.' :: domain

/-- A name of the certificate is the server name. -/
def Named (hostname : Str) : GeneralName → Prop
  | .dNSName str => (∀ a, ¬Literal hostname a) ∧ Matches hostname str
  | .iPAddress ip => ∃ a, Literal hostname a ∧
      (ip = a.toList ∨ ip.length = 4 ∧ a.toList = v4prefix ++ ip)
  | .other => False

/-- A subjectAltName has the name, and none before it is undecodable. -/
inductive Found (P : GeneralName → Prop) : List (List ℕ × Except Str ExtClass) → Prop
  | here {names rest} (h : ∃ n ∈ names, P n) :
      Found P ((id_ce_subjectAltName, .ok (.subjectAltName names)) :: rest)
  | later {e rest} (he : e.1 = id_ce_subjectAltName → ∃ names, e.2 = .ok (.subjectAltName names))
      (h : Found P rest) : Found P (e :: rest)

/-- Without a subjectAltName a common name is that of a server that is no literal. -/
def Allowed (hostname : Str) (cert : Certificate) : Prop :=
  Found (Named hostname) cert.exts ∨
    (∀ e ∈ cert.exts, e.1 ≠ id_ce_subjectAltName) ∧ (∀ a, ¬Literal hostname a) ∧
      ∃ rdn ∈ cert.subject, ∃ ava ∈ rdn, ava.1 = id_at_commonName ∧ Matches hostname ava.2

/-- The name is read as the address it is a literal of, or as none. -/
def Readable (hostname : Str) : Prop :=
  ∃ addr, ipliteral hostname = some addr ∧ ∀ a, addr = some a ↔ Literal hostname a

theorem matchhostname_iff (hostname pattern : Str) :
    matchhostname hostname pattern = true ↔ Matches hostname pattern := by
  rw [matchhostname, Matches]
  generalize asciilower hostname = h
  generalize asciilower pattern = p
  rw [Bool.or_eq_true, beq_iff_eq]
  refine or_congr_right ?_
  constructor
  · intro hm
    split at hm
    · next c rest =>
      rw [Bool.and_eq_true, decide_eq_true_eq, beq_iff_eq] at hm
      refine ⟨h.takeWhile (· ≠ '.'), c :: rest, ?_, ?_, nofun, rfl, ?_⟩
      · cases h with
        | nil => simp at hm
        | cons d h =>
          have hd : d ≠ '.' := by simpa using hm.1
          simp [hd]
      · intro hdot
        simpa using List.mem_takeWhile_imp hdot
      · rw [← hm.2, List.takeWhile_append_dropWhile]
    · cases hm
  · rintro ⟨label, domain, hne, hlabel, hdomain, rfl, rfl⟩
    obtain ⟨c, rest, rfl⟩ := List.exists_cons_of_ne_nil hdomain
    obtain ⟨d, label, rfl⟩ := List.exists_cons_of_ne_nil hne
    have hd : ∀ c ∈ d :: label, c ≠ '.' := fun c hc he => hlabel (he ▸ hc)
    have hdrop : (d :: label ++ '.' :: c :: rest).dropWhile (· ≠ '.') = '.' :: c :: rest := by
      rw [List.dropWhile_append_of_pos fun c hc => decide_eq_true (hd c hc)]
      simp
    simp only [hdrop, beq_self_eq_true, Bool.and_true, decide_eq_true_eq]
    simpa using hd d List.mem_cons_self

theorem sanloop_found (hostname : Str) (addr : Option (List UInt8))
    (exts : List (List ℕ × Except Str ExtClass)) (checked : Bool) :
    (∃ checked', sanloop hostname addr exts checked = .ok (true, checked')) ↔
      Found (fun n => sanmatch hostname addr n = true) exts := by
  induction exts generalizing checked with
  | nil => exact ⟨nofun, nofun⟩
  | cons e rest ih =>
    obtain ⟨oid, ext⟩ := e
    unfold sanloop
    split_ifs with hoid
    · rw [ih]
      refine ⟨.later fun h => absurd h hoid, ?_⟩
      rintro (_ | ⟨-, h⟩)
      · exact absurd rfl hoid
      · exact h
    · obtain rfl := not_not.1 hoid
      cases ext with
      | error err =>
        refine ⟨nofun, ?_⟩
        rintro (_ | ⟨he, -⟩)
        exact absurd (he rfl) nofun
      | ok ec =>
        cases ec with
        | other =>
          refine ⟨nofun, ?_⟩
          rintro (_ | ⟨he, -⟩)
          exact absurd (he rfl) nofun
        | subjectAltName names =>
          simp only
          split_ifs with hany
          · exact ⟨fun _ => .here (List.any_eq_true.1 hany), fun _ => ⟨true, rfl⟩⟩
          · rw [ih]
            refine ⟨.later fun _ => ⟨names, rfl⟩, ?_⟩
            rintro (⟨h⟩ | ⟨-, h⟩)
            · exact absurd (List.any_eq_true.2 h) hany
            · exact h

theorem sanloop_unchecked (hostname : Str) (addr : Option (List UInt8))
    (exts : List (List ℕ × Except Str ExtClass)) (checked : Bool) :
    sanloop hostname addr exts checked = .ok (false, false) ↔
      checked = false ∧ ∀ e ∈ exts, e.1 ≠ id_ce_subjectAltName := by
  induction exts generalizing checked with
  | nil => simp [sanloop]
  | cons e rest ih =>
    obtain ⟨oid, ext⟩ := e
    rw [List.forall_mem_cons]
    unfold sanloop
    simp only
    split_ifs with hoid
    · rw [ih]
      simp [hoid]
    · refine ⟨fun h => ?_, fun h => absurd h.2.1 (not_not.2 (not_not.1 hoid))⟩
      cases ext with
      | error err => cases h
      | ok ec =>
        cases ec with
        | other => cases h
        | subjectAltName names =>
          simp only at h
          split_ifs at h
          · cases h
          · exact absurd ((ih true).1 h).1 nofun

theorem checkedname_ok (hostname : Str) (addr : Option (List UInt8)) (cert : Certificate) :
    checkedname hostname addr cert = .ok () ↔
      Found (fun n => sanmatch hostname addr n = true) cert.exts ∨
        (∀ e ∈ cert.exts, e.1 ≠ id_ce_subjectAltName) ∧ addr = none ∧
          ∃ rdn ∈ cert.subject, ∃ ava ∈ rdn, ava.1 = id_at_commonName ∧
            Matches hostname ava.2 := by
  have hcn : (cert.subject.any fun rdn => rdn.any fun ava =>
      ava.1 == id_at_commonName && matchhostname hostname ava.2) = true ↔
      ∃ rdn ∈ cert.subject, ∃ ava ∈ rdn, ava.1 = id_at_commonName ∧ Matches hostname ava.2 := by
    simp only [List.any_eq_true, Bool.and_eq_true, beq_iff_eq, matchhostname_iff]
  rw [← sanloop_found hostname addr cert.exts false, ← hcn]
  have hun := sanloop_unchecked hostname addr cert.exts false
  rw [checkedname]
  cases hloop : sanloop hostname addr cert.exts false with
  | error err =>
    refine ⟨nofun, ?_⟩
    rintro (⟨-, ⟨⟩⟩ | ⟨h, -⟩)
    exact absurd (hun.2 ⟨rfl, h⟩) (hloop ▸ nofun)
  | ok r =>
    obtain ⟨found, checked⟩ := r
    cases found with
    | true => exact ⟨fun _ => .inl ⟨checked, rfl⟩, fun _ => rfl⟩
    | false =>
      cases checked with
      | true =>
        refine ⟨nofun, ?_⟩
        rintro (⟨-, ⟨⟩⟩ | ⟨h, -⟩)
        exact absurd (hun.2 ⟨rfl, h⟩) (hloop ▸ nofun)
      | false =>
        have hexts := (hun.1 hloop).2
        refine (require_bind.trans (and_congr_right fun _ => require_ok)).trans ?_
        rw [Option.isNone_iff_eq_none]
        refine ⟨fun h => .inr ⟨hexts, h⟩, ?_⟩
        rintro (⟨-, ⟨⟩⟩ | ⟨-, h⟩)
        exact h

theorem ipmatch_iff (a : Vector UInt8 16) (ip : List UInt8) : ipmatch a.toList ip = true ↔
    ip = a.toList ∨ ip.length = 4 ∧ a.toList = v4prefix ++ ip := by
  have ha : a.toList.length = 16 := a.length_toList
  rw [ipmatch]
  split_ifs with h
  · rw [beq_iff_eq]
    refine ⟨fun he => .inr ⟨h, he⟩, ?_⟩
    rintro (rfl | ⟨-, he⟩)
    · omega
    · exact he
  · rw [Bool.and_eq_true, decide_eq_true_eq, beq_iff_eq]
    refine ⟨fun he => .inl he.2.symm, ?_⟩
    rintro (rfl | ⟨h4, -⟩)
    · exact ⟨ha, rfl⟩
    · exact absurd h4 h

theorem sanmatch_ip (addr : Option (Vector UInt8 16)) (ip : List UInt8) :
    sanmatch hostname (addr.map Vector.toList) (.iPAddress ip) = true ↔
      ∃ a, addr = some a ∧ (ip = a.toList ∨ ip.length = 4 ∧ a.toList = v4prefix ++ ip) := by
  cases addr with
  | none => simp [sanmatch]
  | some a => simp [sanmatch, ipmatch_iff]

theorem literal_unnamed {addr : Option (Vector UInt8 16)}
    (h : ∀ a, addr = some a ↔ Literal hostname a) : addr = none ↔ ∀ a, ¬Literal hostname a := by
  simp only [← h]
  cases addr <;> simp

theorem sanmatch_named {addr : Option (Vector UInt8 16)}
    (h : ∀ a, addr = some a ↔ Literal hostname a) (n : GeneralName) :
    sanmatch hostname (addr.map Vector.toList) n = true ↔ Named hostname n := by
  cases n with
  | other => exact ⟨nofun, nofun⟩
  | dNSName str =>
    rw [sanmatch, Named, Bool.and_eq_true, matchhostname_iff, ← literal_unnamed h,
      Option.isNone_iff_eq_none, Option.map_eq_none_iff]
  | iPAddress ip =>
    simp only [sanmatch_ip, h]
    rfl

def named (n : GeneralName) : Certificate :=
  ⟨[(id_ce_subjectAltName, .ok (.subjectAltName [n]))], [], .error []⟩

theorem found_named {P : GeneralName → Prop} {n : GeneralName} : Found P (named n).exts ↔ P n := by
  constructor
  · rintro (⟨n', hn', h⟩ | ⟨-, ⟨⟩⟩)
    exact List.mem_singleton.1 hn' ▸ h
  · exact fun h => .here ⟨n, List.mem_singleton_self n, h⟩

theorem accepted_named (n : GeneralName) : (Accepted hostname (named n) ↔
    ∃ addr, ipliteral hostname = some addr ∧
      sanmatch hostname (addr.map Vector.toList) n = true) ∧
    (Allowed hostname (named n) ↔ Named hostname n) := by
  have hsan : ¬∀ e ∈ (named n).exts, e.1 ≠ id_ce_subjectAltName := fun h =>
    h _ List.mem_cons_self rfl
  simp only [accepted_iff, checkedname_ok, Allowed, found_named, hsan, false_and, or_false,
    and_self]

/-- For every certificate that is so the names in it are matched as they should be, exactly where
the server name is read as the address it is a literal of, or as none. -/
theorem hostname_exact (hostname : Str) :
    (∀ cert, Accepted hostname cert ↔ Allowed hostname cert) ↔ Readable hostname := by
  constructor
  · intro h
    have hn : ∀ n, (∃ addr, ipliteral hostname = some addr ∧
        sanmatch hostname (addr.map Vector.toList) n = true) ↔ Named hostname n := fun n =>
      (accepted_named n).1.symm.trans ((h (named n)).trans (accepted_named n).2)
    have hip : ∀ a : Vector UInt8 16,
        Named hostname (.iPAddress a.toList) ↔ Literal hostname a := by
      intro a
      have ha : a.toList.length = 16 := a.length_toList
      constructor
      · rintro ⟨a', ha', he | ⟨h4, -⟩⟩
        · exact Vector.toList_inj.1 he ▸ ha'
        · omega
      · exact fun ha => ⟨a, ha, .inl rfl⟩
    cases haddr : ipliteral hostname with
    | none =>
      exfalso
      simp only [haddr, reduceCtorEq, false_and, exists_false, false_iff] at hn
      have hno : ∀ a, ¬Literal hostname a := fun a ha => hn _ ((hip a).2 ha)
      exact hn (.dNSName hostname) ⟨hno, .inl rfl⟩
    | some addr =>
      refine ⟨addr, haddr, fun a => ?_⟩
      have ha : a.toList.length = 16 := a.length_toList
      rw [← hip a, ← hn, haddr]
      simp only [Option.some.injEq, exists_eq_left', sanmatch_ip]
      constructor
      · exact fun h => ⟨a, h, .inl rfl⟩
      · rintro ⟨a', ha', he | ⟨h4, -⟩⟩
        · rw [ha', Vector.toList_inj.1 he]
        · omega
  · rintro ⟨addr, haddr, hreads⟩ cert
    have hok := checkedname_ok hostname (addr.map Vector.toList) cert
    have hnone : addr.map Vector.toList = none ↔ ∀ a, ¬Literal hostname a :=
      Option.map_eq_none_iff.trans (literal_unnamed hreads)
    simp only [sanmatch_named hreads, hnone] at hok
    rw [Allowed, ← hok, accepted_iff]
    constructor
    · rintro ⟨addr', haddr', hchecked⟩
      obtain rfl : addr = addr' := Option.some.inj (haddr.symm.trans haddr')
      exact hchecked
    · exact fun hchecked => ⟨addr, haddr, hchecked⟩

theorem ten_unliteral (a : Vector UInt8 16) : ¬Literal (lit "10") a := by
  rintro (⟨octets, h, -⟩ | ⟨g, h, -⟩)
  · have hnone : Web.octets (lit "10") = none := by decide
    rw [hnone] at h
    cases h
  · rcases h.first with hp | ⟨p, r, v, heq, -⟩
    · exact absurd hp (by decide)
    · have hcolon : ':' ∈ lit "10" := by simp [heq]
      exact absurd hcolon (by decide)

/-- The name 10 is read as the address 0.0.0.16. -/
theorem ten_accepted :
    Accepted (lit "10") (named (.iPAddress [0, 0, 0, 16])) ∧
      ¬Allowed (lit "10") (named (.iPAddress [0, 0, 0, 16])) := by
  constructor
  · let addr : Vector UInt8 16 := ⟨#[0, 0, 0, 0, 0, 0, 0, 0, 0, 0, 0xFF, 0xFF, 0, 0, 0, 16], rfl⟩
    exact (accepted_named _).1.2 ⟨some addr, by decide, by decide⟩
  · intro h
    obtain ⟨a, ha, -⟩ := (accepted_named _).2.1 h
    exact ten_unliteral a ha

end Infernode.Tls
