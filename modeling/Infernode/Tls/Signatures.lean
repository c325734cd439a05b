import Infernode.Tls.Authentic

/-!
# Signature checks

The two checks of RSA signatures of `tls.b` against RFC 8017. The check of PSS takes the encoded
message to have `8 * modlen - 1` bits and reduces a signature that is not below the modulus, so
it is exact where the modulus has `8 * modlen` bits and the signature is below it.
-/

namespace Infernode.Tls

open Limbo (Str lit)

variable {key : RSAKey} {sig mhash em db salt : List UInt8} {k n : ℕ}

def RSAKey.Signs (key : RSAKey) (digestinfo sig : List UInt8) : Prop :=
  sig.length = key.modlen ∧ bytestoip sig < key.modulus ∧
    ∃ n, 8 ≤ n ∧ n + digestinfo.length + 3 = key.modlen ∧
      bytestoip sig ^ key.exponent % key.modulus =
        bytestoip ([0, 1] ++ List.replicate n 0xFF ++ 0 :: digestinfo)

/-- MGF1. -/
def maskof (hash : List UInt8 → List UInt8) (hlen : ℕ) (seed : List UInt8) (n : ℕ) : List UInt8 :=
  ((List.range ((n + hlen - 1) / hlen)).flatMap fun c => hash (seed ++ iptobytes 4 c)).take n

def cleartop (n : ℕ) : List UInt8 → List UInt8
  | b :: l => (b &&& UInt8.ofNat (0xFF >>> n)) :: l
  | [] => []

def Encodes (hash : List UInt8 → List UInt8) (mhash em : List UInt8) (embits : ℕ) : Prop :=
  ∃ maskeddb h salt : List UInt8, em = maskeddb ++ h ++ [0xBC] ∧ h.length = mhash.length ∧
    salt.length = mhash.length ∧ mhash.length + mhash.length + 2 ≤ em.length ∧
    bytestoip em < 2 ^ embits ∧
    cleartop (8 * em.length - embits)
        (List.zipWith (· ^^^ ·) maskeddb (maskof hash mhash.length h maskeddb.length)) =
      List.replicate (maskeddb.length - mhash.length - 1) 0 ++ 1 :: salt ∧
    h = hash (List.replicate 8 0 ++ mhash ++ salt)

def RSAKey.SignsPss (hash : List UInt8 → List UInt8) (key : RSAKey) (mhash sig : List UInt8) :
    Prop :=
  sig.length = key.modlen ∧ bytestoip sig < key.modulus ∧
    ∃ em : List UInt8, em.length = (key.modulus.size - 1 + 7) / 8 ∧
      bytestoip em = bytestoip sig ^ key.exponent % key.modulus ∧
      Encodes hash mhash em (key.modulus.size - 1)

theorem bytestoip_snoc (b : List UInt8) (x : UInt8) :
    bytestoip (b ++ [x]) = bytestoip b * 256 + x.toNat := by
  rw [bytestoip, List.foldl_append]
  rfl

theorem iptobytes_length (k n : ℕ) : (iptobytes k n).length = k := by
  induction k generalizing n with
  | zero => rfl
  | succ k ih => simp [iptobytes, ih]

theorem bytestoip_iptobytes (k : ℕ) (h : n < 256 ^ k) : bytestoip (iptobytes k n) = n := by
  induction k generalizing n with
  | zero =>
    obtain rfl : n = 0 := by simpa using h
    rfl
  | succ k ih =>
    rw [iptobytes, bytestoip_snoc, ih (Nat.div_lt_of_lt_mul (by rwa [pow_succ'] at h)),
      UInt8.toNat_ofNat']
    omega

theorem iptobytes_bytestoip (b : List UInt8) : iptobytes b.length (bytestoip b) = b := by
  induction b using List.reverseRecOn with
  | nil => rfl
  | append_singleton b x ih =>
    have hx := x.toNat_lt
    have hdiv : (bytestoip b * 256 + x.toNat) / 256 = bytestoip b := by omega
    rw [List.length_append, List.length_singleton, iptobytes, bytestoip_snoc, hdiv, ih]
    congr 2
    exact UInt8.toNat_inj.1 (by rw [UInt8.toNat_ofNat']; omega)

theorem bytestoip_lt (b : List UInt8) : bytestoip b < 256 ^ b.length := by
  induction b using List.reverseRecOn with
  | nil => exact Nat.one_pos
  | append_singleton b x ih =>
    have hx := x.toNat_lt
    rw [bytestoip_snoc, List.length_append, List.length_singleton, pow_succ]
    omega

theorem eq_iptobytes : em.length = k ∧ bytestoip em = n ↔ n < 256 ^ k ∧ em = iptobytes k n := by
  constructor
  · rintro ⟨rfl, rfl⟩
    exact ⟨bytestoip_lt em, (iptobytes_bytestoip em).symm⟩
  · rintro ⟨h, rfl⟩
    exact ⟨iptobytes_length k n, bytestoip_iptobytes k h⟩

/-- A modulus takes all its bytes, and none more. -/
def RSAKey.Sized (key : RSAKey) : Prop :=
  0 < key.modulus ∧ key.modlen = (key.modulus.size + 7) / 8

theorem RSAKey.Sized.lt (h : key.Sized) : key.modulus < 256 ^ key.modlen := by
  have hpow : (256 : ℕ) ^ key.modlen = 2 ^ (8 * key.modlen) := by
    rw [pow_mul]
    norm_num
  rw [hpow, ← Nat.size_le, h.2]
  omega

theorem pkcs1v15_signs (hkey : key.Sized) (digestinfo : List UInt8) :
    pkcs1v15_verify sig key digestinfo = true ↔ key.Signs digestinfo sig := by
  rw [pkcs1v15_verify, RSAKey.Signs]
  have hlt : bytestoip sig ^ key.exponent % key.modulus < 256 ^ key.modlen :=
    (Nat.mod_lt _ hkey.1).trans hkey.lt
  constructor
  · intro h
    split_ifs at h with h1 h2
    simp only [not_or, not_not, not_lt, not_le] at h1 h2
    refine ⟨h1.1, h2, key.modlen - 3 - digestinfo.length, by omega, by omega, ?_⟩
    rw [← beq_iff_eq.1 h, RSAKey.open, bytestoip_iptobytes _ hlt]
  · rintro ⟨hlen, hsig, n, hn, hk, heq⟩
    have hopen := (eq_iptobytes.1 ⟨by simp; omega, heq.symm⟩ :
      _ ∧ _ = iptobytes key.modlen (bytestoip sig ^ key.exponent % key.modulus)).2
    rw [if_neg (by omega), if_neg (by omega), RSAKey.open, ← hopen, beq_iff_eq]
    rw [show key.modlen - 3 - digestinfo.length = n by omega]

theorem require_bind {α : Type} {b : Bool} {err : Str} {f : Unit → Except Str α} {a : α} :
    (require b err >>= f) = .ok a ↔ b = true ∧ f () = .ok a := by
  cases b
  · exact ⟨nofun, nofun⟩
  · exact ⟨fun h => ⟨rfl, h⟩, And.right⟩

theorem bytestoip_cons (b : UInt8) (l : List UInt8) :
    bytestoip (b :: l) = b.toNat * 256 ^ l.length + bytestoip l := by
  induction l using List.reverseRecOn with
  | nil => simp [bytestoip]
  | append_singleton l x ih =>
    rw [← List.cons_append, bytestoip_snoc, ih, bytestoip_snoc, List.length_append,
      List.length_singleton, pow_succ]
    ring

set_option maxRecDepth 2000 in
theorem top_zero (hem : em ≠ []) : em.headD 0 &&& 0x80 = 0 ↔
    bytestoip em < 2 ^ (8 * em.length - 1) := by
  cases em with
  | nil => exact absurd rfl hem
  | cons b l =>
    have hall : ∀ n < 256, (UInt8.ofNat n &&& 0x80 = 0 ↔ n < 128) := by decide
    have hb := hall b.toNat b.toNat_lt
    rw [UInt8.ofNat_toNat] at hb
    have hl := bytestoip_lt l
    have hpow : 2 ^ (8 * (b :: l).length - 1) = 128 * 256 ^ l.length := by
      rw [List.length_cons, show 8 * (l.length + 1) - 1 = 7 + 8 * l.length by omega, pow_add,
        pow_mul]
      norm_num
    rw [List.headD_cons, hb, bytestoip_cons, hpow]
    generalize 256 ^ l.length = m at hl
    constructor
    · intro h
      have := Nat.mul_le_mul_right m (Nat.succ_le_of_lt h)
      rw [Nat.succ_mul] at this
      omega
    · intro h
      by_contra hge
      have := Nat.mul_le_mul_right m (not_lt.1 hge)
      omega

theorem range_flatMap_length {f : ℕ → List UInt8} {hlen : ℕ} (hf : ∀ c, (f c).length = hlen)
    (n : ℕ) : ((List.range n).flatMap f).length = n * hlen := by
  induction n with
  | zero => simp
  | succ n ih =>
    rw [List.range_succ, List.flatMap_append, List.length_append, ih, List.flatMap_singleton, hf]
    ring

theorem range_flatMap_take {f : ℕ → List UInt8} {hlen a c : ℕ} (hf : ∀ c, (f c).length = hlen)
    (hn : n ≤ c * hlen) (hca : c ≤ a) :
    ((List.range a).flatMap f).take n = ((List.range c).flatMap f).take n := by
  induction a, hca using Nat.le_induction with
  | base => rfl
  | succ a hca ih =>
    rw [List.range_succ, List.flatMap_append, List.take_append_of_le_length, ih]
    rw [range_flatMap_length hf]
    exact hn.trans (Nat.mul_le_mul_right _ hca)

theorem mgf1_maskof (K : Keyring) {hlen : ℕ} (hpos : 0 < hlen)
    (hhash : ∀ m, (K.hashbytes m hlen).length = hlen) (seed : List UInt8) (n : ℕ) :
    K.mgf1 seed n hlen = maskof (K.hashbytes · hlen) hlen seed n ∧
      (K.mgf1 seed n hlen).length = n := by
  have hdiv := Nat.div_add_mod (n + hlen - 1) hlen
  have hmod := Nat.mod_lt (n + hlen - 1) hpos
  have hn : n ≤ (n + hlen - 1) / hlen * hlen := by
    rw [Nat.mul_comm]
    omega
  have hc : (n + hlen - 1) / hlen ≤ n := by
    rw [← Nat.lt_succ_iff, Nat.div_lt_iff_lt_mul hpos]
    nlinarith [Nat.sub_lt (Nat.add_pos_right n hpos) Nat.one_pos]
  refine ⟨range_flatMap_take (fun c => hhash _) hn hc, ?_⟩
  rw [Keyring.mgf1, List.length_take, range_flatMap_length fun c => hhash _]
  exact min_eq_left (Nat.le_mul_of_pos_right n hpos)

theorem padded_iff (db : List UInt8) {pslen : ℕ} (hlen : pslen < db.length) :
    ((db.take pslen).all (· == 0)) = true ∧ db.getD pslen 0 = 1 ↔
      db = List.replicate pslen 0 ++ 1 :: db.drop (pslen + 1) := by
  constructor
  · rintro ⟨hall, hone⟩
    have htake : db.take pslen = List.replicate pslen 0 := by
      refine List.eq_replicate_iff.2 ⟨?_, by simpa using hall⟩
      rw [List.length_take]
      omega
    rw [List.getD_eq_getElem _ _ hlen] at hone
    rw [← hone, ← List.drop_eq_getElem_cons hlen, ← htake, List.take_append_drop]
  · intro h
    generalize db.drop (pslen + 1) = salt at h
    subst h
    simp

theorem split_iff {x : UInt8} {dblen hlen : ℕ} (maskeddb h : List UInt8)
    (hem : em.length = dblen + hlen + 1) : em = maskeddb ++ h ++ [x] ∧ h.length = hlen ↔
      em.getLast? = some x ∧ maskeddb = em.take dblen ∧ h = (em.drop dblen).take hlen := by
  constructor
  · rintro ⟨rfl, rfl⟩
    obtain rfl : maskeddb.length = dblen := by
      simp only [List.length_append, List.length_singleton] at hem
      omega
    simp [List.append_assoc]
  · rintro ⟨hlast, rfl, rfl⟩
    obtain ⟨init, rfl⟩ := List.getLast?_eq_some_iff.1 hlast
    rw [List.length_append, List.length_singleton] at hem
    have hdrop : (init.drop dblen).length = hlen := by
      rw [List.length_drop]
      omega
    rw [List.take_append_of_le_length (by omega), List.drop_append_of_le_length (by omega),
      ← hdrop, List.take_left, List.take_append_drop]
    exact ⟨rfl, rfl⟩

theorem rsapss_iff (K : Keyring) (mhash sig : List UInt8) (key : RSAKey)
    (hash : mhash.length = 32 ∨ mhash.length = 48) (hlen : sig.length = key.modlen)
    (hpos : 0 < key.modlen) (hhash : ∀ m, (K.hashbytes m mhash.length).length = mhash.length) :
    K.rsapss_verify mhash sig key = .ok () ↔
      Encodes (K.hashbytes · mhash.length) mhash (key.open sig) (8 * key.modlen - 1) := by
  have hopen : (key.open sig).length = key.modlen := iptobytes_length _ _
  rw [Keyring.rsapss_verify]
  simp only [require_bind, require_ok, decide_eq_true_eq]
  rw [← hopen] at hpos hlen ⊢
  generalize key.open sig = em at hpos hlen ⊢
  by_cases hdb : mhash.length < em.length - mhash.length - 1
  swap
  · refine iff_of_false (fun h => hdb h.2.2.2.1) ?_
    rintro ⟨-, -, -, -, -, -, hge, -⟩
    omega
  have hone8 : 8 * em.length - (8 * em.length - 1) = 1 := by omega
  have hlast := fun maskeddb h => split_iff (x := 0xBC) maskeddb h
    (show em.length = em.length - mhash.length - 1 + mhash.length + 1 by omega)
  generalize hdblen : em.length - mhash.length - 1 = dblen at hdb hlast ⊢
  obtain ⟨hmask, hmlen⟩ := mgf1_maskof K (by omega) hhash ((em.drop dblen).take mhash.length) dblen
  rw [hmask] at hmlen ⊢
  have htake : (em.take dblen).length = dblen := by
    rw [List.length_take]
    omega
  have hzlen : (List.zipWith (· ^^^ ·) (em.take dblen) (maskof (K.hashbytes · mhash.length)
      mhash.length ((em.drop dblen).take mhash.length) dblen)).length = dblen := by
    rw [List.length_zipWith, htake, hmlen, min_self]
  obtain ⟨b, rest, hz⟩ := List.exists_cons_of_length_pos (hzlen ▸ (by omega : 0 < dblen))
  rw [hz] at hzlen
  have hpad := padded_iff ((b &&& 0x7F) :: rest)
    (lt_of_lt_of_eq (by omega : dblen - mhash.length - 1 < dblen) hzlen.symm)
  rw [show dblen - mhash.length - 1 + 1 = dblen - mhash.length by omega] at hpad
  have hclear : cleartop 1 (b :: rest) = (b &&& 0x7F) :: rest := rfl
  rw [hz]
  constructor
  · rintro ⟨-, -, hx, -, htop, hall, hone, hh⟩
    obtain ⟨hem, hhl⟩ := (hlast _ _).2 ⟨hx, rfl, rfl⟩
    refine ⟨_, _, ((b &&& 0x7F) :: rest).drop (dblen - mhash.length), hem, hhl, ?_, by omega,
      (top_zero (List.ne_nil_of_length_pos hpos)).1 htop, ?_, hh⟩
    · rw [List.length_drop, List.length_cons, ← List.length_cons (a := b), hzlen]
      omega
    · rw [hone8, htake, hz, hclear]
      exact hpad.1 ⟨hall, hone⟩
  · rintro ⟨maskeddb, h, salt, hem, hhl, hsl, hge, htop, hdb', hh⟩
    obtain ⟨hx, rfl, rfl⟩ := (hlast _ _).1 ⟨hem, hhl⟩
    rw [hone8, htake, hz, hclear] at hdb'
    have hsalt : ((b &&& 0x7F) :: rest).drop (dblen - mhash.length) = salt := by
      have hcut : ∀ n, (List.replicate n (0 : UInt8) ++ 1 :: salt).drop (n + 1) = salt :=
        fun n => by simp [List.drop_append]
      have := hcut (dblen - mhash.length - 1)
      rwa [← hdb', show dblen - mhash.length - 1 + 1 = dblen - mhash.length by omega] at this
    obtain ⟨hall, hone⟩ := hpad.2 (hsalt ▸ hdb')
    refine ⟨hash, hlen, hx, hdb, (top_zero (List.ne_nil_of_length_pos hpos)).2 htop, hall, hone, ?_⟩
    rw [hsalt]
    exact hh

theorem RSAKey.open_value (hkey : key.Sized) (sig em : List UInt8) :
    em.length = key.modlen ∧ bytestoip em = bytestoip sig ^ key.exponent % key.modulus ↔
      em = key.open sig := by
  rw [eq_iptobytes]
  exact and_iff_right ((Nat.mod_lt _ hkey.1).trans hkey.lt)

/-- What indexes the encoded messages, of `k` bytes: the last byte, the parts that are cut out of
one of PSS and the byte before its salt, and the padding of one of PKCS1. -/
def Within (k hashlen digestinfo : ℤ) : Prop :=
  0 ≤ k - 1 ∧
    (∀ dblen, dblen = k - hashlen - 1 → hashlen < dblen → 0 < dblen ∧ dblen + hashlen ≤ k ∧
      0 ≤ dblen - hashlen - 1 ∧ dblen - hashlen - 1 < dblen) ∧
    ∀ pad, pad = k - 3 - digestinfo → digestinfo ≤ k - 11 →
      2 ≤ k ∧ 0 ≤ pad ∧ 2 + pad < k ∧ 3 + pad ≤ k

/-- A key of 535 bits. -/
def oddkey : RSAKey where
  modulus :=
    0x6d56985f30e79abe4a0ebda75c800563c57b7d0ddcaf1913df0f478bad635bb5e0e2 * 2 ^ 132 * 2 ^ 132 +
    0x321a14fea9a9d8f4e980d8d6666de733a3d9e6405cd26dafd848efc3f630345a33
  modlen := 67
  exponent := 3

/-- The SHA-256 of no bytes. -/
def emptyhash : List UInt8 :=
  iptobytes 32 0xe3b0c44298fc1c149afbf4c8996fb92427ae41e4649b934ca495991b7852b855

def emptysalted : List UInt8 :=
  iptobytes 32 0x5e25bcf2924e603ed8b91dc11c2a1d82ab296a72ccaf9af015d952d3da7de073

def oddkeys : Keyring :=
  { peerkeys 0 with
    sha256 := fun m =>
      if m = emptysalted ++ [0, 0, 0, 0] then
        iptobytes 32 0xebf699d233b24c95e57c8f8ece798965821314ff341706322e9260d3c03c2975
      else if m = emptysalted ++ [0, 0, 0, 1] then
        iptobytes 32 0x6d4614c961472faaca6d58f14fe53723ad01af1497680d822f828701fa2fddfc
      else if m = List.replicate 8 0 ++ emptyhash ++ List.replicate 32 0 then emptysalted
      else List.replicate 32 0
    sha384 := fun _ => List.replicate 48 0 }

def oddsig : List UInt8 :=
  iptobytes 34 0x28270854bd139f89c24afd7b662f7fa3c53ab540c52d76a7b98be2e4a6a865cf0689 ++
    iptobytes 33 0x8ed9c93d6dcb1fc2cf96bda00b7d7635150ec96f3d5805aef15a3d56d30be80c69

theorem oddkey_size : oddkey.modulus.size = 535 := by
  have hsize (n : ℕ) (hlo : 2 ^ 250 * 2 ^ 250 * 2 ^ n ≤ oddkey.modulus)
      (hhi : oddkey.modulus < 2 ^ 250 * 2 ^ 250 * 2 ^ (n + 1)) :
      oddkey.modulus.size = 250 + 250 + (n + 1) := by
    rw [← pow_add, ← pow_add] at hlo hhi
    exact le_antisymm (Nat.size_le.2 hhi) (Nat.lt_size.2 hlo)
  exact hsize 34 (by norm_num [oddkey]) (by norm_num [oddkey])

end Infernode.Tls
