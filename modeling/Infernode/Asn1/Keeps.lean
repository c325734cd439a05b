import Infernode.Asn1.Read

/-!
# Elements that come back

An element is decoded from its encoding as it was but for a few values.
-/

namespace Infernode.Asn1

open Limbo

variable {first : ℕ} {tag : Tag} {bs : List UInt8}

def Value.Keeps (first : ℕ) (tag : Tag) : Value → Prop
  | .bool v => v = first
  | .int _ | .bigint _ => tag.num ≠ 10
  | .bitstring _ bits => bits ≠ [] ∧ bits.length < 0x0FFFFFFF
  | .octets _ => tag.constr = false
  | .objid nums => ∀ y ∈ nums[1]?, y < 40
  | _ => True

mutual

def Elem.Keeps (first : ℕ) : Elem → Prop
  | .elem tag val => val.Keeps first tag
  | .seq _ l | .set _ l => AllKeep first l

def AllKeep (first : ℕ) : List Elem → Prop
  | [] => True
  | e :: l => e.Keeps first ∧ AllKeep first l

end

def Elem.tagbyte : Elem → ℕ
  | .elem tag _ => tag.cl + min tag.num 31
  | .seq tag _ | .set tag _ => tag.cl + 0x20 + min tag.num 31

def Elem.size (e : Elem) : ℕ := ((ber e).getD []).length

def RoundTrips (e : Elem) : Prop :=
  ∃ b, encode e = some ([], b) ∧ decode b = some ([], some e)

theorem digits_of_nonneg {v : ℤ} (hv : 0 ≤ v) : (digits v : ℤ) = v := by
  rw [digits, if_neg (not_lt.mpr hv)]
  exact Int.toNat_of_nonneg hv

theorem objid_read {x y : ℤ} {zs : List ℤ} (hx : 0 ≤ x ∧ x ≤ 2) (hy : 0 ≤ y ∧ y < 2 ^ 31)
    (hzs : ∀ z ∈ zs, 0 ≤ z ∧ z < 2 ^ 31) :
    arcs ((subids (x :: y :: zs)).map digits) = x :: y :: zs ↔ y < 40 := by
  have hrest : (zs.map digits).map Int.ofNat = zs := by
    rw [List.map_map]
    conv_rhs => rw [← List.map_id zs]
    exact List.map_congr_left fun z hz => digits_of_nonneg (hzs z hz).1
  have hfirst : (x * 40).bmod (2 ^ 32) = x * 40 := by
    rw [Int.bmod_def]
    split_ifs <;> omega
  rw [subids, List.map_cons, arcs, hrest, hfirst]
  constructor
  · intro heq
    have hsecond := (List.cons.inj (List.cons.inj heq).2).1
    omega
  · intro hlt
    have hsum : (x * 40 + y).bmod (2 ^ 32) = x * 40 + y := by
      rw [Int.bmod_def]
      split_ifs <;> omega
    have hdigits := digits_of_nonneg (v := x * 40 + y) (by omega)
    rw [hsum]
    congr 1
    · omega
    · congr 1
      omega

theorem Value.Fits.read_iff {val : Value} (h : val.Fits tag)
    (hleaf : leaf_enc tag val ≠ none) :
    (val.read first).map (Elem.elem { tag with constr := false }) = some (.elem tag val) ↔
      val.Keeps first tag := by
  have hbyte {num : ℕ} : ({ (⟨0, num, false⟩ : Tag) with constr := false } : Tag) =
    ⟨0, num, false⟩ := rfl
  cases val with
  | bool v =>
    obtain ⟨rfl, -⟩ := h
    simp [Value.read, Value.Keeps, eq_comm]
  | int v | bigint bytes =>
    rcases h.1 with rfl | rfl
    · simp [Value.read, Value.Keeps]
    · exact absurd rfl hleaf
  | octets bytes =>
    simp only [Value.read, Value.Keeps, Option.map_some, Option.some.injEq, Elem.elem.injEq,
      and_true]
    constructor
    · intro heq
      exact (congrArg Tag.constr heq).symm
    · intro hconstr
      rw [← hconstr]
  | bitstring unusedbits bits =>
    obtain ⟨rfl, -⟩ := h
    rw [Value.read, Value.Keeps]
    split_ifs with hbad
    · simp only [Option.map_none, reduceCtorEq, false_iff, not_and, not_lt]
      exact fun hne => hbad.resolve_left hne
    · rw [not_or, not_le] at hbad
      simp [hbad]
  | objid nums =>
    obtain ⟨rfl, x, y, zs, rfl, hx, hy, hzs⟩ := h
    have hread := objid_read hx hy hzs
    simp [Value.read, Value.Keeps, hread]
  | null =>
    obtain rfl := h
    simp [Value.read, Value.Keeps]
  | string s =>
    obtain ⟨-, -, hconstr⟩ := h
    simp [Value.read, Value.Keeps, ← hconstr]
  | real _ | other _ | eoc => exact h.elim

theorem Value.Fits.keeps_enc {val : Value} (h : val.Fits tag) (hkeeps : val.Keeps first tag) :
    leaf_enc tag val ≠ none := by
  cases val with
  | bool v | objid nums =>
    obtain ⟨rfl, -⟩ := h
    exact nofun
  | null =>
    obtain rfl := h
    exact nofun
  | int v | bigint bytes =>
    rcases h.1 with rfl | rfl
    · exact nofun
    · exact absurd rfl hkeeps
  | octets bytes =>
    have hkind : (if tag.cl = 0 then Kind.of tag.num else (Value.octets bytes).kind tag) =
        .octets := by
      rcases h with rfl | rfl | ⟨hcl, -⟩
      · rfl
      · rfl
      · rw [if_neg hcl, Value.kind]
    unfold leaf_enc
    rw [hkind]
    exact nofun
  | bitstring unusedbits bits =>
    obtain ⟨rfl, hunused, -⟩ := h
    change (if bits = [] then some (1, [0]) else if 7 < unusedbits then none
      else some (1 + bits.length, byte unusedbits :: bits)) ≠ none
    rw [if_neg hkeeps.1, if_neg (not_lt.mpr hunused)]
    exact nofun
  | string s =>
    obtain ⟨hcl, hkind, -⟩ := h
    unfold leaf_enc
    rw [if_pos hcl, hkind]
    exact nofun
  | real _ | other _ | eoc => exact h.elim

mutual

theorem Elem.Fits.keeps_ber : ∀ (e : Elem) (d : ℕ), e.Fits d → e.Keeps first → ber e ≠ none
  | .elem tag val, d, hfit, hkeeps => by
    have hleaf := Value.Fits.keeps_enc (by simpa only [Elem.Fits] using hfit)
      (by simpa only [Elem.Keeps] using hkeeps)
    rw [ber]
    exact fun hnone => hleaf (Option.map_eq_none_iff.mp hnone)
  | .seq tag l, d, hfit, hkeeps | .set tag l, d, hfit, hkeeps => by
    rw [Elem.Fits] at hfit
    obtain ⟨rfl, hfit⟩ := hfit
    exact fun hnone => AllFit.keeps_bers l d hfit (by simpa only [Elem.Keeps] using hkeeps)
      (Option.map_eq_none_iff.mp (show (bers l).map _ = none from hnone))

theorem AllFit.keeps_bers : ∀ (l : List Elem) (d : ℕ), AllFit l d → AllKeep first l →
    bers l ≠ none
  | [], d, hfit, hkeeps => nofun
  | e :: l, 0, hfit, hkeeps => by simp [AllFit] at hfit
  | e :: l, d + 1, hfit, hkeeps => by
    rw [AllFit] at hfit
    rw [AllKeep] at hkeeps
    obtain ⟨bs, hbs⟩ := Option.ne_none_iff_exists'.mp (Elem.Fits.keeps_ber e d hfit.1 hkeeps.1)
    obtain ⟨cs, hcs⟩ := Option.ne_none_iff_exists'.mp (AllFit.keeps_bers l (d + 1) hfit.2 hkeeps.2)
    simp [bers, hbs, hcs]

end

mutual

theorem Elem.Fits.read_iff : ∀ (e : Elem) (d : ℕ), e.Fits d → ber e ≠ none →
    (e.read first = some e ↔ e.Keeps first)
  | .elem tag val, d, hfit, hber => by
    rw [Elem.read, Elem.Keeps]
    refine Value.Fits.read_iff (by simpa only [Elem.Fits] using hfit) fun hnone => hber ?_
    rw [ber, hnone]
    rfl
  | .seq tag l, d, hfit, hber | .set tag l, d, hfit, hber => by
    rw [Elem.Fits] at hfit
    obtain ⟨rfl, hfit⟩ := hfit
    have hbers : bers l ≠ none := fun hnone => hber (by simp [ber, list_enc, Kind.of, hnone])
    rw [Elem.read, Elem.Keeps, ← AllFit.reads_iff l d hfit hbers]
    cases reads first l <;> simp

theorem AllFit.reads_iff : ∀ (l : List Elem) (d : ℕ), AllFit l d → bers l ≠ none →
    (reads first l = some l ↔ AllKeep first l)
  | [], d, hfit, hbers => by simp [reads, AllKeep]
  | e :: l, 0, hfit, hbers => by simp [AllFit] at hfit
  | e :: l, d + 1, hfit, hbers => by
    rw [AllFit] at hfit
    have hber : ber e ≠ none := fun hnone => hbers (by simp [bers, hnone])
    have hrest : bers l ≠ none := fun hnone => hbers (by simp [bers, hnone])
    rw [reads, AllKeep, ← Elem.Fits.read_iff e d hfit.1 hber,
      ← AllFit.reads_iff l (d + 1) hfit.2 hrest]
    cases e.read first <;> cases reads first l <;> simp

end

theorem header_first (htag : tag.Valid) (constr : Bool) (vlen : ℕ) (cs : List UInt8) :
    getb (header tag constr vlen ++ cs) 0 =
      tag.cl + (if constr then 0x20 else 0) + min tag.num 31 := by
  have hcl := htag.cl
  rw [header]
  split_ifs <;> simp only [List.cons_append, List.nil_append, getb, List.getD_cons_zero] <;>
    rw [byte_toNat (by omega)] <;> omega

theorem Value.Fits.tag_ne {val : Value} (h : val.Fits tag) : ¬ (tag.cl = 0 ∧ tag.num = 0) := by
  rintro ⟨hcl, hnum⟩
  cases val with
  | bool v | bitstring unusedbits bits | objid nums =>
    obtain ⟨rfl, -⟩ := h
    exact nomatch hnum
  | int v | bigint bytes => rcases h.1 with rfl | rfl <;> exact nomatch hnum
  | octets bytes =>
    rcases h with rfl | rfl | h
    · exact nomatch hnum
    · exact nomatch hnum
    · exact h.1 hcl
  | null =>
    obtain rfl := h
    exact nomatch hnum
  | string s =>
    have hkind := h.2.1
    rw [hnum] at hkind
    exact nomatch hkind
  | real _ | other _ | eoc => exact h

theorem Elem.Fits.tagbyte {e : Elem} {d : ℕ} (hfit : e.Fits d) (h : ber e = some bs) :
    getb bs 0 = e.tagbyte ∧ e.tagbyte ≠ 0 := by
  cases e with
  | elem tag val =>
    have hval : val.Fits tag := by simpa only [Elem.Fits] using hfit
    rw [ber] at h
    obtain ⟨⟨vlen, cs⟩, -, rfl⟩ := Option.map_eq_some_iff.mp h
    have hne := hval.tag_ne
    refine ⟨header_first hval.valid _ _ _, ?_⟩
    rw [Elem.tagbyte]
    omega
  | seq tag l | set tag l =>
    rw [Elem.Fits] at hfit
    obtain ⟨rfl, -⟩ := hfit
    obtain ⟨cs, -, rfl⟩ := Option.map_eq_some_iff.mp (show (bers l).map _ = some bs from h)
    exact ⟨header_first ⟨.inl rfl, by norm_num⟩ _ _ _, nofun⟩

theorem errstr_nil {ecode : Err} {i n : ℕ} : errstr ecode i n = [] ↔ ecode = .ok ∧ i = n := by
  rw [errstr]
  split_ifs with h
  · exact iff_of_true rfl h
  · refine iff_of_false (fun hnil => ?_) h
    have hlength := congrArg List.length hnil
    simp [lit] at hlength

theorem roundTrips_iff {e : Elem} (hfit : e.Fits Maxdepth) :
    RoundTrips e ↔ e.Keeps e.tagbyte ∧ e.size < 2 ^ 31 := by
  cases h : ber e with
  | none =>
    refine iff_of_false ?_ fun hkeeps => Elem.Fits.keeps_ber e _ hfit hkeeps.1 h
    rintro ⟨b, hb, -⟩
    rw [encode_bad h] at hb
    exact nomatch (Prod.mk.inj (Option.some.inj hb)).1
  | some bs =>
    have hsize : e.size = bs.length := by rw [Elem.size, h]; rfl
    obtain ⟨hfirst, hne⟩ := Elem.Fits.tagbyte hfit h
    rw [hsize, ← Elem.Fits.read_iff e _ hfit (by rw [h]; exact nofun), ← hfirst]
    rw [← hfirst] at hne
    have hencode := encode_eq h
    by_cases hlt : bs.length < 2 ^ 31
    · have hdecoded := ber_decode_ber e Maxdepth hfit h (i := 0) (List.append_nil bs).symm
        hlt hne
      rw [if_pos hlt] at hencode
      rw [RoundTrips, hencode]
      simp only [hlt, and_true]
      rw [Nat.zero_add] at hdecoded
      cases hread : e.read (getb bs 0) with
      | none =>
        rw [hread] at hdecoded
        obtain ⟨err, j, herr, hdecoded⟩ := hdecoded
        refine iff_of_false ?_ nofun
        rintro ⟨b, hb, hdecode⟩
        obtain ⟨-, rfl⟩ := Prod.mk.inj (Option.some.inj hb)
        rw [decode, hdecoded] at hdecode
        exact herr (errstr_nil.mp (Prod.mk.inj (Option.some.inj hdecode)).1).1
      | some e' =>
        rw [hread, Decoded] at hdecoded
        have hdecode : decode bs = some ([], some e') := by
          rw [decode, hdecoded]
          exact congrArg some (Prod.ext (errstr_nil.mpr ⟨rfl, rfl⟩) rfl)
        constructor
        · rintro ⟨b, hb, hb'⟩
          obtain ⟨-, rfl⟩ := Prod.mk.inj (Option.some.inj hb)
          rw [hdecode] at hb'
          exact (Prod.mk.inj (Option.some.inj hb')).2
        · intro heq
          exact ⟨bs, rfl, by rw [hdecode, heq]⟩
    · refine iff_of_false ?_ fun hkeeps => hlt hkeeps.2
      rintro ⟨b, hb, -⟩
      rw [hencode, if_neg hlt] at hb
      exact nomatch hb

end Infernode.Asn1
