import Infernode.Asn1.Own
import Infernode.Asn1.Keeps

/-!
# What is made of any bytes

The elements that `ber_decode` is called for are their own bytes' where the array is clean.
-/

namespace Infernode.Asn1

variable {a : List UInt8} {d i i1 i2 m : ℕ} {tag : Tag} {length : ℤ} {kind : Kind} {constr : Bool}
  {r : ℕ → Out Elem} {loop : Option (Kind × ℤ)} {P : ℕ → (Tag → Elem) → Prop}

section loops

variable {s k : ℕ}

theorem seqloop_contents (hkind : kind = .sequence ∨ kind = .set) (hs : s ≤ a.length)
    (length : ℤ) (hlength : 0 ≤ length)
    (hsub : ∀ i loop, Calls a d i loop → Ends (Within a i) (ber_decode a a.length d i))
    (hcalls : i < s → Calls a d i (some (kind, s))) (hk : s - i < k) (lve : List Elem) :
    Ends (fun j l => j = s ∧ ∃ es, l = lve.reverse ++ es ∧ Contents a i s es)
      (seqloop (ber_decode a a.length d) length s k i lve) := by
  induction k generalizing i lve with
  | zero => exact absurd hk (Nat.not_lt_zero _)
  | succ k ih =>
    rw [seqloop]
    by_cases hend : (s : ℤ) ≤ i
    · rw [if_pos ⟨hlength, hend⟩]
      split_ifs with hne
      · exact .error nofun
      · obtain rfl : i = s := by omega
        exact .ok ⟨rfl, [], (List.append_nil _).symm, .nil i⟩
    · rw [if_neg fun h => hend h.2]
      have hcall := hcalls (by omega)
      obtain ⟨err, j, x, hout, hmade⟩ := hsub _ _ hcall
      rw [hout]
      by_cases herr : err = .ok
      swap
      · cases err <;> first | exact absurd rfl herr | exact .error nofun
      obtain ⟨e, rfl, hwithin⟩ := hmade herr
      subst herr
      have hbounds := hwithin.bounds
      dsimp only
      split_ifs with heoc hne
      · exact .error nofun
      · omega
      · have hgo : goeson kind e = true := by
          rcases hkind with rfl | rfl <;> simp [goeson, heoc]
        have hrest := ih (i := j) (fun hj => .next hcall hout hgo (by omega)) (by omega) (e :: lve)
        obtain ⟨err, j', l, hl, hmade⟩ := hrest
        refine ⟨err, j', l, hl, fun herr => ?_⟩
        obtain ⟨l, rfl, hj, es, rfl, hes⟩ := hmade herr
        exact ⟨_, rfl, hj, e :: es, by simp, .cons hwithin hes⟩

theorem octetloop_contents (hkind : kind = .octets ∨ kind = .string) (hs : s ≤ a.length)
    (length : ℤ) (hlength : 0 ≤ length)
    (hsub : ∀ i loop, Calls a d i loop → Ends (Within a i) (ber_decode a a.length d i))
    (hcalls : i < s → Calls a d i (some (kind, s))) (hk : s - i < k) (lva : List (List UInt8)) :
    Ends (fun j bs => j = s ∧ ∃ es bs', bs = lva.reverse.flatten ++ bs' ∧ Contents a i s es ∧
        pieces es = some bs')
      (octetloop (ber_decode a a.length d) length s k i lva) := by
  induction k generalizing i lva with
  | zero => exact absurd hk (Nat.not_lt_zero _)
  | succ k ih =>
    rw [octetloop]
    by_cases hend : (s : ℤ) ≤ i
    · rw [if_pos ⟨hlength, hend⟩]
      split_ifs with hne
      · exact .error nofun
      · obtain rfl : i = s := by omega
        exact .ok ⟨rfl, [], [], (List.append_nil _).symm, .nil i, rfl⟩
    · rw [if_neg fun h => hend h.2]
      have hcall := hcalls (by omega)
      obtain ⟨err, j, x, hout, hmade⟩ := hsub _ _ hcall
      rw [hout]
      by_cases herr : err = .ok
      swap
      · cases err <;> first | exact absurd rfl herr | exact .error nofun
      obtain ⟨e, rfl, hwithin⟩ := hmade herr
      subst herr
      have hbounds := hwithin.bounds
      dsimp only
      split
      · next tag bytes =>
        have hgo : goeson kind (.elem tag (.octets bytes)) = true := by
          rcases hkind with rfl | rfl <;> rfl
        have hrest := ih (i := j) (fun hj => .next hcall hout hgo (by omega)) (by omega)
          (bytes :: lva)
        obtain ⟨err, j', l, hl, hmade⟩ := hrest
        refine ⟨err, j', l, hl, fun herr => ?_⟩
        obtain ⟨bs, rfl, hj, es, bs', rfl, hes, hpieces⟩ := hmade herr
        refine ⟨_, rfl, hj, _, bytes ++ bs', ?_, .cons hwithin hes, ?_⟩
        · simp
        · rw [pieces, hpieces]
          rfl
      · rw [if_pos (by omega)]
        exact .error nofun
      · exact .error nofun

end loops

/-! A value that no loop is gone round for. -/

section value

theorem loops_nil {s : ℤ} {k : ℕ} (length : ℤ) (hlength : 0 ≤ length) (hs : s ≤ i) (hk : 0 < k) :
    seqloop r length s k i [] = some (if (i : ℤ) ≠ s then (.vallen, i, none)
      else (.ok, i, some [])) ∧
    octetloop r length s k i [] = some (if (i : ℤ) ≠ s then (.vallen, i, none)
      else (.ok, i, some [])) := by
  obtain ⟨k, rfl⟩ : ∃ m, k = m + 1 := ⟨k - 1, by omega⟩
  constructor
  · rw [seqloop, if_pos ⟨hlength, hs⟩]
    rfl
  · rw [octetloop, if_pos ⟨hlength, hs⟩]
    rfl

theorem value_refused (hi : i ≤ a.length) (hmax : a.length < 2 ^ 31)
    (h : refused kind constr = true) :
    Ends P (value_decode a a.length r i 0 kind constr) := by
  have hadd : add i 0 = i := by rw [add_of_lt (by omega) (by omega), add_zero]
  unfold value_decode
  rw [if_neg (by omega), if_neg (by rw [hadd]; omega)]
  cases kind with
  | boolean | null | integer | real | objid | bitstring =>
    cases constr <;> first | exact absurd h (by decide) | (simp; exact .error nofun)
  | sequence | set =>
    cases constr with
    | true => exact absurd h (by decide)
    | false => exact .error nofun
  | eoc | octets | string | external | other => cases constr <;> exact absurd h (by decide)

theorem value_empty (hi : i ≤ a.length) (hmax : a.length < 2 ^ 31)
    (h : refused kind constr = false) :
    ∃ f, value_decode a a.length r i 0 kind constr = some (.ok, i, some f) := by
  have hadd : add i 0 = i := by rw [add_of_lt (by omega) (by omega), add_zero]
  have hslice : slice a i 0 = some [] := by
    rw [slice, if_pos (by omega)]
    rfl
  have hbytes (f : List UInt8 → Value) :
      bytes_decode a i 0 f = some (.ok, i, some (.elem · (f []))) := by
    rw [bytes_decode, hslice]
    rfl
  obtain ⟨hseq, hoctet⟩ := loops_nil (r := r) (s := i) (i := i)
    (k := a.length - i + 1) 0 le_rfl le_rfl (by omega)
  rw [if_neg (not_not.mpr rfl)] at hseq hoctet
  have hoctets (constr : Bool) :
      octet_decode a a.length r i 0 constr = some (.ok, i, some []) := by
    rw [octet_decode, hslice, hadd, hoctet]
    split_ifs <;> rfl
  unfold value_decode
  rw [if_neg (by omega), if_neg (by rw [hadd]; omega)]
  cases kind with
  | eoc => exact ⟨_, rfl⟩
  | integer =>
    cases constr with
    | true => cases h
    | false =>
      have hint := int_decode_signed (a := a) (i := i) (m := 0) (by omega) (by omega)
      dsimp only
      rw [if_neg Bool.false_ne_true, if_pos (by omega), if_neg (by omega), Int.toNat_zero, hint]
      exact ⟨_, rfl⟩
  | octets | string =>
    rw [hoctets]
    exact ⟨_, rfl⟩
  | null =>
    cases constr with
    | true => cases h
    | false => exact ⟨_, rfl⟩
  | real =>
    cases constr with
    | true => cases h
    | false => exact ⟨_, hbytes _⟩
  | external | other => exact ⟨_, hbytes _⟩
  | sequence | set =>
    cases constr with
    | true =>
      rw [seq_decode, hadd, hseq]
      exact ⟨_, rfl⟩
    | false => cases h
  | boolean | bitstring | objid => cases constr <;> cases h

theorem value_bool (hi : i < a.length) (hmax : a.length < 2 ^ 31) :
    value_decode a a.length r i 1 .boolean false =
      some (.ok, i + 1, some (.elem · (.bool (getb a 0)))) := by
  have hadd : add i 1 = i + 1 := add_of_lt (by omega) (by omega)
  unfold value_decode
  rw [if_neg (by omega), if_neg (by rw [hadd]; omega)]
  rfl

theorem value_bits (hi : i < a.length) (hmax : a.length < 2 ^ 31) (hzero : getb a 0 = 0) :
    value_decode a a.length r i 1 .bitstring false =
      some (.ok, i + 1, some (.elem · (.bitstring 0 []))) := by
  have hadd : add i 1 = i + 1 := add_of_lt (by omega) (by omega)
  unfold value_decode
  rw [if_neg (by omega), if_neg (by rw [hadd]; omega)]
  dsimp only
  rw [if_neg Bool.false_ne_true, if_pos (by omega), if_pos ⟨rfl, hzero⟩]

theorem add_wrap (hi : i ≤ a.length) (hmax : a.length < 2 ^ 31) (hlength : length < 2 ^ 31)
    (hend : 2 ^ 31 ≤ i + length) : add i length = i + length - 2 ^ 32 := by
  rw [add, Int.bmod_def]
  split_ifs <;> omega

theorem value_unfilled (hi : i ≤ a.length) (hmax : a.length < 2 ^ 31) (hlength : length < 2 ^ 31)
    (hend : 2 ^ 31 ≤ i + length) (h : unfilled a i length kind constr) :
    Ends P (value_decode a a.length r i length kind constr) := by
  have hadd := add_wrap hi hmax hlength hend
  obtain ⟨hseq, hoctet⟩ := loops_nil (r := r) (s := add i length) (i := i)
    (k := a.length - i + 1) length (by omega) (by omega) (by omega)
  rw [if_pos (by omega)] at hseq hoctet
  unfold value_decode
  rw [if_neg (by omega), if_neg (by omega)]
  cases kind with
  | eoc =>
    dsimp only
    rw [if_neg (by omega)]
    exact .error (by decide)
  | boolean =>
    dsimp only
    split_ifs with hconstr hone
    · exact .error (by decide)
    · exact .error (by decide)
    · obtain rfl : constr = false := by simpa using hconstr
      rcases h with h | ⟨-, h⟩ | ⟨h, -⟩
      · exact absurd h (by decide)
      · exact absurd (not_not.mp hone) h
      · cases h
  | bitstring =>
    dsimp only
    cases constr with
    | true =>
      rw [if_pos rfl, if_neg (by omega)]
      exact .error (by decide)
    | false =>
      rw [if_neg Bool.false_ne_true]
      have h : length = 1 ∧ getb a 0 ≠ 0 ∨
          1 < length ∧ i < a.length ∧ (7 < getb a i ∨ 0x0FFFFFFF < length) := by
        simpa [unfilled] using h
      split_ifs with hshort hone hpast hseven hbig
      · omega
      · exact .error (by decide)
      · omega
      · exact .error (by decide)
      · exact .error (by decide)
      · omega
  | null =>
    dsimp only
    split_ifs with hconstr hm
    · exact .error (by decide)
    · exact .error (by decide)
    · omega
  | objid =>
    dsimp only
    split_ifs with hconstr hm
    · exact .error (by decide)
    · exact .error (by decide)
    · rw [hadd]
      cases hk : a.length - i with
      | zero =>
        rw [objidloop]
        dsimp only
        rw [if_pos (by omega)]
        exact .error (by decide)
      | succ k =>
        rw [objidloop, if_neg (by omega)]
        dsimp only
        rw [if_pos (by omega)]
        exact .error (by decide)
  | integer | real =>
    cases constr with
    | true => exact .error (by decide)
    | false => exact absurd h (by simp [unfilled])
  | octets | string =>
    cases constr with
    | true =>
      have hnot : ¬ (0 ≤ length ∧ (true : Bool) = false) := by simp
      dsimp only
      rw [octet_decode, if_neg hnot, hoctet]
      exact .error (by simp)
    | false => exact absurd h (by simp [unfilled])
  | external | other => cases constr <;> exact absurd h (by simp [unfilled])
  | sequence | set =>
    cases constr with
    | true =>
      rw [seq_decode, hseq]
      exact .error (by decide)
    | false => exact .error (by decide)

theorem value_past {n : ℕ} (hlength : length ≠ -1) (hend : n < add i length) :
    value_decode a n r i length kind constr = some (.vallen, i, none) := by
  unfold value_decode
  rw [if_neg (fun h => hlength h.1), if_pos ⟨hlength, hend⟩]

theorem slice_past (hend : a.length < i + length) : slice a i length = none := by
  rw [slice, if_neg (by omega)]

theorem value_filled (hi : i ≤ a.length) (hmax : a.length < 2 ^ 31) (hlength : length < 2 ^ 31)
    (hend : 2 ^ 31 ≤ i + length)
    (h : Ends (fun j _ => j ≤ a.length) (value_decode a a.length r i length kind constr)) :
    unfilled a i length kind constr := by
  have hadd := add_wrap hi hmax hlength hend
  have hnone (f : List UInt8 → Value) : bytes_decode a i length f = none := by
    rw [bytes_decode, slice_past (by omega)]
    rfl
  have hoctet : octet_decode a a.length r i length false = none := by
    rw [octet_decode, if_pos ⟨by omega, rfl⟩, slice_past (by omega)]
    rfl
  unfold value_decode at h
  rw [if_neg (by omega), if_neg (by omega)] at h
  cases kind with
  | eoc | null | objid | sequence | set => cases constr <;> simp [unfilled]
  | boolean =>
    cases constr with
    | true => simp [unfilled]
    | false =>
      by_cases hone : length = 1
      · dsimp only at h
        rw [if_neg Bool.false_ne_true, if_neg (not_not.mpr hone)] at h
        have hle := h.made
        omega
      · simp [unfilled, hone]
  | bitstring =>
    cases constr with
    | true => simp [unfilled]
    | false =>
      dsimp only at h
      rw [if_neg Bool.false_ne_true] at h
      split_ifs at h with hshort hone hpast hseven hbig
      · have hle := h.made
        omega
      · have hlength : length = 1 := by omega
        simpa [unfilled, hlength] using hone
      · obtain ⟨_, _, _, hout, -⟩ := h
        cases hout
      · exact .inr (.inr ⟨rfl, .inr ⟨by omega, by omega, .inl hseven⟩⟩)
      · exact .inr (.inr ⟨rfl, .inr ⟨by omega, by omega, .inr hbig⟩⟩)
      · rw [slice_past (by omega)] at h
        obtain ⟨_, _, _, hout, -⟩ := h
        cases hout
  | integer =>
    cases constr with
    | true => simp [unfilled]
    | false =>
      dsimp only at h
      rw [if_neg Bool.false_ne_true] at h
      obtain ⟨_, _, _, hout, -⟩ := h
      split_ifs at hout with hfour hpast
      · omega
      · cases (hnone _).symm.trans hout
  | octets | string =>
    cases constr with
    | true => simp [unfilled]
    | false =>
      dsimp only at h
      rw [hoctet] at h
      obtain ⟨_, _, _, hout, -⟩ := h
      cases hout
  | real =>
    cases constr with
    | true => simp [unfilled]
    | false =>
      dsimp only at h
      rw [if_neg Bool.false_ne_true] at h
      obtain ⟨_, _, _, hout, -⟩ := h
      cases (hnone _).symm.trans hout
  | external | other =>
    obtain ⟨_, _, _, hout, -⟩ := h
    cases (hnone _).symm.trans hout

theorem value_contents {i : ℕ} (hspans : Spans a i tag i2 (i2 + m) (i2 + m))
    (hle : i2 + m ≤ a.length) (hmax : a.length < 2 ^ 31) (hnests : tag.nests = true)
    (hloops : tag.kind.loops = true)
    (hsub : ∀ i loop, Calls a d i loop → Ends (Within a i) (ber_decode a a.length d i))
    (hcalls : 0 < m → Calls a d i2 (some (tag.kind, ↑(i2 + m)))) :
    Ends (fun j f => Within a i j (f tag))
      (value_decode a a.length (ber_decode a a.length d) i2 m tag.kind tag.nests) := by
  have hadd : add i2 m = ↑(i2 + m) := by
    rw [add_of_lt (by omega) (by omega)]
    norm_cast
  have hnot : ¬ (0 ≤ (m : ℤ) ∧ (true : Bool) = false) := by simp
  have hseq (hkind : tag.kind = .sequence ∨ tag.kind = .set) :=
    seqloop_contents (k := a.length - i2 + 1) hkind hle m (by omega) hsub
      (fun h => hcalls (by omega)) (by omega) []
  have hoctet (hkind : tag.kind = .octets ∨ tag.kind = .string) :=
    octetloop_contents (k := a.length - i2 + 1) hkind hle m (by omega) hsub
      (fun h => hcalls (by omega)) (by omega) []
  rw [hnests]
  unfold value_decode
  rw [if_neg (by omega), if_neg (by rw [hadd]; omega)]
  cases hkind : tag.kind with
  | octets =>
    dsimp only
    rw [octet_decode, if_neg hnot, hadd]
    refine (hoctet (.inl hkind)).map fun j bs hbs => ?_
    obtain ⟨rfl, es, bs', rfl, hes, hpieces⟩ := hbs
    exact .pieces hspans hnests hes hpieces (by rw [hkind]; rfl)
  | string =>
    dsimp only
    rw [octet_decode, if_neg hnot, hadd]
    refine (hoctet (.inr hkind)).map fun j bs hbs => ?_
    obtain ⟨rfl, es, bs', rfl, hes, hpieces⟩ := hbs
    exact .pieces hspans hnests hes hpieces (by rw [hkind]; rfl)
  | sequence =>
    dsimp only
    rw [seq_decode, if_neg (by simp), hadd]
    refine (hseq (.inl hkind)).map fun j l hl => ?_
    obtain ⟨rfl, es, rfl, hes⟩ := hl
    exact .seq hspans hnests hkind hes
  | set =>
    dsimp only
    rw [seq_decode, if_neg (by simp), hadd]
    refine (hseq (.inr hkind)).map fun j l hl => ?_
    obtain ⟨rfl, es, rfl, hes⟩ := hl
    exact .set hspans hnests hkind hes
  | eoc | boolean | integer | bitstring | null | objid | external | real | other =>
    rw [hkind] at hloops
    cases hloops

end value

theorem Ends.within (hmax : a.length < 2 ^ 31)
    (hclean : ∀ d i loop, Calls a (d + 1) i loop → Clean a i) :
    ∀ i loop, Calls a d i loop → Ends (Within a i) (ber_decode a a.length d i) := by
  induction d with
  | zero => exact fun i loop hcall => .error (by decide)
  | succ d ih =>
    intro i loop hcall
    rw [ber_decode]
    split
    swap
    · next err i1 tag hne htag => exact .error hne
    next i1 tag htag =>
    split
    swap
    · next err i2 length hne hlength => exact .error hne
    next i2 length hlength =>
    have hheads : Heads a i tag i1 i2 length := ⟨htag, hlength⟩
    obtain ⟨hi1, hi2, hle, hpos, hlt, hzero⟩ := hheads.bounds
    obtain ⟨hrefused, hunfilled, hbool, hbits⟩ := hclean d i loop hcall tag i1 i2 length hheads
    by_cases h80 : getb a i1 = 0x80
    · rw [hzero h80]
      exact (value_refused (P := fun _ _ => False) hle hmax (hrefused h80)).map fun _ _ => False.elim
    by_cases hend : 2 ^ 31 ≤ i2 + length
    · exact (value_unfilled (P := fun _ _ => False) hle hmax hlt hend (hunfilled hend)).map
        fun _ _ => False.elim
    have hadd : add i2 length = i2 + length := add_of_lt (by omega) (by omega)
    by_cases hout : (a.length : ℤ) < i2 + length
    · rw [value_past (by omega) (by omega)]
      exact .error (by decide)
    obtain ⟨m, rfl⟩ := Int.eq_ofNat_of_zero_le hpos
    have hspans : Spans a i tag i2 (i2 + m) (i2 + m) :=
      .definite hheads h80 (Nat.cast_add i2 m) (by omega)
    by_cases hloop : tag.nests = true ∧ tag.kind.loops = true
    · refine (value_contents hspans (by omega) hmax hloop.1 hloop.2 ih fun hm => ?_).map
        fun _ _ h => h
      have hin := Calls.enter hcall hheads (by omega) hloop.1 hloop.2 (by omega)
      rw [hadd] at hin
      exact_mod_cast hin
    · have hleaf (hnests : tag.nests = true) : tag.kind.loops = false := by
        simpa [hnests] using hloop
      have hown := value_own (r := ber_decode a a.length d) (m := m) (by omega) hmax hleaf
        (fun hm => hbool (by omega) (by omega)) (fun hm => hbits (by omega) (by omega))
      refine hown.map fun j f hf => ?_
      obtain ⟨rfl, v, rfl, hv⟩ := hf
      exact .leaf hspans hv

theorem Spans.eq {tag' : Tag} {i2' j stop : ℕ} {i : ℕ} (h : Spans a i tag' i2' j stop)
    (hheads : Heads a i tag i1 i2 length) :
    tag' = tag ∧ i2' = i2 ∧ (getb a i1 ≠ 0x80 ∧ j = i2 + length ∧ stop = j ∨
      getb a i1 = 0x80 ∧ tag.constr = true ∧ i2 ≤ j ∧ stop = j + 2) := by
  cases h with
  | definite hheads' h80 hj hle =>
    obtain ⟨rfl, rfl, rfl, rfl⟩ := hheads.unique hheads'
    exact ⟨rfl, rfl, .inl ⟨h80, hj, rfl⟩⟩
  | indefinite hheads' h80 hconstr hle hj hj1 hend =>
    obtain ⟨rfl, rfl, rfl, rfl⟩ := hheads.unique hheads'
    exact ⟨rfl, rfl, .inr ⟨h80, hconstr, hle, rfl⟩⟩

theorem Within.own {i stop : ℕ} {val : Value} (h : Within a i stop (.elem tag val))
    (hheads : Heads a i tag i1 i2 length) (hnests : tag.nests = false) (hlength : length ≠ 0) :
    Asn1.own a i2 stop tag.kind false = some val := by
  have h80 : getb a i1 ≠ 0x80 := fun h80 => hlength (hheads.bounds.2.2.2.2.2 h80)
  cases h with
  | leaf hspans hown =>
    obtain ⟨-, rfl, ⟨-, -, rfl⟩ | ⟨h80', -⟩⟩ := hspans.eq hheads
    · rwa [hnests] at hown
    · exact absurd h80' h80
  | pieces hspans hnests' => exact nomatch hnests.symm.trans hnests'

theorem Ends.clean {i : ℕ} (hmax : a.length < 2 ^ 31)
    (h : Ends (Within a i) (ber_decode a a.length (d + 1) i)) : Clean a i := by
  intro tag i1 i2 length hheads
  obtain ⟨hi1, hi2, hle, hpos, hlt, hzero⟩ := hheads.bounds
  rw [ber_decode, hheads.tag] at h
  dsimp only at h
  rw [hheads.length] at h
  dsimp only at h
  have hvalue := h.of_map
  refine ⟨fun h80 => ?_, fun hend => ?_, fun hone hin hnests hkind => ?_,
    fun hone hin hnests hkind hbits => ?_⟩
  · rw [hzero h80] at hvalue
    by_contra hnot
    obtain ⟨f, hf⟩ := value_empty (r := ber_decode a a.length d) hle hmax (by simpa using hnot)
    rw [hf] at hvalue
    obtain ⟨tag', i2', j, hspans⟩ := hvalue.made.spans
    obtain ⟨-, -, ⟨h80', -⟩ | ⟨-, -, hj, hstop⟩⟩ := hspans.eq hheads
    · exact h80' h80
    · omega
  · refine value_filled (r := ber_decode a a.length d) hle hmax hlt hend ?_
    obtain ⟨err, j, f, hout, hmade⟩ := hvalue
    refine ⟨err, j, f, hout, fun herr => ?_⟩
    obtain ⟨f, rfl, hwithin⟩ := hmade herr
    exact ⟨f, rfl, hwithin.bounds.2⟩
  · rw [hone, hkind, hnests, value_bool hin hmax] at hvalue
    have hown := hvalue.made.own hheads hnests (by omega)
    rw [hkind, Asn1.own, if_pos rfl] at hown
    injection hown with hown
    injection hown with hown
    exact_mod_cast hown
  · rw [hone, hkind, hnests, value_bits hin hmax hbits] at hvalue
    have hown := hvalue.made.own hheads hnests (by omega)
    rw [hkind, Asn1.own] at hown
    split_ifs at hown
    injection hown with hown
    injection hown

/-!
## The codec

What is encoded comes back, and what is decoded lies in the bytes, where neither a value that the
codec reads in another place nor a length that it takes for another one is met.
-/

variable {a : List UInt8} {e : Elem}

def Measures (e : Elem) : Prop :=
  ∀ n, enc_len e 0 = some n → ∃ bs, bs.length = n ∧
    ∀ b : List UInt8, b.length = n → enc_put e b 0 = some bs

theorem measures (e : Elem) : Measures e := by
  intro n hn
  rw [enc_len_eq] at hn
  obtain ⟨bs, hbs, rfl⟩ := Option.map_eq_some_iff.mp hn
  refine ⟨bs, (Nat.zero_add _).symm, fun b hb => ?_⟩
  rw [enc_put_eq e b 0 hbs (by omega), put, if_pos (by omega)]
  simp [hb]

/-- No exception, and without an error an element that lies in all of the array. -/
def Decodes (a : List UInt8) : Prop :=
  ∃ err e, decode a = some (err, e) ∧ (err = [] → ∃ x, e = some x ∧ Within a 0 a.length x)

theorem Sound.decodes (h : Sound a) : Decodes a := by
  obtain ⟨err, j, e, hout, hmade⟩ := h _ _ _ .root
  refine ⟨errstr err j a.length, e, by rw [decode, hout]; rfl, fun hnil => ?_⟩
  obtain ⟨rfl, rfl⟩ := errstr_nil.mp hnil
  exact hmade rfl

theorem sound_iff_clean (hmax : a.length < 2 ^ 31) :
    Sound a ↔ ∀ d i loop, Calls a (d + 1) i loop → Clean a i :=
  ⟨fun h _ _ _ hcall => (h _ _ _ hcall).clean hmax,
    fun h _ i loop hcall => Ends.within hmax h i loop hcall⟩

theorem codec (e : Elem) (a : List UInt8) :
    (e.Fits Maxdepth →
      (RoundTrips e ∧ Measures e ↔ e.Keeps e.tagbyte ∧ e.size < 2 ^ 31)) ∧
    (a.length < 2 ^ 31 →
      (Sound a ∧ Decodes a ↔ ∀ d i loop, Calls a (d + 1) i loop → Clean a i)) := by
  refine ⟨fun hfit => ?_, fun hmax => ?_⟩
  · rw [← roundTrips_iff hfit]
    exact and_iff_left (measures e)
  · rw [← sound_iff_clean hmax]
    exact and_iff_left_of_imp Sound.decodes

/-- A sequence of an integer comes back, and the bytes of a null are decoded. -/
theorem codec_small :
    RoundTrips (.seq ⟨0, 16, true⟩ [.elem ⟨0, 2, false⟩ (.int (-5))]) ∧ Sound [5, 0] := by
  refine ⟨(((codec (.seq ⟨0, 16, true⟩ [.elem ⟨0, 2, false⟩ (.int (-5))]) [5, 0]).1 ?_).mpr ?_).1,
    (((codec (.seq ⟨0, 16, true⟩ [.elem ⟨0, 2, false⟩ (.int (-5))]) [5, 0]).2 ?_).mpr ?_).1⟩
  · simp [Elem.Fits, AllFit, Value.Fits, Maxdepth]
  · refine ⟨by simp [Elem.Keeps, AllKeep, Value.Keeps], ?_⟩
    decide
  · decide
  · have hroot {d i : ℕ} {loop : Option (Kind × ℤ)} (hcall : Calls [5, 0] d i loop) :
        i = 0 ∧ loop = none := by
      induction hcall with
      | root => exact ⟨rfl, rfl⟩
      | enter _ hheads _ hnests _ _ ih =>
        obtain rfl := ih.1
        have hnull : Heads [5, 0] 0 ⟨0, 5, false⟩ 1 2 0 := ⟨rfl, rfl⟩
        obtain ⟨rfl, -⟩ := hnull.unique hheads
        cases hnests
      | next _ _ _ _ ih => cases ih.2
    intro d i loop hcall tag i1 i2 length hheads
    obtain rfl := (hroot hcall).1
    have hnull : Heads [5, 0] 0 ⟨0, 5, false⟩ 1 2 0 := ⟨rfl, rfl⟩
    obtain ⟨rfl, rfl, rfl, rfl⟩ := hnull.unique hheads
    refine ⟨?_, ?_, ?_, ?_⟩ <;> intro h
    · exact absurd h (by decide)
    · exact absurd h (by decide)
    · exact absurd h (by decide)
    · exact absurd h (by decide)

/-- False comes back as true, and with a length of the highest int the decoder ends in an
exception. -/
theorem codec_fails :
    (Elem.elem ⟨0, 1, false⟩ (.bool 0)).Fits Maxdepth ∧
      ¬ RoundTrips (.elem ⟨0, 1, false⟩ (.bool 0)) ∧
      ¬ Decodes [4, 0x84, 0x7F, 0xFF, 0xFF, 0xFF] := by
  have hencode : encode (.elem ⟨0, 1, false⟩ (.bool 0)) = some ([], [1, 1, 0]) := rfl
  have hdecode : decode [1, 1, 0] = some ([], some (.elem ⟨0, 1, false⟩ (.bool 1))) := rfl
  have hfails : decode [4, 0x84, 0x7F, 0xFF, 0xFF, 0xFF] = none := rfl
  refine ⟨by simp [Elem.Fits, Value.Fits], ?_, ?_⟩
  · rintro ⟨b, hb, hback⟩
    rw [hencode] at hb
    obtain ⟨-, rfl⟩ := Prod.mk.inj (Option.some.inj hb)
    rw [hdecode] at hback
    injection hback with hback
    injection hback with _ hback
    injection hback with hback
    injection hback with _ hback
    injection hback with hback
    exact absurd hback (by decide)
  · rintro ⟨err, e, hout, -⟩
    rw [hfails] at hout
    exact nomatch hout

end Infernode.Asn1
