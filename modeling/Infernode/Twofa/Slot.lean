import Infernode.Limbo.Token
import Infernode.Limbo.Utf

/-!
# Slot files

A slot is a file of four lines. `readslot` takes from it what it finds, so a file that
was cut off in a write is read too: the key that such a file holds is a part of the one
that was to be written.
-/

namespace Infernode.Twofa

open Limbo

structure Slot where
  kind : Str
  cred : Str
  salt : Str
  wrap : Option (List UInt8)
  deriving DecidableEq

def hexc (v : ℕ) : Char :=
  if v < 10 then Char.ofNat (v + '0'.toNat) else Char.ofNat (v - 10 + 'a'.toNat)

def tohex (a : List UInt8) : Str :=
  a.flatMap fun b => [hexc (b.toNat / 16), hexc (b.toNat % 16)]

def hexv (c : Char) : Option ℕ :=
  if '0' ≤ c ∧ c ≤ '9' then some (c.toNat - '0'.toNat)
  else if 'a' ≤ c ∧ c ≤ 'f' then some (c.toNat - 'a'.toNat + 10)
  else if 'A' ≤ c ∧ c ≤ 'F' then some (c.toNat - 'A'.toNat + 10)
  else none

def hexpairs : Str → Option (List UInt8)
  | [] => some []
  | [_] => none
  | hi :: lo :: s =>
    match hexv hi, hexv lo with
    | some hi, some lo => (hexpairs s).map (UInt8.ofNat (hi * 16 + lo) :: ·)
    | _, _ => none

def fromhex (s : Str) : Option (List UInt8) :=
  if s = [] then none else hexpairs s

def Slot.line (s : Slot) (line : Str) : Slot :=
  match tokenize line [' ', '\t'] with
  | [] => s
  | key :: f =>
    let val := f.headD []
    if key = lit "kind" then { s with kind := val }
    else if key = lit "cred" then { s with cred := val }
    else if key = lit "salt" then { s with salt := val }
    else if key = lit "wrap" then { s with wrap := fromhex val }
    else s

def SLOTMAX : ℕ := 16384

def readslot (file : List UInt8) : Option Slot :=
  let buf := file.take SLOTMAX
  if buf = [] then none
  else some ((tokenize (string buf) ['\n']).foldl Slot.line ⟨[], [], [], none⟩)

def slottext (kind cred salt : Str) (wrap : List UInt8) : Str :=
  lit "kind " ++ kind ++ lit "\ncred " ++ cred ++ lit "\nsalt " ++ salt ++ lit "\nwrap " ++
    tohex wrap ++ ['\n']

theorem hexv_hexc {v : ℕ} (hv : v < 16) : hexv (hexc v) = some v := by
  revert v
  decide

theorem hexc_plain {v : ℕ} (hv : v < 16) :
    (hexc v).toNat < 128 ∧ hexc v ∉ [' ', '\t', '\n'] := by
  revert v
  decide

theorem tohex_plain (a : List UInt8) : ∀ c ∈ tohex a, c.toNat < 128 ∧ c ∉ [' ', '\t', '\n'] := by
  intro c hc
  obtain ⟨b, -, hb⟩ := List.mem_flatMap.mp hc
  have hlt := b.toNat_lt
  simp only [List.mem_cons, List.not_mem_nil, or_false] at hb
  rcases hb with rfl | rfl
  · exact hexc_plain (by omega)
  · exact hexc_plain (by omega)

theorem hexpairs_tohex (a : List UInt8) : hexpairs (tohex a) = some a := by
  induction a with
  | nil => rfl
  | cons b a ih =>
    have hlt := b.toNat_lt
    have hbyte : b.toNat / 16 * 16 + b.toNat % 16 = b.toNat := by omega
    change hexpairs (hexc (b.toNat / 16) :: hexc (b.toNat % 16) :: tohex a) = _
    rw [hexpairs, hexv_hexc (by omega), hexv_hexc (by omega)]
    simp [ih, hbyte]

theorem fromhex_tohex {a : List UInt8} (ha : a ≠ []) : fromhex (tohex a) = some a := by
  have hne : tohex a ≠ [] := by
    cases a with
    | nil => exact absurd rfl ha
    | cons b a => simp [tohex]
  rw [fromhex, if_neg hne, hexpairs_tohex]

theorem hexpairs_prefix {a a' : List UInt8} {h : Str} (hh : h <+: tohex a)
    (ha' : hexpairs h = some a') : a' <+: a := by
  induction a generalizing h a' with
  | nil =>
    obtain rfl : h = [] := List.prefix_nil.mp hh
    obtain rfl : [] = a' := Option.some.inj ha'
    exact List.prefix_rfl
  | cons b a ih =>
    have hlt := b.toNat_lt
    have hbyte : b.toNat / 16 * 16 + b.toNat % 16 = b.toNat := by omega
    match h, hh, ha' with
    | [], _, ha' =>
      obtain rfl : [] = a' := Option.some.inj ha'
      exact List.nil_prefix
    | [_], _, ha' => exact absurd ha' (by simp [hexpairs])
    | hi :: lo :: h, hh, ha' =>
      change hi :: lo :: h <+: hexc (b.toNat / 16) :: hexc (b.toNat % 16) :: tohex a at hh
      rw [List.cons_prefix_cons, List.cons_prefix_cons] at hh
      obtain ⟨rfl, rfl, hh⟩ := hh
      rw [hexpairs, hexv_hexc (by omega), hexv_hexc (by omega)] at ha'
      simp only [hbyte, UInt8.ofNat_toNat, Option.map_eq_some_iff] at ha'
      obtain ⟨a'', ha'', rfl⟩ := ha'
      exact List.cons_prefix_cons.mpr ⟨rfl, ih hh ha''⟩

theorem fromhex_prefix {a a' : List UInt8} {h : Str} (hh : h <+: tohex a)
    (ha' : fromhex h = some a') : a' <+: a := by
  rw [fromhex] at ha'
  split_ifs at ha'
  exact hexpairs_prefix hh ha'

def Field (s : Str) : Prop :=
  s ≠ [] ∧ ∀ c ∈ s, c ∉ [' ', '\t', '\n']

def slotlines (kind cred salt : Str) (wrap : List UInt8) : List Str :=
  [lit "kind " ++ kind, lit "cred " ++ cred, lit "salt " ++ salt, lit "wrap " ++ tohex wrap]

theorem slottext_eq (kind cred salt : Str) (wrap : List UInt8) :
    slottext kind cred salt wrap =
      (slotlines kind cred salt wrap).flatMap (fun line => line ++ ['\n']) := by
  simp [slottext, slotlines, lit]

theorem prefix_word {d : Char} {w rest t : Str} (ht : t <+: w ++ d :: rest) :
    t <+: w ∨ ∃ t', t = w ++ d :: t' ∧ t' <+: rest := by
  induction w generalizing t with
  | nil =>
    cases t with
    | nil => exact .inl List.prefix_rfl
    | cons c t =>
      rw [List.nil_append, List.cons_prefix_cons] at ht
      obtain ⟨rfl, ht⟩ := ht
      exact .inr ⟨t, rfl, ht⟩
  | cons e w ih =>
    cases t with
    | nil => exact .inl List.nil_prefix
    | cons c t =>
      rw [List.cons_append, List.cons_prefix_cons] at ht
      obtain ⟨rfl, ht⟩ := ht
      rcases ih ht with h | ⟨t', rfl, h⟩
      · exact .inl (List.cons_prefix_cons.mpr ⟨rfl, h⟩)
      · exact .inr ⟨t', rfl, h⟩

theorem lines_of_prefix {ls : List Str} (hls : ∀ l ∈ ls, Word (fun c => decide (c ∈ ['\n'])) l)
    {t : Str} (ht : t <+: ls.flatMap (fun line => line ++ ['\n'])) :
    ∀ line ∈ tokenize t ['\n'], ∃ l ∈ ls, line <+: l := by
  induction ls generalizing t with
  | nil =>
    obtain rfl : t = [] := List.prefix_nil.mp ht
    simp [tokenize, tokens]
  | cons l ls ih =>
    have hl := hls l (by simp)
    rw [List.flatMap_cons, List.append_assoc, List.singleton_append] at ht
    rcases prefix_word ht with hcut | ⟨t', rfl, ht'⟩
    · intro line hline
      by_cases hne : t = []
      · simp [hne, tokenize, tokens] at hline
      · have hword : Word (fun c => decide (c ∈ ['\n'])) t :=
          ⟨hne, fun c hc => hl.2 c (hcut.subset hc)⟩
        rw [tokenize, tokens_single hword, List.mem_singleton] at hline
        exact ⟨l, by simp, hline ▸ hcut⟩
    · intro line hline
      rw [tokenize, tokens_word_delim hl (by simp)] at hline
      rcases List.mem_cons.mp hline with rfl | hline
      · exact ⟨line, by simp, List.prefix_rfl⟩
      · obtain ⟨l', hl', hpre⟩ := ih (fun l hl => hls l (by simp [hl])) ht' line hline
        exact ⟨l', by simp [hl'], hpre⟩

theorem key_field : Field "key" :=
  ⟨by simp [lit], by simp [lit]⟩

theorem recovery_field : Field "recovery" :=
  ⟨by simp [lit], by simp [lit]⟩

theorem dash_field : Field "-" :=
  ⟨by simp [lit], by simp [lit]⟩

theorem Field.word {s : Str} (h : Field s) : Word (fun c => decide (c ∈ [' ', '\t'])) s := by
  refine ⟨h.1, fun c hc => ?_⟩
  have hmem := h.2 c hc
  simp only [List.mem_cons, List.not_mem_nil, or_false, not_or] at hmem ⊢
  simp [hmem.1, hmem.2.1]

theorem tokenize_cut {key val line : Str} (hkey : Word (fun c => decide (c ∈ [' ', '\t'])) key)
    (hval : ∀ c ∈ val, c ∉ [' ', '\t']) (h : line <+: key ++ ' ' :: val) :
    tokenize line [' ', '\t'] = [] ∨
      (∃ key', key' <+: key ∧ tokenize line [' ', '\t'] = [key']) ∨
      ∃ val', val' <+: val ∧ tokenize line [' ', '\t'] = [key, val'] := by
  rcases prefix_word h with hcut | ⟨val', rfl, hcut⟩
  · by_cases hne : line = []
    · exact .inl (by simp [hne, tokenize, tokens])
    · exact .inr (.inl ⟨line, hcut, tokens_single ⟨hne, fun c hc => hkey.2 c (hcut.subset hc)⟩⟩)
  · rw [tokenize, tokens_word_delim hkey (by simp)]
    by_cases hne : val' = []
    · exact .inr (.inl ⟨key, List.prefix_rfl, by simp [hne, tokens]⟩)
    · refine .inr (.inr ⟨val', hcut, ?_⟩)
      rw [tokens_single ⟨hne, fun c hc => decide_eq_false (hval c (hcut.subset hc))⟩]

theorem kind_word : Word (fun c => decide (c ∈ [' ', '\t'])) (lit "kind") :=
  ⟨by simp [lit], by simp [lit]⟩

theorem cred_word : Word (fun c => decide (c ∈ [' ', '\t'])) (lit "cred") :=
  ⟨by simp [lit], by simp [lit]⟩

theorem salt_word : Word (fun c => decide (c ∈ [' ', '\t'])) (lit "salt") :=
  ⟨by simp [lit], by simp [lit]⟩

theorem wrap_word : Word (fun c => decide (c ∈ [' ', '\t'])) (lit "wrap") :=
  ⟨by simp [lit], by simp [lit]⟩

theorem line_wrap (s : Slot) (line : Str) :
    (s.line line).wrap = s.wrap ∨ ∃ f, tokenize line [' ', '\t'] = lit "wrap" :: f ∧
      (s.line line).wrap = fromhex (f.headD []) := by
  rw [Slot.line]
  split
  · exact .inl rfl
  · rename_i key f hf
    dsimp only
    split_ifs with h1 h2 h3 h4
    · exact .inl rfl
    · exact .inl rfl
    · exact .inl rfl
    · exact .inr ⟨f, by rw [hf, h4], rfl⟩
    · exact .inl rfl

theorem wrap_line {s : Slot} {line kind cred salt : Str} {wrap c : List UInt8} (hk : Field kind)
    (hc : Field cred) (hs : Field salt) (hline : ∃ l ∈ slotlines kind cred salt wrap, line <+: l)
    (hkeep : ∀ c', s.wrap = some c' → c' <+: wrap) (hw : (s.line line).wrap = some c) :
    c <+: wrap := by
  rcases line_wrap s line with h | ⟨f, hf, h⟩
  · exact hkeep c (h ▸ hw)
  · have hother : ∀ {key val : Str}, Word (fun c => decide (c ∈ [' ', '\t'])) key →
        ¬ lit "wrap" <+: key → Field val → ¬ line <+: key ++ ' ' :: val := by
      intro key val hkey hne hval hpre
      have hplain : ∀ c ∈ val, c ∉ [' ', '\t'] :=
        fun c hc hm => hval.2 c hc (List.mem_append_left ['\n'] hm)
      rcases tokenize_cut hkey hplain hpre with
        h0 | ⟨key', hcut, h1⟩ | ⟨val', -, h2⟩
      · rw [h0] at hf
        exact absurd hf (by simp)
      · rw [h1] at hf
        exact hne ((List.cons.inj hf).1 ▸ hcut)
      · rw [h2] at hf
        exact hne ((List.cons.inj hf).1 ▸ List.prefix_rfl)
    obtain ⟨l, hl, hpre⟩ := hline
    simp only [slotlines, List.mem_cons, List.not_mem_nil, or_false] at hl
    rcases hl with rfl | rfl | rfl | rfl
    · exact absurd hpre (hother kind_word (by decide) hk)
    · exact absurd hpre (hother cred_word (by decide) hc)
    · exact absurd hpre (hother salt_word (by decide) hs)
    · rw [h] at hw
      have hplain : ∀ c ∈ tohex wrap, c ∉ [' ', '\t'] :=
        fun c hc hm => (tohex_plain wrap c hc).2 (List.mem_append_left ['\n'] hm)
      rcases tokenize_cut wrap_word hplain hpre with
        h0 | ⟨key', -, h1⟩ | ⟨val', hcut, h2⟩
      · rw [h0] at hf
        exact absurd hf (by simp)
      · rw [h1] at hf
        rw [← (List.cons.inj hf).2] at hw
        exact absurd hw (by simp [fromhex])
      · rw [h2] at hf
        rw [← (List.cons.inj hf).2] at hw
        exact fromhex_prefix hcut hw

theorem slotlines_word {kind cred salt : Str} (wrap : List UInt8) (hk : Field kind)
    (hc : Field cred) (hs : Field salt) :
    ∀ l ∈ slotlines kind cred salt wrap, Word (fun c => decide (c ∈ ['\n'])) l := by
  have hword : ∀ {key val : Str}, '\n' ∉ key → key ≠ [] → '\n' ∉ val →
      Word (fun c => decide (c ∈ ['\n'])) (key ++ val) := by
    intro key val hkey hne hval
    refine ⟨by simp [hne], fun c hmem => decide_eq_false ?_⟩
    rw [List.mem_singleton]
    rintro rfl
    exact (List.mem_append.mp hmem).elim hkey hval
  have hfield : ∀ {s : Str}, Field s → '\n' ∉ s := fun h hm => h.2 _ hm (by simp)
  intro l hl
  simp only [slotlines, List.mem_cons, List.not_mem_nil, or_false] at hl
  rcases hl with rfl | rfl | rfl | rfl
  · exact hword (by decide) (by decide) (hfield hk)
  · exact hword (by decide) (by decide) (hfield hc)
  · exact hword (by decide) (by decide) (hfield hs)
  · exact hword (by decide) (by decide) (fun hm => (tohex_plain wrap _ hm).2 (by simp))

theorem readslot_cut {kind cred salt : Str} {wrap c : List UInt8} {k : ℕ} {s : Slot}
    (hk : Field kind) (hc : Field cred) (hs : Field salt)
    (hread : readslot ((bytes (slottext kind cred salt wrap)).take k) = some s)
    (hw : s.wrap = some c) : c <+: wrap := by
  rw [readslot, List.take_take] at hread
  split_ifs at hread
  have hpre := string_take (slottext kind cred salt wrap) (min SLOTMAX k)
  nth_rewrite 2 [slottext_eq] at hpre
  have hlines := lines_of_prefix (slotlines_word wrap hk hc hs) hpre
  obtain rfl := Option.some.inj hread
  -- `none` at first, and every line keeps it
  have hfold : ∀ (ls : List Str) (s : Slot),
      (∀ line ∈ ls, ∃ l ∈ slotlines kind cred salt wrap, line <+: l) →
      (∀ c', s.wrap = some c' → c' <+: wrap) →
      ∀ c', (ls.foldl Slot.line s).wrap = some c' → c' <+: wrap := by
    intro ls
    induction ls with
    | nil => exact fun s _ hkeep => hkeep
    | cons line ls ih =>
      intro s hls hkeep
      exact ih (s.line line) (fun l hl => hls l (by simp [hl]))
        (fun c' => wrap_line hk hc hs (hls line (by simp)) hkeep)
  exact hfold _ _ hlines (by intro _ h; cases h) c hw

theorem tokenize_two {key val : Str} (hkey : Word (fun c => decide (c ∈ [' ', '\t'])) key)
    (hval : Word (fun c => decide (c ∈ [' ', '\t'])) val) :
    tokenize (key ++ ' ' :: val) [' ', '\t'] = [key, val] := by
  rw [tokenize, tokens_word_delim hkey (by simp), tokens_single hval]

theorem readslot_slottext {kind cred salt : Str} {wrap : List UInt8} (hk : Field kind)
    (hc : Field cred) (hs : Field salt) (hw : wrap ≠ [])
    (hlen : (bytes (slottext kind cred salt wrap)).length ≤ SLOTMAX) :
    readslot (bytes (slottext kind cred salt wrap)) = some ⟨kind, cred, salt, some wrap⟩ := by
  have hne : bytes (slottext kind cred salt wrap) ≠ [] := by
    intro h
    have htext := bytes_injective (h.trans bytes_nil.symm)
    simp [slottext] at htext
  have hlines : tokenize (slottext kind cred salt wrap) ['\n'] = slotlines kind cred salt wrap := by
    have hword := slotlines_word wrap hk hc hs
    rw [slottext_eq]
    generalize slotlines kind cred salt wrap = ls at hword
    induction ls with
    | nil => rfl
    | cons l ls ih =>
      rw [List.flatMap_cons, List.append_assoc, List.singleton_append, tokenize,
        tokens_word_delim (hword l (by simp)) (by simp), ← tokenize,
        ih (fun l hl => hword l (by simp [hl]))]
  have hhex : Field (tohex wrap) := by
    refine ⟨fun h => ?_, fun c hm => (tohex_plain wrap c hm).2⟩
    have hf := fromhex_tohex hw
    rw [h] at hf
    simp [fromhex] at hf
  rw [readslot, List.take_of_length_le hlen, if_neg hne,
    string_bytes, hlines]
  have h1 : tokenize (lit "kind " ++ kind) [' ', '\t'] = [lit "kind", kind] :=
    tokenize_two kind_word hk.word
  have h2 : tokenize (lit "cred " ++ cred) [' ', '\t'] = [lit "cred", cred] :=
    tokenize_two cred_word hc.word
  have h3 : tokenize (lit "salt " ++ salt) [' ', '\t'] = [lit "salt", salt] :=
    tokenize_two salt_word hs.word
  have h4 : tokenize (lit "wrap " ++ tohex wrap) [' ', '\t'] = [lit "wrap", tohex wrap] :=
    tokenize_two wrap_word hhex.word
  simp only [slotlines, List.foldl_cons, List.foldl_nil, Slot.line, h1, h2, h3, h4]
  simp [lit, fromhex_tohex hw]

theorem encode_one {c : Char} (hc : c.toNat < 128) : (String.utf8EncodeChar c).length = 1 := by
  have hle : c.toNat ≤ 127 := Nat.le_of_lt_succ hc
  simp [String.utf8EncodeChar, hle]

theorem bytes_tohex (a : List UInt8) : (bytes (tohex a)).length = 2 * a.length := by
  induction a with
  | nil => rfl
  | cons b a ih =>
    have hlt := b.toNat_lt
    change (bytes (hexc (b.toNat / 16) :: hexc (b.toNat % 16) :: tohex a)).length = _
    rw [bytes_cons, bytes_cons, List.length_append, List.length_append, ih,
      encode_one (hexc_plain (by omega)).1, encode_one (hexc_plain (by omega)).1, List.length_cons]
    omega

theorem slottext_length (kind cred salt : Str) (wrap : List UInt8) :
    (bytes (slottext kind cred salt wrap)).length =
      (bytes (slottext kind cred salt [])).length + 2 * wrap.length := by
  simp only [slottext, bytes_append, List.length_append, bytes_tohex, List.length_nil]
  omega

theorem hexpairs_plain {s : Str} {a : List UInt8} (h : hexpairs s = some a) :
    ∀ c ∈ s, c ∉ [' ', '\t', '\n'] := by
  have hhex : ∀ {c : Char} {v : ℕ}, hexv c = some v → c ∉ [' ', '\t', '\n'] := by
    intro c v hv hmem
    simp only [List.mem_cons, List.not_mem_nil, or_false] at hmem
    rcases hmem with rfl | rfl | rfl <;> exact absurd hv (by decide +revert)
  fun_induction hexpairs s generalizing a with
  | case1 => simp
  | case2 | case4 => exact absurd h (by simp)
  | case3 hi lo s vhi vlo hvlo hvhi ih =>
    obtain ⟨a', ha', -⟩ := Option.map_eq_some_iff.mp h
    intro c hc
    rcases List.mem_cons.mp hc with rfl | hc
    · exact hhex hvhi
    · rcases List.mem_cons.mp hc with rfl | hc
      · exact hhex hvlo
      · exact ih ha' c hc

theorem fromhex_field {s : Str} {a : List UInt8} (h : fromhex s = some a) : Field s := by
  rw [fromhex] at h
  split_ifs at h with hne
  exact ⟨hne, hexpairs_plain h⟩

end Infernode.Twofa
