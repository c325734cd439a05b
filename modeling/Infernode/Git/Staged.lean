import Infernode.Cases.Strings
import Infernode.Git.Object

/-!
# Trees and the index as bytes

`encodetree` writes the entries of a tree, and `parsetree` reads them back. `saveindex` writes
the index as lines of text, and `loadindex` reads it in blocks, each decoded by itself.
-/

namespace Infernode.Git

open Dis (int)
open Limbo (Str lit string bytes)

structure IndexEntry where
  mode : ℤ
  hash : Hash
  path : Str

def octaldigits (n : ℕ) : List ℕ := if n = 0 then [0] else (Nat.digits 8 n).reverse

def octaltext (mode : ℤ) : Str :=
  if mode < 0 then '-' :: (octaldigits mode.natAbs).map Nat.digitChar
  else (octaldigits mode.natAbs).map Nat.digitChar

def encodeentry (e : TreeEntry) : List UInt8 :=
  bytes (octaltext e.mode) ++ 32 :: (bytes e.name ++ 0 :: (List.finRange 20).map e.hash)

def encodetree (entries : List TreeEntry) : List UInt8 := entries.flatMap encodeentry

def sixdigits (mode : ℤ) : Str :=
  let digits := (octaldigits mode.natAbs).map Nat.digitChar
  if mode < 0 then '-' :: (List.replicate (5 - digits.length) '0' ++ digits)
  else List.replicate (6 - digits.length) '0' ++ digits

def indexline (e : IndexEntry) : Str := sixdigits e.mode ++ ' ' :: (e.hash.hex ++ ' ' :: e.path)

def saveindex (entries : List IndexEntry) : List UInt8 :=
  bytes (entries.flatMap fun e => indexline e ++ ['\n'])

def parseoctalfrom (v : ℤ) : Str → ℤ
  | [] => v
  | c :: s =>
    if c < '0' ∨ '7' < c then v else parseoctalfrom (int (v * 8 + (c.toNat - 48))) s

def parseoctal (s : Str) : ℤ := parseoctalfrom 0 s

def loadloop (s : Str) : List IndexEntry :=
  if _h : (splitline s).1 = [] then []
  else
    let (modestr, r2) := splitfirst ' ' (splitline s).1
    let (hashstr, path) := splitfirst ' ' r2
    match parsehash hashstr with
    | .error _ => loadloop (splitline s).2
    | .ok h => ⟨parseoctal modestr, h, path⟩ :: loadloop (splitline s).2
termination_by s.length
decreasing_by
  all_goals
    have hlen := splitline_length s
    have hpos := List.length_pos_of_ne_nil _h
    omega

def BLOCK : ℕ := 65536

def readblocks (b : List UInt8) : List (List UInt8) :=
  if _h : b = [] then [] else b.take BLOCK :: readblocks (b.drop BLOCK)
termination_by b.length
decreasing_by
  have hpos := List.length_pos_of_ne_nil _h
  rw [List.length_drop, BLOCK]
  omega

def loadfile (b : List UInt8) : List IndexEntry := loadloop ((readblocks b).flatMap string)

variable {n : ℕ} {v : ℤ} {s t : Str} {e : TreeEntry} {es : List TreeEntry}

theorem octaldigits_lt (n : ℕ) : ∀ d ∈ octaldigits n, d < 8 := by
  intro d hd
  rw [octaldigits] at hd
  split_ifs at hd
  · obtain rfl : d = 0 := by simpa using hd
    norm_num
  · exact Nat.digits_lt_base (by norm_num) (List.mem_reverse.mp hd)

theorem octaldigits_value (n : ℕ) : (octaldigits n).foldl (fun v d => v * 8 + d) 0 = n := by
  rw [octaldigits]
  split_ifs with hn
  · rw [hn]
    rfl
  · have hfold : ∀ l : List ℕ, l.reverse.foldl (fun v d => v * 8 + d) 0 = Nat.ofDigits 8 l := by
      intro l
      induction l with
      | nil => rfl
      | cons d l ih =>
        rw [List.reverse_cons, List.foldl_append, ih, Nat.ofDigits_cons]
        simp only [List.foldl_cons, List.foldl_nil]
        ring
    rw [hfold, Nat.ofDigits_digits]

theorem le_foldl (l : List ℕ) (v : ℕ) : v ≤ l.foldl (fun v d => v * 8 + d) v := by
  induction l generalizing v with
  | nil => exact le_rfl
  | cons d l ih => exact le_trans (by omega) (ih (v * 8 + d))

theorem digit_byte : ∀ d < 8, String.utf8EncodeChar (Nat.digitChar d) = [UInt8.ofNat (48 + d)] ∧
    (UInt8.ofNat (48 + d)).toNat = 48 + d ∧ (Nat.digitChar d).toNat = 48 + d := by decide

theorem octal_digits {l : List ℕ} (hl : ∀ d ∈ l, d < 8) {u : ℕ}
    (hu : l.foldl (fun v d => v * 8 + d) u < 2 ^ 31) :
    octal u (bytes (l.map Nat.digitChar)) =
      some ((l.foldl (fun v d => v * 8 + d) u : ℕ) : ℤ) := by
  induction l generalizing u with
  | nil => rfl
  | cons d l ih =>
    have hd := hl d (by simp)
    obtain ⟨hbyte, hval, -⟩ := digit_byte d hd
    have hle := le_foldl l (u * 8 + d)
    rw [List.foldl_cons] at hu
    have hstep : int ((u : ℤ) * 8 + (((48 + d : ℕ) : ℤ) - 48)) = ((u * 8 + d : ℕ) : ℤ) := by
      rw [Dis.int_eq]
      · push_cast
        ring
      · exact ⟨by push_cast; omega, by push_cast; omega⟩
    rw [List.map_cons, Limbo.bytes_cons, hbyte, List.singleton_append, octal, hval,
      if_neg (by omega), hstep]
    exact ih (fun x hx => hl x (by simp [hx])) hu

def IsMode (mode : ℤ) : Prop := 0 ≤ mode ∧ mode < 2 ^ 31

theorem octal_text (h : IsMode v) : octal 0 (bytes (octaltext v)) = some v := by
  have hnat : ((v.natAbs : ℕ) : ℤ) = v := Int.natAbs_of_nonneg h.1
  have hlt : v.natAbs < 2 ^ 31 := by have := h.2; omega
  have hdig := octal_digits (octaldigits_lt v.natAbs) (u := 0) (by rwa [octaldigits_value])
  rw [octaldigits_value, hnat] at hdig
  rw [octaltext, if_neg (by have := h.1; omega)]
  exact hdig

theorem bytes_digits {l : List ℕ} (hl : ∀ d ∈ l, d < 8) :
    ∀ b ∈ bytes (l.map Nat.digitChar), 48 ≤ b.toNat ∧ b.toNat < 56 := by
  induction l with
  | nil => simp
  | cons d l ih =>
    obtain ⟨hbyte, hval, -⟩ := digit_byte d (hl d (by simp))
    have hd := hl d (by simp)
    intro b hb
    rw [List.map_cons, Limbo.bytes_cons, hbyte, List.singleton_append, List.mem_cons] at hb
    rcases hb with rfl | hb
    · omega
    · exact ih (fun x hx => hl x (by simp [hx])) b hb

def IsEntry (e : TreeEntry) : Prop := IsMode e.mode ∧ Char.ofNat 0 ∉ e.name

theorem encode_zero {c : Char} (h : (0 : UInt8) ∈ String.utf8EncodeChar c) : c = Char.ofNat 0 := by
  have hmem : (0 : ℤ) ∈ Cases.ofbytes (String.utf8EncodeChar c) :=
    List.mem_map.mpr ⟨0, h, rfl⟩
  rw [Cases.ofbytes_encode] at hmem
  have hzero : c.toNat = 0 := by
    split_ifs at hmem <;> simp only [List.mem_cons, List.not_mem_nil, or_false] at hmem <;> omega
  exact Char.toNat_inj.mp hzero

theorem bytes_zero (h : Char.ofNat 0 ∉ s) : (0 : UInt8) ∉ bytes s := by
  intro hm
  obtain ⟨c, hc, hb⟩ := List.mem_flatMap.mp hm
  exact h (encode_zero hb ▸ hc)

theorem octaltext_space (h : IsMode v) : (32 : UInt8) ∉ bytes (octaltext v) := by
  rw [octaltext, if_neg (by have := h.1; omega)]
  intro hm
  have := (bytes_digits (octaldigits_lt _) 32 hm).1
  simp at this

theorem cut_eq {α : Type} [DecidableEq α] {x : α} {l : List α} (h : x ∉ l) (r : List α) :
    (l ++ x :: r).dropWhile (· ≠ x) = x :: r ∧ (l ++ x :: r).takeWhile (· ≠ x) = l := by
  have hall : ∀ y ∈ l, decide (y ≠ x) = true := fun y hy => by
    simpa using fun heq : y = x => h (heq ▸ hy)
  rw [List.dropWhile_append_of_pos hall, List.takeWhile_append_of_pos hall]
  simp

theorem hashat_eq (h : Hash) (rest : List UInt8) :
    hashat ((List.finRange 20).map h ++ rest) = h := by
  funext i
  have hi : (i : ℕ) < ((List.finRange 20).map h).length := by simp
  rw [hashat, List.getD_append _ _ _ _ hi, List.getD_eq_getElem _ _ hi]
  simp

theorem parseentry_encode (he : IsEntry e) (rest : List UInt8) :
    parseentry (encodeentry e ++ rest) = .ok (e, rest) := by
  have hdata : encodeentry e ++ rest = bytes (octaltext e.mode) ++
      32 :: (bytes e.name ++ 0 :: ((List.finRange 20).map e.hash ++ rest)) := by
    simp [encodeentry]
  have hsp := cut_eq (octaltext_space he.1)
    (bytes e.name ++ 0 :: ((List.finRange 20).map e.hash ++ rest))
  have hnul := cut_eq (bytes_zero he.2) ((List.finRange 20).map e.hash ++ rest)
  have hlen : ¬((List.finRange 20).map e.hash ++ rest).length < 20 := by simp
  have hdrop : ((List.finRange 20).map e.hash ++ rest).drop 20 = rest :=
    List.drop_left' (by simp)
  rw [hdata, parseentry, hsp.1]
  simp only [hsp.2, octal_text he.1, hnul.1, hnul.2, if_neg hlen, hashat_eq, hdrop,
    Limbo.string_bytes]

theorem encodeentry_ne_nil (e : TreeEntry) (rest : List UInt8) : encodeentry e ++ rest ≠ [] := by
  simp [encodeentry]

theorem parsetree_encodetree (h : ∀ e ∈ es, IsEntry e) : parsetree (encodetree es) = .ok es := by
  induction es with
  | nil => rw [encodetree, List.flatMap_nil, parsetree, if_pos rfl]
  | cons e es ih =>
    have hrest := ih fun x hx => h x (by simp [hx])
    have hentry := parseentry_encode (h e (by simp)) (encodetree es)
    have hcons : encodetree (e :: es) = encodeentry e ++ encodetree es := rfl
    rw [hcons, parsetree, if_neg (encodeentry_ne_nil e _)]
    split
    · rename_i err herr
      rw [hentry] at herr
      cases herr
    · rename_i e' rest' heq
      rw [hentry] at heq
      cases heq
      rw [hrest]
      rfl

theorem parseoctal_digits {l : List ℕ} (hl : ∀ d ∈ l, d < 8) {u : ℕ}
    (hu : l.foldl (fun v d => v * 8 + d) u < 2 ^ 31) :
    parseoctalfrom u (l.map Nat.digitChar) = ((l.foldl (fun v d => v * 8 + d) u : ℕ) : ℤ) := by
  induction l generalizing u with
  | nil => rfl
  | cons d l ih =>
    have hd := hl d (by simp)
    obtain ⟨-, -, hval⟩ := digit_byte d hd
    have hle := le_foldl l (u * 8 + d)
    rw [List.foldl_cons] at hu
    have hstep : int ((u : ℤ) * 8 + (((48 + d : ℕ) : ℤ) - 48)) = ((u * 8 + d : ℕ) : ℤ) := by
      rw [Dis.int_eq]
      · push_cast
        ring
      · exact ⟨by push_cast; omega, by push_cast; omega⟩
    have hdigit : ¬(Nat.digitChar d < '0' ∨ '7' < Nat.digitChar d) := by
      have hlow : ¬(Nat.digitChar d).toNat < 48 := by omega
      have hhigh : ¬55 < (Nat.digitChar d).toNat := by omega
      exact fun h => h.elim hlow hhigh
    rw [List.map_cons, parseoctalfrom, hval, if_neg hdigit, hstep]
    exact ih (fun x hx => hl x (by simp [hx])) hu

theorem sixdigits_eq (h : IsMode v) : ∃ l : List ℕ, (∀ d ∈ l, d < 8) ∧
    l.foldl (fun v d => v * 8 + d) 0 = v.natAbs ∧ sixdigits v = l.map Nat.digitChar := by
  refine ⟨List.replicate (6 - (octaldigits v.natAbs).length) 0 ++ octaldigits v.natAbs, ?_, ?_, ?_⟩
  · intro d hd
    rcases List.mem_append.mp hd with hd | hd
    · obtain rfl := (List.mem_replicate.mp hd).2
      norm_num
    · exact octaldigits_lt _ d hd
  · have hzero : ∀ k, (List.replicate k 0).foldl (fun v d => v * 8 + d) 0 = 0 := by
      intro k
      induction k with
      | zero => rfl
      | succ k ih => simpa [List.replicate_succ] using ih
    rw [List.foldl_append, hzero, octaldigits_value]
  · rw [sixdigits, if_neg (by have := h.1; omega)]
    simp [List.map_replicate]

theorem parseoctal_sixdigits (h : IsMode v) : parseoctal (sixdigits v) = v := by
  obtain ⟨l, hl, hval, htext⟩ := sixdigits_eq h
  have hnat : ((v.natAbs : ℕ) : ℤ) = v := Int.natAbs_of_nonneg h.1
  have hlt := h.2
  have hdig := parseoctal_digits hl (u := 0) (by omega)
  rw [parseoctal, htext]
  exact hdig.trans (by rw [hval, hnat])

theorem splitfirst_eq {sep : Char} (h : sep ∉ s) (t : Str) :
    splitfirst sep (s ++ sep :: t) = (s, t) := by
  induction s with
  | nil => simp [splitfirst]
  | cons c s ih =>
    obtain ⟨hc, hs⟩ : ¬c = sep ∧ sep ∉ s := by simpa [eq_comm] using h
    rw [List.cons_append, splitfirst, if_neg hc, ih hs]

theorem splitline_eq (hn : '\n' ∉ s) (hr : s.getLast? ≠ some '\r') (t : Str) :
    splitline (s ++ '\n' :: t) = (s, t) := by
  induction s with
  | nil => rfl
  | cons c s ih =>
    obtain ⟨hc, hs⟩ : '\n' ≠ c ∧ '\n' ∉ s := by simpa using hn
    have hrest : splitline (s ++ '\n' :: t) = (s, t) := by
      cases s with
      | nil => rfl
      | cons d s => exact ih hs (by simpa using hr)
    rw [List.cons_append, splitline, hrest]
    · exact fun h => hc h.symm
    · rintro r rfl hcr
      cases s with
      | nil => simp at hr
      | cons d s => simp [(List.cons.inj hcr).1] at hs

/-- An entry whose line comes back: its path holds no newline and ends in no carriage return. -/
def IsLine (e : IndexEntry) : Prop :=
  IsMode e.mode ∧ '\n' ∉ e.path ∧ e.path.getLast? ≠ some '\r'

theorem digitChars_ne {l : List ℕ} (hl : ∀ d ∈ l, d < 8) {c : Char}
    (hc : c.toNat < 48 ∨ 56 ≤ c.toNat) : c ∉ l.map Nat.digitChar := by
  intro hm
  obtain ⟨d, hd, rfl⟩ := List.mem_map.mp hm
  have hlt := hl d hd
  obtain ⟨-, -, hval⟩ := digit_byte d hlt
  omega

theorem hex_ne (h : Hash) {c : Char} (hc : ∀ v < 16, hexdigit v ≠ c) : c ∉ h.hex := by
  intro hm
  obtain ⟨i, -, hi⟩ := List.mem_flatMap.mp hm
  have hlt := (h i).toNat_lt
  simp only [List.mem_cons, List.not_mem_nil, or_false] at hi
  rcases hi with rfl | rfl
  · exact hc _ (by omega) rfl
  · exact hc _ (by omega) rfl

theorem loadloop_first {f : IndexEntry} (hmode : IsMode f.mode)
    (h : splitline s = (indexline f, t)) : loadloop s = f :: loadloop t := by
  obtain ⟨l, hl, -, htext⟩ := sixdigits_eq hmode
  have hsix : ' ' ∉ sixdigits f.mode := htext ▸ digitChars_ne hl (.inl (by decide))
  have hne : (splitline s).1 ≠ [] := by
    rw [h]
    simp [indexline]
  have hfirst : splitfirst ' ' (indexline f) = (sixdigits f.mode, f.hash.hex ++ ' ' :: f.path) :=
    splitfirst_eq hsix _
  have hsecond : splitfirst ' ' (f.hash.hex ++ ' ' :: f.path) = (f.hash.hex, f.path) :=
    splitfirst_eq (hex_ne f.hash (by decide)) _
  have hhash : parsehash f.hash.hex = .ok f.hash := by
    have := parsehash_hex f.hash []
    rwa [List.append_nil] at this
  rw [loadloop, dif_neg hne, h]
  simp only [hfirst, hsecond, hhash, parseoctal_sixdigits hmode]

theorem indexline_newline {f : IndexEntry} (hmode : IsMode f.mode) (h : '\n' ∉ f.path) :
    '\n' ∉ indexline f := by
  obtain ⟨l, hl, -, htext⟩ := sixdigits_eq hmode
  have hsix : '\n' ∉ sixdigits f.mode := htext ▸ digitChars_ne hl (.inl (by decide))
  have hhex : '\n' ∉ f.hash.hex := hex_ne f.hash (by decide)
  simp [indexline, hsix, hhex, h]

theorem loadloop_cons {e : IndexEntry} (he : IsLine e) (t : Str) :
    loadloop (indexline e ++ '\n' :: t) = e :: loadloop t := by
  obtain ⟨hmode, hn, hr⟩ := he
  refine loadloop_first hmode (splitline_eq (indexline_newline hmode hn) ?_ t)
  have hlast : indexline e = (sixdigits e.mode ++ ' ' :: (e.hash.hex ++ [' '])) ++ e.path := by
    simp [indexline]
  rw [hlast]
  rcases eq_or_ne e.path [] with hp | hp
  · rw [hp, List.append_nil, ← List.cons_append, ← List.append_assoc, List.getLast?_concat]
    simp
  · rwa [List.getLast?_append_of_ne_nil _ hp]

theorem splitline_return (hn : '\n' ∉ s) (t : Str) :
    splitline (s ++ '\r' :: '\n' :: t) = (s, t) := by
  induction s with
  | nil => rfl
  | cons c s ih =>
    obtain ⟨hc, hs⟩ : '\n' ≠ c ∧ '\n' ∉ s := by simpa using hn
    rw [List.cons_append, splitline, ih hs]
    · exact fun h => hc h.symm
    · rintro r rfl hcr
      cases s with
      | nil => simp at hcr
      | cons d s => simp [(List.cons.inj hcr).1] at hs

theorem loadloop_return {f : IndexEntry} {p : Str} (hmode : IsMode f.mode)
    (hpath : f.path = p ++ ['\r']) (hn : '\n' ∉ f.path) (t : Str) :
    loadloop (indexline f ++ '\n' :: t) = ⟨f.mode, f.hash, p⟩ :: loadloop t := by
  have hp : '\n' ∉ p := fun h => hn (by simp [hpath, h])
  have hline : indexline f ++ '\n' :: t = indexline ⟨f.mode, f.hash, p⟩ ++ '\r' :: '\n' :: t := by
    simp [indexline, hpath]
  rw [hline]
  exact loadloop_first hmode
    (splitline_return (indexline_newline (f := ⟨f.mode, f.hash, p⟩) hmode hp) t)

theorem splitline_newline (s : Str) : '\n' ∉ (splitline s).1 := by
  fun_induction splitline s with
  | case1 | case2 s | case3 s => simp
  | case4 c s hn hr ih => simpa [ih] using fun h => hn h.symm

theorem splitfirst_subset (sep : Char) (s : Str) :
    (splitfirst sep s).1 ⊆ s ∧ (splitfirst sep s).2 ⊆ s := by
  fun_induction splitfirst sep s with
  | case1 => simp
  | case2 s => exact ⟨by simp, List.subset_cons_self _ _⟩
  | case3 c s h ih =>
    exact ⟨List.cons_subset_cons _ ih.1, List.subset_cons_of_subset _ ih.2⟩

theorem loadloop_newline (s : Str) : ∀ e ∈ loadloop s, '\n' ∉ e.path := by
  fun_induction loadloop s with
  | case1 => simp
  | case2 s h modestr r2 hfirst hashstr path hsecond err herr ih => exact ih
  | case3 s h modestr r2 hfirst hashstr path hsecond hash hhash ih =>
    intro e he
    rcases List.mem_cons.mp he with rfl | he
    · intro hm
      have hpath := congrArg Prod.snd hsecond
      have hrest := congrArg Prod.snd hfirst
      refine splitline_newline s ((splitfirst_subset ' ' _).2 ?_)
      rw [hrest]
      refine (splitfirst_subset ' ' _).2 ?_
      rw [hpath]
      exact hm
    · exact ih e he

theorem loadloop_lines {es : List IndexEntry} (h : ∀ e ∈ es, IsLine e) :
    loadloop (es.flatMap fun e => indexline e ++ ['\n']) = es := by
  induction es with
  | nil => rw [List.flatMap_nil, loadloop, dif_pos (by rfl)]
  | cons e es ih =>
    have hrest := ih fun x hx => h x (by simp [hx])
    have hcons := loadloop_cons (h e (by simp)) (es.flatMap fun e => indexline e ++ ['\n'])
    rw [List.flatMap_cons, List.append_assoc, List.singleton_append, hcons, hrest]

theorem lined_of_loadloop {es : List IndexEntry} (hmode : ∀ e ∈ es, IsMode e.mode)
    (h : loadloop (es.flatMap fun e => indexline e ++ ['\n']) = es) : ∀ e ∈ es, IsLine e := by
  have hn : ∀ e ∈ es, '\n' ∉ e.path := fun e he =>
    loadloop_newline (es.flatMap fun e => indexline e ++ ['\n']) e (by rwa [h])
  induction es with
  | nil => simp
  | cons e es ih =>
    have hhead := hmode e (by simp)
    rw [List.flatMap_cons, List.append_assoc, List.singleton_append] at h
    have hlast : e.path.getLast? ≠ some '\r' := by
      intro hr
      obtain ⟨p, hp⟩ := List.getLast?_eq_some_iff.mp hr
      rw [loadloop_return hhead hp (hn e (by simp))] at h
      have hpath := congrArg IndexEntry.path (List.cons.inj h).1
      rw [hp] at hpath
      simpa using congrArg List.length hpath
    have hline : IsLine e := ⟨hhead, hn e (by simp), hlast⟩
    rw [loadloop_cons hline] at h
    intro f hf
    rcases List.mem_cons.mp hf with rfl | hf
    · exact hline
    · exact ih (fun f hf => hmode f (by simp [hf])) (List.cons.inj h).2
        (fun f hf => hn f (by simp [hf])) f hf

theorem readblocks_flatten (b : List UInt8) : (readblocks b).flatten = b := by
  fun_induction readblocks b with
  | case1 => rfl
  | case2 b h ih => rw [List.flatten_cons, ih, List.take_append_drop]

def Aligned (b : List UInt8) : Prop := ∀ block ∈ readblocks b, ∃ t, block = bytes t

theorem aligned_short (t : Str) (h : (bytes t).length ≤ BLOCK) : Aligned (bytes t) := by
  intro block hblock
  rw [readblocks] at hblock
  split_ifs at hblock with hnil
  · simp at hblock
  · rw [List.take_of_length_le h, List.drop_eq_nil_of_le h, readblocks, dif_pos rfl] at hblock
    exact ⟨t, List.mem_singleton.mp hblock⟩

theorem blocks_text {bs : List (List UInt8)} (h : ∀ b ∈ bs, ∃ t, b = bytes t) :
    bytes (bs.flatMap string) = bs.flatten := by
  induction bs with
  | nil => rfl
  | cons b bs ih =>
    obtain ⟨t, rfl⟩ := h b (by simp)
    rw [List.flatMap_cons, Limbo.bytes_append, Limbo.string_bytes, List.flatten_cons,
      ih fun x hx => h x (by simp [hx])]

theorem blocks_saveindex {es : List IndexEntry} (ha : Aligned (saveindex es)) :
    (readblocks (saveindex es)).flatMap string = es.flatMap fun e => indexline e ++ ['\n'] := by
  apply Limbo.bytes_injective
  rw [blocks_text ha, readblocks_flatten, saveindex]

theorem loadfile_saveindex {es : List IndexEntry} (h : ∀ e ∈ es, IsLine e)
    (ha : Aligned (saveindex es)) : loadfile (saveindex es) = es := by
  rw [loadfile, blocks_saveindex ha, loadloop_lines h]

end Infernode.Git
