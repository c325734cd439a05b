import Infernode.Web.Link

/-!
# Chunked bodies

`readchunked` reads a chunked body from a connection. `Wellchunked` says what the bytes of a
body are whose chunks are well framed, whether whole, cut off by the end of the connection, or
cut at `MAXBODY`.
-/

namespace Infernode.Web

open Dis (int)

def hexof (b : UInt8) : Option ℕ :=
  if 48 ≤ b ∧ b ≤ 57 then some (b.toNat - 48)
  else if 97 ≤ b ∧ b ≤ 102 then some (b.toNat - 97 + 10)
  else if 65 ≤ b ∧ b ≤ 70 then some (b.toNat - 65 + 10)
  else none

def hexloop (n : ℤ) : List UInt8 → ℤ
  | [] => n
  | b :: s =>
    match hexof b with
    | none => n
    | some d => hexloop (int (n * 16 + d)) s

def blankbyte (b : UInt8) : Bool := b == 32 || b == 9

def sizetext (line : List UInt8) : List UInt8 := (line.takeWhile (· ≠ 59)).dropWhile blankbyte

def hexvalue (line : List UInt8) : ℤ := hexloop 0 (sizetext line)

def CRLF : List UInt8 := [13, 10]

def Link.readtrailer (l : Link) : Bool × Link :=
  match _h : l.readline with
  | (none, l') => (false, l')
  | (some line, l') => if line = CRLF ∨ line = [10] then (true, l') else l'.readtrailer
termination_by l.bytes.length
decreasing_by
  have hlt := (readlinefrom_lt LINESIZE l).2 (by decide)
  rw [Link.readline] at _h
  rw [_h] at hlt
  exact hlt (by simp)

def Link.readchunked (l : Link) (total : ℤ) : (List UInt8 × Bool) × Link :=
  match _h : l.readline with
  | (none, l') => (([], false), l')
  | (some line, l') =>
    let size := hexvalue line
    if size ≤ 0 then (([], l'.readtrailer.1), l'.readtrailer.2)
    else
      let trunc := decide ((MAXBODY : ℤ) < int (total + size))
      let n := if trunc then (MAXBODY - total).toNat else size.toNat
      let data := (l'.readn n).1
      if data.length < n ∨ trunc = true then ((data, false), (l'.readn n).2)
      else
        let more := (l'.readn n).2.readline.2.readchunked (total + data.length)
        ((data ++ more.1.1, more.1.2), more.2)
termination_by l.bytes.length
decreasing_by
  have hlt := (readlinefrom_lt LINESIZE l).2 (by decide)
  have hafter : ∀ n, (l'.readn n).2.readline.2.bytes.length ≤ l'.bytes.length := fun n => by
    have hline := (readlinefrom_lt LINESIZE (l'.readn n).2).1
    rw [(readn_bytes l' n).2, List.length_drop] at hline
    exact hline.trans (Nat.sub_le _ _)
  rw [Link.readline] at _h
  rw [_h] at hlt
  exact lt_of_le_of_lt (hafter _) (hlt (by simp))

def hexnumber (digits : List UInt8) : ℕ := digits.foldl (fun v b => v * 16 + (hexof b).getD 0) 0

def ishex (b : UInt8) : Bool := (hexof b).isSome

def chunksize (line : List UInt8) : Option ℕ :=
  let digits := (sizetext line).takeWhile ishex
  let rest := (sizetext line).dropWhile ishex
  if digits ≠ [] ∧ rest.all (fun b => blankbyte b || b == 13 || b == 10) = true then
    some (hexnumber digits)
  else none

/-- A trailer section with lines that fit, and what follows it; `none` where it is cut off. -/
inductive Trailer : List UInt8 → Option (List UInt8) → Prop
  | blank {s line rest : List UInt8} : cutline s = some (line, rest) →
      line = CRLF ∨ line = [10] → Trailer s (some rest)
  | field {s line s' : List UInt8} {rest : Option (List UInt8)} : cutline s = some (line, s') →
      line ≠ CRLF → line ≠ [10] → line.length ≤ LINESIZE → Trailer s' rest → Trailer s rest
  | cut {s : List UInt8} : cutline s = none → s.length < LINESIZE → Trailer s none

/-- A chunked body after `total` bytes of it, the data in it, and what follows it where it is
whole. Its size lines fit and hold sizes that an int holds with the body before them. -/
inductive Wellchunked : ℕ → List UInt8 → List UInt8 → Option (List UInt8) → Prop
  | last {total : ℕ} {s line s' : List UInt8} {rest : Option (List UInt8)} :
      cutline s = some (line, s') → line.length ≤ LINESIZE → chunksize line = some 0 →
      Trailer s' rest → Wellchunked total s [] rest
  | chunk {total n : ℕ} {s line s' eol s'' data : List UInt8} {rest : Option (List UInt8)} :
      cutline s = some (line, s') → line.length ≤ LINESIZE → chunksize line = some n → 0 < n →
      total + n ≤ MAXBODY → n ≤ s'.length → s'.drop n = eol ++ s'' → eol = CRLF ∨ eol = [10] →
      Wellchunked (total + n) s'' data rest → Wellchunked total s (s'.take n ++ data) rest
  | large {total n : ℕ} {s line s' : List UInt8} :
      cutline s = some (line, s') → line.length ≤ LINESIZE → chunksize line = some n →
      MAXBODY < total + n → total + n < 2 ^ 31 →
      Wellchunked total s (s'.take (MAXBODY - total)) none
  | short {total n : ℕ} {s line s' : List UInt8} :
      cutline s = some (line, s') → line.length ≤ LINESIZE → chunksize line = some n →
      total + n ≤ MAXBODY → s'.length < n → Wellchunked total s s' none
  | shortend {total n : ℕ} {s line s' : List UInt8} :
      cutline s = some (line, s') → line.length ≤ LINESIZE → chunksize line = some n → 0 < n →
      total + n ≤ MAXBODY → n ≤ s'.length → s'.drop n = [] ∨ s'.drop n = [13] →
      Wellchunked total s (s'.take n) none
  | cut {total : ℕ} {s : List UInt8} : cutline s = none → s.length < LINESIZE →
      Wellchunked total s [] none

theorem int_small {n : ℤ} (hlow : 0 ≤ n) (hhigh : n < 2 ^ 31) : int n = n :=
  Int.bmod_eq_of_le (by omega) (by omega)

theorem le_hexfold (s : List UInt8) (v : ℕ) :
    v ≤ s.foldl (fun v b => v * 16 + (hexof b).getD 0) v := by
  induction s generalizing v with
  | nil => exact le_rfl
  | cons b s ih => exact le_trans (by omega) (ih (v * 16 + (hexof b).getD 0))

theorem hexloop_eq {digits rest : List UInt8} (h : ∀ b ∈ digits, ishex b = true)
    (hrest : ∀ b ∈ rest.head?, hexof b = none) (v : ℕ)
    (hfits : digits.foldl (fun v b => v * 16 + (hexof b).getD 0) v < 2 ^ 31) :
    hexloop v (digits ++ rest) =
      (digits.foldl (fun v b => v * 16 + (hexof b).getD 0) v : ℕ) := by
  induction digits generalizing v with
  | nil =>
    cases rest with
    | nil => rfl
    | cons b rest => simp [hexloop, hrest b (by simp)]
  | cons b digits ih =>
    obtain ⟨d, hd⟩ := Option.isSome_iff_exists.mp (h b (by simp))
    have hle := le_hexfold digits (v * 16 + (hexof b).getD 0)
    have hcast : ((v : ℤ) * 16 + d) = ((v * 16 + d : ℕ) : ℤ) := by push_cast; ring
    rw [List.foldl_cons] at hfits
    rw [hd, Option.getD_some] at hle hfits
    have hint : int ((v * 16 + d : ℕ) : ℤ) = ((v * 16 + d : ℕ) : ℤ) :=
      int_small (by omega) (by omega)
    rw [List.cons_append, List.foldl_cons, hexloop, hd]
    simp only [Option.getD_some]
    rw [hcast, hint]
    exact ih (fun b hb => h b (by simp [hb])) _ hfits

theorem hexvalue_eq {line : List UInt8} {n : ℕ} (h : chunksize line = some n) (hn : n < 2 ^ 31) :
    hexvalue line = n := by
  simp only [chunksize] at h
  split_ifs at h with hline
  obtain rfl := Option.some.inj h
  have hrest : ∀ b ∈ ((sizetext line).dropWhile ishex).head?, hexof b = none := by
    intro b hb
    have := List.head?_dropWhile_not ishex (sizetext line)
    rw [Option.mem_def.mp hb] at this
    simpa [ishex] using this
  have hloop := hexloop_eq (fun b hb => List.mem_takeWhile_imp hb) hrest 0 hn
  rw [List.takeWhile_append_dropWhile] at hloop
  exact hloop

theorem readtrailer_eq {s : List UInt8} {rest : Option (List UInt8)} (h : Trailer s rest) :
    ∀ l : Link, l.bytes = s → l.readtrailer.1 = rest.isSome ∧
      ∀ r, rest = some r → l.readtrailer.2.bytes = r := by
  induction h with
  | @blank s line rest hcut hline =>
    rintro l rfl
    have hlen : line.length ≤ LINESIZE := by rcases hline with rfl | rfl <;> decide
    obtain ⟨h1, h2⟩ := readlinefrom_line hcut hlen
    rw [Link.readtrailer, Link.readline]
    generalize l.readlinefrom LINESIZE = r at h1 h2
    obtain ⟨o, l'⟩ := r
    obtain rfl : o = some line := h1
    simp only [if_pos hline]
    exact ⟨rfl, fun r hr => (Option.some.inj hr) ▸ h2⟩
  | @field s line s' rest hcut hne1 hne2 hlen _ ih =>
    rintro l rfl
    obtain ⟨h1, h2⟩ := readlinefrom_line hcut hlen
    rw [Link.readtrailer, Link.readline]
    generalize l.readlinefrom LINESIZE = r at h1 h2
    obtain ⟨o, l'⟩ := r
    obtain rfl : o = some line := h1
    simp only [if_neg (not_or.mpr ⟨hne1, hne2⟩)]
    exact ih l' h2
  | @cut s hcut hlen =>
    rintro l rfl
    obtain ⟨h1, -⟩ := readlinefrom_none hcut hlen
    rw [Link.readtrailer, Link.readline]
    generalize l.readlinefrom LINESIZE = r at h1
    obtain ⟨o, l'⟩ := r
    obtain rfl : o = none := h1
    exact ⟨rfl, by simp⟩

theorem readchunked_line {l l' : Link} {line : List UInt8} (total : ℤ)
    (h : l.readline = (some line, l')) : l.readchunked total =
      if hexvalue line ≤ 0 then (([], l'.readtrailer.1), l'.readtrailer.2)
      else
        let trunc := decide ((MAXBODY : ℤ) < int (total + hexvalue line))
        let n := if trunc then (MAXBODY - total).toNat else (hexvalue line).toNat
        if (l'.readn n).1.length < n ∨ trunc = true then (((l'.readn n).1, false), (l'.readn n).2)
        else
          let more := (l'.readn n).2.readline.2.readchunked (total + (l'.readn n).1.length)
          (((l'.readn n).1 ++ more.1.1, more.1.2), more.2) := by
  rw [Link.readchunked]
  split
  · rename_i heq
    rw [h] at heq
    simp at heq
  · rename_i line' k heq
    rw [h] at heq
    obtain ⟨rfl, rfl⟩ : line = line' ∧ l' = k := by simpa using heq
    rfl

theorem readline_some {l : Link} {line s : List UInt8} (h : cutline l.bytes = some (line, s))
    (hlen : line.length ≤ LINESIZE) : ∃ l', l.readline = (some line, l') ∧ l'.bytes = s := by
  obtain ⟨h1, h2⟩ := readlinefrom_line h hlen
  exact ⟨l.readline.2, Prod.ext h1 rfl, h2⟩

theorem cutline_eol {eol s : List UInt8} (h : eol = CRLF ∨ eol = [10]) :
    cutline (eol ++ s) = some (eol, s) := by
  rcases h with rfl | rfl
  · simp [CRLF, cutline_cons]
  · simp [cutline_cons]

theorem readchunked_eq {total : ℕ} {s data : List UInt8} {rest : Option (List UInt8)}
    (h : Wellchunked total s data rest) (htotal : total ≤ MAXBODY) :
    ∀ l : Link, l.bytes = s → (l.readchunked total).1 = (data, rest.isSome) ∧
      ∀ r, rest = some r → (l.readchunked total).2.bytes = r := by
  have hmax : MAXBODY < 2 ^ 31 := by decide
  induction h with
  | @last total s line s' rest hcut hlen hsize htrailer =>
    rintro l rfl
    obtain ⟨l', hl, hbytes⟩ := readline_some hcut hlen
    obtain ⟨h1, h2⟩ := readtrailer_eq htrailer l' hbytes
    have hval := hexvalue_eq hsize (by norm_num)
    rw [readchunked_line _ hl, if_pos (by rw [hval]; rfl)]
    exact ⟨by rw [h1], h2⟩
  | @chunk total n s line s' eol s'' data rest hcut hlen hsize hpos hfits hle hdrop heol _ ih =>
    rintro l rfl
    obtain ⟨l', hl, rfl⟩ := readline_some hcut hlen
    have hval := hexvalue_eq hsize (by omega)
    obtain ⟨hr1, hr2⟩ := readn_bytes l' n
    have htrunc : ¬((MAXBODY : ℤ) < int ((total : ℤ) + n)) := by
      rw [int_small (by omega) (by omega)]
      omega
    rw [hdrop] at hr2
    obtain ⟨l3, hl3, hbytes⟩ := readline_some (hr2 ▸ cutline_eol heol)
      (by rcases heol with rfl | rfl <;> decide)
    obtain ⟨ih1, ih2⟩ := ih hfits l3 hbytes
    have hdata : (l'.readn n).1.length = n := by
      rw [hr1, List.length_take]
      omega
    rw [readchunked_line _ hl, hval, if_neg (by omega)]
    simp only [htrunc, decide_false, Bool.false_eq_true, if_false, Int.toNat_natCast, hdata,
      lt_self_iff_false, or_self, hl3]
    rw [← Nat.cast_add, ih1, hr1]
    exact ⟨rfl, ih2⟩
  | @large total n s line s' hcut hlen hsize hover hsmall =>
    rintro l rfl
    obtain ⟨l', hl, rfl⟩ := readline_some hcut hlen
    have hval := hexvalue_eq hsize (by omega)
    obtain ⟨hr1, -⟩ := readn_bytes l' (MAXBODY - total)
    have htrunc : (MAXBODY : ℤ) < int ((total : ℤ) + n) := by
      rw [int_small (by omega) (by omega)]
      omega
    have hn : ((MAXBODY : ℤ) - total).toNat = MAXBODY - total := by omega
    rw [readchunked_line _ hl, hval, if_neg (by omega)]
    simp only [htrunc, decide_true, if_true, or_true, hn]
    exact ⟨by rw [hr1]; rfl, by simp⟩
  | @short total n s line s' hcut hlen hsize hfits hshort =>
    rintro l rfl
    obtain ⟨l', hl, rfl⟩ := readline_some hcut hlen
    have hval := hexvalue_eq hsize (by omega)
    obtain ⟨hr1, -⟩ := readn_bytes l' n
    have htrunc : ¬((MAXBODY : ℤ) < int ((total : ℤ) + n)) := by
      rw [int_small (by omega) (by omega)]
      omega
    have hdata : (l'.readn n).1 = l'.bytes := by
      rw [hr1, List.take_of_length_le (by omega)]
    rw [readchunked_line _ hl, hval, if_neg (by omega)]
    simp only [htrunc, decide_false, Bool.false_eq_true, if_false, Int.toNat_natCast, hdata,
      hshort, true_or, if_true]
    exact ⟨rfl, by simp⟩
  | @shortend total n s line s' hcut hlen hsize hpos hfits hle hend =>
    rintro l rfl
    obtain ⟨l', hl, rfl⟩ := readline_some hcut hlen
    have hval := hexvalue_eq hsize (by omega)
    obtain ⟨hr1, hr2⟩ := readn_bytes l' n
    have htrunc : ¬((MAXBODY : ℤ) < int ((total : ℤ) + n)) := by
      rw [int_small (by omega) (by omega)]
      omega
    have hdata : (l'.readn n).1.length = n := by
      rw [hr1, List.length_take]
      omega
    -- the connection ends in the line end, and after it
    have hnone : ∀ l : Link, l.bytes = [] ∨ l.bytes = [13] →
        l.readline.1 = none ∧ l.readline.2.bytes = [] := fun l hl => by
      refine readlinefrom_none ?_ ?_
      · rcases hl with hl | hl <;> simp [hl, cutline]
      · rcases hl with hl | hl <;> rw [hl] <;> decide
    obtain ⟨-, hempty⟩ := hnone (l'.readn n).2 (by rwa [hr2])
    obtain ⟨hend1, -⟩ := hnone (l'.readn n).2.readline.2 (.inl hempty)
    have hmore : ((l'.readn n).2.readline.2.readchunked (total + n)).1 = ([], false) := by
      rw [Link.readchunked]
      split
      · rfl
      · rename_i heq
        rw [heq] at hend1
        simp at hend1
    rw [readchunked_line _ hl, hval, if_neg (by omega)]
    simp only [htrunc, decide_false, Bool.false_eq_true, if_false, Int.toNat_natCast, hdata,
      lt_self_iff_false, or_self]
    rw [hmore, hr1, List.append_nil]
    exact ⟨rfl, by simp⟩
  | @cut total s hcut hlen =>
    rintro l rfl
    obtain ⟨h1, -⟩ := readlinefrom_none hcut hlen
    have hread : l.readline.1 = none := h1
    rw [Link.readchunked]
    split
    · exact ⟨rfl, by simp⟩
    · rename_i heq
      rw [heq] at hread
      simp at hread

end Infernode.Web
