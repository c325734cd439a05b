import Infernode.Audit.Sealed
import Infernode.Web.Request

/-!
# Connections

A `Link` is a connection with a buffer of what was read ahead. What it gives does not depend
on how the bytes arrive: reads of it are reads of the bytes that are to come.
-/

namespace Infernode.Web

open Audit (strtoint)
open Dis (int)
open Limbo (Str lit asciilower prefixed tokenize string)

def MAXBODY : ℕ := 64 * 1024 * 1024

structure Link where
  buf : List UInt8
  net : List (List UInt8)
  full : ∀ seg ∈ net, seg ≠ []

def Link.bytes (l : Link) : List UInt8 := l.buf ++ l.net.flatten

def Link.netread (l : Link) (k : ℕ) : List UInt8 × Link :=
  match h : l.net with
  | [] => ([], l)
  | seg :: net =>
    (seg.take k,
      if hd : seg.drop k = [] then
        ⟨l.buf, net, fun s hs => l.full s (h ▸ List.mem_cons_of_mem _ hs)⟩
      else ⟨l.buf, seg.drop k :: net, fun s hs => (List.mem_cons.mp hs).elim (fun he => he ▸ hd)
        fun hs => l.full s (h ▸ List.mem_cons_of_mem _ hs)⟩)

def Link.read (l : Link) (k : ℕ) : List UInt8 × Link :=
  if l.buf = [] then l.netread k else (l.buf.take k, { l with buf := l.buf.drop k })

def BUFSIZE : ℕ := 16384

def Link.getc (l : Link) : Option UInt8 × Link :=
  match l.buf with
  | b :: rest => (some b, { l with buf := rest })
  | [] =>
    match l.netread BUFSIZE with
    | ([], l') => (none, l')
    | (b :: rest, l') => (some b, { l' with buf := rest })

theorem netread_bytes (l : Link) (hbuf : l.buf = []) {k : ℕ} (hk : 0 < k) :
    (l.netread k).1 ++ (l.netread k).2.bytes = l.bytes ∧ (l.netread k).1.length ≤ k ∧
      ((l.netread k).1 = [] → l.bytes = []) ∧ (l.netread k).2.buf = [] := by
  obtain ⟨buf, net, full⟩ := l
  obtain rfl : buf = [] := hbuf
  cases net with
  | nil => simp [Link.netread, Link.bytes]
  | cons seg net =>
    have hseg : seg ≠ [] := full seg (by simp)
    have hne : seg.take k ≠ [] := by simp [hseg, hk.ne']
    simp only [Link.netread, Link.bytes, List.nil_append, List.flatten_cons]
    refine ⟨?_, List.length_take_le _ _, fun h => absurd h hne, ?_⟩
    · split_ifs with hd
      · have htake := List.take_append_drop k seg
        rw [hd, List.append_nil] at htake
        simp [htake]
      · simp [← List.append_assoc]
    · split_ifs <;> rfl

theorem read_bytes (l : Link) {k : ℕ} (hk : 0 < k) :
    (l.read k).1 ++ (l.read k).2.bytes = l.bytes ∧ (l.read k).1.length ≤ k ∧
      ((l.read k).1 = [] → l.bytes = []) := by
  rw [Link.read]
  split_ifs with hbuf
  · obtain ⟨h1, h2, h3, -⟩ := netread_bytes l hbuf hk
    exact ⟨h1, h2, h3⟩
  · refine ⟨?_, List.length_take_le _ _, fun h => ?_⟩
    · simp [Link.bytes, ← List.append_assoc]
    · have hnil : l.buf.take k ≠ [] := by simp [hbuf, hk.ne']
      exact absurd h hnil

theorem getc_bytes (l : Link) : (l.getc.1 = none ∧ l.bytes = [] ∧ l.getc.2.bytes = []) ∨
    ∃ b, l.getc.1 = some b ∧ l.bytes = b :: l.getc.2.bytes := by
  rw [Link.getc]
  cases hbuf : l.buf with
  | cons b rest => exact .inr ⟨b, rfl, by simp [Link.bytes, hbuf]⟩
  | nil =>
    obtain ⟨h1, -, h3, h4⟩ := netread_bytes l hbuf (k := BUFSIZE) (by decide)
    simp only
    generalize l.netread BUFSIZE = r at h1 h3 h4
    obtain ⟨bs, l'⟩ := r
    cases bs with
    | nil =>
      have hnil := h3 rfl
      rw [hnil] at h1
      exact .inl ⟨rfl, hnil, by simpa using h1⟩
    | cons b rest =>
      refine .inr ⟨b, rfl, ?_⟩
      have hbuf' : l'.buf = [] := h4
      rw [← h1]
      simp [Link.bytes, hbuf']

def Link.readn (l : Link) (n : ℕ) : List UInt8 × Link :=
  if _hn : n = 0 then ([], l)
  else
    if _hr : (l.read n).1 = [] then ([], (l.read n).2)
    else
      let more := (l.read n).2.readn (n - (l.read n).1.length)
      ((l.read n).1 ++ more.1, more.2)
termination_by n
decreasing_by
  have := List.length_pos_of_ne_nil _hr
  omega

theorem readn_bytes (l : Link) (n : ℕ) :
    (l.readn n).1 = l.bytes.take n ∧ (l.readn n).2.bytes = l.bytes.drop n := by
  induction n using Nat.strong_induction_on generalizing l with
  | h n ih =>
    rw [Link.readn]
    split_ifs with hn hr
    · simp [hn]
    · obtain ⟨h1, -, h3⟩ := read_bytes l (Nat.pos_of_ne_zero hn)
      have hnil := h3 hr
      rw [hr, hnil] at h1
      simpa [hnil] using h1
    · obtain ⟨h1, h2, -⟩ := read_bytes l (Nat.pos_of_ne_zero hn)
      have hpos := List.length_pos_of_ne_nil hr
      obtain ⟨ih1, ih2⟩ := ih (n - (l.read n).1.length) (by omega) (l.read n).2
      simp only [ih1, ih2]
      rw [← h1, List.take_append, List.drop_append, List.take_of_length_le h2,
        List.drop_of_length_le h2]
      exact ⟨rfl, rfl⟩

def Link.readrest (l : Link) (total : ℕ) : List UInt8 × Link :=
  if _ht : MAXBODY ≤ total then ([], l)
  else
    if _hr : (l.read BUFSIZE).1 = [] then ([], (l.read BUFSIZE).2)
    else
      let more := (l.read BUFSIZE).2.readrest (total + (l.read BUFSIZE).1.length)
      ((l.read BUFSIZE).1 ++ more.1, more.2)
termination_by MAXBODY - total
decreasing_by
  have := List.length_pos_of_ne_nil _hr
  omega

theorem readrest_bytes (l : Link) {total : ℕ} (h : total + l.bytes.length ≤ MAXBODY) :
    (l.readrest total).1 = l.bytes := by
  induction hk : MAXBODY - total using Nat.strong_induction_on generalizing l total with
  | h k ih =>
    rw [Link.readrest]
    obtain ⟨h1, -, h3⟩ := read_bytes l (k := BUFSIZE) (by decide)
    split_ifs with ht hr
    · have hnil : l.bytes.length = 0 := by omega
      exact (List.length_eq_zero_iff.mp hnil).symm
    · exact (h3 hr).symm
    · have hpos := List.length_pos_of_ne_nil hr
      have hlen := congrArg List.length h1
      rw [List.length_append] at hlen
      have hrest := ih (MAXBODY - (total + (l.read BUFSIZE).1.length)) (by omega)
        (l.read BUFSIZE).2 (by omega) rfl
      simp only [hrest]
      exact h1

def LINESIZE : ℕ := 8192

/-- The bytes of a line of at most `n`, with its end; `none` at the end of the connection. -/
def Link.readlinefrom : ℕ → Link → Option (List UInt8) × Link
  | 0, l => (some [], l)
  | n + 1, l =>
    match l.getc with
    | (none, l') => (none, l')
    | (some b, l') =>
      if b = 10 then (some [b], l')
      else ((l'.readlinefrom n).1.map (b :: ·), (l'.readlinefrom n).2)

def Link.readline (l : Link) : Option (List UInt8) × Link := l.readlinefrom LINESIZE

def cutline (s : List UInt8) : Option (List UInt8 × List UInt8) :=
  if 10 ∈ s then some (s.takeWhile (· ≠ 10) ++ [10], (s.dropWhile (· ≠ 10)).drop 1) else none

theorem cutline_cons (b : UInt8) (s : List UInt8) : cutline (b :: s) =
    if b = 10 then some ([b], s) else (cutline s).map fun p => (b :: p.1, p.2) := by
  by_cases hb : b = 10
  · simp [cutline, hb]
  · simp only [cutline, List.mem_cons, Ne.symm hb, false_or, if_neg hb]
    split_ifs <;> simp [hb]

theorem readlinefrom_lt (n : ℕ) (l : Link) : (l.readlinefrom n).2.bytes.length ≤ l.bytes.length ∧
    (n ≠ 0 → (l.readlinefrom n).1 ≠ none →
      (l.readlinefrom n).2.bytes.length < l.bytes.length) := by
  induction n generalizing l with
  | zero => exact ⟨le_rfl, fun h => absurd rfl h⟩
  | succ n ih =>
    rcases getc_bytes l with ⟨h1, h2, h3⟩ | ⟨b, h1, h2⟩
    · rw [Link.readlinefrom]
      generalize l.getc = r at h1 h3
      obtain ⟨o, l'⟩ := r
      obtain rfl : o = none := h1
      simp [h3]
    · rw [Link.readlinefrom, h2]
      generalize l.getc = r at h1
      obtain ⟨o, l'⟩ := r
      obtain rfl : o = some b := h1
      have hrest := (ih l').1
      simp only [List.length_cons]
      split_ifs
      · simp
      · exact ⟨Nat.le_succ_of_le hrest, fun _ _ => Nat.lt_succ_of_le hrest⟩

theorem readlinefrom_line {n : ℕ} {l : Link} {line s : List UInt8}
    (h : cutline l.bytes = some (line, s)) (hlen : line.length ≤ n) :
    (l.readlinefrom n).1 = some line ∧ (l.readlinefrom n).2.bytes = s := by
  induction n generalizing l line with
  | zero =>
    obtain rfl : line = [] := List.length_eq_zero_iff.mp (Nat.le_zero.mp hlen)
    simp only [cutline] at h
    split_ifs at h
    simp at h
  | succ n ih =>
    rcases getc_bytes l with ⟨-, h2, -⟩ | ⟨b, h1, h2⟩
    · simp [h2, cutline] at h
    · rw [Link.readlinefrom]
      generalize l.getc = r at h1 h2
      obtain ⟨o, l'⟩ := r
      obtain rfl : o = some b := h1
      rw [h2, cutline_cons] at h
      simp only
      split_ifs at h ⊢ with hb
      · obtain ⟨rfl, rfl⟩ := Prod.mk.inj (Option.some.inj h)
        exact ⟨rfl, rfl⟩
      · obtain ⟨p, hp, hpair⟩ := Option.map_eq_some_iff.mp h
        obtain ⟨rfl, rfl⟩ := Prod.mk.inj hpair
        have hline : cutline l'.bytes = some (p.1, p.2) := hp
        obtain ⟨ih1, ih2⟩ := ih hline (by simpa using hlen)
        exact ⟨by rw [ih1]; rfl, ih2⟩

theorem readlinefrom_none {n : ℕ} {l : Link} (h : cutline l.bytes = none)
    (hlen : l.bytes.length < n) :
    (l.readlinefrom n).1 = none ∧ (l.readlinefrom n).2.bytes = [] := by
  induction n generalizing l with
  | zero => exact absurd hlen (Nat.not_lt_zero _)
  | succ n ih =>
    rcases getc_bytes l with ⟨h1, h2, h3⟩ | ⟨b, h1, h2⟩
    · rw [Link.readlinefrom]
      generalize l.getc = r at h1 h3
      obtain ⟨o, l'⟩ := r
      obtain rfl : o = none := h1
      exact ⟨rfl, h3⟩
    · rw [Link.readlinefrom]
      generalize l.getc = r at h1 h2
      obtain ⟨o, l'⟩ := r
      obtain rfl : o = some b := h1
      rw [h2, cutline_cons] at h
      rw [h2, List.length_cons] at hlen
      simp only at hlen ⊢
      split_ifs at h ⊢ with hb
      obtain ⟨ih1, ih2⟩ := ih (by simpa using h) (by omega)
      exact ⟨by rw [ih1]; rfl, ih2⟩

end Infernode.Web
