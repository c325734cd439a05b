import Infernode.Web.Chunked

/-!
# Responses

`readresponse` reads a header and the body that it frames. `Exchange` says what the bytes of a
response are, after any interim responses, whether it came whole or was cut off.
-/

namespace Infernode.Web

open Audit (strtoint)
open Limbo (Str lit asciilower prefixed tokenize string isdigit decvalue)

def HEADERSIZE : ℕ := 65536

def Link.readheaderfrom : ℕ → List UInt8 → Link → Except Str (List UInt8) × Link
  | 0, _, l => (.error (lit "response header too long"), l)
  | n + 1, acc, l =>
    match l.getc with
    | (none, l') => (if acc = [] then .error (lit "empty response") else .ok acc.reverse, l')
    | (some b, l') =>
      if (b :: acc).take 4 = [10, 13, 10, 13] then (.ok (b :: acc).reverse, l')
      else l'.readheaderfrom n (b :: acc)

def Link.readheader (l : Link) : Except Str (List UInt8) × Link := l.readheaderfrom HEADERSIZE []

def splitline : Str → Str × Str
  | '\r' :: '\n' :: s => ([], s)
  | c :: s => (c :: (splitline s).1, (splitline s).2)
  | [] => ([], [])

theorem splitline_length (s : Str) :
    (splitline s).1.length + (splitline s).2.length ≤ s.length := by
  fun_induction splitline s with
  | case1 s =>
    simp only [List.length_nil, List.length_cons]
    omega
  | case2 c s h ih =>
    simp only [List.length_cons]
    omega
  | case3 => simp

def splitheader (line : Str) : Option Header :=
  if ':' ∈ line then
    some (line.takeWhile (· ≠ ':'),
      ((line.dropWhile (· ≠ ':')).drop 1).dropWhile fun c => c == ' ' || c == '\t')
  else none

def headerloop (rest : Str) (headers : List Header) : List Header :=
  if _h : (splitline rest).1 = [] then headers
  else
    headerloop (splitline rest).2
      (match splitheader (splitline rest).1 with
        | some h => if h.1 = [] then headers else h :: headers
        | none => headers)
termination_by rest.length
decreasing_by
  have hlen := splitline_length rest
  have hpos := List.length_pos_of_ne_nil _h
  omega

def parseresponse (hdrstr : Str) : Except Str (Response × Str) :=
  let (statusline, rest) := splitline hdrstr
  if statusline = [] then .error (lit "no status line")
  else
    match tokenize statusline [' '] with
    | _ :: code :: _ => .ok (⟨strtoint code, headerloop rest []⟩, statusline)
    | _ => .error (lit "bad status line: " ++ statusline)

def contains (s t : Str) : Bool := s.tails.any fun u => t.isPrefixOf u

def typeok (ctype : Str) (types : List Str) : Bool :=
  let t := (asciilower ctype).takeWhile fun c => !(c == ';' || c == ' ' || c == '\t')
  t == [] || types.any fun e =>
    let e := asciilower e
    e != [] &&
      if e.getLast? = some '/' then prefixed t e
      else if e.head? = some '+' then e.isSuffixOf t
      else t == e

def Response.interim (resp : Response) : Bool :=
  decide (100 ≤ resp.statuscode) && decide (resp.statuscode < 200) && resp.statuscode != 101

def keepalive (resp : Response) (status : Str) : Bool :=
  let conn := asciilower (resp.hdrval (lit "Connection"))
  if prefixed status (lit "HTTP/1.0") then conn == lit "keep-alive"
  else !contains conn (lit "close")

def Response.te (resp : Response) : Str := asciilower (resp.hdrval (lit "Transfer-Encoding"))

def Response.clen (resp : Response) : Str := resp.hdrval (lit "Content-Length")

def Response.bodyless (resp : Response) (method : Str) : Bool :=
  method == lit "HEAD" || resp.statuscode == 204 || resp.statuscode == 304 ||
    decide (resp.statuscode < 200)

def Response.unwanted (resp : Response) (types : List Str) : Bool :=
  decide (resp.statuscode < 300) && types != [] &&
    !typeok (resp.hdrval (lit "Content-Type")) types

def Link.readbody (l : Link) (method : Str) (types : List Str) (resp : Response) (status : Str) :
    (List UInt8 × Bool) × Link :=
  let keep := keepalive resp status
  if resp.bodyless method = true then (([], keep), l)
  else if resp.unwanted types = true then (([], false), l)
  else if resp.te ≠ [] ∧ contains resp.te (lit "chunked") = true then
    let r := l.readchunked 0
    ((r.1.1, keep && r.1.2), r.2)
  else if resp.clen ≠ [] then
    let nbytes := strtoint resp.clen
    let keep := if (MAXBODY : ℤ) < nbytes then false else keep
    let nbytes := if (MAXBODY : ℤ) < nbytes then (MAXBODY : ℤ) else nbytes
    if nbytes ≤ 0 then (([], keep), l)
    else
      let r := l.readn nbytes.toNat
      ((r.1, if r.1.length < nbytes.toNat then false else keep), r.2)
  else
    let r := l.readrest 0
    ((r.1, false), r.2)

theorem readheaderfrom_lt {n : ℕ} {acc hdr : List UInt8} {l : Link} (hacc : acc = [])
    (h : (l.readheaderfrom n acc).1 = .ok hdr) :
    (l.readheaderfrom n acc).2.bytes.length < l.bytes.length := by
  have hle : ∀ (n : ℕ) (acc : List UInt8) (l : Link),
      (l.readheaderfrom n acc).2.bytes.length ≤ l.bytes.length := by
    intro n
    induction n with
    | zero => exact fun acc l => le_rfl
    | succ n ih =>
      intro acc l
      rw [Link.readheaderfrom]
      rcases getc_bytes l with ⟨h1, h2, h3⟩ | ⟨b, h1, h2⟩
      · generalize l.getc = r at h1 h3
        obtain ⟨o, l'⟩ := r
        obtain rfl : o = none := h1
        have hnil : l'.bytes = [] := h3
        simp [hnil]
      · rw [h2]
        generalize l.getc = r at h1
        obtain ⟨o, l'⟩ := r
        obtain rfl : o = some b := h1
        simp only [List.length_cons]
        split_ifs
        · exact Nat.le_succ _
        · exact (ih _ _).trans (Nat.le_succ _)
  subst hacc
  cases n with
  | zero => simp [Link.readheaderfrom] at h
  | succ n =>
    rw [Link.readheaderfrom] at h ⊢
    rcases getc_bytes l with ⟨h1, -, -⟩ | ⟨b, h1, h2⟩
    · generalize l.getc = r at h1 h
      obtain ⟨o, l'⟩ := r
      obtain rfl : o = none := h1
      simp at h
    · rw [h2]
      generalize l.getc = r at h1
      obtain ⟨o, l'⟩ := r
      obtain rfl : o = some b := h1
      simp only [List.length_cons]
      split_ifs
      · exact Nat.lt_succ_self _
      · exact Nat.lt_succ_of_le (hle _ _ _)

def Link.readresponse (l : Link) (method : Str) (types : List Str) :
    Except Str (Response × List UInt8 × Bool) × Link :=
  match _h : l.readheader with
  | (.error err, l') => (.error err, l')
  | (.ok hdr, l') =>
    match parseresponse (string hdr) with
    | .error err => (.error err, l')
    | .ok (resp, status) =>
      if resp.interim = true then l'.readresponse method types
      else
        let r := l'.readbody method types resp status
        (.ok (resp, r.1), r.2)
termination_by l.bytes.length
decreasing_by
  have hlt := readheaderfrom_lt (n := HEADERSIZE) (l := l) rfl (congrArg Prod.fst _h)
  rw [Link.readheader] at _h
  rw [_h] at hlt
  exact hlt

end Infernode.Web
