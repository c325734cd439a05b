import Infernode.Limbo.Token
import Infernode.Dis.TextCodes

/-!
# Public addresses

`dialaddr` asks the connection server for an address, refuses one that `publicipv4` does not
find public, and dials the text that it checked. The dialler reads that text with
`v4parseip`, which takes a part that begins with a zero as octal.
-/

namespace Infernode.Web

open Limbo (Str lit)

def reserved (x0 x1 x2 : ℕ) : Bool :=
  x0 == 0 || x0 == 10 || x0 == 127 || 224 ≤ x0 ||
  (x0 == 100 && 64 ≤ x1 && x1 ≤ 127) ||
  (x0 == 169 && x1 == 254) ||
  (x0 == 172 && 16 ≤ x1 && x1 ≤ 31) ||
  (x0 == 192 && (x1 == 168 || (x1 == 0 && (x2 == 0 || x2 == 2)))) ||
  (x0 == 198 && (x1 == 18 || x1 == 19 || (x1 == 51 && x2 == 100))) ||
  (x0 == 203 && x1 == 0 && x2 == 113)

def octet (v : ℕ) : Str → Option ℕ
  | [] => some v
  | c :: s =>
    if c < '0' ∨ '9' < c then none
    else if 255 < v * 10 + (c.toNat - 48) then none
    else octet (v * 10 + (c.toNat - 48)) s

/-- The octets of a text; `none` is the -1 of one that is no address. -/
def octets (s : Str) : Option (List ℕ) :=
  let parts := s.splitOn '.'
  if parts.length ≠ 4 ∨ [] ∈ parts then none else parts.mapM (octet 0)

def publicipv4 (s : Str) : ℤ :=
  match octets s with
  | some [x0, x1, x2, _] => if reserved x0 x1 x2 then 0 else 1
  | _ => -1

inductive Cs
  | absent
  | failed
  | answer (line : Str)
  deriving DecidableEq

def resolveaddr (cs : Cs) (host port : Str) : Option Str :=
  match cs with
  | .absent => if publicipv4 host < 0 then none else some (host ++ '!' :: port)
  | .failed => none
  | .answer line => if ' ' ∈ line then some ((line.dropWhile (· ≠ ' ')).drop 1) else none

def resolved (naddr : Str) : Str :=
  if '!' ∈ naddr then ((naddr.reverse.dropWhile (· ≠ '!')).drop 1).reverse else naddr

def dialaddr (cs : Cs) (host port : Str) : Except Str Str :=
  match resolveaddr cs host port with
  | none => .error (lit "public net: destination denied (resolution failed)")
  | some naddr =>
    if naddr = [] then .error (lit "public net: destination denied (resolution failed)")
    else
      let res := resolved (naddr.dropWhile fun c => c ∈ lit " \t\r\n")
      if publicipv4 res < 0 then
        .error (lit "public net: destination denied (non-IPv4 resolution)")
      else if publicipv4 res = 0 then
        .error (lit "public net: private or reserved destination denied")
      else .ok (lit "tcp!" ++ res ++ lit "!" ++ port)

def digit (base : ℕ) (c : Char) : Option ℕ :=
  let d :=
    if '0' ≤ c ∧ c ≤ '9' then some (c.toNat - 48)
    else if 'a' ≤ c ∧ c ≤ 'z' then some (c.toNat - 97 + 10)
    else if 'A' ≤ c ∧ c ≤ 'Z' then some (c.toNat - 65 + 10)
    else none
  d.filter (· < base)

def digits (base v : ℕ) : Str → ℕ × Str
  | [] => (v, [])
  | c :: s =>
    match digit base c with
    | some d => digits base (v * base + d) s
    | none => (v, c :: s)

def radix (s : Str) : ℕ × Str :=
  match s with
  | '0' :: x :: h :: t =>
    if (x = 'x' ∨ x = 'X') ∧ (digit 16 h).isSome then digits 16 0 (h :: t) else digits 8 0 s
  | '0' :: _ => digits 8 0 s
  | _ => digits 10 0 s

def strtoul (s : Str) : ℕ × Str := (min (radix s).1 (2 ^ 64 - 1), (radix s).2)

def v4loop : ℕ → Str → List ℕ
  | 0, _ => []
  | _, [] => []
  | n + 1, c :: s =>
    let (v, p) := strtoul (c :: s)
    v % 256 :: v4loop n (if p.head? = some '.' then p.drop 1 else p)

def v4parseip (s : Str) : List ℕ :=
  let ip := v4loop 4 s
  let cls := ip.getD 0 0 / 64
  if cls = 0 ∨ cls = 1 then
    match ip with
    | [a, b, c] => [a, 0, b, c]
    | [a, b] => [a, 0, 0, b]
    | ip => ip
  else if cls = 2 then
    match ip with
    | [a, b, c] => [a, b, 0, c]
    | ip => ip
  else ip

def dialhost (addr : Str) : Str :=
  ((addr.dropWhile (· ≠ '!')).drop 1).takeWhile (· ≠ '!')

def ispublic : List ℕ → Bool
  | [x0, x1, x2, _] => !reserved x0 x1 x2
  | _ => false

/-- A part with a zero before it is octal, up to its first 8 or 9; the rest of such a part
is read as a part of its own. -/
def pieces (part : Str) : List ℕ :=
  if part.head? = some '0' then
    let (v, rest) := digits 8 0 part
    if rest = [] then [v] else [v, (digits 10 0 rest).1]
  else [(digits 10 0 part).1]

def octalread (s : Str) : List ℕ := ((s.splitOn '.').flatMap pieces).take 4

/-!
## Hosts that are blocked

`urlhost` cuts the host out of a URL, and `hostblocked` refuses the names and the literals of
hosts that are internal. A literal of an IPv4 address is read in any radix.
-/

open Dis (int)
open Limbo (Str lit asciilower prefixed)

def afterslashes : Str → Option Str
  | '/' :: '/' :: c :: s => some (c :: s)
  | _ :: s => afterslashes s
  | [] => none

def urlhost (url : Str) : Str :=
  let s := (afterslashes url).getD url
  let s := s.takeWhile fun c => !(c == '/' || c == '?' || c == '#')
  let s := if '@' ∈ s then (s.reverse.takeWhile (· ≠ '@')).reverse else s
  let s :=
    if s.head? = some '[' then
      if ']' ∈ s then s.takeWhile (· ≠ ']') ++ [']'] else s
    else s.takeWhile (· ≠ ':')
  asciilower s

def radixloop (base : ℤ) (v : ℤ) : Str → Option ℤ
  | [] => some v
  | c :: s =>
    let d : ℤ :=
      if '0' ≤ c ∧ c ≤ '9' then c.toNat - 48
      else if base = 16 ∧ 'a' ≤ c ∧ c ≤ 'f' then c.toNat - 97 + 10
      else if base = 16 ∧ 'A' ≤ c ∧ c ≤ 'F' then c.toNat - 65 + 10
      else -1
    if d < 0 ∨ base ≤ d then none
    else if int (v * base + d) < 0 then none
    else radixloop base (int (v * base + d)) s

def parseradix (s : Str) : Option ℤ :=
  if s = [] ∨ 11 < s.length then none
  else
    match s with
    | '0' :: x :: h :: t =>
      if x = 'x' ∨ x = 'X' then radixloop 16 0 (h :: t) else radixloop 8 0 (x :: h :: t)
    | '0' :: x :: t => radixloop 8 0 (x :: t)
    | _ => radixloop 10 0 s

def leading : ℕ → List ℤ → Option ℕ
  | _, [] => some 0
  | j, v :: vs =>
    if 255 < v then none
    else (leading (j + 1) vs).map fun addr => (v.toNat <<< (8 * (3 - j))) ||| addr

def absorbed (ordered : List ℤ) : Option ℕ :=
  let nparts := ordered.length
  if nparts < 1 ∨ 4 < nparts then none
  else
    match leading 0 ordered.dropLast with
    | none => none
    | some addr =>
      let last := ordered.getLastD 0
      let maxlast := match nparts with
        | 1 => 0x7fffffff
        | 2 => 0xffffff
        | 3 => 0xffff
        | _ => 0xff
      if last < 0 ∨ 1 < nparts ∧ maxlast < last then none else some (addr ||| last.toNat)

def parseipv4any (s : Str) : Option ℕ :=
  if s = [] then none
  else
    match (s.splitOn '.').mapM parseradix with
    | none => none
    | some ordered => absorbed ordered

def dotted (v : ℕ) : Str :=
  ['.'].intercalate [Limbo.decimal ((v >>> 24) &&& 0xff), Limbo.decimal ((v >>> 16) &&& 0xff),
    Limbo.decimal ((v >>> 8) &&& 0xff), Limbo.decimal (v &&& 0xff)]

def unbracketed (host : Str) : Str :=
  if 2 < host.length ∧ host.head? = some '[' ∧ host.getLast? = some ']' then
    (host.drop 1).dropLast
  else host

def blockednames : List Str :=
  [lit "localhost", lit "ip6-localhost", lit "metadata", lit "metadata.google.internal"]

def blockedprefixes : List Str := [lit "::", lit "fc", lit "fd", lit "fe80"]

def loopbacktexts : List Str :=
  [lit "0:0:0:0:0:0:0:1", lit "0000:0000:0000:0000:0000:0000:0000:0001"]

def hostblocked (host : Str) : Bool :=
  if host = [] then true
  else
    let host := unbracketed (asciilower host)
    if host ∈ blockednames then true
    else if prefixed host (lit "localhost.") then true
    else if blockedprefixes.any (prefixed host) then true
    else if host ∈ loopbacktexts then true
    else
      match parseipv4any host with
      | some v => publicipv4 (dotted v) != 1
      | none => false

end Infernode.Web
