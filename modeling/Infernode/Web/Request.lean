import Infernode.Limbo.Utf
import Infernode.Web.Host

/-!
# URLs

`makeurl` takes a URL apart: scheme, user, host, port, path, query and fragment. A piece that
is not there is empty.
-/

namespace Infernode.Web

open Limbo (Str lit asciilower)

def splitl (s : Str) (cl : Char → Bool) : Str × Str :=
  (s.takeWhile fun c => !cl c, s.dropWhile fun c => !cl c)

def split (s : Str) (c : Char) : Str × Str :=
  ((splitl s (· == c)).1, (splitl s (· == c)).2.drop 1)

inductive Scheme
  | noscheme | http | https | ftp | file | gopher | mailto | news | nntp | telnet | wais
  | prospero | javascript | unknown
  deriving DecidableEq

def schemes : List (Scheme × Str) :=
  [(.noscheme, lit ""), (.http, lit "http"), (.https, lit "https"), (.ftp, lit "ftp"),
    (.file, lit "file"), (.gopher, lit "gopher"), (.mailto, lit "mailto"), (.news, lit "news"),
    (.nntp, lit "nntp"), (.telnet, lit "telnet"), (.wais, lit "wais"),
    (.prospero, lit "prospero"), (.javascript, lit "javascript"), (.unknown, lit "unknown")]

def Scheme.name (scheme : Scheme) : Str := (schemes.lookup scheme).getD []

structure ParsedUrl where
  scheme : Scheme
  user : Str
  passwd : Str
  host : Str
  port : Str
  pstart : Str
  path : Str
  query : Str
  frag : Str
  deriving DecidableEq

def schemechar (c : Char) : Bool :=
  c == '-' || ('a' ≤ c && c ≤ 'z') || ('A' ≤ c && c ≤ 'Z') || ('0' ≤ c && c ≤ '9') || c == '.' ||
    c == '+'

def schemeof (surl : Str) : Scheme × Str :=
  let (sch, url) := split surl ':'
  if url = [] then (.noscheme, sch)
  else if (splitl sch fun c => !schemechar c).2 ≠ [] then (.noscheme, surl)
  else
    match schemes.find? fun p => p.2 == asciilower sch with
    | some p => (p.1, url)
    | none => (.unknown, url)

def netlocof (netloc : Str) : Str × Str × Str × Str :=
  let (up, hp) := split netloc '@'
  if hp = [] then ([], [], split up ':')
  else ((split up ':').1, (split up ':').2, split hp ':')

def makeurl (surl : Str) : ParsedUrl :=
  let (scheme, url) := schemeof surl
  if scheme = .mailto ∨ scheme = .javascript then ⟨scheme, [], [], [], [], [], url, [], []⟩
  else
    let (loc, pstart, path) : (Str × Str × Str × Str) × Str × Str :=
      if (lit "//").isPrefixOf url then
        let (netloc, path) := splitl (url.drop 2) fun c => c == '/' || c == '?' || c == '#'
        let path := if path.head? = some '/' then path.drop 1 else path
        (if scheme = .file then ([], [], netloc, []) else netlocof netloc, lit "/", path)
      else if url.head? = some '/' then (([], [], [], []), lit "/", url.drop 1)
      else (([], [], [], []), [], url)
    if scheme = .file then
      ⟨scheme, loc.1, loc.2.1, if loc.2.2.1 = [] then lit "localhost" else loc.2.2.1, loc.2.2.2,
        pstart, path, [], []⟩
    else
      let (path, frag) := split path '#'
      let (path, query) := split path '?'
      ⟨scheme, loc.1, loc.2.1, loc.2.2.1, loc.2.2.2, pstart, path, query, frag⟩

/-!
## Requests and redirects

`request0` sends a request, and follows what it is redirected to, at most `MAXREDIRECTS`
times. In public mode each hop asks `dialaddr` for the address that it dials. A hop brings
its own answer of the connection server, its own cookies and its own exchange over the
connection.
-/

abbrev Header := Str × Str

structure Response where
  statuscode : ℤ
  headers : List Header
  deriving DecidableEq

def Response.hdrval (r : Response) (name : Str) : Str :=
  ((r.headers.find? fun h => asciilower h.1 == asciilower name).map (·.2)).getD []

def MAXREDIRECTS : ℕ := 10

def portof (u : ParsedUrl) : Str :=
  if u.port = [] then (if u.scheme = .https then lit "443" else lit "80") else u.port

def schemehost (requrl : Str) : Str :=
  let u := makeurl requrl
  let s := u.scheme.name ++ lit "://" ++ u.host
  if portof u ≠ lit "80" ∧ portof u ≠ lit "443" then s ++ ':' :: portof u else s

def relchar (c : Char) : Bool :=
  ('a' ≤ c && c ≤ 'z') || ('A' ≤ c && c ≤ 'Z') || ('0' ≤ c && c ≤ '9') || c == '+' || c == '-' ||
    c == '.'

/-- The target of a redirect; `none` where the slice of the base URL is out of bounds. -/
def resolve (base rel : Str) : Option Str :=
  if (rel.dropWhile relchar).head? = some ':' then some rel
  else
    let sh := schemehost base
    let scheme := if ':' ∈ base then base.takeWhile (· ≠ ':') else []
    if (lit "//").isPrefixOf rel then some (scheme ++ ':' :: rel)
    else if rel.head? = some '/' then some (sh ++ rel)
    else if base.length < sh.length then none
    else
      let path := (base.drop sh.length).takeWhile fun c => !(c == '?' || c == '#')
      if rel.head? = some '?' then some (sh ++ path ++ rel)
      else some (sh ++ (path.reverse.dropWhile (· ≠ '/')).reverse ++ rel)

def hexdigit (n : ℕ) : Char := (lit "0123456789ABCDEF").getD n '0'

def encoded (c : Char) : Bool :=
  c == ' ' || 0x80 ≤ c.toNat || c == '"' || c == '<' || c == '>' || c == Char.ofNat 96 ||
    c == Char.ofNat 123 || c == Char.ofNat 125

def encodechar (c : Char) : Str :=
  if encoded c then
    (Limbo.bytes [c]).flatMap fun b => ['%', hexdigit (b.toNat / 16), hexdigit (b.toNat % 16)]
  else [c]

def encodeurl (u : Str) : Str := u.flatMap encodechar

def validtoken (s : Str) : Bool := s ≠ [] && s.all fun c => !(c ≤ ' ' || c.toNat == 0x7f)

def validurltext (s : Str) : Bool := s ≠ [] && s.all fun c => !(c ≤ ' ' || c.toNat == 0x7f)

def validheadername (s : Str) : Bool :=
  s ≠ [] && s.all fun c => !(c ≤ ' ' || c == ':' || c.toNat == 0x7f)

def validheadervalue (s : Str) : Bool := s.all fun c => !(c < ' ' || c.toNat == 0x7f)

def validheaders : List Header → Option Str
  | [] => none
  | h :: hdrs =>
    if !validheadername h.1 then some (lit "invalid HTTP header name")
    else if !validheadervalue h.2 then some (lit "invalid HTTP header value")
    else validheaders hdrs

def validrequesttext (method requrl : Str) (hdrs : List Header) : Option Str :=
  if !validtoken method then some (lit "invalid HTTP method")
  else if !validurltext requrl then some (lit "invalid URL text")
  else validheaders hdrs

def representation (h : Header) : Bool :=
  asciilower h.1 ∈ [lit "accept", lit "accept-encoding", lit "accept-language",
    lit "content-type", lit "user-agent"]

def redirectheaders (hdrs : List Header) : List Header := hdrs.filter representation

structure Sent where
  method : Str
  requrl : Str
  hdrs : List Header
  body : Option (List UInt8)
  deriving DecidableEq

/-- What a hop meets: the connection server, the jar's cookies for a URL (empty for none), and
the exchange over a connection to the address that is dialled. -/
structure Hop where
  cs : Cs
  jarheader : Str → Str
  linkrequest : Str → Sent → Except Str Response

structure Asked where
  cs : Cs
  host : Str
  port : Str
  deriving DecidableEq

def Asked.dialled (a : Asked) : Except Str Str := dialaddr a.cs a.host a.port

def Hop.asked (hop : Hop) (requrl : Str) : Asked :=
  ⟨hop.cs, (makeurl requrl).host, portof (makeurl requrl)⟩

def dorequest (pub : Bool) (hop : Hop) (req : Sent) : Except Str Response :=
  let asked := hop.asked req.requrl
  if pub then
    match asked.dialled with
    | .error err => .error err
    | .ok addr => hop.linkrequest addr req
  else hop.linkrequest (lit "tcp!" ++ asked.host ++ lit "!" ++ asked.port) req

def Hop.withcookies (hop : Hop) (req : Sent) : Sent :=
  let c := hop.jarheader req.requrl
  if c = [] then req else { req with hdrs := (lit "Cookie", c) :: req.hdrs }

def redirected (req : Sent) (resp : Response) (requrl : Str) : Sent :=
  let hdrs := if schemehost requrl ≠ schemehost req.requrl then redirectheaders req.hdrs
    else req.hdrs
  if resp.statuscode = 303 ∨
      (resp.statuscode = 301 ∨ resp.statuscode = 302) ∧ req.method = lit "POST" then
    ⟨lit "GET", requrl, hdrs, none⟩
  else ⟨req.method, requrl, hdrs, req.body⟩

structure Visit where
  hop : Hop
  req : Sent
  reply : Except Str Response

def Visit.asked (v : Visit) : Asked := v.hop.asked v.req.requrl

def Response.redirects (resp : Response) : Bool :=
  resp.statuscode ∈ [(301 : ℤ), 302, 303, 307, 308]

def request0 (pub : Bool) : ℕ → (ℕ → Hop) → Sent → List Visit × Except Str Response
  | 0, _, _ => ([], .error (lit "too many redirects"))
  | n + 1, hops, req =>
    let req := { req with requrl := encodeurl req.requrl }
    let sent := (hops 0).withcookies req
    match validrequesttext sent.method sent.requrl sent.hdrs with
    | some verr => ([], .error verr)
    | none =>
      let reply := dorequest pub (hops 0) sent
      let visit : Visit := ⟨hops 0, req, reply⟩
      match reply with
      | .error err => ([visit], .error err)
      | .ok resp =>
        let loc := resp.hdrval (lit "Location")
        if resp.redirects = false ∨ loc = [] then ([visit], .ok resp)
        else
          match resolve req.requrl loc with
          | none => ([visit], .error (lit "array bounds error"))
          | some requrl =>
            let r := request0 pub n (fun k => hops (k + 1)) (redirected req resp requrl)
            (visit :: r.1, r.2)

def requestpublic (hops : ℕ → Hop) (req : Sent) : List Visit × Except Str Response :=
  request0 true MAXREDIRECTS hops req

end Infernode.Web
