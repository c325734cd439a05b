import Infernode.Audit.Sealed
import Infernode.Web.Request

/-!
# The cookie jar

The jar of `webclient`: cookies are put into it by the attribute list of a response
(`jarset`) and by a line of text (`jaradd`), and leave it in the header of a request
(`jarheader`) and as lines of text (`jartext`). The time is an argument; a time of 0 is that
there is no clock.
-/

namespace Infernode.Web

open Audit (dec printed strtoint)
open Dis (int)
open Limbo (Str lit asciilower prefixed tokenize isdigit)

structure Cookie where
  name : Str
  value : Str
  domain : Str
  path : Str
  hostonly : ℤ
  expires : ℤ
  secure : ℤ
  httponly : ℤ
  deriving DecidableEq

abbrev Jar := List Cookie

def urlparts (u : Str) : Str × Str × Str :=
  let pu := makeurl u
  let path := pu.pstart ++ pu.path
  (pu.scheme.name, asciilower pu.host, if path = [] then lit "/" else path)

def isip (h : Str) : Bool := h.all fun c => isdigit c || c == '.' || c == ':'

def domainmatch (host domain : Str) : Bool :=
  host == domain ||
    (decide (domain.length < host.length) && host.drop (host.length - domain.length) == domain &&
      host[host.length - domain.length - 1]? == some '.' && !isip host)

def pathmatch (rpath cpath : Str) : Bool :=
  rpath == cpath ||
    (decide (cpath.length < rpath.length) && rpath.take cpath.length == cpath &&
      (cpath[cpath.length - 1]? == some '/' || rpath[cpath.length]? == some '/'))

def defaultpath (p : Str) : Str :=
  if p.head? ≠ some '/' then lit "/"
  else
    let upto := ((p.reverse.dropWhile (· ≠ '/')).drop 1).reverse
    if upto = [] then lit "/" else upto

def Cookie.expired (c : Cookie) (t : ℤ) : Bool := c.expires != 0 && decide (c.expires ≤ t)

def Cookie.sent (c : Cookie) (scheme host path : Str) : Bool :=
  (if c.hostonly ≠ 0 then host == c.domain else domainmatch host c.domain) &&
    pathmatch path c.path && (c.secure == 0 || scheme == lit "https")

def joincookie (r : Str) (c : Cookie) : Str :=
  (if r = [] then [] else r ++ lit "; ") ++ c.name ++ '=' :: c.value

def jarheader (t : ℤ) (u : Str) (jar : Jar) : Str × Jar :=
  let (scheme, host, path) := urlparts u
  if host = [] then ([], jar)
  else
    let keep := jar.filter fun c => !c.expired t
    ((keep.filter fun c => c.sent scheme host path).foldl joincookie [], keep)

def isblank (c : Char) : Bool := c == ' ' || c == '\t'

def trimsp (s : Str) : Str := ((s.dropWhile isblank).reverse.dropWhile isblank).reverse

def atequals (s : Str) : Str × Str :=
  (s.takeWhile (· ≠ '='), (s.dropWhile (· ≠ '=')).drop 1)

/-- One attribute of a cookie, with the Max-Age so far; `none` is a cookie for another site.
`date` reads the date of an Expires. -/
def cookieattribute (date : Str → Option ℤ) (t : ℤ) (host : Str) (c : Cookie) (maxage : Option ℤ)
    (a : Str) : Option (Cookie × Option ℤ) :=
  let a := trimsp a
  let k := if '=' ∈ a then trimsp (atequals a).1 else a
  let v := if '=' ∈ a then trimsp (atequals a).2 else []
  let k := asciilower k
  if k = lit "domain" then
    let d := asciilower v
    let d := if d.head? = some '.' then d.drop 1 else d
    if d = [] then some (c, maxage)
    else if !domainmatch host d then none
    else some ({ c with domain := d, hostonly := 0 }, maxage)
  else if k = lit "path" then
    some (if v.head? = some '/' then { c with path := v } else c, maxage)
  else if k = lit "max-age" then some (c, some (strtoint v))
  else if k = lit "expires" then
    if maxage = none ∧ t ≠ 0 then
      match date v with
      | some e => some ({ c with expires := e }, maxage)
      | none => some (c, maxage)
    else some (c, maxage)
  else if k = lit "secure" then some ({ c with secure := 1 }, maxage)
  else if k = lit "httponly" then some ({ c with httponly := 1 }, maxage)
  else some (c, maxage)

def cookieattributes (date : Str → Option ℤ) (t : ℤ) (host : Str) :
    Cookie → Option ℤ → List Str → Option (Cookie × Option ℤ)
  | c, maxage, [] => some (c, maxage)
  | c, maxage, a :: parts =>
    match cookieattribute date t host c maxage a with
    | none => none
    | some (c', maxage') => cookieattributes date t host c' maxage' parts

def parsecookie (date : Str → Option ℤ) (t : ℤ) (u sc : Str) : Option (Cookie × Option ℤ) :=
  let (_, host, path) := urlparts u
  if host = [] then none
  else
    match tokenize sc (lit ";") with
    | [] => none
    | nv :: parts =>
      let nv := trimsp nv
      if '=' ∉ nv ∨ (atequals nv).1 = [] then none
      else
        cookieattributes date t host
          ⟨trimsp (atequals nv).1, trimsp (atequals nv).2, host, defaultpath path, 1, 0, 0, 0⟩ none
          parts

def lifetime (wrap : ℤ → ℤ) (t : ℤ) (c : Cookie) : Option ℤ → Cookie
  | none => c
  | some age => { c with expires := if age ≤ 0 then 1 else wrap (t + age) }

def setcookie (wrap : ℤ → ℤ) (date : Str → Option ℤ) (t : ℤ) (u sc : Str) : Option Cookie :=
  match parsecookie date t u sc with
  | none => none
  | some (c, maxage) =>
    if c.secure ≠ 0 ∧ (urlparts u).1 ≠ lit "https" then none else some (lifetime wrap t c maxage)

def Cookie.key (c : Cookie) : Str × Str × Str := (c.name, c.domain, c.path)

def jarset (date : Str → Option ℤ) (t : ℤ) (u sc : Str) (jar : Jar) : Jar :=
  match setcookie int date t u sc with
  | none => jar
  | some c =>
    let keep := jar.filter fun o => o.key ≠ c.key
    if c.expires = 0 ∨ t < c.expires then keep ++ [c] else keep

def cookieline (c : Cookie) : Str :=
  printed c.domain ++ ' ' :: printed c.path ++ ' ' :: printed c.name ++ '=' :: printed c.value ++
    ' ' :: dec c.expires ++ ' ' :: dec c.secure ++ ' ' :: dec c.httponly ++ ' ' :: dec c.hostonly

def jartext (jar : Jar) : Str := jar.flatMap fun c => cookieline c ++ ['\n']

def fieldint (f : List Str) (i : ℕ) : ℤ :=
  match f[i]? with
  | some s => strtoint s
  | none => 0

def linecookie (line : Str) : Except Str Cookie :=
  match tokenize line (lit " \t") with
  | dom :: path :: nv :: f =>
    if '=' ∉ nv ∨ (atequals nv).1 = [] then .error (lit "bad cookie: want name=value")
    else .ok ⟨(atequals nv).1, (atequals nv).2, asciilower dom, path, fieldint f 3, fieldint f 0,
      fieldint f 1, fieldint f 2⟩
  | _ => .error (lit "bad cookie line: want domain path name=value " ++
      lit "[expires secure httponly hostonly]")

def putcookie (c : Cookie) (jar : Jar) : Jar := (jar.filter fun o => o.key ≠ c.key) ++ [c]

def jaradd (line : Str) (jar : Jar) : Except Str Jar :=
  match linecookie line with
  | .error err => .error err
  | .ok c => .ok (putcookie c jar)

def writelines : List Str → Jar → Jar
  | [], jar => jar
  | line :: lines, jar =>
    if line = lit "clear" then writelines lines []
    else
      match jaradd line jar with
      | .error _ => jar
      | .ok jar' => writelines lines jar'

def cookiesfile (data : Str) (jar : Jar) : Jar :=
  writelines (tokenize (if data.getLast? = some '\n' then data.dropLast else data) ['\n']) jar

def afterscheme : Str → Option Str
  | ':' :: '/' :: '/' :: s => some s
  | _ :: s => afterscheme s
  | [] => none

def pagehost (origin : Str) : Str :=
  let s := (afterscheme origin).getD origin
  match s.reverse.dropWhile isdigit with
  | ':' :: r => r.reverse
  | _ => s

def pagehttps (origin : Str) : Bool :=
  decide (8 < origin.length) && prefixed origin (lit "https://")

def pagematch (host domain : Str) (hostonly : Bool) : Bool :=
  host == domain ||
    (!hostonly && decide (domain.length + 1 < host.length) && decide ('.' :: domain <:+ host))

def pagesees (origin line : Str) : Bool :=
  let a := tokenize line [' ']
  decide (7 ≤ a.length) && a[5]? == some (lit "0") &&
    (a[4]? == some (lit "0") || pagehttps origin) &&
    pagematch (pagehost origin) (a.getD 0 []) (a[6]? != some (lit "0"))

def cookiesread (origin : Str) (jar : Jar) : Str :=
  if origin = lit "null" then []
  else ((tokenize (jartext jar) ['\n']).filter (pagesees origin)).flatMap (· ++ ['\n'])

def pageline (origin line : Str) : Except Str Str :=
  let host := pagehost origin
  match tokenize line [' '] with
  | [dom, path, nv, expires, secure, httponly, hostonly] =>
    let dom := asciilower dom
    let dom := if dom.head? = some '.' then dom.drop 1 else dom
    let only := hostonly != lit "0"
    if !pagematch host dom only || (!only && dom != host && !decide ('.' ∈ dom)) then
      .error (lit "originfs: not this origin's cookie")
    else if httponly ≠ lit "0" then
      .error (lit "originfs: a script cannot set an HttpOnly cookie")
    else if secure ≠ lit "0" ∧ pagehttps origin = false then
      .error (lit "originfs: a Secure cookie needs an https page")
    else .ok (dom ++ ' ' :: path ++ ' ' :: nv ++ ' ' :: expires ++ ' ' :: secure ++ ' ' ::
      httponly ++ ' ' :: hostonly)
  | _ => .error (lit "originfs: bad cookie line")

def pagelines (origin : Str) : List Str → Except Str Str
  | [] => .ok []
  | line :: lines =>
    match pageline origin line with
    | .error err => .error err
    | .ok l =>
      match pagelines origin lines with
      | .error err => .error err
      | .ok out => .ok (l ++ '\n' :: out)

def cookieswrite (origin s : Str) (jar : Jar) : Except Str Jar :=
  if origin = lit "null" then .error (lit "originfs: this page has no cookies")
  else
    match pagelines origin (tokenize s ['\n']) with
    | .error err => .error err
    | .ok out => .ok (cookiesfile out jar)

def pagejar (origin s : Str) (jar : Jar) : Jar :=
  match cookieswrite origin s jar with
  | .ok j => j
  | .error _ => jar

end Infernode.Web
