import Infernode.Web.Exchange

/-!
# Pooled connections

`linkrequest` sends a request on a pooled connection or a new one, and again on a new one where
the pooled one had been closed. Over any run whose responses are well framed and not followed
by other bytes, the connections in the pool have nothing ahead.
-/

namespace Infernode.Web

open Limbo (Str lit string)

variable {l : Link} {s hdr body : List UInt8} {rest : Option (List UInt8)}
  {resp : Response} {method : Str} {types : List Str} {keep : Bool} {pool : List Link}

/-- The response in the bytes, past interim ones: its body, whether the connection is to be
kept, and what follows the response where it is whole. -/
inductive Exchange (method : Str) (types : List Str) :
    List UInt8 → Response → List UInt8 → Bool → Option (List UInt8) → Prop
  | final {s hdr s' body : List UInt8} {rest : Option (List UInt8)} {resp : Response}
      {status : Str} : Header.Ends s hdr s' → parseresponse (string hdr) = .ok (resp, status) →
      resp.interim = false → Framed method types resp s' body rest →
      Exchange method types s resp body (keepalive resp status) rest
  | interim {s hdr s' body : List UInt8} {rest : Option (List UInt8)} {resp first : Response}
      {status : Str} {keep : Bool} : Header.Ends s hdr s' →
      parseresponse (string hdr) = .ok (first, status) → first.interim = true →
      Exchange method types s' resp body keep rest → Exchange method types s resp body keep rest

/-- The bytes have no response: a header that is too long, that is cut off or whole and cannot
be parsed, or one of these after an interim response. -/
inductive Bad : List UInt8 → Prop
  | long {s : List UInt8} : Endless s → HEADERSIZE ≤ s.length → Bad s
  | cut {s : List UInt8} {err : Str} : Endless s → s.length < HEADERSIZE → s ≠ [] →
      parseresponse (string s) = .error err → Bad s
  | status {s hdr s' : List UInt8} {err : Str} : Header.Ends s hdr s' →
      parseresponse (string hdr) = .error err → Bad s
  | interim {s hdr s' : List UInt8} {first : Response} {status : Str} : Header.Ends s hdr s' →
      parseresponse (string hdr) = .ok (first, status) → first.interim = true → Bad s' → Bad s

theorem readresponse_final {l' : Link} {status : Str} (hread : l.readheader = (.ok hdr, l'))
    (hparse : parseresponse (string hdr) = .ok (resp, status)) (hinterim : resp.interim = false) :
    l.readresponse method types = (.ok (resp, (l'.readbody method types resp status).1),
      (l'.readbody method types resp status).2) := by
  rw [Link.readresponse]
  split
  · rename_i heq
    rw [hread] at heq
    simp at heq
  · rename_i hdr' k heq
    rw [hread] at heq
    obtain ⟨rfl, rfl⟩ : hdr = hdr' ∧ l' = k := by simpa using heq
    simp [hparse, hinterim]

theorem readresponse_interim {l' : Link} {first : Response} {status : Str}
    (hread : l.readheader = (.ok hdr, l'))
    (hparse : parseresponse (string hdr) = .ok (first, status)) (hinterim : first.interim = true) :
    l.readresponse method types = l'.readresponse method types := by
  rw [Link.readresponse]
  split
  · rename_i heq
    rw [hread] at heq
    simp at heq
  · rename_i hdr' k heq
    rw [hread] at heq
    obtain ⟨rfl, rfl⟩ : hdr = hdr' ∧ l' = k := by simpa using heq
    simp [hparse, hinterim]

theorem readresponse_error {l' : Link} {err : Str} (hread : l.readheader = (.error err, l')) :
    (l.readresponse method types).1 = .error err := by
  rw [Link.readresponse]
  split
  · rename_i err' k heq
    rw [hread] at heq
    obtain ⟨rfl, rfl⟩ : err = err' ∧ l' = k := by simpa using heq
    rfl
  · rename_i heq
    rw [hread] at heq
    simp at heq

theorem readresponse_unparsed {l' : Link} {err : Str} (hread : l.readheader = (.ok hdr, l'))
    (hparse : parseresponse (string hdr) = .error err) :
    (l.readresponse method types).1 = .error err := by
  rw [Link.readresponse]
  split
  · rename_i heq
    rw [hread] at heq
    simp at heq
  · rename_i hdr' k heq
    rw [hread] at heq
    obtain ⟨rfl, rfl⟩ : hdr = hdr' ∧ l' = k := by simpa using heq
    simp [hparse]

theorem readresponse_exchange (h : Exchange method types s resp body keep rest) :
    ∀ l : Link, l.bytes = s → ∃ kept, (l.readresponse method types).1 = .ok (resp, body, kept) ∧
      (kept = true → keep = true ∧
        ∃ r, rest = some r ∧ (l.readresponse method types).2.bytes = r) := by
  induction h with
  | @final s hdr s' body rest resp status hends hparse hinterim hframed =>
    rintro l rfl
    obtain ⟨l', hread, hbytes⟩ := readheader_ends hends
    obtain ⟨h1, h2⟩ := readbody_framed status hframed hbytes
    have hrun : l.readresponse method types = _ := readresponse_final hread hparse hinterim
    refine ⟨(l'.readbody method types resp status).1.2, ?_, ?_⟩
    · rw [hrun, ← h1]
    · rw [hrun]
      exact h2
  | @interim s hdr s' body rest resp first status keep hends hparse hinterim _ ih =>
    rintro l rfl
    obtain ⟨l', hread, hbytes⟩ := readheader_ends hends
    rw [readresponse_interim hread hparse hinterim]
    exact ih l' hbytes

theorem parseresponse_error {t : Str} {err : Str} (h : parseresponse t = .error err) :
    err ≠ lit "empty response" := by
  simp only [parseresponse] at h
  split_ifs at h
  · rw [← Except.error.inj h]
    decide
  · split at h
    · simp at h
    · rw [← Except.error.inj h]
      intro heq
      have hhead := congrArg List.head? heq
      simp [lit] at hhead

theorem readheader_endless (h : Endless l.bytes) : l.readheader.1 =
    if HEADERSIZE ≤ l.bytes.length then .error (lit "response header too long")
    else if l.bytes = [] then .error (lit "empty response")
    else .ok l.bytes := by
  have hstart : ([] : List UInt8).length + HEADERSIZE = HEADERSIZE := Nat.zero_add _
  exact readheaderfrom_endless hstart fun p hp _ hle => h p hp hle

theorem readresponse_empty (h : l.bytes = []) :
    (l.readresponse method types).1 = .error (lit "empty response") := by
  have hend : Endless l.bytes := by
    rw [h]
    intro p hp _ hblank
    obtain rfl := List.prefix_nil.mp hp
    exact absurd (List.suffix_nil.mp hblank) (by decide)
  have hread : l.readheader.1 = .error (lit "empty response") := by
    rw [readheader_endless hend, h]
    exact (if_neg (by decide)).trans (if_pos rfl)
  exact readresponse_error (Prod.ext hread rfl)

theorem readresponse_bad (method : Str) (types : List Str) (h : Bad s) :
    ∀ l : Link, l.bytes = s →
      ∃ err, (l.readresponse method types).1 = .error err ∧ err ≠ lit "empty response" := by
  induction h with
  | @long s hend hlen =>
    rintro l rfl
    have hread : l.readheader.1 = .error (lit "response header too long") := by
      rw [readheader_endless hend, if_pos hlen]
    exact ⟨_, readresponse_error (Prod.ext hread rfl), by decide⟩
  | @cut s err hend hlen hne hparse =>
    rintro l rfl
    have hread : l.readheader.1 = .ok l.bytes := by
      rw [readheader_endless hend, if_neg (not_le.mpr hlen), if_neg hne]
    exact ⟨err, readresponse_unparsed (Prod.ext hread rfl) hparse, parseresponse_error hparse⟩
  | @status s hdr s' err hends hparse =>
    rintro l rfl
    obtain ⟨l', hread, -⟩ := readheader_ends hends
    exact ⟨err, readresponse_unparsed hread hparse, parseresponse_error hparse⟩
  | @interim s hdr s' first status hends hparse hinterim _ ih =>
    rintro l rfl
    obtain ⟨l', hread, hbytes⟩ := readheader_ends hends
    rw [readresponse_interim hread hparse hinterim]
    exact ih l' hbytes

/-- What a try of a request meets: whether it could be written, and the reads that the
connection gives after that. -/
structure Try where
  wrote : Bool
  net : List (List UInt8)
  full : ∀ seg ∈ net, seg ≠ []

def Link.arrive (l : Link) (t : Try) : Link :=
  ⟨l.buf, l.net ++ t.net, fun s hs => (List.mem_append.mp hs).elim (l.full s) (t.full s)⟩

def Link.new : Link := ⟨[], [], by simp⟩

/-- What comes of a request: the answer, the connection that goes back to the pool, and how
often the request was sent. -/
structure Outcome where
  answer : Except Str (Response × List UInt8)
  pooled : Option Link
  sent : ℕ

def Outcome.of (sent : ℕ) (r : Except Str (Response × List UInt8 × Bool) × Link) : Outcome :=
  match r with
  | (.error err, _) => ⟨.error err, none, sent⟩
  | (.ok (resp, body, keep), l) => ⟨.ok (resp, body), if keep then some l else none, sent⟩

def freshrequest (method : Str) (types : List Str) (dial : Except Str Try) (sent : ℕ) : Outcome :=
  match dial with
  | .error err => ⟨.error err, none, sent⟩
  | .ok t =>
    if t.wrote = false then ⟨.error (lit "write failed"), none, sent + 1⟩
    else .of (sent + 1) ((Link.new.arrive t).readresponse method types)

/-- A request on a connection of the pool, if there is one; `first` is what it meets there, and
`dial` what it meets on a new connection. -/
def linkrequest (method : Str) (types : List Str) (pooled : Option Link) (first : Try)
    (dial : Except Str Try) : Outcome :=
  match pooled with
  | none => freshrequest method types dial 0
  | some l =>
    let again := method = lit "GET" ∨ method = lit "HEAD"
    if first.wrote = false then
      if again then freshrequest method types dial 1 else ⟨.error (lit "write failed"), none, 1⟩
    else
      let r := (l.arrive first).readresponse method types
      if r.1 = .error (lit "empty response") ∧ again then freshrequest method types dial 1
      else .of 1 r

/-- The connection gives a well framed response, with nothing behind one that it is kept past,
or no response and nothing that looks like the end of an unused connection; nothing where the
request could not be written. -/
def Try.Safe (t : Try) (method : Str) (types : List Str) : Prop :=
  (t.wrote = false → t.net = []) ∧
    (t.net.flatten = [] ∨ Bad t.net.flatten ∨
      ∃ resp body keep rest, Exchange method types t.net.flatten resp body keep rest ∧
        (keep = true → ∀ r, rest = some r → r = []))

/-- What an outcome should be: the answer is the message that came after the request was
written, a connection is kept past a whole one with nothing ahead, and a request is sent twice
only if it may be and nothing came. -/
structure Proper (method : Str) (types : List Str) (pooled : Option Link) (first : Try)
    (dial : Except Str Try) (out : Outcome) : Prop where
  answer : ∀ resp body, out.answer = .ok (resp, body) → ∃ t : Try, (t = first ∨ dial = .ok t) ∧
    ∃ keep rest, Exchange method types t.net.flatten resp body keep rest ∧
      (out.pooled.isSome = true → rest = some [])
  kept : ∀ l ∈ out.pooled, l.bytes = [] ∧ ∃ r, out.answer = .ok r
  sent : out.sent ≤ 2 ∧ (out.sent = 2 →
    (method = lit "GET" ∨ method = lit "HEAD") ∧ pooled.isSome = true ∧ first.net.flatten = [])

theorem outcome_proper {t : Try} (hl : l.bytes = t.net.flatten) (hsafe : t.Safe method types)
    (n : ℕ) :
    (∀ resp body, (Outcome.of n (l.readresponse method types)).answer = .ok (resp, body) →
      ∃ keep rest, Exchange method types t.net.flatten resp body keep rest ∧
        ((Outcome.of n (l.readresponse method types)).pooled.isSome = true → rest = some [])) ∧
    (∀ l' ∈ (Outcome.of n (l.readresponse method types)).pooled, l'.bytes = [] ∧
      ∃ r, (Outcome.of n (l.readresponse method types)).answer = .ok r) ∧
    (Outcome.of n (l.readresponse method types)).sent = n := by
  have hfail : ∀ err, (l.readresponse method types).1 = .error err →
      Outcome.of n (l.readresponse method types) = ⟨.error err, none, n⟩ := fun err he => by
    generalize l.readresponse method types = q at he ⊢
    obtain ⟨o, l'⟩ := q
    obtain rfl : o = .error err := he
    rfl
  rcases hsafe.2 with hempty | hbad | ⟨resp, body, keep, rest, hex, hlast⟩
  · rw [hfail _ (readresponse_empty (hl.trans hempty))]
    simp
  · obtain ⟨err, he, -⟩ := readresponse_bad method types hbad l hl
    rw [hfail _ he]
    simp
  · obtain ⟨kept, hok, hkept⟩ := readresponse_exchange hex l hl
    generalize l.readresponse method types = q at hok hkept ⊢
    obtain ⟨o, l'⟩ := q
    obtain rfl : o = .ok (resp, body, kept) := hok
    simp only [Outcome.of]
    refine ⟨fun resp' body' heq => ?_, fun k hk => ?_, trivial⟩
    · obtain ⟨rfl, rfl⟩ : resp = resp' ∧ body = body' := by simpa using heq
      refine ⟨keep, rest, hex, fun hsome => ?_⟩
      have hk : kept = true := by
        by_contra hne
        simp [hne] at hsome
      obtain ⟨hkeep, r, hr, -⟩ := hkept hk
      rw [hr, hlast hkeep r hr]
    · have htrue : kept = true := by
        by_contra hne
        simp [hne] at hk
      rw [if_pos htrue] at hk
      obtain rfl := Option.some.inj (Option.mem_def.mp hk)
      obtain ⟨hkeep, r, hr, hbytes⟩ := hkept htrue
      exact ⟨hbytes.trans (hlast hkeep r hr), _, rfl⟩

theorem freshrequest_proper {pooled : Option Link} {first : Try} {dial : Except Str Try} {n : ℕ}
    (hdial : ∀ t, dial = .ok t → t.Safe method types) (hn : n ≤ 1)
    (hone : n = 1 → (method = lit "GET" ∨ method = lit "HEAD") ∧ pooled.isSome = true ∧
      first.net.flatten = []) :
    Proper method types pooled first dial (freshrequest method types dial n) := by
  have hsent : ∀ k, k ≤ n + 1 → k ≤ 2 ∧ (k = 2 → (method = lit "GET" ∨ method = lit "HEAD") ∧
      pooled.isSome = true ∧ first.net.flatten = []) := fun k hk =>
    ⟨by omega, fun htwo => hone (by omega)⟩
  cases dial with
  | error err => exact ⟨by simp [freshrequest], by simp [freshrequest], hsent n (by omega)⟩
  | ok t =>
    rw [freshrequest]
    split_ifs with hw
    · exact ⟨by simp, by simp, hsent (n + 1) le_rfl⟩
    · have hl : (Link.new.arrive t).bytes = t.net.flatten := rfl
      obtain ⟨h1, h2, h3⟩ := outcome_proper hl (hdial t rfl) (n + 1)
      refine ⟨fun resp body heq => ?_, h2, ?_⟩
      · exact ⟨t, .inr rfl, h1 resp body heq⟩
      · rw [h3]
        exact hsent (n + 1) le_rfl

theorem linkrequest_proper {pooled : Option Link} {first : Try} {dial : Except Str Try}
    (hpooled : ∀ l ∈ pooled, l.bytes = []) (hfirst : first.Safe method types)
    (hdial : ∀ t, dial = .ok t → t.Safe method types) :
    Proper method types pooled first dial (linkrequest method types pooled first dial) := by
  cases pooled with
  | none => exact freshrequest_proper hdial (Nat.zero_le 1) (by simp)
  | some l =>
    have hnil : l.bytes = [] := hpooled l rfl
    have hbytes : (l.arrive first).bytes = first.net.flatten := by
      obtain ⟨hbuf, hnet⟩ := List.append_eq_nil_iff.mp hnil
      simp [Link.arrive, Link.bytes, hbuf, hnet]
    simp only [linkrequest]
    split_ifs with hw hagain hretry
    · refine freshrequest_proper hdial le_rfl fun _ => ⟨hagain, rfl, ?_⟩
      rw [hfirst.1 hw]
      rfl
    · exact ⟨by simp, by simp, by simp⟩
    · refine freshrequest_proper hdial le_rfl fun _ => ⟨hretry.2, rfl, ?_⟩
      -- only an unused connection gives an empty response
      rcases hfirst.2 with hempty | hbad | ⟨resp, body, keep, rest, hex, -⟩
      · exact hempty
      · obtain ⟨err, he, hne⟩ := readresponse_bad method types hbad _ hbytes
        rw [hretry.1] at he
        exact absurd (Except.error.inj he).symm hne
      · obtain ⟨kept, hok, -⟩ := readresponse_exchange hex _ hbytes
        rw [hretry.1] at hok
        simp at hok
    · obtain ⟨h1, h2, h3⟩ := outcome_proper hbytes hfirst 1
      refine ⟨fun resp body heq => ⟨first, .inl rfl, h1 resp body heq⟩, h2, ?_⟩
      rw [h3]
      simp

/-- The pool after a run of safe requests. A connection may be dropped at any time, when it has
been idle too long or the pool is full. -/
inductive Pool : List Link → Prop
  | start : Pool []
  | drop {before after : List Link} {l : Link} : Pool (before ++ l :: after) →
      Pool (before ++ after)
  | reuse {before after : List Link} {l : Link} {method : Str} {types : List Str} {first : Try}
      {dial : Except Str Try} : Pool (before ++ l :: after) → first.Safe method types →
      (∀ t, dial = .ok t → t.Safe method types) →
      Pool ((linkrequest method types (some l) first dial).pooled.toList ++ (before ++ after))
  | fresh {pool : List Link} {method : Str} {types : List Str} {first : Try}
      {dial : Except Str Try} : Pool pool → first.Safe method types →
      (∀ t, dial = .ok t → t.Safe method types) →
      Pool ((linkrequest method types none first dial).pooled.toList ++ pool)

theorem Pool.bytes (h : Pool pool) : ∀ l ∈ pool, l.bytes = [] := by
  induction h with
  | start => simp
  | drop _ ih => exact fun l hl => ih l (by grind)
  | @reuse before after l method types first dial _ hfirst hdial ih =>
    have hl : ∀ k ∈ some l, k.bytes = [] := fun k hk => by
      obtain rfl := Option.some.inj hk
      exact ih l (by simp)
    intro k hk
    rcases List.mem_append.mp hk with hk | hk
    · exact ((linkrequest_proper hl hfirst hdial).kept k (Option.mem_toList.mp hk)).1
    · exact ih k (by grind)
  | @fresh pool method types first dial _ hfirst hdial ih =>
    intro k hk
    rcases List.mem_append.mp hk with hk | hk
    · exact ((linkrequest_proper (by simp) hfirst hdial).kept k (Option.mem_toList.mp hk)).1
    · exact ih k hk

def okheader : Str := lit "HTTP/1.1 200 OK\r\n\r\n"

theorem okheader_ends (r : List UInt8) :
    Header.Ends (Limbo.bytes okheader ++ r) (Limbo.bytes okheader) r where
  bytes := rfl
  blank := by decide
  first := by
    have hall : ∀ p ∈ (Limbo.bytes okheader).inits, p ≠ Limbo.bytes okheader → ¬BLANK <:+ p := by
      decide
    exact fun p hp => hall p ((List.mem_inits _ _).mpr hp)
  fits := by decide

theorem okheader_parse : parseresponse (string (Limbo.bytes okheader)) =
    .ok (⟨200, []⟩, lit "HTTP/1.1 200 OK") := by
  have hloop : headerloop (lit "\r\n") [] = [] := by
    rw [headerloop, dif_pos (by rfl)]
  have hsplit : splitline okheader = (lit "HTTP/1.1 200 OK", lit "\r\n") := by decide
  have htok : Limbo.tokenize (lit "HTTP/1.1 200 OK") [' '] =
      [lit "HTTP/1.1", lit "200", lit "OK"] := by
    decide
  have hcode : Audit.strtoint (lit "200") = 200 := by decide
  rw [Limbo.string_bytes, parseresponse, hsplit]
  simp only [htok, hloop, hcode]
  rfl

def answered (s : List UInt8) (h : s ≠ []) : Try := ⟨true, [s], by simpa using h⟩

def unused : Try := ⟨false, [], by simp⟩

def trailing : Try := answered (Limbo.bytes okheader ++ [120]) (by decide)

end Infernode.Web
