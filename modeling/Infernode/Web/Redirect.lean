import Infernode.Web.Follow
import Infernode.Web.Origin

/-!
# Chains of redirects

Each request of a chain comes from the one before it by `Redirects`. Read along the chain: the
headers of the caller stay at one origin unless a step is `Mixed`, and each target is that of
the reference where the reference is `Resolvable`.
-/

namespace Infernode.Web

open Limbo (Str lit)
open Reference (target)

def Visit.location (v : Visit) : Option Str :=
  match v.reply with
  | .error _ => none
  | .ok resp =>
    if resp.redirects = false ∨ resp.hdrval (lit "Location") = [] then none
    else some (resp.hdrval (lit "Location"))

def Sent.encode (req : Sent) : Sent := { req with requrl := encodeurl req.requrl }

def Redirects (v w : Visit) : Prop :=
  ∃ resp loc u, v.reply = .ok resp ∧ v.location = some loc ∧ resolve v.req.requrl loc = some u ∧
    w.req = (redirected v.req resp u).encode

variable {pub : Bool} {n : ℕ} {hops : ℕ → Hop} {req : Sent} {v w : Visit}

theorem request0_zero : request0 pub 0 hops req = ([], .error (lit "too many redirects")) := rfl

theorem request0_cases (pub : Bool) (n : ℕ) (hops : ℕ → Hop) (req : Sent) :
    (request0 pub (n + 1) hops req).1 = [] ∨
    (∃ v : Visit, v.req = req.encode ∧ (request0 pub (n + 1) hops req).1 = [v]) ∨
    ∃ (v : Visit) (resp : Response) (loc u : Str), v.req = req.encode ∧ v.reply = .ok resp ∧
      v.location = some loc ∧ resolve v.req.requrl loc = some u ∧
      (request0 pub (n + 1) hops req).1 =
        v :: (request0 pub n (fun k => hops (k + 1)) (redirected v.req resp u)).1 := by
  rw [request0]
  dsimp only
  split
  · exact .inl rfl
  · right
    cases hreply : dorequest pub (hops 0) ((hops 0).withcookies req.encode) with
    | error err =>
      left
      refine ⟨⟨hops 0, req.encode, .error err⟩, rfl, ?_⟩
      simp only [Sent.encode] at hreply ⊢
      rw [hreply]
    | ok resp =>
      simp only [Sent.encode] at hreply ⊢
      rw [hreply]
      dsimp only
      by_cases hstop : resp.redirects = false ∨ resp.hdrval (lit "Location") = []
      · rw [if_pos hstop]
        exact .inl ⟨_, rfl, rfl⟩
      · rw [if_neg hstop]
        cases hu : resolve (encodeurl req.requrl) (resp.hdrval (lit "Location")) with
        | none => exact .inl ⟨_, rfl, rfl⟩
        | some u =>
          refine .inr ⟨⟨hops 0, req.encode, .ok resp⟩, resp, _, u, rfl, rfl, ?_, hu, rfl⟩
          exact if_neg hstop

theorem request0_length (pub : Bool) (n : ℕ) (hops : ℕ → Hop) (req : Sent) :
    (request0 pub n hops req).1.length ≤ n := by
  induction n generalizing hops req with
  | zero => simp [request0_zero]
  | succ n ih =>
    rcases request0_cases pub n hops req with h | ⟨v, -, h⟩ | ⟨v, resp, loc, u, -, -, -, -, h⟩
    · simp [h]
    · simp [h]
    · have := ih (fun k => hops (k + 1)) (redirected v.req resp u)
      rw [h, List.length_cons]
      omega

theorem request0_first (h : v ∈ (request0 pub n hops req).1.head?) : v.req = req.encode := by
  cases n with
  | zero => simp [request0_zero] at h
  | succ n =>
    rcases request0_cases pub n hops req with hc | ⟨w, hw, hc⟩ | ⟨w, resp, loc, u, hw, -, -, -, hc⟩
    · simp [hc] at h
    · obtain rfl : w = v := by simpa [hc] using h
      exact hw
    · obtain rfl : w = v := by simpa [hc] using h
      exact hw

theorem request0_chain (pub : Bool) (n : ℕ) (hops : ℕ → Hop) (req : Sent) :
    (request0 pub n hops req).1.IsChain Redirects := by
  induction n generalizing hops req with
  | zero => simp [request0_zero]
  | succ n ih =>
    rcases request0_cases pub n hops req with h | ⟨v, -, h⟩ |
      ⟨v, resp, loc, u, -, hreply, hloc, hu, h⟩
    · simp [h]
    · simp [h]
    · rw [h, List.isChain_cons]
      refine ⟨fun w hw => ⟨resp, loc, u, hreply, hloc, hu, ?_⟩, ih _ _⟩
      exact request0_first hw

theorem redirected_requrl (req : Sent) (resp : Response) (u : Str) :
    (redirected req resp u).requrl = u := by
  rw [redirected]
  split_ifs <;> rfl

theorem redirected_hdrs (req : Sent) (resp : Response) (u : Str) :
    (redirected req resp u).hdrs =
      if schemehost u ≠ schemehost req.requrl then redirectheaders req.hdrs else req.hdrs := by
  rw [redirected]
  split_ifs <;> rfl

def Changes (v w : Visit) : Prop :=
  ∃ resp, v.reply = .ok resp ∧
    if resp.statuscode = 303 ∨
        (resp.statuscode = 301 ∨ resp.statuscode = 302) ∧ v.req.method = lit "POST" then
      w.req.method = lit "GET" ∧ w.req.body = none
    else w.req.method = v.req.method ∧ w.req.body = v.req.body

theorem Redirects.changes (h : Redirects v w) : Changes v w := by
  obtain ⟨resp, loc, u, hreply, -, -, hw⟩ := h
  refine ⟨resp, hreply, ?_⟩
  rw [hw]
  simp only [redirected, Sent.encode]
  split_ifs <;> exact ⟨rfl, rfl⟩

def ToTarget (v w : Visit) : Prop :=
  ∃ loc, v.location = some loc ∧ w.req.requrl = encodeurl (target v.req.requrl loc)

theorem Redirects.toTarget (h : Redirects v w)
    (hv : ∀ loc, v.location = some loc → Resolvable v.req.requrl loc) : ToTarget v w := by
  obtain ⟨resp, loc, u, -, hloc, hu, hw⟩ := h
  have htarget := resolve_target (hv loc hloc)
  refine ⟨loc, hloc, ?_⟩
  rw [hw, Sent.encode, redirected_requrl]
  exact congrArg encodeurl (Option.some.inj (hu.symm.trans htarget))

theorem encodechar_idem (c : Char) : ∀ d ∈ encodechar c, encoded d = false := by
  have hhex : ∀ n < 16, encoded (hexdigit n) = false := by decide
  intro d hd
  cases hc : encoded c with
  | true =>
    rcases (encodechar_encoded hc).2 d hd with rfl | ⟨n, hn, rfl⟩
    · decide
    · exact hhex n hn
  | false =>
    rw [encodechar_plain hc, List.mem_singleton] at hd
    rwa [hd]

theorem encodeurl_idem (s : Str) : encodeurl (encodeurl s) = encodeurl s := by
  refine encodeurl_plain fun d hd => ?_
  obtain ⟨c, -, hc⟩ := List.mem_flatMap.mp hd
  exact encodechar_idem c d hc

theorem request0_hdrs (pub : Bool) (n : ℕ) (hops : ℕ → Hop) (req : Sent) :
    ∀ v ∈ (request0 pub n hops req).1, ∀ h ∈ v.req.hdrs, h ∈ req.hdrs := by
  induction n generalizing hops req with
  | zero => simp [request0_zero]
  | succ n ih =>
    rcases request0_cases pub n hops req with hc | ⟨w, hw, hc⟩ | ⟨w, resp, loc, u, hw, -, -, -, hc⟩
    · simp [hc]
    · intro v hv h hh
      obtain rfl : v = w := by simpa [hc] using hv
      rwa [hw] at hh
    · intro v hv h hh
      rw [hc, List.mem_cons] at hv
      rcases hv with rfl | hv
      · rwa [hw] at hh
      · have hnext := ih _ _ v hv h hh
        rw [redirected_hdrs, hw] at hnext
        split_ifs at hnext
        · exact List.mem_of_mem_filter hnext
        · exact hnext

theorem request0_origin (pub : Bool) (n : ℕ) (hops : ℕ → Hop) (req : Sent)
    (hm : (request0 pub n hops req).1.IsChain fun v w => ¬Mixed v.req.requrl w.req.requrl) :
    ∀ v ∈ (request0 pub n hops req).1, ∀ h ∈ v.req.hdrs,
      representation h = true ∨ origin v.req.requrl = origin (encodeurl req.requrl) := by
  induction n generalizing hops req with
  | zero => simp [request0_zero]
  | succ n ih =>
    rcases request0_cases pub n hops req with hc | ⟨w, hw, hc⟩ | ⟨w, resp, loc, u, hw, -, -, -, hc⟩
    · simp [hc]
    · intro v hv h _
      obtain rfl : v = w := by simpa [hc] using hv
      exact .inr (by rw [hw]; rfl)
    · intro v hv h hh
      rw [hc] at hm hv
      rw [List.isChain_cons] at hm
      rcases List.mem_cons.mp hv with rfl | hv
      · exact .inr (by rw [hw]; rfl)
      · have hrest := ih _ _ hm.2 v hv h hh
        have hhdrs := request0_hdrs _ _ _ _ v hv h hh
        rw [redirected_hdrs] at hhdrs
        rw [redirected_requrl] at hrest
        split_ifs at hhdrs with hhost
        · exact .inl (List.mem_filter.mp hhdrs).2
        · -- the origin has not changed so far
          refine hrest.imp_right fun hor => hor.trans ?_
          obtain ⟨x, xs, hx⟩ := List.exists_cons_of_ne_nil (List.ne_nil_of_mem hv)
          have hxreq := request0_first (v := x) (by rw [hx]; rfl)
          have hstep := hm.1 x (by rw [hx]; rfl)
          rw [hxreq, Sent.encode, redirected_requrl, hw] at hstep
          rw [hw] at hhost
          exact origin_kept (encodeurl_idem req.requrl) (not_not.mp hhost) hstep

theorem redirects_kept (pub : Bool) (hops : ℕ → Hop) (req : Sent) :
    (request0 pub MAXREDIRECTS hops req).1.length ≤ MAXREDIRECTS ∧
    (request0 pub MAXREDIRECTS hops req).1.IsChain Changes ∧
    (((request0 pub MAXREDIRECTS hops req).1.IsChain
        fun v w => ¬Mixed v.req.requrl w.req.requrl) →
      ∀ v ∈ (request0 pub MAXREDIRECTS hops req).1, ∀ h ∈ v.req.hdrs,
        representation h = true ∨ origin v.req.requrl = origin (encodeurl req.requrl)) ∧
    ((∀ v ∈ (request0 pub MAXREDIRECTS hops req).1, ∀ loc, v.location = some loc →
        Resolvable v.req.requrl loc) →
      (request0 pub MAXREDIRECTS hops req).1.IsChain ToTarget) := by
  have hchain := request0_chain pub MAXREDIRECTS hops req
  refine ⟨request0_length _ _ _ _, hchain.imp fun _ _ => Redirects.changes,
    request0_origin _ _ _ _, fun hres => ?_⟩
  exact hchain.imp_of_mem_imp fun v w hv _ h => h.toTarget (hres v hv)

def sendson (loc : Str) (k : ℕ) : Hop :=
  ⟨.absent, fun _ => [],
    fun _ _ => if k = 0 then .ok ⟨302, [(lit "Location", loc)]⟩ else .ok ⟨200, []⟩⟩

def authorized (url : Str) : Sent := ⟨lit "GET", url, [(lit "Authorization", lit "key")], none⟩

theorem map_two {α β : Type} {f : α → β} {l : List α} {a b : β} (h : l.map f = [a, b]) :
    ∃ x y, l = [x, y] ∧ f x = a ∧ f y = b := by
  obtain ⟨x, t, rfl, rfl, ht⟩ := List.map_eq_cons_iff.mp h
  obtain ⟨y, r, rfl, rfl, hr⟩ := List.map_eq_cons_iff.mp ht
  obtain rfl := List.map_eq_nil_iff.mp hr
  exact ⟨x, y, rfl, rfl, rfl⟩

theorem redirects_kept_at :
    (∀ v ∈ (request0 false MAXREDIRECTS (sendson (lit "/b")) (authorized (lit "http://h/a"))).1,
      ∀ h ∈ v.req.hdrs, representation h = true ∨ origin v.req.requrl = origin (lit "http://h/a")) ∧
    (request0 false MAXREDIRECTS (sendson (lit "/b")) (authorized (lit "http://h/a"))).1.IsChain
      ToTarget := by
  have hkept := redirects_kept false (sendson (lit "/b")) (authorized (lit "http://h/a"))
  have hplaces : (request0 false MAXREDIRECTS (sendson (lit "/b"))
      (authorized (lit "http://h/a"))).1.map (fun v => (v.req.requrl, v.location)) =
      [(lit "http://h/a", some (lit "/b")), (lit "http://h/b", none)] := by decide
  have hmixed : ¬Mixed (lit "http://h/a") (lit "http://h/b") := by
    rintro ⟨-, -, ⟨h, -⟩ | ⟨h, -⟩⟩
    · exact h (by decide)
    · exact absurd h (by decide)
  have hres : Resolvable (lit "http://h/a") (lit "/b") := by
    rw [Resolvable, if_neg (by decide), if_neg (by decide), if_pos (by decide)]
    exact ⟨⟨lit "http", lit "h", by decide, by decide, by decide⟩, by decide⟩
  generalize (request0 false MAXREDIRECTS (sendson (lit "/b"))
    (authorized (lit "http://h/a"))).1 = visits at hkept hplaces ⊢
  obtain ⟨v, w, rfl, hvplace, hwplace⟩ := map_two hplaces
  obtain ⟨hv, hvloc⟩ := Prod.mk.inj hvplace
  obtain ⟨hw, hwloc⟩ := Prod.mk.inj hwplace
  refine ⟨hkept.2.2.1 ?_, hkept.2.2.2 ?_⟩
  · simpa [hv, hw] using hmixed
  · intro x hx loc hloc
    simp only [List.mem_cons, List.not_mem_nil, or_false] at hx
    rcases hx with rfl | rfl
    · obtain rfl : lit "/b" = loc := Option.some.inj (hvloc.symm.trans hloc)
      rw [hv]
      exact hres
    · exact absurd (hwloc.symm.trans hloc) (by simp)

theorem redirects_leak :
    (∃ v ∈ (request0 false MAXREDIRECTS (sendson (lit "http://h:80/"))
        (authorized (lit "http://h:443/"))).1,
      (lit "Authorization", lit "key") ∈ v.req.hdrs ∧
        origin v.req.requrl ≠ origin (lit "http://h:443/")) ∧
    ¬∀ pub hops req, (request0 pub MAXREDIRECTS hops req).1.IsChain ToTarget := by
  constructor
  · have hplaces : ((request0 false MAXREDIRECTS (sendson (lit "http://h:80/"))
        (authorized (lit "http://h:443/"))).1.map fun v => (v.req.requrl, v.req.hdrs)) =
        [(lit "http://h:443/", [(lit "Authorization", lit "key")]),
          (lit "http://h:80/", [(lit "Authorization", lit "key")])] := by decide
    generalize (request0 false MAXREDIRECTS (sendson (lit "http://h:80/"))
      (authorized (lit "http://h:443/"))).1 = visits at hplaces ⊢
    obtain ⟨v, w, rfl, -, hw⟩ := map_two hplaces
    obtain ⟨hurl, hhdrs⟩ := Prod.mk.inj hw
    refine ⟨w, by simp, ?_, ?_⟩
    · rw [hhdrs]
      simp
    · rw [hurl]
      decide
  · intro h
    have hchain := h false (sendson (lit "../c")) (authorized (lit "http://h/a/b"))
    have hplaces : ((request0 false MAXREDIRECTS (sendson (lit "../c"))
        (authorized (lit "http://h/a/b"))).1.map fun v => (v.req.requrl, v.location)) =
        [(lit "http://h/a/b", some (lit "../c")), (lit "http://h/a/../c", none)] := by decide
    generalize (request0 false MAXREDIRECTS (sendson (lit "../c"))
      (authorized (lit "http://h/a/b"))).1 = visits at hchain hplaces
    obtain ⟨v, w, rfl, hv, hw⟩ := map_two hplaces
    obtain ⟨loc, hloc, hto⟩ : ToTarget v w := by simpa using hchain
    obtain rfl : lit "../c" = loc := Option.some.inj ((Prod.mk.inj hv).2.symm.trans hloc)
    rw [(Prod.mk.inj hw).1, (Prod.mk.inj hv).1] at hto
    exact absurd hto (by decide)

end Infernode.Web
