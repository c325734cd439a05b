import Infernode.Web.Pages

/-!
# What the jar keeps

Over any run of responses, page writes and requests that keep to what `Op.Safe` asks, the jar
is the latest cookie of each name, domain and path, less what has expired. Requests get just
the cookies that match them, and pages neither see nor touch the cookies kept from them.
-/

namespace Infernode.Web

open Audit (IsInt)
open Dis (int)
open Limbo (Str lit tokenize)

variable {c o : Cookie} {jar : Jar} {u sc s origin : Str} {t now : ℤ}
  {date : Str → Option ℤ} {cs : List Cookie}

abbrev Key := Str × Str × Str

abbrev Latest := Key → Option Cookie

def Latest.set (latest : Latest) (c : Cookie) : Latest := Function.update latest c.key (some c)

structure Matches (u : Str) (c : Cookie) : Prop where
  only : c.hostonly ≠ 0 → (urlparts u).2.1 = c.domain
  domain : c.hostonly = 0 → DomainMatch (urlparts u).2.1 c.domain
  path : PathMatch (urlparts u).2.2 c.path
  secure : c.secure ≠ 0 → (urlparts u).1 = lit "https"

theorem sent_iff : c.sent (urlparts u).1 (urlparts u).2.1 (urlparts u).2.2 = true ↔
    Matches u c := by
  rw [Cookie.sent, Bool.and_eq_true, Bool.and_eq_true, pathmatch_iff, Bool.or_eq_true, beq_iff_eq,
    beq_iff_eq]
  constructor
  · rintro ⟨⟨hsite, hpath⟩, hsec⟩
    refine ⟨fun honly => ?_, fun honly => ?_, hpath, fun hne => hsec.resolve_left hne⟩
    · simpa [honly] using hsite
    · simpa [honly, domainmatch_iff] using hsite
  · rintro ⟨honly, hdomain, hpath, hsec⟩
    refine ⟨⟨?_, hpath⟩, ?_⟩
    · split_ifs with h
      · simpa using honly h
      · exact domainmatch_iff.mpr (hdomain (not_not.mp h))
    · by_cases h : c.secure = 0
      · exact .inl h
      · exact .inr (hsec h)

inductive Op
  | response (u sc : Str)
  | page (origin s : Str)
  | request (u : Str)

def Op.site : Op → Str
  | .response u _ => (urlparts u).2.1
  | .page origin _ => pagehost origin
  | .request u => (urlparts u).2.1

def Op.run (date : Str → Option ℤ) (t : ℤ) (jar : Jar) : Op → Jar
  | .response u sc => jarset date t u sc jar
  | .page origin s => pagejar origin s jar
  | .request u => (jarheader t u jar).2

def Op.sets (date : Str → Option ℤ) (t : ℤ) : Op → List Cookie
  | .response u sc => (setcookie id date t u sc).toList
  | .page origin s => pagecookies origin s
  | .request _ => []

def Cookie.Guarded (c : Cookie) (origin : Str) : Prop :=
  c.httponly ≠ 0 ∨ (c.secure ≠ 0 ∧ pagehttps origin = false)

/-- A response's cookie has no separator of the line form in its texts and ends in the range of
an int. A page's text has no tab, names no cookie that the page must not touch, and sets no
domain above an address. -/
def Op.Safe (date : Str → Option ℤ) (t : ℤ) (jar : Jar) : Op → Prop
  | .response u sc => ∀ c, setcookie id date t u sc = some c →
      IsInt c.expires ∧ Plain (c.name ++ c.value ++ c.domain ++ c.path)
  | .page origin s => pagehost origin ≠ [] ∧ '\t' ∉ s ∧ '\x00' ∉ s ∧
      ∀ c ∈ pagecookies origin s, (isip (pagehost origin) = true → pagehost origin = c.domain) ∧
        ∀ o ∈ jar, o.Guarded origin → o.key ≠ c.key
  | .request _ => True

inductive Reached (date : Str → Option ℤ) : Latest → ℤ → Jar → Prop
  | start : Reached date (fun _ => none) 0 []
  | step {latest : Latest} {now t : ℤ} {jar : Jar} {op : Op} : Reached date latest now jar →
      now ≤ t → op.Safe date t jar →
      Reached date ((op.sets date t).foldl Latest.set latest) t (op.run date t jar)

structure Tracks (latest : Latest) (now : ℤ) (jar : Jar) : Prop where
  good : ∀ c ∈ jar, c.Good
  keys : (jar.map Cookie.key).Nodup
  here : ∀ c ∈ jar, latest c.key = some c
  there : ∀ k c, latest k = some c → c.key = k ∧ (c ∈ jar ∨ c.expired now = true)

theorem expired_mono (h : c.expired now = true) (ht : now ≤ t) : c.expired t = true := by
  simp only [Cookie.expired, Bool.and_eq_true, bne_iff_ne, decide_eq_true_eq] at h ⊢
  exact ⟨h.1, h.2.trans ht⟩

theorem Tracks.later {latest : Latest} (h : Tracks latest now jar) (ht : now ≤ t) :
    Tracks latest t jar :=
  ⟨h.good, h.keys, h.here, fun k c hk =>
    (h.there k c hk).imp_right (Or.imp_right fun he => expired_mono he ht)⟩

theorem Tracks.filter {latest : Latest} (h : Tracks latest now jar) :
    Tracks latest now (jar.filter fun c => !c.expired now) := by
  have hsub : jar.filter (fun c => !c.expired now) ⊆ jar := (List.filter_sublist).subset
  refine ⟨fun c hc => h.good c (hsub hc), h.keys.sublist (List.filter_sublist.map _),
    fun c hc => h.here c (hsub hc), fun k c hk => ?_⟩
  obtain ⟨hkey, hin⟩ := h.there k c hk
  refine ⟨hkey, ?_⟩
  by_cases he : c.expired now = true
  · exact .inr he
  · exact .inl (List.mem_filter.mpr ⟨hin.resolve_right he, by simpa using he⟩)

theorem mem_others : o ∈ jar.filter (fun o => decide (o.key ≠ c.key)) ↔
    o ∈ jar ∧ o.key ≠ c.key := by
  rw [List.mem_filter, decide_eq_true_eq]

theorem Tracks.set {latest : Latest} {keep : Jar} (h : Tracks latest now jar) (hc : c.Good)
    (hkeep : keep = putcookie c jar ∨
      (keep = jar.filter (fun o => decide (o.key ≠ c.key)) ∧ c.expired now = true)) :
    Tracks (latest.set c) now keep := by
  have hmem : ∀ o, o ∈ keep → (o ∈ jar ∧ o.key ≠ c.key) ∨ o = c := by
    intro o ho
    rcases hkeep with rfl | ⟨rfl, -⟩
    · rcases List.mem_append.mp ho with ho | ho
      · exact .inl (mem_others.mp ho)
      · exact .inr (List.mem_singleton.mp ho)
    · exact .inl (mem_others.mp ho)
  have hstay : ∀ o ∈ jar, o.key ≠ c.key → o ∈ keep := by
    intro o ho hne
    rcases hkeep with rfl | ⟨rfl, -⟩
    · exact List.mem_append_left _ (mem_others.mpr ⟨ho, hne⟩)
    · exact mem_others.mpr ⟨ho, hne⟩
  have hfilter : ((jar.filter fun o => decide (o.key ≠ c.key)).map Cookie.key).Nodup :=
    h.keys.sublist (List.filter_sublist.map _)
  refine ⟨fun o ho => ?_, ?_, fun o ho => ?_, fun k o hk => ?_⟩
  · rcases hmem o ho with ⟨ho, -⟩ | rfl
    · exact h.good o ho
    · exact hc
  · rcases hkeep with rfl | ⟨rfl, -⟩
    · rw [putcookie, List.map_append, List.nodup_append]
      refine ⟨hfilter, by simp, ?_⟩
      intro a ha b hb
      obtain ⟨o, ho, rfl⟩ := List.mem_map.mp ha
      obtain rfl : b = c.key := by simpa using hb
      exact (mem_others.mp ho).2
    · exact hfilter
  · rcases hmem o ho with ⟨ho, hne⟩ | rfl
    · rw [Latest.set, Function.update_of_ne hne]
      exact h.here o ho
    · rw [Latest.set, Function.update_self]
  · by_cases hkc : k = c.key
    · subst hkc
      rw [Latest.set, Function.update_self] at hk
      obtain rfl := Option.some.inj hk
      refine ⟨rfl, ?_⟩
      rcases hkeep with rfl | ⟨-, he⟩
      · exact .inl (List.mem_append_right _ (by simp))
      · exact .inr he
    · rw [Latest.set, Function.update_of_ne hkc] at hk
      obtain ⟨hkey, hin⟩ := h.there k o hk
      exact ⟨hkey, hin.imp_left fun ho => hstay o ho (hkey ▸ hkc)⟩

theorem Tracks.sets {latest : Latest} (h : Tracks latest now jar) (hcs : ∀ c ∈ cs, c.Good) :
    Tracks (cs.foldl Latest.set latest) now (cs.foldl (fun j c => putcookie c j) jar) := by
  induction cs generalizing latest jar with
  | nil => exact h
  | cons c cs ih =>
    exact ih (h.set (hcs c (by simp)) (.inl rfl)) fun c hc => hcs c (by simp [hc])

theorem Tracks.step {latest : Latest} (hdate : ∀ v e, date v = some e → IsInt e) {op : Op}
    (h : Tracks latest now jar) (ht : now ≤ t) (hsafe : op.Safe date t jar) :
    Tracks ((op.sets date t).foldl Latest.set latest) t (op.run date t jar) := by
  have hlater := h.later ht
  cases op with
  | response u sc =>
    have hwrap := setcookie_wrap fun c hc => (hsafe c hc).1
    rw [Op.run, Op.sets, jarset, hwrap]
    cases hc : setcookie id date t u sc with
    | none => exact hlater
    | some c =>
      obtain ⟨hfits, hplain⟩ := hsafe c hc
      refine hlater.set (setcookie_good hdate hc hfits hplain).1 ?_
      simp only
      split_ifs with halive
      · exact .inl rfl
      · refine .inr ⟨rfl, ?_⟩
        obtain ⟨hne, hle⟩ := not_or.mp halive
        simp [Cookie.expired, hne, not_lt.mp hle]
  | page origin s =>
    obtain ⟨hhost, htab, hnul, -⟩ := hsafe
    rw [Op.run, Op.sets, cookieswrite_run hhost]
    exact hlater.sets fun c hc => (pagecookies_set hhost htab hnul hc).good
  | request u =>
    simp only [Op.run, Op.sets, jarheader, List.foldl_nil]
    split_ifs
    · exact hlater
    · exact hlater.filter

theorem Reached.tracks {latest : Latest} (hdate : ∀ v e, date v = some e → IsInt e)
    (h : Reached date latest now jar) : Tracks latest now jar := by
  induction h with
  | start => exact ⟨by simp, by simp, by simp, by simp⟩
  | step _ ht hsafe ih => exact ih.step hdate ht hsafe

theorem mem_puts (h : o ∈ cs.foldl (fun j c => putcookie c j) jar) : o ∈ jar ∨ o ∈ cs := by
  induction cs generalizing jar with
  | nil => exact .inl h
  | cons c cs ih =>
    rcases ih h with ho | ho
    · rcases List.mem_append.mp ho with ho | ho
      · exact .inl (mem_others.mp ho).1
      · exact .inr (by simp [List.mem_singleton.mp ho])
    · exact .inr (List.mem_cons_of_mem _ ho)

theorem puts_stay (ho : o ∈ jar) (h : ∀ c ∈ cs, o.key ≠ c.key) :
    o ∈ cs.foldl (fun j c => putcookie c j) jar := by
  induction cs generalizing jar with
  | nil => exact ho
  | cons c cs ih =>
    refine ih (List.mem_append_left _ (mem_others.mpr ⟨ho, h c (by simp)⟩)) fun c hc => ?_
    exact h c (by simp [hc])

theorem Tracks.header {latest : Latest} (h : Tracks latest now jar) (ht : now ≤ t)
    (hu : (urlparts u).2.1 ≠ []) : ∃ l : List Cookie,
      (jarheader t u jar).1 = l.foldl joincookie [] ∧ (l.map Cookie.key).Nodup ∧
      ∀ c, c ∈ l ↔ latest c.key = some c ∧ c.expired t = false ∧ Matches u c := by
  have hheader : (jarheader t u jar).1 = ((jar.filter fun c => !c.expired t).filter fun c =>
      c.sent (urlparts u).1 (urlparts u).2.1 (urlparts u).2.2).foldl joincookie [] := by
    simp only [jarheader, if_neg hu]
  refine ⟨_, hheader, h.keys.sublist ((List.filter_sublist.trans List.filter_sublist).map _),
    fun c => ?_⟩
  rw [List.mem_filter, List.mem_filter, sent_iff, Bool.not_eq_true', and_assoc]
  refine ⟨fun ⟨hc, hrest⟩ => ⟨h.here c hc, hrest⟩, fun ⟨hlatest, he, hmatch⟩ => ⟨?_, he, hmatch⟩⟩
  have hin := ((h.later ht).there _ c hlatest).2
  exact hin.resolve_right (by simp [he])

theorem Op.run_site (hdate : ∀ v e, date v = some e → IsInt e) {op : Op}
    (hsafe : op.Safe date t jar) (hc : c ∈ op.run date t jar) (hnew : c ∉ jar) :
    DomainMatch op.site c.domain := by
  cases op with
  | response u sc =>
    have hwrap := setcookie_wrap fun c hc => (hsafe c hc).1
    rw [Op.run, jarset, hwrap] at hc
    cases hset : setcookie id date t u sc with
    | none =>
      rw [hset] at hc
      exact absurd hc hnew
    | some o =>
      obtain ⟨hfits, hplain⟩ := hsafe o hset
      have hmem : c ∈ jar.filter (fun p => decide (p.key ≠ o.key)) ∨ c = o := by
        rw [hset] at hc
        simp only at hc
        split_ifs at hc
        · simpa using hc
        · exact .inl hc
      rcases hmem with hc | rfl
      · exact absurd (mem_others.mp hc).1 hnew
      · exact (setcookie_good hdate hset hfits hplain).2
  | page origin s =>
    obtain ⟨hhost, htab, hnul, hsafe⟩ := hsafe
    rw [Op.run, cookieswrite_run hhost] at hc
    have hset := (mem_puts hc).resolve_left hnew
    rcases (pagecookies_set hhost htab hnul hset).site with heq | hsuffix
    · exact .inl heq
    · by_cases hip : isip (pagehost origin) = true
      · exact .inl ((hsafe c hset).1 hip)
      · exact .inr ⟨by simpa [Op.site] using hip, hsuffix⟩
  | request u =>
    rw [Op.run, jarheader] at hc
    simp only at hc
    split_ifs at hc
    · exact absurd hc hnew
    · exact absurd (List.mem_of_mem_filter hc) hnew

theorem Tracks.unseen {latest : Latest} (h : Tracks latest now jar) (origin : Str) :
    ∃ l : List Cookie, l.Sublist jar ∧ cookiesread origin jar = jartext l ∧
      ∀ c ∈ l, ¬c.Guarded origin := by
  by_cases hnull : origin = lit "null"
  · exact ⟨[], List.nil_sublist _, by rw [cookiesread, if_pos hnull]; rfl, by simp⟩
  · refine ⟨_, List.filter_sublist, cookiesread_visible h.good hnull, fun c hc hguard => ?_⟩
    have hvisible := (List.mem_filter.mp hc).2
    simp only [Cookie.visible, Bool.and_eq_true, beq_iff_eq, Bool.or_eq_true] at hvisible
    obtain ⟨⟨hhttp, hsec⟩, -⟩ := hvisible
    rcases hguard with hne | ⟨hne, hhttps⟩
    · exact hne hhttp
    · rcases hsec with hsec | hsec
      · exact hne hsec
      · rw [hhttps] at hsec
        exact absurd hsec (by decide)

/-- What a jar keeps: requests get the latest cookies that match them, cookies are set for
hosts that match, pages neither touch nor see what is kept from them, and the text restores
the jar. -/
structure Jarkeeps (date : Str → Option ℤ) (latest : Latest) (now : ℤ) (jar : Jar) : Prop where
  header : ∀ t u, now ≤ t → (urlparts u).2.1 ≠ [] → ∃ l : List Cookie,
    (jarheader t u jar).1 = l.foldl joincookie [] ∧ (l.map Cookie.key).Nodup ∧
    ∀ c, c ∈ l ↔ latest c.key = some c ∧ c.expired t = false ∧ Matches u c
  site : ∀ (t : ℤ) (op : Op), op.Safe date t jar → ∀ c ∈ op.run date t jar, c ∉ jar →
    DomainMatch op.site c.domain
  guarded : ∀ (t : ℤ) (origin s : Str), (Op.page origin s).Safe date t jar →
    ∀ o ∈ jar, o.Guarded origin → o ∈ pagejar origin s jar
  unseen : ∀ origin, ∃ l : List Cookie, l.Sublist jar ∧ cookiesread origin jar = jartext l ∧
    ∀ c ∈ l, ¬c.Guarded origin
  restored : (tokenize (jartext jar) ['\n']).foldlM (fun j line => jaradd line j) [] = .ok jar

/-- In every run of safe operations the jar keeps what it should. -/
theorem jar_keeps {latest : Latest} (hdate : ∀ v e, date v = some e → IsInt e)
    (h : Reached date latest now jar) : Jarkeeps date latest now jar := by
  have htracks := h.tracks hdate
  refine ⟨fun t u ht hu => htracks.header ht hu, fun t op hsafe c hc hnew =>
    Op.run_site hdate hsafe hc hnew, fun t origin s hsafe o ho hguard => ?_, htracks.unseen, ?_⟩
  · obtain ⟨hhost, -, -, hkeys⟩ := hsafe
    rw [cookieswrite_run hhost]
    exact puts_stay ho fun c hc => (hkeys c hc).2 o ho hguard
  · have hkeys : ((([] : Jar) ++ jar).map Cookie.key).Nodup := by simpa using htracks.keys
    rw [tokenize_jartext htracks.good]
    exact restore htracks.good hkeys

/-- A jar of one session's cookie. -/
theorem jar_keeps_sid :
    jarset (fun _ => none) 1 (lit "http://a.b/") (lit "sid=1; HttpOnly") [] =
      [⟨lit "sid", lit "1", lit "a.b", lit "/", 1, 0, 0, 1⟩] ∧
    Jarkeeps (fun _ => none)
      (Latest.set (fun _ => none) ⟨lit "sid", lit "1", lit "a.b", lit "/", 1, 0, 0, 1⟩) 1
      (jarset (fun _ => none) 1 (lit "http://a.b/") (lit "sid=1; HttpOnly") []) := by
  have hset : setcookie id (fun _ => none) 1 (lit "http://a.b/") (lit "sid=1; HttpOnly") =
      some ⟨lit "sid", lit "1", lit "a.b", lit "/", 1, 0, 0, 1⟩ := by
    decide
  refine ⟨by decide, jar_keeps (fun v e h => by simp at h) ?_⟩
  have hsafe : (Op.response (lit "http://a.b/") (lit "sid=1; HttpOnly")).Safe (fun _ => none) 1
      [] := by
    intro c hc
    obtain rfl := Option.some.inj (hset.symm.trans hc)
    exact ⟨isInt_zero, by unfold Plain; decide⟩
  have hrun := Reached.step Reached.start (by omega) hsafe
  rw [Op.sets, hset] at hrun
  exact hrun

/-- A page takes the place of an HttpOnly cookie. -/
theorem sid_replaced : ¬∀ (date : Str → Option ℤ) (t : ℤ) (u sc origin s : Str),
    ∀ o ∈ jarset date t u sc [], o.httponly ≠ 0 → o ∈ pagejar origin s (jarset date t u sc []) := by
  intro h
  have hjar : jarset (fun _ => none) 1 (lit "http://a.b/") (lit "sid=1; HttpOnly") [] =
      [⟨lit "sid", lit "1", lit "a.b", lit "/", 1, 0, 0, 1⟩] := by
    decide
  have hpage : pagejar (lit "http://a.b") (lit "a.b / sid=x 0 0 0 1")
      [⟨lit "sid", lit "1", lit "a.b", lit "/", 1, 0, 0, 1⟩] =
      [⟨lit "sid", lit "x", lit "a.b", lit "/", 1, 0, 0, 0⟩] := by
    decide
  have hkept := h (fun _ => none) 1 (lit "http://a.b/") (lit "sid=1; HttpOnly") (lit "http://a.b")
    (lit "a.b / sid=x 0 0 0 1") ⟨lit "sid", lit "1", lit "a.b", lit "/", 1, 0, 0, 1⟩
  rw [hjar, hpage] at hkept
  have hmem := hkept (by simp) (by decide)
  exact absurd hmem (by decide)

end Infernode.Web
