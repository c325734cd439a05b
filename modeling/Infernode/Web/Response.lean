import Infernode.Web.Lines

/-!
# The cookies of responses and pages

What a cookie that a response sets is, and one that a page writes: its domain is one of the
host's, and its line is read as itself.
-/

namespace Infernode.Web

open Audit (dec printed strtoint IsInt)
open Dis (int)
open Limbo (Str lit asciilower asciilowerchar tokenize tokens Word isdigit)

variable {c o : Cookie} {host u sc s : Str} {t : ℤ}
  {date : Str → Option ℤ} {maxage maxage' : Option ℤ} {ls : List Str}

structure Sited (host : Str) (c : Cookie) : Prop where
  site : DomainMatch host c.domain
  domain : c.domain ≠ [] ∧ asciilower c.domain = c.domain
  path : c.path ≠ []
  ints : IsInt c.expires ∧ IsInt c.secure ∧ IsInt c.httponly ∧ IsInt c.hostonly

theorem asciilower_drop (s : Str) : asciilower ((asciilower s).drop 1) = (asciilower s).drop 1 := by
  rw [asciilower, asciilower, ← List.map_drop, ← asciilower, ← asciilower, Limbo.asciilower_idem]

theorem int_eq {n : ℤ} (h : IsInt n) : int n = n := by
  obtain ⟨hlow, hhigh⟩ := h
  exact Int.bmod_eq_of_le (by omega) (by omega)

theorem isInt_one : IsInt 1 := by
  rw [IsInt]
  omega

theorem isInt_zero : IsInt 0 := by
  rw [IsInt]
  omega

theorem cookieattribute_sited (hdate : ∀ v e, date v = some e → IsInt e) (h : Sited host c)
    (ha : cookieattribute date t host c maxage s = some (o, maxage')) :
    Sited host o ∧ o.name = c.name ∧ o.value = c.value := by
  obtain ⟨hsite, hdomain, hpath, h1, h2, h3, h4⟩ := h
  simp only [cookieattribute] at ha
  generalize (if '=' ∈ trimsp s then trimsp (atequals (trimsp s)).2 else []) = v at ha
  generalize asciilower (if '=' ∈ trimsp s then trimsp (atequals (trimsp s)).1 else trimsp s) = k
    at ha
  have hlow : asciilower (if (asciilower v).head? = some '.' then (asciilower v).drop 1
      else asciilower v) =
      if (asciilower v).head? = some '.' then (asciilower v).drop 1 else asciilower v := by
    split_ifs
    · exact asciilower_drop v
    · exact Limbo.asciilower_idem v
  generalize (if (asciilower v).head? = some '.' then (asciilower v).drop 1
    else asciilower v) = d at ha hlow
  have hsame : Sited host c ∧ c.name = c.name ∧ c.value = c.value :=
    ⟨⟨hsite, hdomain, hpath, h1, h2, h3, h4⟩, rfl, rfl⟩
  by_cases hk1 : k = lit "domain"
  · rw [if_pos hk1] at ha
    split_ifs at ha with hd hmatch
    · obtain ⟨rfl, -⟩ := Prod.mk.inj (Option.some.inj ha)
      exact hsame
    · obtain ⟨rfl, -⟩ := Prod.mk.inj (Option.some.inj ha)
      have hmatch' : domainmatch host d = true := by simpa using hmatch
      exact ⟨⟨domainmatch_iff.mp hmatch', ⟨hd, hlow⟩, hpath, h1, h2, h3, isInt_zero⟩, rfl, rfl⟩
  rw [if_neg hk1] at ha
  by_cases hk2 : k = lit "path"
  · rw [if_pos hk2] at ha
    obtain ⟨ho, -⟩ := Prod.mk.inj (Option.some.inj ha)
    split_ifs at ho with hslash
    · subst ho
      refine ⟨⟨hsite, hdomain, ?_, h1, h2, h3, h4⟩, rfl, rfl⟩
      rintro hnil
      rw [show v = [] from hnil] at hslash
      simp at hslash
    · exact ho ▸ hsame
  rw [if_neg hk2] at ha
  by_cases hk3 : k = lit "max-age"
  · rw [if_pos hk3] at ha
    exact (Prod.mk.inj (Option.some.inj ha)).1 ▸ hsame
  rw [if_neg hk3] at ha
  by_cases hk4 : k = lit "expires"
  · rw [if_pos hk4] at ha
    split_ifs at ha
    · cases hv : date v with
      | none =>
        rw [hv] at ha
        exact (Prod.mk.inj (Option.some.inj ha)).1 ▸ hsame
      | some e =>
        rw [hv] at ha
        obtain ⟨rfl, -⟩ := Prod.mk.inj (Option.some.inj ha)
        exact ⟨⟨hsite, hdomain, hpath, hdate v e hv, h2, h3, h4⟩, rfl, rfl⟩
    · exact (Prod.mk.inj (Option.some.inj ha)).1 ▸ hsame
  rw [if_neg hk4] at ha
  split_ifs at ha
  · obtain ⟨rfl, -⟩ := Prod.mk.inj (Option.some.inj ha)
    exact ⟨⟨hsite, hdomain, hpath, h1, isInt_one, h3, h4⟩, rfl, rfl⟩
  · obtain ⟨rfl, -⟩ := Prod.mk.inj (Option.some.inj ha)
    exact ⟨⟨hsite, hdomain, hpath, h1, h2, isInt_one, h4⟩, rfl, rfl⟩
  · exact (Prod.mk.inj (Option.some.inj ha)).1 ▸ hsame

theorem cookieattributes_sited (hdate : ∀ v e, date v = some e → IsInt e) (h : Sited host c)
    (ha : cookieattributes date t host c maxage ls = some (o, maxage')) :
    Sited host o ∧ o.name = c.name ∧ o.value = c.value := by
  induction ls generalizing c maxage with
  | nil =>
    simp only [cookieattributes, Option.some.injEq, Prod.mk.injEq] at ha
    exact ha.1 ▸ ⟨h, rfl, rfl⟩
  | cons a ls ih =>
    rw [cookieattributes] at ha
    cases hstep : cookieattribute date t host c maxage a with
    | none => simp [hstep] at ha
    | some r =>
      obtain ⟨c', m⟩ := r
      simp only [hstep] at ha
      obtain ⟨hsited, hname, hvalue⟩ := cookieattribute_sited hdate h hstep
      obtain ⟨hsited', hname', hvalue'⟩ := ih hsited ha
      exact ⟨hsited', hname'.trans hname, hvalue'.trans hvalue⟩

theorem mem_trimsp {x : Char} (h : x ∈ trimsp s) : x ∈ s := by
  rw [trimsp, List.mem_reverse] at h
  have h1 := List.mem_reverse.mp ((List.dropWhile_sublist _).subset h)
  exact (List.dropWhile_sublist _).subset h1

theorem trimsp_ne_nil {x : Char} (hx : x ∈ s) (hb : isblank x = false) : trimsp s ≠ [] := by
  intro hnil
  rw [trimsp, List.reverse_eq_nil_iff, List.dropWhile_eq_nil_iff] at hnil
  have hall : s.dropWhile isblank = [] := by
    by_contra hne
    have hhead := List.head_dropWhile_not isblank hne
    have := hnil _ (List.mem_reverse.mpr (List.head_mem hne))
    rw [this] at hhead
    exact absurd hhead (by decide)
  have := List.dropWhile_eq_nil_iff.mp hall x hx
  rw [this] at hb
  exact absurd hb (by decide)

theorem trimsp_head {x : Char} (h : trimsp s = x :: sc) : isblank x = false := by
  have hpre : trimsp s <+: s.dropWhile isblank := by
    rw [trimsp]
    have := List.dropWhile_suffix (p := isblank) (l := (s.dropWhile isblank).reverse)
    simpa using List.reverse_prefix.mpr this
  rw [h] at hpre
  obtain ⟨r, hr⟩ := hpre
  have hne : s.dropWhile isblank ≠ [] := by simp [← hr]
  have hhead := List.head_dropWhile_not isblank hne
  simpa [← hr] using hhead

theorem defaultpath_ne_nil (p : Str) : defaultpath p ≠ [] := by
  rw [defaultpath]
  split_ifs with h1
  · decide
  · simp only
    split_ifs with h2
    · decide
    · exact h2

theorem asciilower_host (u : Str) : asciilower (urlparts u).2.1 = (urlparts u).2.1 :=
  Limbo.asciilower_idem _

theorem parsecookie_sited (hdate : ∀ v e, date v = some e → IsInt e)
    (h : parsecookie date t u sc = some (c, maxage)) :
    Sited (urlparts u).2.1 c ∧ c.name ≠ [] ∧ '=' ∉ c.name := by
  have hlow := asciilower_host u
  simp only [parsecookie] at h
  generalize (urlparts u).2.2 = path at h
  generalize (urlparts u).2.1 = host at h hlow ⊢
  split_ifs at h with hhost
  cases htok : tokenize sc (lit ";") with
  | nil => simp [htok] at h
  | cons nv parts =>
    simp only [htok] at h
    split_ifs at h with hnv
    obtain ⟨heq, hfirst⟩ := not_or.mp hnv
    have hstart : Sited host ⟨trimsp (atequals (trimsp nv)).1, trimsp (atequals (trimsp nv)).2,
        host, defaultpath path, 1, 0, 0, 0⟩ :=
      ⟨.inl rfl, ⟨hhost, hlow⟩, defaultpath_ne_nil path, isInt_zero, isInt_zero, isInt_zero,
        isInt_one⟩
    obtain ⟨hsited, hname, -⟩ := cookieattributes_sited hdate hstart h
    refine ⟨hsited, ?_, ?_⟩
    · rw [hname]
      obtain ⟨x, r, hr⟩ := List.exists_cons_of_ne_nil hfirst
      have hx : x ∈ (atequals (trimsp nv)).1 := by simp [hr]
      refine trimsp_ne_nil hx ?_
      obtain ⟨y, r', hy⟩ := List.exists_cons_of_ne_nil (fun hnil => by
        simp [atequals, hnil] at hfirst : trimsp nv ≠ [])
      have hxy : x = y := by
        rw [atequals, hy, List.takeWhile_cons] at hr
        split_ifs at hr
        exact (List.cons.inj hr).1.symm
      exact hxy ▸ trimsp_head hy
    · rw [hname]
      intro hmem
      have := List.mem_takeWhile_imp (mem_trimsp hmem)
      simp at this

theorem setcookie_wrap (h : ∀ c, setcookie id date t u sc = some c → IsInt c.expires) :
    setcookie int date t u sc = setcookie id date t u sc := by
  simp only [setcookie] at h ⊢
  cases hparse : parsecookie date t u sc with
  | none => rfl
  | some r =>
    obtain ⟨c, maxage⟩ := r
    simp only [hparse] at h ⊢
    split_ifs at h ⊢ with hsec
    · rfl
    · cases maxage with
      | none => rfl
      | some age =>
        have hfits := h _ rfl
        simp only [lifetime] at hfits ⊢
        split_ifs at hfits ⊢ with hage
        · rfl
        · have hsum : IsInt (t + age) := hfits
          rw [int_eq hsum]
          rfl

theorem setcookie_good (hdate : ∀ v e, date v = some e → IsInt e)
    (h : setcookie id date t u sc = some c) (hfits : IsInt c.expires)
    (hplain : Plain (c.name ++ c.value ++ c.domain ++ c.path)) :
    c.Good ∧ DomainMatch (urlparts u).2.1 c.domain := by
  rw [setcookie] at h
  cases hparse : parsecookie date t u sc with
  | none => simp [hparse] at h
  | some r =>
    obtain ⟨o, maxage⟩ := r
    simp only [hparse] at h
    split_ifs at h
    obtain rfl := Option.some.inj h
    obtain ⟨⟨hsite, hdomain, hpath, -, h2, h3, h4⟩, hname, heq⟩ := parsecookie_sited hdate hparse
    have hsame : (lifetime id t o maxage).name = o.name ∧
        (lifetime id t o maxage).value = o.value ∧ (lifetime id t o maxage).domain = o.domain ∧
        (lifetime id t o maxage).path = o.path ∧ (lifetime id t o maxage).secure = o.secure ∧
        (lifetime id t o maxage).httponly = o.httponly ∧
        (lifetime id t o maxage).hostonly = o.hostonly := by
      cases maxage <;> exact ⟨rfl, rfl, rfl, rfl, rfl, rfl, rfl⟩
    obtain ⟨e1, e2, e3, e4, e5, e6, e7⟩ := hsame
    rw [plain_append, plain_append, plain_append] at hplain
    obtain ⟨⟨⟨p1, p2⟩, p3⟩, p4⟩ := hplain
    refine ⟨⟨⟨p1, e1 ▸ hname, e1 ▸ heq⟩, p2, ⟨p3, e3 ▸ hdomain⟩, ⟨p4, e4 ▸ hpath⟩, hfits, ?_, ?_,
      ?_⟩, e3 ▸ hsite⟩
    · exact e5 ▸ h2
    · exact e6 ▸ h3
    · exact e7 ▸ h4

end Infernode.Web
