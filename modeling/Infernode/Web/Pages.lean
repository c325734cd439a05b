import Infernode.Web.Response

/-!
# The cookies of a page

What the lines that a page writes put into the jar: cookies of its own host, for scripts, and
for https pages only where they are Secure.
-/

namespace Infernode.Web

open Audit (dec printed strtoint IsInt)
open Limbo (Str lit asciilower asciilowerchar tokenize tokens Word isdigit)

variable {c o : Cookie} {jar : Jar} {host s line origin out l w : Str} {ls lines : List Str}

theorem asciilowerchar_sep {x : Char} (hx : asciilowerchar x ∈ [' ', '\t', '\n', '\x00']) :
    asciilowerchar x = x := by
  unfold asciilowerchar at hx ⊢
  split_ifs at hx ⊢ with h
  · obtain ⟨h1, h2⟩ := h
    have h1' : 65 ≤ x.toNat := h1
    have h2' : x.toNat ≤ 90 := h2
    generalize x.toNat = n at h1' h2' hx
    interval_cases n <;> exact absurd hx (by decide)
  · rfl

theorem plain_iff : Plain s ↔ ∀ x ∈ s, x ∉ [' ', '\t', '\n', '\x00'] := by
  simp only [Plain, List.mem_cons, List.not_mem_nil, or_false, not_or]
  constructor
  · rintro ⟨h1, h2, h3, h4⟩ x hx
    refine ⟨?_, ?_, ?_, ?_⟩ <;> rintro rfl <;> contradiction
  · exact fun h => ⟨fun hx => (h _ hx).1 rfl, fun hx => (h _ hx).2.1 rfl,
      fun hx => (h _ hx).2.2.1 rfl, fun hx => (h _ hx).2.2.2 rfl⟩

theorem Plain.sub {t : Str} (h : Plain s) (hsub : t ⊆ s) : Plain t :=
  ⟨fun hx => h.1 (hsub hx), fun hx => h.2.1 (hsub hx), fun hx => h.2.2.1 (hsub hx),
    fun hx => h.2.2.2 (hsub hx)⟩

theorem plain_lower (h : Plain s) : Plain (asciilower s) := by
  rw [plain_iff] at h ⊢
  intro x hx hsep
  obtain ⟨y, hy, rfl⟩ := List.mem_map.mp hx
  rw [asciilowerchar_sep hsep] at hsep
  exact h y hy hsep

def Oneline (s : Str) : Prop := '\t' ∉ s ∧ '\n' ∉ s ∧ '\x00' ∉ s

theorem word_plain (h : Oneline line) (hw : w ∈ tokenize line [' ']) : w ≠ [] ∧ Plain w := by
  have hword := Limbo.tokenize_words line [' '] w hw
  have hmem : ∀ x ∈ w, x ∈ line := fun x hx => (Limbo.tokens_mem hw hx).resolve_left (by simp)
  refine ⟨hword.1, fun hx => ?_, fun hx => h.1 (hmem _ hx), fun hx => h.2.1 (hmem _ hx),
    fun hx => h.2.2 (hmem _ hx)⟩
  simpa using hword.2 ' ' hx

theorem strtoint_isInt (s : Str) : IsInt (strtoint s) := by
  unfold strtoint
  extract_lets s v
  rw [IsInt]
  omega

theorem fieldint_isInt (f : List Str) (i : ℕ) : IsInt (fieldint f i) := by
  rw [fieldint]
  split
  · exact strtoint_isInt _
  · exact isInt_zero

structure Pageset (origin : Str) (c : Cookie) : Prop where
  good : c.Good
  script : c.httponly = 0
  https : pagehttps origin = false → c.secure = 0
  site : pagehost origin = c.domain ∨ '.' :: c.domain <:+ pagehost origin

theorem pagematch_iff {only : Bool} {domain : Str} (h : pagematch host domain only = true) :
    host = domain ∨ (only = false ∧ '.' :: domain <:+ host) := by
  simp only [pagematch, Bool.or_eq_true, beq_iff_eq, Bool.and_eq_true, Bool.not_eq_true',
    decide_eq_true_eq] at h
  tauto

theorem pageline_words (hhost : pagehost origin ≠ []) (h : pageline origin line = .ok l) :
    ∃ dom path nv expires secure httponly hostonly d,
      tokenize line [' '] = [dom, path, nv, expires, secure, httponly, hostonly] ∧
      l = d ++ [path, nv, expires, secure, httponly, hostonly].flatMap (' ' :: ·) ∧
      d ≠ [] ∧ d ⊆ asciilower dom ∧ asciilower d = d ∧ httponly = lit "0" ∧
      (pagehttps origin = false → secure = lit "0") ∧
      (pagehost origin = d ∨ '.' :: d <:+ pagehost origin) := by
  rw [pageline] at h
  split at h
  case h_2 => simp at h
  case h_1 dom path nv expires secure httponly hostonly htok =>
    simp only at h
    have hlow : asciilower (if (asciilower dom).head? = some '.' then (asciilower dom).drop 1
        else asciilower dom) =
        if (asciilower dom).head? = some '.' then (asciilower dom).drop 1 else asciilower dom := by
      split_ifs
      · exact asciilower_drop dom
      · exact Limbo.asciilower_idem dom
    have hsub : (if (asciilower dom).head? = some '.' then (asciilower dom).drop 1
        else asciilower dom) ⊆ asciilower dom := by
      split_ifs
      · exact List.drop_subset _ _
      · exact List.Subset.refl _
    generalize (if (asciilower dom).head? = some '.' then (asciilower dom).drop 1
      else asciilower dom) = d at h hlow hsub
    split_ifs at h with hsite hhttp hsec
    obtain rfl := Except.ok.inj h
    simp only [Bool.or_eq_true, Bool.not_eq_true', Bool.and_eq_true, bne_iff_ne, ne_eq,
      decide_eq_false_iff_not, not_or, not_and, not_not, Bool.not_eq_false] at hsite
    obtain ⟨hmatch, hdot⟩ := hsite
    have hmatch' := pagematch_iff hmatch
    refine ⟨dom, path, nv, expires, secure, httponly, hostonly, d, htok, by simp, ?_, hsub, hlow,
      by simpa using hhttp, ?_, hmatch'.imp_right And.right⟩
    · rintro rfl
      rcases hmatch' with heq | ⟨honly, -⟩
      · exact hhost heq
      · refine absurd (hdot ⟨by simpa using honly, ?_⟩) List.not_mem_nil
        exact fun hnil => hhost hnil.symm
    · intro hhttps
      by_contra hne
      exact hsec ⟨hne, hhttps⟩

theorem linecookie_page (hhost : pagehost origin ≠ []) (hline : Oneline line)
    (h : pageline origin line = .ok l) (hc : linecookie l = .ok c) : Pageset origin c := by
  obtain ⟨dom, path, nv, expires, secure, httponly, hostonly, d, htok, rfl, hd, hsub, hlow, rfl,
    hsec, hsite⟩ := pageline_words hhost h
  have hword : ∀ w ∈ [dom, path, nv, expires, secure, lit "0", hostonly], w ≠ [] ∧ Plain w :=
    fun w hw => word_plain hline (htok ▸ hw)
  have hdplain : Plain d := (plain_lower (hword dom (by simp)).2).sub hsub
  have htoks : tokenize (d ++ [path, nv, expires, secure, lit "0", hostonly].flatMap (' ' :: ·))
      (lit " \t") = [d, path, nv, expires, secure, lit "0", hostonly] := by
    rw [tokenize]
    refine tokens_joined (by decide) fun w hw => ?_
    have hw' : w ≠ [] ∧ Plain w := by
      rcases List.mem_cons.mp hw with rfl | hw
      · exact ⟨hd, hdplain⟩
      · exact hword w (List.mem_cons_of_mem _ hw)
    refine ⟨hw'.1, fun x hx => decide_eq_false fun hin => ?_⟩
    rcases List.mem_pair.mp (show x ∈ [' ', '\t'] from hin) with rfl | rfl
    · exact hw'.2.1 hx
    · exact hw'.2.2.1 hx
  rw [linecookie, htoks] at hc
  simp only at hc
  split_ifs at hc with hnv
  obtain rfl := Except.ok.inj hc
  obtain ⟨heq, hne⟩ := not_or.mp hnv
  have hnvplain := (hword nv (by simp)).2
  refine ⟨⟨⟨hnvplain.sub (List.takeWhile_sublist _).subset, hne, fun hmem => ?_⟩, ?_,
    ⟨?_, ?_, Limbo.asciilower_idem d⟩, (hword path (by simp)).symm, ?_⟩, ?_, ?_, ?_⟩
  · have := List.mem_takeWhile_imp hmem
    simp at this
  · exact hnvplain.sub fun x hx => (List.dropWhile_sublist _).subset (List.drop_subset _ _ hx)
  · exact plain_lower hdplain
  · change asciilower d ≠ []
    rwa [hlow]
  · have hints := fieldint_isInt [expires, secure, lit "0", hostonly]
    exact ⟨hints 0, hints 1, hints 2, hints 3⟩
  · exact (by decide : strtoint (lit "0") = 0)
  · intro hhttps
    obtain rfl := hsec hhttps
    exact (by decide : strtoint (lit "0") = 0)
  · simpa [hlow] using hsite

def accepted : List Str → List Cookie
  | [] => []
  | l :: ls =>
    match linecookie l with
    | .error _ => []
    | .ok c => c :: accepted ls

theorem writelines_accepted (h : lit "clear" ∉ ls) :
    writelines ls jar = (accepted ls).foldl (fun j c => putcookie c j) jar := by
  induction ls generalizing jar with
  | nil => rfl
  | cons l ls ih =>
    obtain ⟨hl, hls⟩ : lit "clear" ≠ l ∧ lit "clear" ∉ ls := by simpa using h
    rw [writelines, if_neg hl.symm, jaradd, accepted]
    cases linecookie l with
    | error err => rfl
    | ok c => exact ih hls

theorem accepted_mem (h : c ∈ accepted ls) : ∃ l ∈ ls, linecookie l = .ok c := by
  induction ls with
  | nil => simp [accepted] at h
  | cons l ls ih =>
    rw [accepted] at h
    cases hl : linecookie l with
    | error err => simp [hl] at h
    | ok o =>
      rw [hl] at h
      rcases List.mem_cons.mp h with rfl | h
      · exact ⟨l, by simp, hl⟩
      · obtain ⟨k, hk, hkc⟩ := ih h
        exact ⟨k, by simp [hk], hkc⟩

theorem tokenize_dropLast (out : Str) :
    tokenize (if out.getLast? = some '\n' then out.dropLast else out) ['\n'] =
      tokenize out ['\n'] := by
  split_ifs with h
  · obtain ⟨x, rfl⟩ := List.getLast?_eq_some_iff.mp h
    rw [List.dropLast_concat, tokenize, tokenize, Limbo.tokens_append_delim [] (by simp)]
    simp [tokens]
  · rfl

theorem pagelines_ok (hhost : pagehost origin ≠ []) (hlines : ∀ line ∈ lines, '\n' ∉ line)
    (h : pagelines origin lines = .ok out) :
    ∀ l ∈ tokenize out ['\n'], ∃ line ∈ lines, pageline origin line = .ok l := by
  induction lines generalizing out with
  | nil =>
    obtain rfl := Except.ok.inj h
    simp [tokenize, tokens]
  | cons line lines ih =>
    rw [pagelines] at h
    cases hl : pageline origin line with
    | error err => simp [hl] at h
    | ok l =>
      cases hrest : pagelines origin lines with
      | error err => simp [hl, hrest] at h
      | ok rest =>
        simp only [hl, hrest, Except.ok.injEq] at h
        have hword : Word (fun x => decide (x ∈ ['\n'])) l := by
          obtain ⟨dom, path, nv, expires, secure, httponly, hostonly, d, htok, rfl, hd, hsub, -,
            -⟩ := pageline_words hhost hl
          refine ⟨by simp, fun x hx => decide_eq_false fun hin => ?_⟩
          obtain rfl := List.mem_singleton.mp hin
          have hnot : ∀ w ∈ [dom, path, nv, expires, secure, httponly, hostonly], '\n' ∉ w :=
            fun w hw hx => (Limbo.tokens_mem (htok ▸ hw) hx).elim (by simp)
              (hlines line (by simp))
          rcases List.mem_append.mp hx with hx | hx
          · obtain ⟨y, hy, hyx⟩ := List.mem_map.mp (hsub hx)
            have hsep := asciilowerchar_sep (x := y) (by rw [hyx]; simp)
            exact hnot dom (by simp) ((hsep.symm.trans hyx) ▸ hy)
          · obtain ⟨w, hw, hx⟩ := List.mem_flatMap.mp hx
            rcases List.mem_cons.mp hx with heq | hx
            · exact absurd heq (by decide)
            · exact hnot w (List.mem_cons_of_mem _ hw) hx
        have htok : tokenize out ['\n'] = l :: tokenize rest ['\n'] := by
          rw [← h, tokenize, Limbo.tokens_word_delim hword (by simp)]
          rfl
        intro k hk
        rw [htok] at hk
        rcases List.mem_cons.mp hk with rfl | hk
        · exact ⟨line, by simp, hl⟩
        · obtain ⟨x, hx, hxk⟩ := ih (fun x hx => hlines x (by simp [hx])) hrest k hk
          exact ⟨x, by simp [hx], hxk⟩

def pagecookies (origin s : Str) : List Cookie :=
  if origin = lit "null" then []
  else
    match pagelines origin (tokenize s ['\n']) with
    | .error _ => []
    | .ok out => accepted (tokenize out ['\n'])

theorem newline_tokens : ∀ line ∈ tokenize s ['\n'], '\n' ∉ line := by
  intro line hline hx
  simpa using (Limbo.tokenize_words s ['\n'] line hline).2 '\n' hx

theorem cookieswrite_run (hhost : pagehost origin ≠ []) :
    pagejar origin s jar = (pagecookies origin s).foldl (fun j c => putcookie c j) jar := by
  rw [pagejar, cookieswrite, pagecookies]
  split_ifs with hnull
  · rfl
  · cases hout : pagelines origin (tokenize s ['\n']) with
    | error err => rfl
    | ok out =>
      have hclear : lit "clear" ∉ tokenize out ['\n'] := by
        intro hmem
        obtain ⟨line, -, hl⟩ := pagelines_ok hhost newline_tokens hout _ hmem
        obtain ⟨-, path, nv, expires, secure, httponly, hostonly, d, -, hl, -⟩ :=
          pageline_words hhost hl
        have hspace : ' ' ∈ lit "clear" := by
          rw [hl]
          simp
        exact absurd hspace (by decide)
      simp only
      rw [cookiesfile, tokenize_dropLast, writelines_accepted hclear]

theorem pagecookies_set (hhost : pagehost origin ≠ []) (htab : '\t' ∉ s) (hnul : '\x00' ∉ s)
    (h : c ∈ pagecookies origin s) : Pageset origin c := by
  rw [pagecookies] at h
  split_ifs at h with hnull
  · simp at h
  · cases hout : pagelines origin (tokenize s ['\n']) with
    | error err => simp [hout] at h
    | ok out =>
      rw [hout] at h
      obtain ⟨l, hl, hc⟩ := accepted_mem h
      obtain ⟨line, hline, hpass⟩ := pagelines_ok hhost newline_tokens hout l hl
      have hmem : ∀ x ∈ line, x ∈ s := fun x hx =>
        (Limbo.tokens_mem hline hx).resolve_left (by simp)
      refine linecookie_page hhost ⟨fun hx => htab (hmem _ hx), newline_tokens line hline,
        fun hx => hnul (hmem _ hx)⟩ hpass hc

end Infernode.Web
