import Infernode.Git.Sorted

/-!
# The trees of an index

An index is `Indexed` when its paths are clean and apart. Its levels then have distinct names,
and the trees that are written for it are git's just when no directory clashes.
-/

namespace Infernode.Git

open Limbo (Str lit string bytes)

variable {es l : List IndexEntry} {e f : IndexEntry} {te : TreeEntry} {gs : List Group} {g : Group}
  {a b d p q r s t path : Str} {c : Char} {n : ℕ}

def Clean (path : Str) : Prop := [] ∉ path.splitOn '/'

def Apart (p q : Str) : Prop := p ≠ q ∧ ¬(p ++ ['/']) <+: q ∧ ¬(q ++ ['/']) <+: p

structure Indexed (es : List IndexEntry) : Prop where
  entry : ∀ e ∈ es, Clean e.path ∧ IsMode e.mode ∧ e.mode ≠ DIRMODE ∧ Char.ofNat 0 ∉ e.path
  apart : es.Pairwise fun e f => Apart e.path f.path

theorem Apart.symm (h : Apart p q) : Apart q p := ⟨h.1.symm, h.2.2, h.2.1⟩

theorem splitpath_cases (path : Str) : ('/' ∉ path ∧ splitpath path = (path, [])) ∨
    ∃ a b, '/' ∉ a ∧ path = a ++ '/' :: b ∧ splitpath path = (a, b) := by
  induction path with
  | nil => exact .inl ⟨by simp, rfl⟩
  | cons c s ih =>
    by_cases hc : c = '/'
    · exact .inr ⟨[], s, by simp, by simp [hc], by simp [splitpath, splitfirst, hc]⟩
    · rw [splitpath] at ih
      rw [splitpath, splitfirst, if_neg hc]
      rcases ih with ⟨hs, h⟩ | ⟨a, b, ha, hab, h⟩
      · exact .inl ⟨by simp [hs, eq_comm, hc], by rw [h]⟩
      · exact .inr ⟨c :: a, b, by simp [ha, eq_comm, hc], by simp [hab], by rw [h]⟩

theorem splitpath_cut (ha : '/' ∉ a) (b : Str) : splitpath (a ++ '/' :: b) = (a, b) :=
  splitfirst_eq ha b

theorem clean_cut (ha : '/' ∉ a) : Clean (a ++ '/' :: b) ↔ a ≠ [] ∧ Clean b := by
  rw [Clean, Clean, List.splitOn_append_cons_self_of_not_mem ha b]
  simp [eq_comm]

theorem Clean.ne_nil (h : Clean p) : p ≠ [] := by
  rintro rfl
  exact h (by simp)

theorem asfile_some (he : Clean e.path) (h : asfile e = some te) :
    '/' ∉ e.path ∧ te = ⟨e.mode, e.path, e.hash⟩ := by
  rw [asfile] at h
  split_ifs at h with hrest
  rcases splitpath_cases e.path with ⟨hs, hsplit⟩ | ⟨a, b, ha, hab, hsplit⟩
  · rw [hsplit] at h
    exact ⟨hs, (Option.some.inj h).symm⟩
  · rw [hsplit] at hrest
    rw [hab, clean_cut ha] at he
    exact absurd hrest he.2.ne_nil

theorem below_some (h : below d e = some f) :
    ∃ r, '/' ∉ d ∧ e.path = d ++ '/' :: r ∧ r ≠ [] ∧ f = ⟨e.mode, e.hash, r⟩ := by
  rw [below] at h
  split_ifs at h with hr
  rcases splitpath_cases e.path with ⟨-, hsplit⟩ | ⟨a, b, ha, hab, hsplit⟩
  · rw [hsplit] at hr
    exact absurd rfl hr.1
  · rw [hsplit] at h hr
    obtain rfl : a = d := hr.2
    exact ⟨b, ha, hab, hr.1, (Option.some.inj h).symm⟩

theorem below_cut (hd : '/' ∉ d) (he : e.path = d ++ '/' :: r) (hr : r ≠ []) :
    below d e = some ⟨e.mode, e.hash, r⟩ := by
  rw [below, he, splitpath_cut hd, if_pos ⟨hr, rfl⟩]

theorem Apart.below (h : Apart (d ++ '/' :: p) (d ++ '/' :: q)) : Apart p q := by
  obtain ⟨hne, hp, hq⟩ := h
  refine ⟨fun heq => hne (by rw [heq]), fun hpre => hp ?_, fun hpre => hq ?_⟩
  · obtain ⟨t, rfl⟩ := hpre
    exact ⟨t, by simp⟩
  · obtain ⟨t, rfl⟩ := hpre
    exact ⟨t, by simp⟩

theorem Indexed.below (h : Indexed es) (d : Str) : Indexed (es.filterMap (below d)) := by
  constructor
  · intro f hf
    obtain ⟨e, he, hef⟩ := List.mem_filterMap.mp hf
    obtain ⟨r, hd, hpath, -, rfl⟩ := below_some hef
    obtain ⟨hclean, hmode, hdir, hnul⟩ := h.entry e he
    rw [hpath] at hclean hnul
    exact ⟨((clean_cut hd).mp hclean).2, hmode, hdir, fun hm => hnul (by simp [hm])⟩
  · rw [List.pairwise_filterMap]
    refine h.apart.imp fun {e f} hapart e' he' f' hf' => ?_
    obtain ⟨r, -, hpath, -, rfl⟩ := below_some he'
    obtain ⟨r', -, hpath', -, rfl⟩ := below_some hf'
    rw [hpath, hpath'] at hapart
    exact hapart.below

theorem Indexed.perm (h : Indexed es) (hp : l.Perm es) : Indexed l where
  entry e he := h.entry e (hp.mem_iff.mp he)
  apart := (hp.pairwise_iff fun h => h.symm).mpr h.apart

theorem Grouped.indexed (hg : Grouped es gs) (h : Indexed es) (hmem : g ∈ gs) : Indexed g.2 :=
  (h.below g.1).perm (hg.perm g hmem)

theorem Grouped.slash (hg : Grouped es gs) (hmem : g ∈ gs) :
    '/' ∉ g.1 ∧ ∃ e ∈ es, ∃ r, e.path = g.1 ++ '/' :: r ∧ r ≠ [] := by
  obtain ⟨f, hf⟩ := List.exists_mem_of_ne_nil _ (hg.used g hmem)
  obtain ⟨e, he, hef⟩ := List.mem_filterMap.mp ((hg.perm g hmem).mem_iff.mp hf)
  obtain ⟨r, hd, hpath, hr, -⟩ := below_some hef
  exact ⟨hd, e, he, r, hpath, hr⟩

theorem Grouped.group (hg : Grouped es gs) (he : e ∈ es) (hd : '/' ∉ d)
    (hpath : e.path = d ++ '/' :: r) (hr : r ≠ []) :
    ∃ g ∈ gs, g.1 = d ∧ ⟨e.mode, e.hash, r⟩ ∈ g.2 := by
  have hsplit := splitpath_cut hd r
  have hname := hg.all e he (by rw [hpath, hsplit]; exact hr)
  rw [hpath, hsplit] at hname
  obtain ⟨g, hmem, rfl⟩ := List.mem_map.mp hname
  refine ⟨g, hmem, rfl, (hg.perm g hmem).mem_iff.mpr ?_⟩
  exact List.mem_filterMap.mpr ⟨e, he, below_cut hd hpath hr⟩

def entriesat (hash : Group → Hash) (es : List IndexEntry) : List TreeEntry :=
  (levelof es).1 ++ ((levelof es).2.map fun g => (⟨DIRMODE, g.1, hash g⟩ : TreeEntry)).reverse

theorem mem_entriesat (h : Indexed es) {hash : Group → Hash} :
    te ∈ entriesat hash es ↔ (∃ e ∈ es, '/' ∉ e.path ∧ te = ⟨e.mode, e.path, e.hash⟩) ∨
      ∃ g ∈ (levelof es).2, te = ⟨DIRMODE, g.1, hash g⟩ := by
  rw [entriesat, levelof_files, List.mem_append, List.mem_reverse, List.mem_reverse,
    List.mem_filterMap, List.mem_map]
  refine or_congr ⟨?_, ?_⟩ ⟨?_, ?_⟩
  · rintro ⟨e, he, hte⟩
    obtain ⟨hs, rfl⟩ := asfile_some (h.entry e he).1 hte
    exact ⟨e, he, hs, rfl⟩
  · rintro ⟨e, he, hs, rfl⟩
    have hsplit : splitpath e.path = (e.path, []) := by
      rcases splitpath_cases e.path with ⟨-, hsplit⟩ | ⟨a, b, -, hab, -⟩
      · exact hsplit
      · exact absurd (by simp [hab]) hs
    exact ⟨e, he, by simp [asfile, hsplit]⟩
  · rintro ⟨g, hg, rfl⟩
    exact ⟨g, hg, rfl⟩
  · rintro ⟨g, hg, rfl⟩
    exact ⟨g, hg, rfl⟩

theorem dirmode_isMode : IsMode DIRMODE := ⟨by decide, by decide⟩

theorem entriesat_entry (h : Indexed es) {hash : Group → Hash} (hte : te ∈ entriesat hash es) :
    IsEntry te ∧ '/' ∉ te.name := by
  rcases (mem_entriesat h).mp hte with ⟨e, he, hs, rfl⟩ | ⟨g, hg, rfl⟩
  · obtain ⟨-, hmode, -, hnul⟩ := h.entry e he
    exact ⟨⟨hmode, hnul⟩, hs⟩
  · obtain ⟨hd, e, he, r, hpath, -⟩ := (grouped_levelof es).slash hg
    obtain ⟨-, -, -, hnul⟩ := h.entry e he
    rw [hpath] at hnul
    exact ⟨⟨dirmode_isMode, fun hm => hnul (by simp [hm])⟩, hd⟩

theorem Indexed.notbelow (h : Indexed es) (he : e ∈ es) (hf : f ∈ es) :
    ¬(e.path ++ ['/']) <+: f.path := by
  have hall : ∀ e ∈ es, ∀ f ∈ es, ¬(e.path ++ ['/']) <+: f.path := by
    refine List.Pairwise.forall_of_forall_of_flip (fun e _ hpre => ?_)
      (h.apart.imp fun h => h.2.1) (h.apart.imp fun h => h.2.2)
    have := hpre.length_le
    simp at this
  exact hall e he f hf

theorem entriesat_names (h : Indexed es) (hash : Group → Hash) :
    ((entriesat hash es).map TreeEntry.name).Nodup := by
  have hg := grouped_levelof es
  have hdirs : ((levelof es).2.map fun g => (⟨DIRMODE, g.1, hash g⟩ : TreeEntry)).reverse.map
      TreeEntry.name = ((levelof es).2.map Prod.fst).reverse := by
    rw [List.map_reverse, List.map_map]
    rfl
  rw [entriesat, levelof_files, List.map_append, List.map_reverse, hdirs, List.nodup_append]
  refine ⟨?_, List.nodup_reverse.mpr hg.names, ?_⟩
  · rw [List.nodup_reverse, List.Nodup, List.pairwise_map, List.pairwise_filterMap]
    refine h.apart.imp_of_mem fun {e f} he hf hapart x hx y hy => ?_
    obtain ⟨-, rfl⟩ := asfile_some (h.entry e he).1 hx
    obtain ⟨-, rfl⟩ := asfile_some (h.entry f hf).1 hy
    exact hapart.1
  · rintro x hx y hy rfl
    obtain ⟨te, hte, rfl⟩ := List.mem_map.mp (List.mem_reverse.mp hx)
    obtain ⟨e, he, hasfile⟩ := List.mem_filterMap.mp hte
    obtain ⟨-, rfl⟩ := asfile_some (h.entry e he).1 hasfile
    obtain ⟨g, hmem, hname⟩ := List.mem_map.mp (List.mem_reverse.mp hy)
    obtain ⟨-, f, hf, r, hpath, -⟩ := hg.slash hmem
    exact h.notbelow he hf ⟨r, by rw [hpath, hname]; simp⟩

/-- No path goes on with a character below the slash where another goes on with the slash. -/
def Unmixed (es : List IndexEntry) : Prop :=
  ∀ e ∈ es, ∀ f ∈ es, ∀ q r c t, e.path = q ++ '/' :: r → f.path = q ++ c :: t → ¬c < '/'

theorem Unmixed.group (h : Unmixed es) (hg : Grouped es gs) (hmem : g ∈ gs) : Unmixed g.2 := by
  intro e' he' f' hf' q r c t hpath hpath'
  obtain ⟨e, he, hee⟩ := List.mem_filterMap.mp ((hg.perm g hmem).mem_iff.mp he')
  obtain ⟨f, hf, hff⟩ := List.mem_filterMap.mp ((hg.perm g hmem).mem_iff.mp hf')
  obtain ⟨x, -, hx, -, rfl⟩ := below_some hee
  obtain ⟨y, -, hy, -, rfl⟩ := below_some hff
  obtain rfl : x = q ++ '/' :: r := hpath
  obtain rfl : y = q ++ c :: t := hpath'
  exact h e he f hf (g.1 ++ '/' :: q) r c t (by simp [hx]) (by simp [hy])

theorem unmixed_top (h : Indexed es) (hash : Group → Hash) :
    (∀ a ∈ entriesat hash es, ∀ b ∈ entriesat hash es, ¬Clash a b) ↔
      ∀ e ∈ es, ∀ f ∈ es, ∀ q r c t, '/' ∉ q → e.path = q ++ '/' :: r →
        f.path = q ++ c :: t → ¬c < '/' := by
  have hg := grouped_levelof es
  constructor
  · intro hno e he f hf q r c t hq hpath hpath' hc
    have hclean := (h.entry e he).1
    rw [hpath, clean_cut hq] at hclean
    obtain ⟨g, hmem, rfl, -⟩ := hg.group he hq hpath hclean.2.ne_nil
    have ha : (⟨DIRMODE, g.1, hash g⟩ : TreeEntry) ∈ entriesat hash es :=
      (mem_entriesat h).mpr (.inr ⟨g, hmem, rfl⟩)
    have hcs : c ≠ '/' := by
      rintro rfl
      exact lt_irrefl _ hc
    rcases splitpath_cases f.path with ⟨hs, -⟩ | ⟨x, y, hx, hxy, -⟩
    · exact hno _ ha _ ((mem_entriesat h).mpr (.inl ⟨f, hf, hs, rfl⟩)) ⟨rfl, c, t, hpath', hc⟩
    · -- the first component of the other path goes on from the directory's name
      have hclean' := (h.entry f hf).1
      rw [hxy, clean_cut hx] at hclean'
      obtain ⟨k, hk, rfl, -⟩ := hg.group hf hx hxy hclean'.2.ne_nil
      have hall : ∀ z ∈ g.1, decide (z ≠ '/') = true := fun z hz => by
        simpa using fun heq : z = '/' => hq (heq ▸ hz)
      have hname : k.1 = g.1 ++ c :: t.takeWhile (· ≠ '/') := by
        rw [← (cut_eq hx y).2, ← hxy, hpath', List.takeWhile_append_of_pos hall,
          List.takeWhile_cons_of_pos (by simpa using hcs)]
      exact hno _ ha _ ((mem_entriesat h).mpr (.inr ⟨k, hk, rfl⟩)) ⟨rfl, c, _, hname, hc⟩
  · rintro htop a ha b hb ⟨hdir, c, t, hname, hc⟩
    rcases (mem_entriesat h).mp ha with ⟨e, he, -, rfl⟩ | ⟨g, hmem, rfl⟩
    · exact (h.entry e he).2.2.1 hdir
    · obtain ⟨hd, e, he, r, hpath, -⟩ := hg.slash hmem
      rcases (mem_entriesat h).mp hb with ⟨f, hf, -, rfl⟩ | ⟨k, hk, rfl⟩
      · exact htop e he f hf g.1 r c t hd hpath hname hc
      · obtain ⟨-, f, hf, r', hpath', -⟩ := hg.slash hk
        refine htop e he f hf g.1 r c (t ++ '/' :: r') hd hpath ?_ hc
        rw [hpath', show k.1 = g.1 ++ c :: t from hname]
        simp

theorem unmixed_iff (es : List IndexEntry) : Unmixed es ↔
    (∀ e ∈ es, ∀ f ∈ es, ∀ q r c t, '/' ∉ q → e.path = q ++ '/' :: r →
      f.path = q ++ c :: t → ¬c < '/') ∧ ∀ g ∈ (levelof es).2, Unmixed g.2 := by
  have hg := grouped_levelof es
  constructor
  · exact fun hu => ⟨fun e he f hf q r c t _ => hu e he f hf q r c t,
      fun g hmem => hu.group hg hmem⟩
  · rintro ⟨htop, hgroups⟩ e he f hf q r c t hpath hpath' hc
    rcases splitpath_cases q with ⟨hq, -⟩ | ⟨d, q', hd, rfl, -⟩
    · exact htop e he f hf q r c t hq hpath hpath' hc
    · have hpe : e.path = d ++ '/' :: (q' ++ '/' :: r) := by simp [hpath]
      have hpf : f.path = d ++ '/' :: (q' ++ c :: t) := by simp [hpath']
      obtain ⟨g, hmem, rfl, hin⟩ := hg.group he hd hpe (by simp)
      obtain ⟨k, hk, hkname, hin'⟩ := hg.group hf hd hpf (by simp)
      obtain rfl : k = g := List.inj_on_of_nodup_map hg.names hk hmem hkname
      exact hgroups k hmem _ hin _ hin' q' r c t rfl rfl hc

theorem treesby_succ (sort : List TreeEntry → List TreeEntry) (hashobj : ℕ → List UInt8 → Hash)
    (n : ℕ) (es : List IndexEntry) :
    treesby sort hashobj (n + 1) es =
      (hashobj OBJ_TREE
          (encodetree (sort (entriesat (fun g => (treesby sort hashobj n g.2).1) es))),
        (levelof es).2.flatMap (fun g => (treesby sort hashobj n g.2).2) ++
          [encodetree (sort (entriesat (fun g => (treesby sort hashobj n g.2).1) es))]) := by
  simp only [treesby, entriesat, List.map_map, List.flatMap_map]
  rfl

theorem entriesat_congr {hash hash' : Group → Hash}
    (h : ∀ g ∈ (levelof es).2, hash g = hash' g) : entriesat hash es = entriesat hash' es := by
  have hmap : (levelof es).2.map (fun g => (⟨DIRMODE, g.1, hash g⟩ : TreeEntry)) =
      (levelof es).2.map fun g => ⟨DIRMODE, g.1, hash' g⟩ :=
    List.map_congr_left fun g hg => by rw [h g hg]
  rw [entriesat, entriesat, hmap]

theorem treesby_length (sort sort' : List TreeEntry → List TreeEntry)
    (hashobj : ℕ → List UInt8 → Hash) (n : ℕ) (es : List IndexEntry) :
    (treesby sort hashobj n es).2.length = (treesby sort' hashobj n es).2.length := by
  induction n generalizing es with
  | zero => rfl
  | succ n ih =>
    rw [treesby_succ, treesby_succ]
    simp only [List.length_append, List.length_flatMap, List.length_singleton, ih]

theorem flatMap_inj {α β : Type} {l : List α} {f f' : α → List β}
    (hlen : ∀ a ∈ l, (f a).length = (f' a).length) (h : l.flatMap f = l.flatMap f') :
    ∀ a ∈ l, f a = f' a := by
  induction l with
  | nil => simp
  | cons a l ih =>
    rw [List.flatMap_cons, List.flatMap_cons] at h
    obtain ⟨hhead, htail⟩ := List.append_inj h (hlen a (by simp))
    intro b hb
    rcases List.mem_cons.mp hb with rfl | hb
    · exact hhead
    · exact ih (fun x hx => hlen x (by simp [hx])) htail b hb

theorem Grouped.shorter (hg : Grouped es gs) (hmem : g ∈ gs)
    (hn : ∀ e ∈ es, e.path.length < n + 1) : ∀ f ∈ g.2, f.path.length < n := by
  intro f hf
  obtain ⟨e, he, hef⟩ := List.mem_filterMap.mp ((hg.perm g hmem).mem_iff.mp hf)
  obtain ⟨r, -, hpath, -, rfl⟩ := below_some hef
  have := hn e he
  rw [hpath, List.length_append, List.length_cons] at this
  change r.length < n
  omega

theorem treesby_git (hashobj : ℕ → List UInt8 → Hash) (n : ℕ) (h : Indexed es)
    (hn : ∀ e ∈ es, e.path.length < n) :
    ((treesby sorttreeentries hashobj n es).2 = (treesby gitsort hashobj n es).2 ↔ Unmixed es) ∧
      (Unmixed es → treesby sorttreeentries hashobj n es = treesby gitsort hashobj n es) := by
  induction n generalizing es with
  | zero =>
    obtain rfl : es = [] := List.eq_nil_iff_forall_not_mem.mpr fun e he => by
      have := hn e he
      omega
    exact ⟨⟨fun _ => by simp [Unmixed], fun _ => rfl⟩, fun _ => rfl⟩
  | succ n ih =>
    have hg := grouped_levelof es
    have hgroup : ∀ g ∈ (levelof es).2,
        ((treesby sorttreeentries hashobj n g.2).2 = (treesby gitsort hashobj n g.2).2 ↔
          Unmixed g.2) ∧
        (Unmixed g.2 →
          treesby sorttreeentries hashobj n g.2 = treesby gitsort hashobj n g.2) :=
      fun g hmem => ih (hg.indexed h hmem) (hg.shorter hmem hn)
    have hlevel : ∀ hash : Group → Hash, sorttreeentries (entriesat hash es) =
        gitsort (entriesat hash es) ↔ ∀ e ∈ es, ∀ f ∈ es, ∀ q r c t, '/' ∉ q →
          e.path = q ++ '/' :: r → f.path = q ++ c :: t → ¬c < '/' := fun hash =>
      (gitsort_eq_iff (entriesat_names h hash) fun e he => (entriesat_entry h he).2).trans
        (unmixed_top h hash)
    have hall : Unmixed es →
        treesby sorttreeentries hashobj (n + 1) es = treesby gitsort hashobj (n + 1) es := by
      intro hu
      obtain ⟨htop, hgroups⟩ := (unmixed_iff es).mp hu
      have hsub : ∀ g ∈ (levelof es).2,
          treesby sorttreeentries hashobj n g.2 = treesby gitsort hashobj n g.2 :=
        fun g hmem => (hgroup g hmem).2 (hgroups g hmem)
      have hentries : entriesat (fun g => (treesby sorttreeentries hashobj n g.2).1) es =
          entriesat (fun g => (treesby gitsort hashobj n g.2).1) es :=
        entriesat_congr fun g hmem => by rw [hsub g hmem]
      have hflat : (levelof es).2.flatMap (fun g => (treesby sorttreeentries hashobj n g.2).2) =
          (levelof es).2.flatMap fun g => (treesby gitsort hashobj n g.2).2 :=
        List.flatMap_congr fun g hmem => by rw [hsub g hmem]
      rw [treesby_succ, treesby_succ, hflat, hentries, (hlevel _).mpr htop]
    refine ⟨⟨fun heq => ?_, fun hu => by rw [hall hu]⟩, hall⟩
    rw [treesby_succ, treesby_succ] at heq
    obtain ⟨hflat, hlast⟩ := List.append_inj' heq rfl
    have hsub := flatMap_inj (fun g _ => treesby_length _ _ _ _ _) hflat
    have hgroups : ∀ g ∈ (levelof es).2, Unmixed g.2 := fun g hmem =>
      (hgroup g hmem).1.mp (hsub g hmem)
    have hentries : entriesat (fun g => (treesby sorttreeentries hashobj n g.2).1) es =
        entriesat (fun g => (treesby gitsort hashobj n g.2).1) es :=
      entriesat_congr fun g hmem => by rw [(hgroup g hmem).2 (hgroups g hmem)]
    refine (unmixed_iff es).mpr
      ⟨(hlevel fun g => (treesby sorttreeentries hashobj n g.2).1).mp ?_, hgroups⟩
    -- both orders are read back from the same bytes
    have hdata := List.cons.inj hlast
    rw [← hentries] at hdata
    have hread := congrArg parsetree hdata.1
    rw [parsetree_encodetree fun e he =>
        (entriesat_entry h ((sorttreeentries_perm _).mem_iff.mp he)).1,
      parsetree_encodetree fun e he => (entriesat_entry h ((gitsort_perm _).mem_iff.mp he)).1]
      at hread
    exact Except.ok.inj hread

end Infernode.Git
