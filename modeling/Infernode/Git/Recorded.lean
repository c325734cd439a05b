import Infernode.Git.Trees

/-!
# The files of the trees that are written

Reading the trees of an index back gives its entries again, as long as no two objects that are
written, or that are there, have one hash.
-/

namespace Infernode.Git

open Limbo (Str lit string bytes)

variable {es l : List IndexEntry} {e f : IndexEntry} {te : TreeEntry} {gs : List Group}
  {g : Group} {d pre : Str} {n m : ℕ} {s : Store} {hashobj : ℕ → List UInt8 → Hash}
  {o o' : ℕ × List UInt8} {os : List (ℕ × List UInt8)}

def beneath (pre : Str) (e : IndexEntry) : IndexEntry := ⟨e.mode, e.hash, pre ++ e.path⟩

def fileunder (pre : Str) (te : TreeEntry) : IndexEntry := ⟨te.mode, te.hash, pre ++ te.name⟩

def within (pre : Str) (d : Str) : Str := pre ++ d ++ ['/']

theorem addtogroup_flatMap (hn : (gs.map Prod.fst).Nodup) (d : Str) (e : IndexEntry) (pre : Str) :
    ((addtogroup d e gs).flatMap fun g => g.2.map (beneath (within pre g.1))).Perm
      (beneath (within pre d) e :: gs.flatMap fun g => g.2.map (beneath (within pre g.1))) := by
  induction gs with
  | nil => exact .refl _
  | cons g gs ih =>
    obtain ⟨hhead, htail⟩ := List.nodup_cons.mp hn
    by_cases hd : g.1 = d
    · have hrest : (gs.map fun g => if g.1 = d then (g.1, e :: g.2) else g) = gs :=
        (List.map_congr_left fun k hk => if_neg fun hkd : k.1 = d =>
          hhead (hd.trans hkd.symm ▸ List.mem_map_of_mem hk)).trans (List.map_id gs)
      have hadd : addtogroup d e (g :: gs) = (g.1, e :: g.2) :: gs := by
        rw [addtogroup, if_pos ⟨g, by simp, hd⟩, List.map_cons, if_pos hd, hrest]
      rw [hadd, ← hd]
      exact .refl _
    · have hadd : addtogroup d e (g :: gs) = g :: addtogroup d e gs := by
        simp only [addtogroup, List.map_cons, if_neg hd]
        by_cases hex : ∃ k ∈ gs, k.1 = d
        · rw [if_pos hex, if_pos]
          obtain ⟨k, hk, hkd⟩ := hex
          exact ⟨k, by simp [hk], hkd⟩
        · rw [if_neg hex, if_neg]
          · rfl
          · rintro ⟨k, hk, hkd⟩
            rcases List.mem_cons.mp hk with rfl | hk
            · exact hd hkd
            · exact hex ⟨k, hk, hkd⟩
      rw [hadd, List.flatMap_cons, List.flatMap_cons]
      exact ((ih htail).append_left _).trans List.perm_middle

theorem levelof_perm (pre : Str) (h : ∀ e ∈ es, Clean e.path) :
    ((levelof es).1.map (fileunder pre) ++
      (levelof es).2.flatMap fun g => g.2.map (beneath (within pre g.1))).Perm
      (es.map (beneath pre)) := by
  induction es using List.reverseRecOn with
  | nil => exact .refl _
  | append_singleton es e ih =>
    have hih := ih fun f hf => h f (by simp [hf])
    have hclean := h e (by simp)
    rw [levelof_concat, addentry, List.map_append]
    refine .trans ?_ (List.perm_append_singleton _ _).symm
    rcases splitpath_cases e.path with ⟨-, hsplit⟩ | ⟨a, b, ha, hab, hsplit⟩
    · simp only [hsplit, ↓reduceIte, List.map_cons, List.cons_append]
      exact hih.cons _
    · rw [hab, clean_cut ha] at hclean
      simp only [hsplit, if_neg hclean.2.ne_nil]
      have hunder : beneath (within pre a) ⟨e.mode, e.hash, b⟩ = beneath pre e := by
        simp [beneath, within, hab]
      refine ((addtogroup_flatMap (grouped_levelof es).names a ⟨e.mode, e.hash, b⟩ pre).append_left
        _).trans (List.perm_middle.trans ?_)
      rw [hunder]
      exact hih.cons _

def Fresh (hashobj : ℕ → List UInt8 → Hash) (s : Store) (os : List (ℕ × List UInt8)) : Prop :=
  ∀ o ∈ os, (∀ o', s.loose (hashobj o.1 o.2) = some o' → o' = o) ∧
    ∀ o' ∈ os, hashobj o'.1 o'.2 = hashobj o.1 o.2 → o' = o

theorem writelooseobj_loose (hashobj : ℕ → List UInt8 → Hash) (s : Store) (o : ℕ × List UInt8)
    (h : Hash) : (writelooseobj hashobj s o).loose h =
      if h = hashobj o.1 o.2 then some ((s.loose h).getD o) else s.loose h := by
  rw [writelooseobj]
  cases hs : s.loose (hashobj o.1 o.2) with
  | some o' =>
    split_ifs with heq
    · simp [heq, hs]
    · rfl
  | none =>
    split_ifs with heq
    · simp [heq, hs]
    · exact Function.update_of_ne heq _ _

theorem Fresh.write (h : Fresh hashobj s (o :: os)) :
    Fresh hashobj (writelooseobj hashobj s o) os := by
  intro p hp
  refine ⟨fun o' ho' => ?_, fun o' ho' => (h p (by simp [hp])).2 o' (by simp [ho'])⟩
  rw [writelooseobj_loose] at ho'
  split_ifs at ho' with heq
  · cases hs : s.loose (hashobj p.1 p.2) with
    | none =>
      rw [hs] at ho'
      obtain rfl : o = o' := Option.some.inj ho'
      exact (h p (by simp [hp])).2 o (by simp) heq.symm
    | some q =>
      rw [hs] at ho'
      obtain rfl : q = o' := Option.some.inj ho'
      exact (h p (by simp [hp])).1 q hs
  · exact (h p (by simp [hp])).1 o' ho'

theorem writes_loose (h : Fresh hashobj s os) :
    (∀ k q, s.loose k = some q → (os.foldl (writelooseobj hashobj) s).loose k = some q) ∧
      ∀ o ∈ os, (os.foldl (writelooseobj hashobj) s).loose (hashobj o.1 o.2) = some o := by
  induction os generalizing s with
  | nil => exact ⟨fun _ _ h => h, by simp⟩
  | cons o os ih =>
    obtain ⟨hkeep, hthere⟩ := ih h.write
    have hstay : ∀ k q, s.loose k = some q →
        (writelooseobj hashobj s o).loose k = some q := fun k q hq => by
      rw [writelooseobj_loose, hq]
      split_ifs <;> rfl
    refine ⟨fun k q hq => hkeep k q (hstay k q hq), fun p hp => ?_⟩
    rcases List.mem_cons.mp hp with rfl | hp
    · refine hkeep _ _ ?_
      rw [writelooseobj_loose, if_pos rfl]
      cases hs : s.loose (hashobj p.1 p.2) with
      | none => rfl
      | some q => rw [(h p (by simp)).1 q hs]; rfl
    · exact hthere p hp

theorem readobj_writes (h : Fresh hashobj s os) (ho : o ∈ os) :
    (os.foldl (writelooseobj hashobj) s).readobj (hashobj o.1 o.2) = .ok o := by
  rw [Store.readobj, (writes_loose h).2 o ho]

theorem indexents_lists {sub : Hash → Str → List IndexEntry → Option (Except Str (List IndexEntry))}
    {ents : List TreeEntry} (out : TreeEntry → List IndexEntry)
    (h : ∀ te ∈ ents, if te.mode = DIRMODE then
      ∃ l, l.Perm (out te) ∧ ∀ acc, sub te.hash (within pre te.name) acc = some (.ok (l ++ acc))
      else out te = [fileunder pre te]) :
    ∃ l, l.Perm (ents.flatMap out) ∧
      ∀ acc, indexents sub pre ents acc = some (.ok (l ++ acc)) := by
  induction ents with
  | nil => exact ⟨[], .refl _, fun acc => rfl⟩
  | cons te ents ih =>
    obtain ⟨l, hl, hrest⟩ := ih fun te hte => h te (by simp [hte])
    have hte := h te (by simp)
    split_ifs at hte with hdir
    · obtain ⟨k, hk, hsub⟩ := hte
      refine ⟨l ++ k, ?_, fun acc => ?_⟩
      · rw [List.flatMap_cons]
        exact List.perm_append_comm.trans (hk.append hl)
      · simp only [indexents, if_pos hdir]
        rw [show pre ++ te.name ++ ['/'] = within pre te.name from rfl, hsub]
        simp [hrest]
    · refine ⟨l ++ [fileunder pre te], ?_, fun acc => ?_⟩
      · rw [List.flatMap_cons, hte]
        exact List.perm_append_comm.trans (hl.append_left _)
      · simp only [indexents, if_neg hdir]
        rw [hrest]
        simp [fileunder]

def listed (pre : Str) (es : List IndexEntry) (te : TreeEntry) : List IndexEntry :=
  if te.mode = DIRMODE then (es.filterMap (below te.name)).map (beneath (within pre te.name))
  else [fileunder pre te]

theorem entriesat_lists (h : Indexed es) (hash : Group → Hash) (pre : Str) :
    ((entriesat hash es).flatMap (listed pre es)).Perm (es.map (beneath pre)) := by
  refine .trans ?_ (levelof_perm pre fun e he => (h.entry e he).1)
  rw [entriesat, List.flatMap_append]
  refine .append ?_ ?_
  · have hfiles : ∀ te ∈ (levelof es).1, listed pre es te = [fileunder pre te] := by
      intro te hte
      rw [levelof_files, List.mem_reverse, List.mem_filterMap] at hte
      obtain ⟨e, he, hte⟩ := hte
      obtain ⟨-, rfl⟩ := asfile_some (h.entry e he).1 hte
      exact if_neg (h.entry e he).2.2.1
    rw [List.flatMap_congr hfiles, ← List.map_eq_flatMap]
  · refine ((List.reverse_perm _).flatMap_right _).trans ?_
    rw [List.flatMap_map]
    refine List.Perm.flatMap_left _ fun g hg => ?_
    rw [listed, if_pos rfl]
    exact (((grouped_levelof es).perm g hg).map _).symm

theorem treeindex_lists (h : Indexed es) (hpos : 0 < n) (hn : ∀ e ∈ es, e.path.length < n)
    (hm : n ≤ m) (hs : ∀ d ∈ (treesby sorttreeentries hashobj n es).2,
      s.readobj (hashobj OBJ_TREE d) = .ok (OBJ_TREE, d)) (pre : Str) :
    ∃ l, l.Perm (es.map (beneath pre)) ∧ ∀ acc,
      treeindex s m (treesby sorttreeentries hashobj n es).1 pre acc = some (.ok (l ++ acc)) := by
  induction n generalizing es m pre with
  | zero => exact absurd hpos (lt_irrefl 0)
  | succ n ih =>
    obtain ⟨m, rfl⟩ : ∃ k, m = k + 1 := ⟨m - 1, by omega⟩
    have hg := grouped_levelof es
    rw [treesby_succ] at hs ⊢
    set hash : Group → Hash := fun g => (treesby sorttreeentries hashobj n g.2).1 with hhash
    have hsorted := sorttreeentries_perm (entriesat hash es)
    have hparse : parsetree (encodetree (sorttreeentries (entriesat hash es))) =
        .ok (sorttreeentries (entriesat hash es)) :=
      parsetree_encodetree fun e he => (entriesat_entry h (hsorted.mem_iff.mp he)).1
    have hlevel : ∀ te ∈ sorttreeentries (entriesat hash es), if te.mode = DIRMODE then
        ∃ l, l.Perm (listed pre es te) ∧ ∀ acc,
          treeindex s m te.hash (within pre te.name) acc = some (.ok (l ++ acc))
        else listed pre es te = [fileunder pre te] := by
      intro te hte
      split_ifs with hdir
      · rcases (mem_entriesat h).mp (hsorted.mem_iff.mp hte) with ⟨e, he, -, rfl⟩ | ⟨g, hmem, rfl⟩
        · exact absurd hdir (h.entry e he).2.2.1
        · have hshort := hg.shorter hmem hn
          obtain ⟨f, hf⟩ := List.exists_mem_of_ne_nil _ (hg.used g hmem)
          have hflen := hshort f hf
          obtain ⟨l, hl, hread⟩ := ih (hg.indexed h hmem) (by omega) hshort (m := m) (by omega)
            (fun d hd => hs d (by
              simp only [List.mem_append, List.mem_flatMap]
              exact .inl ⟨g, hmem, hd⟩)) (within pre g.1)
          refine ⟨l, hl.trans ?_, hread⟩
          rw [listed, if_pos rfl]
          exact (hg.perm g hmem).map _
      · exact if_neg hdir
    obtain ⟨l, hl, hread⟩ := indexents_lists (listed pre es) hlevel
    have hall := (hl.trans (hsorted.flatMap_right _)).trans (entriesat_lists h hash pre)
    refine ⟨l, hall, fun acc => ?_⟩
    have hthere := hs _ (List.mem_append_right _ (List.mem_singleton.mpr rfl))
    simp only [treeindex, hthere, hparse, ne_eq, not_true_eq_false, ↓reduceIte]
    exact hread acc

end Infernode.Git
