import Infernode.Delegate.Child

/-!
# What a request comes to

The tools of an accepted request are budget tools or baseline tools that are active, and
its grants are those it names, each within a grant of the server and none with more than
the server has at that path. The child that `init` starts has exactly these.
-/

namespace Infernode.Delegate

open Limbo Veltro.Grant
open Tools (toolnames)

variable {tree : Tree} {S C : Server} {args : Str}

def Server.Hands (S : Server) (t : Str) : Prop :=
  t ∈ S.budget ∨ t ∈ basics ∧ (S.reg.findtool t).isSome

theorem lower_of_validtooltoken {t : Str} (h : validtooltoken t = true) : asciilower t = t := by
  simp only [validtooltoken, Bool.and_eq_true, List.all_eq_true] at h
  refine List.map_congr_left (fun c hc => ?_) |>.trans (List.map_id t)
  have hvalid := h.2 c hc
  rw [asciilowerchar, if_neg, id]
  rintro ⟨hA, hZ⟩
  have hA' : 65 ≤ c.toNat := hA
  have hZ' : c.toNat ≤ 90 := hZ
  have hrange : ¬('a' ≤ c ∧ c ≤ 'z') := fun ha => absurd (show 97 ≤ c.toNat from ha.1) (by omega)
  have hdigit : ¬('0' ≤ c ∧ c ≤ '9') := fun hd => absurd (show c.toNat ≤ 57 from hd.2) (by omega)
  have hne (d : Char) (hd : d.toNat < 65 ∨ 90 < d.toNat) : c ≠ d := by
    rintro rfl
    omega
  simp [validtoolchar, isdigit, hne '-' (by decide), hne '_' (by decide),
    hne '.' (by decide)] at hvalid
  exact hvalid.elim (fun h => hrange h) (fun h => hdigit h)

theorem toolavailable_known {t : Str} (h : S.toolavailable t = true) :
    asciilower t ∈ toolnames := by
  rw [Server.toolavailable, Bool.or_eq_true, Option.isSome_iff_exists, Option.isSome_iff_exists] at h
  refine S.known.known.subset ?_
  rcases h with ⟨ti, h⟩ | ⟨ti, h⟩
  · obtain ⟨hmem, hname⟩ := Tools.findin_some h
    exact List.mem_append_left _ (hname ▸ List.mem_map_of_mem hmem)
  · obtain ⟨hmem, hname⟩ := Tools.findin_some h
    exact List.mem_append_right _ (hname ▸ List.mem_map_of_mem hmem)

theorem parsetools_ok {ttoks acc toollist : List Str}
    (h : S.parsetools ttoks acc = .ok toollist) :
    ∀ t ∈ toollist, t ∈ acc ∨ t ∈ S.budget ∧ t ∈ toolnames := by
  induction ttoks generalizing acc with
  | nil =>
    rw [Server.parsetools, Except.ok.injEq] at h
    exact fun t ht => .inl (h ▸ ht)
  | cons tname ttoks ih =>
    rw [Server.parsetools] at h
    split_ifs at h with hvalid hdenied
    intro t ht
    rcases ih h t ht with hmem | hnew
    · rcases List.mem_cons.mp hmem with rfl | hmem
      · simp only [Bool.not_eq_false, Bool.not_eq_true', Bool.or_eq_true,
          not_or] at hvalid hdenied
        have hbudget := (inlist_iff _ _).mp hdenied.1
        rw [Server.childbudget, List.mem_reverse, List.mem_filter] at hbudget
        refine .inr ⟨hbudget.1, ?_⟩
        exact lower_of_validtooltoken hvalid ▸ toolavailable_known hdenied.2
      · exact .inl hmem
    · exact .inr hnew

theorem addbasics_mem {bls acc : List Str} (hbls : ∀ b ∈ bls, b ∈ basics) :
    ∀ t ∈ S.addbasics bls acc, t ∈ acc ∨ t ∈ basics ∧ (S.reg.findtool t).isSome := by
  induction bls generalizing acc with
  | nil => exact fun t ht => .inl ht
  | cons bl bls ih =>
    intro t ht
    rw [Server.addbasics] at ht
    rcases ih (fun b hb => hbls b (by simp [hb])) t ht with hmem | hnew
    · split_ifs at hmem with hadd
      · rcases List.mem_cons.mp hmem with rfl | hmem
        · exact .inr ⟨hbls t (by simp), (Bool.and_eq_true _ _ ▸ hadd).1⟩
        · exact .inl hmem
      · exact .inl hmem
    · exact .inr hnew

theorem mem_addbasics {bls acc : List Str} {t : Str}
    (h : t ∈ acc ∨ t ∈ bls ∧ (S.reg.findtool t).isSome) : t ∈ S.addbasics bls acc := by
  induction bls generalizing acc with
  | nil => exact h.resolve_right (by simp)
  | cons bl bls ih =>
    rw [Server.addbasics]
    refine ih ?_
    rcases h with hacc | ⟨hmem, hactive⟩
    · left
      split_ifs
      · exact List.mem_cons_of_mem _ hacc
      · exact hacc
    · rcases List.mem_cons.mp hmem with rfl | hmem
      · left
        split_ifs with hadd
        · exact List.mem_cons_self
        · simpa [hactive, inlist_iff] using hadd
      · exact .inr ⟨hmem, hactive⟩

theorem toollist_ok {ttoks toollist : List Str} (h : S.parsetools ttoks [] = .ok toollist) :
    ∀ t ∈ S.addbasics basics toollist, S.Hands t ∧ t ∈ toolnames := by
  intro t ht
  rcases addbasics_mem (fun b hb => hb) t ht with hmem | hbasic
  · rcases parsetools_ok h t hmem with hnil | ⟨hbudget, hname⟩
    · simp at hnil
    · exact ⟨.inl hbudget, hname⟩
  · refine ⟨.inr hbasic, ?_⟩
    have hall : ∀ t ∈ basics, t ∈ toolnames := by decide
    exact hall t hbasic.1

theorem parsepaths_ok {ptoks : List Str} {acc caps : List BoundPath}
    (h : S.parsepaths tree ptoks acc = .ok caps) :
    caps = ((ptoks.filterMap asked).map (capped S.boundpaths)).reverse ++ acc ∧
      ∀ b ∈ ptoks.filterMap asked,
        Grantable b.path ∧ S.childpathallowed tree b.path = true := by
  induction ptoks generalizing acc with
  | nil =>
    rw [Server.parsepaths, Except.ok.injEq] at h
    exact ⟨by simp [h], by simp⟩
  | cons raw ptoks ih =>
    rw [Server.parsepaths] at h
    split_ifs at h with hraw
    split at h
    · cases h
    · rename_i hvalid
      split at h
      · rename_i hskip
        rw [List.filterMap_cons_none hskip]
        exact ih h
      · rename_i b hask
        split_ifs at h with hallowed
        obtain ⟨hcaps, hall⟩ := ih h
        have hb : (splitpathperm raw).1 = b.path ∧ within scratch b.path = false := by
          rw [asked] at hask
          split_ifs at hask with hscratch
          simp only [Option.some.injEq] at hask
          subst hask
          exact ⟨rfl, by simpa using hscratch⟩
        have hallow : S.childpathallowed tree b.path = true := by simpa using hallowed
        have hgrant : Grantable b.path := by
          refine ⟨hb.1 ▸ hvalid, ?_, ?_⟩
          · rw [Server.childpathallowed] at hallow
            split_ifs at hallow with hbind
            all_goals simpa [bindpathallowed] using hbind
          · intro heq
            rw [heq, within_self] at hb
            cases hb.2
        rw [List.filterMap_cons_some hask]
        refine ⟨by simp [hcaps], ?_⟩
        exact List.forall_mem_cons.mpr ⟨⟨hgrant, hallow⟩, hall⟩

def named (args : Str) : List BoundPath :=
  match tokenize args [' '] with
  | [] => []
  | _ :: toks =>
    match parseattrs toks ⟨[], [], false, false⟩ with
    | .error _ => []
    | .ok attrs => ((tokenize attrs.pathsarg [',']).filterMap asked).foldl addgrant []

theorem provisionparse_ok {child : Child} (h : S.provisionparse tree args = .ok child) :
    ∃ (id : ℕ) (toollist : List Str) (asks : List BoundPath),
      child = ⟨id, mountpoint id,
        childargs S.verbose id toollist (asks.map (capped S.boundpaths)).reverse⟩ ∧
      (∀ t ∈ toollist, S.Hands t ∧ t ∈ toolnames) ∧
      (∀ t ∈ basics, (S.reg.findtool t).isSome → t ∈ toollist) ∧
      (∀ b ∈ asks, Grantable b.path ∧ S.childpathallowed tree b.path = true) ∧
      named args = asks.foldl addgrant [] := by
  rw [Server.provisionparse] at h
  split at h
  · cases h
  rename_i idstr toks htoks
  split at h
  · cases h
  rename_i id hid
  split at h
  · cases h
  rename_i attrs hattrs
  split at h
  · cases h
  rename_i toollist htools
  split at h
  · cases h
  rename_i caps hcaps
  rw [Except.ok.injEq] at h
  obtain ⟨hcaps, hall⟩ := parsepaths_ok hcaps
  refine ⟨id, S.addbasics basics toollist, _, ?_, toollist_ok htools,
    fun t ht hactive => mem_addbasics (.inr ⟨ht, hactive⟩), hall, ?_⟩
  · rw [← h, hcaps, List.append_nil]
  · simp only [named, htoks, hattrs]

theorem findboundpath_isNone {bs : List BoundPath} {p : Str} :
    (findboundpath bs p).isNone ↔ ∀ b ∈ bs, b.path ≠ p := by
  simp [findboundpath]

@[simp] theorem capped_path (bs : List BoundPath) (b : BoundPath) :
    (capped bs b).path = b.path := by
  rw [capped]
  split_ifs <;> rfl

theorem addgrant_capped (bs acc : List BoundPath) (b : BoundPath) :
    addgrant (acc.map (capped bs)) (capped bs b) = (addgrant acc b).map (capped bs) := by
  have hsame : (findboundpath (acc.map (capped bs)) (capped bs b).path).isNone ↔
      (findboundpath acc b.path).isNone := by
    rw [findboundpath_isNone, findboundpath_isNone]
    simp
  rw [addgrant, addgrant]
  by_cases hnone : (findboundpath acc b.path).isNone
  · rw [if_pos hnone, if_pos (hsame.mpr hnone), List.map_cons]
  · rw [if_neg hnone, if_neg (fun h => hnone (hsame.mp h))]

theorem foldl_addgrant_capped (bs asks acc : List BoundPath) :
    (asks.map (capped bs)).foldl addgrant (acc.map (capped bs)) =
      (asks.foldl addgrant acc).map (capped bs) := by
  induction asks generalizing acc with
  | nil => rfl
  | cons b asks ih => rw [List.map_cons, List.foldl_cons, addgrant_capped, ih, List.foldl_cons]

theorem mem_foldl_addgrant {asks acc : List BoundPath} {b : BoundPath}
    (h : b ∈ asks.foldl addgrant acc) : b ∈ asks ∨ b ∈ acc := by
  induction asks generalizing acc with
  | nil => exact .inr h
  | cons c asks ih =>
    rcases ih h with hmem | hmem
    · exact .inl (by simp [hmem])
    · exact (mem_addgrant hmem).imp_left (fun h => by simp [h])

theorem nodup_addgrant {bs : List BoundPath} {b : BoundPath} (h : (bs.map BoundPath.path).Nodup) :
    ((addgrant bs b).map BoundPath.path).Nodup := by
  rw [addgrant]
  split_ifs with hnone
  · rw [List.map_cons, List.nodup_cons]
    refine ⟨?_, h⟩
    rw [List.mem_map]
    rintro ⟨c, hc, hpath⟩
    exact findboundpath_isNone.mp hnone c hc hpath
  · exact h

theorem nodup_foldl_addgrant (asks : List BoundPath) {acc : List BoundPath}
    (h : (acc.map BoundPath.path).Nodup) :
    ((asks.foldl addgrant acc).map BoundPath.path).Nodup := by
  induction asks generalizing acc with
  | nil => exact h
  | cons b asks ih => exact ih (nodup_addgrant h)

theorem named_nodup (args : Str) : ((named args).map BoundPath.path).Nodup := by
  rw [named]
  split
  · exact List.nodup_nil
  split
  · exact List.nodup_nil
  · exact nodup_foldl_addgrant _ List.nodup_nil

theorem toolnames_words {t : Str} (h : t ∈ toolnames) : t.head? ≠ some '-' := by
  have hall : ∀ t ∈ toolnames, t.head? ≠ some '-' := by decide
  exact hall t h

structure Given (tree : Tree) (S : Server) (args : Str) (C : Server) : Prop where
  tools : ∀ ti ∈ C.reg.tools, S.Hands ti.name
  budget : C.budget = []
  extpaths : C.extpaths = []
  boundpaths : C.boundpaths = (named args).map (capped S.boundpaths)
  allowed : ∀ b ∈ named args, Grantable b.path ∧ S.childpathallowed tree b.path = true

theorem initloop_names (loads : Str → Bool) (words : List Str) {qid : ℕ}
    {tools : List Tools.ToolInfo} :
    ∀ ti ∈ Tools.initloop loads words qid tools,
      ti ∈ tools ∨ ∃ w ∈ words, ti.name = asciilower w := by
  induction words generalizing qid tools with
  | nil => exact fun ti h => .inl h
  | cons w words ih =>
    intro ti hti
    rw [Tools.initloop] at hti
    split_ifs at hti
    · exact (ih ti hti).imp_right (.imp fun w' h => ⟨by simp [h.1], h.2⟩)
    · rcases ih ti hti with hmem | ⟨w', hw', h⟩
      · rcases List.mem_cons.mp hmem with rfl | hmem
        · exact .inr ⟨w, by simp, rfl⟩
        · exact .inl hmem
      · exact .inr ⟨w', by simp [hw'], h⟩
    · exact (ih ti hti).imp_right (.imp fun w' h => ⟨by simp [h.1], h.2⟩)

theorem inittools_names (loads : Str → Bool) (words : List Str) :
    ∀ ti ∈ (Tools.inittools loads words).tools, ∃ w ∈ words, ti.name = asciilower w := by
  intro ti hti
  rw [Tools.inittools, List.mem_reverse] at hti
  exact (initloop_names loads words ti hti).resolve_left (by simp)

theorem init_some {loads : Str → Bool} {argv words : List Str} {conf : Conf}
    (hget : getopts Conf.start ⟨[], argv.tail⟩ = some (conf, words))
    (h : init loads argv = some C) :
    C.reg = Tools.inittools loads words ∧ C.budget = conf.budget ∧
      C.extpaths = conf.extpaths ∧ C.boundpaths = conf.boundpaths := by
  rw [init] at h
  split at h
  · cases h
  · rename_i conf' words' hget'
    obtain ⟨rfl, rfl⟩ := Prod.mk.inj (Option.some.inj (hget.symm.trans hget'))
    split_ifs at h
    rw [Option.some.injEq] at h
    subst h
    exact ⟨rfl, rfl, rfl, rfl⟩

theorem capped_grantable (bs : List BoundPath) {asks : List BoundPath} (h : ∀ b ∈ asks, Grantable b.path) :
    ∀ b ∈ (asks.map (capped bs)).reverse, Grantable b.path := by
  intro b hb
  obtain ⟨b', hb', rfl⟩ := List.mem_map.mp (List.mem_reverse.mp hb)
  rw [capped_path]
  exact h b' hb'

theorem given {child : Child} {loads : Str → Bool}
    (hparse : S.provisionparse tree args = .ok child)
    (hinit : init loads child.rargs = some C) : Given tree S args C := by
  obtain ⟨id, toollist, asks, rfl, htools, -, hasks, hnamed⟩ := provisionparse_ok hparse
  obtain ⟨conf, hget, hbound, hext, hbudget⟩ := getopts_childargs S.verbose id
    (fun t ht => toolnames_words (htools t ht).2) (capped_grantable S.boundpaths fun b hb => (hasks b hb).1)
  obtain ⟨hreg, hCbudget, hCext, hCbound⟩ := init_some hget hinit
  refine ⟨?_, hCbudget.trans hbudget, hCext.trans hext, ?_, ?_⟩
  · intro ti hti
    rw [hreg] at hti
    obtain ⟨t, ht, hname⟩ := inittools_names loads _ ti hti
    obtain ⟨hhands, hknown⟩ := htools t (List.mem_reverse.mp ht)
    rwa [hname, Tools.toolnames_lower hknown]
  · rw [hCbound, hbound, List.reverse_reverse, hnamed]
    exact foldl_addgrant_capped S.boundpaths asks []
  · intro b hb
    rw [hnamed] at hb
    exact hasks b ((mem_foldl_addgrant hb).resolve_right (by simp))

theorem initloop_keeps {loads : Str → Bool} {words : List Str} {qid : ℕ}
    {tools : List Tools.ToolInfo} (h : tools ≠ []) :
    Tools.initloop loads words qid tools ≠ [] := by
  induction words generalizing qid tools with
  | nil => exact h
  | cons w words ih =>
    rw [Tools.initloop]
    split_ifs
    · exact ih h
    · exact ih (by simp)
    · exact ih h

theorem initloop_ne_nil {loads : Str → Bool} {words : List Str} {w : Str} (hw : w ∈ words)
    (hknown : w ∈ toolnames) {qid : ℕ} {tools : List Tools.ToolInfo} :
    Tools.initloop loads words qid tools ≠ [] := by
  induction words generalizing qid tools with
  | nil => simp at hw
  | cons w' words ih =>
    rw [Tools.initloop]
    rcases List.mem_cons.mp hw with rfl | hw
    · rw [Tools.toolnames_lower hknown]
      simp only [not_not.mpr hknown, if_false]
      split_ifs with hfound
      · refine initloop_keeps ?_
        rintro rfl
        simp [Tools.findin] at hfound
      · exact initloop_keeps (by simp)
    · split_ifs
      · exact ih hw
      · exact ih hw
      · exact ih hw

theorem init_starts {child : Child} (loads : Str → Bool)
    (hparse : S.provisionparse tree args = .ok child)
    (hbasic : ∃ t ∈ basics, (S.reg.findtool t).isSome) :
    ∃ C, init loads child.rargs = some C := by
  obtain ⟨id, toollist, asks, rfl, htools, hbasics, hasks, -⟩ := provisionparse_ok hparse
  obtain ⟨conf, hget, -⟩ := getopts_childargs S.verbose id
    (fun t ht => toolnames_words (htools t ht).2)
    (capped_grantable S.boundpaths fun b hb => (hasks b hb).1)
  obtain ⟨t, ht, hactive⟩ := hbasic
  have hmem : t ∈ toollist := hbasics t ht hactive
  have hwords : toollist.reverse ≠ [] := by
    rw [ne_eq, List.reverse_eq_nil_iff]
    rintro rfl
    simp at hmem
  have hstart : (Tools.inittools loads toollist.reverse).tools ≠ [] := by
    rw [Tools.inittools, ne_eq, List.reverse_eq_nil_iff]
    exact initloop_ne_nil (List.mem_reverse.mpr hmem) (htools t hmem).2
  rw [init, hget]
  simp only [if_neg hwords, if_neg hstart]
  exact ⟨_, rfl⟩

end Infernode.Delegate
