import Infernode.Tools.Files

/-!
# What the registry keeps

Every known tool is active or in the pool, never both and never twice; the blocks of
active tools are aligned and apart; and a tool's result is its own. The list of the root
is what the root can be walked to.
-/

namespace Infernode.Tools

open Limbo

variable {r : Registry} {ti : ToolInfo} {name : Str}

structure Registry.Known (r : Registry) : Prop where
  known : (r.tools.map ToolInfo.name ++ r.alltools.map ToolInfo.name).Perm toolnames
  qids : (r.tools.map ToolInfo.qid).Nodup
  aligned : ∀ ti ∈ r.tools, ∃ k, ti.qid = Qtoolbase + k * TOOL_STRIDE
  own : ∀ ti ∈ r.tools ++ r.alltools, ∀ res ∈ ti.result, res.tool = ti.name

def Registry.Low (r : Registry) : Prop := ∀ ti ∈ r.tools, ti.qid + TOOL_STRIDE ≤ 2 ^ 16

theorem toolnames_nodup : toolnames.Nodup := by decide

theorem toolnames_lower (h : name ∈ toolnames) : asciilower name = name := by
  have hall : ∀ name ∈ toolnames, asciilower name = name := by decide
  exact hall name h

theorem findin_some {tools : List ToolInfo} (h : findin tools name = some ti) :
    ti ∈ tools ∧ ti.name = asciilower name :=
  ⟨List.mem_of_find?_eq_some h, by simpa using List.find?_some h⟩

theorem findin_none {tools : List ToolInfo} :
    findin tools name = none ↔ asciilower name ∉ tools.map ToolInfo.name := by
  rw [findin, List.find?_eq_none]
  simp

theorem findtoolbyqid_some {qid : ℕ} (h : r.findtoolbyqid qid = some ti) :
    Qtoolbase ≤ qid ∧ ti ∈ r.tools ∧ ti.qid = (toolqtype qid).1 := by
  rw [Registry.findtoolbyqid] at h
  split_ifs at h with hqid
  exact ⟨Nat.le_of_not_lt hqid, List.mem_of_find?_eq_some h, by simpa using List.find?_some h⟩

theorem findtoolbyqid_none {qid : ℕ} (h : r.findtoolbyqid qid = none) (hqid : Qtoolbase ≤ qid) :
    ∀ ti ∈ r.tools, ti.qid ≠ (toolqtype qid).1 := by
  rw [Registry.findtoolbyqid, if_neg (Nat.not_lt.mpr hqid)] at h
  simpa using h

theorem Registry.Known.name_mem (h : r.Known) (hti : ti ∈ r.tools) : ti.name ∈ toolnames :=
  h.known.subset (List.mem_append_left _ (List.mem_map_of_mem hti))

theorem Registry.Known.nodup (h : r.Known) :
    (r.tools.map ToolInfo.name ++ r.alltools.map ToolInfo.name).Nodup :=
  h.known.nodup_iff.mpr toolnames_nodup

theorem Registry.Known.findtool (h : r.Known) (hti : ti ∈ r.tools) :
    r.findtool ti.name = some ti := by
  have hlower := toolnames_lower (h.name_mem hti)
  cases hfind : r.findtool ti.name with
  | none =>
    rw [Registry.findtool, findin_none, hlower] at hfind
    exact absurd (List.mem_map_of_mem hti) hfind
  | some ti' =>
    obtain ⟨hmem, hname⟩ := findin_some hfind
    rw [hlower] at hname
    rw [List.inj_on_of_nodup_map (List.nodup_append.mp h.nodup).1 hmem hti hname]

theorem Registry.Known.findtoolbyqid (h : r.Known) (hti : ti ∈ r.tools) {qid : ℕ}
    (hqid : (toolqtype qid).1 = ti.qid) (hbase : Qtoolbase ≤ qid) :
    r.findtoolbyqid qid = some ti := by
  cases hfind : r.findtoolbyqid qid with
  | none => exact absurd hqid.symm (findtoolbyqid_none hfind hbase ti hti)
  | some ti' =>
    obtain ⟨-, hmem, hqid'⟩ := findtoolbyqid_some hfind
    rw [List.inj_on_of_nodup_map h.qids hmem hti (hqid'.trans hqid)]

theorem foldl_max (tools : List ToolInfo) (m : ℕ) :
    let m' := tools.foldl (fun maxqid ti => max maxqid ti.qid) m
    m ≤ m' ∧ (∀ ti ∈ tools, ti.qid ≤ m') ∧ (m' = m ∨ ∃ ti ∈ tools, m' = ti.qid) := by
  induction tools generalizing m with
  | nil => simp
  | cons ti tools ih =>
    obtain ⟨hle, hall, hmax⟩ := ih (max m ti.qid)
    refine ⟨(le_max_left _ _).trans hle, ?_, ?_⟩
    · intro t ht
      rcases List.mem_cons.mp ht with rfl | ht
      · exact (le_max_right _ _).trans hle
      · exact hall t ht
    · rcases hmax with hmax | ⟨t, ht, hmax⟩
      · rcases max_choice m ti.qid with hm | hm
        · exact .inl (hmax.trans hm)
        · exact .inr ⟨ti, List.mem_cons_self, hmax.trans hm⟩
      · exact .inr ⟨t, List.mem_cons_of_mem _ ht, hmax⟩

theorem lt_nextqid (hti : ti ∈ r.tools) : ti.qid < r.nextqid := by
  have hle := (foldl_max r.tools (Qtoolbase - TOOL_STRIDE)).2.1 ti hti
  rw [Registry.nextqid]
  exact Nat.lt_of_le_of_lt hle (Nat.lt_add_of_pos_right (by decide))

theorem Registry.Known.nextqid (h : r.Known) :
    ∃ k, r.nextqid = Qtoolbase + k * TOOL_STRIDE := by
  rcases (foldl_max r.tools (Qtoolbase - TOOL_STRIDE)).2.2 with hmax | ⟨ti, hti, hmax⟩
  · exact ⟨0, by rw [Registry.nextqid, hmax]; rfl⟩
  · obtain ⟨k, hk⟩ := h.aligned ti hti
    exact ⟨k + 1, by rw [Registry.nextqid, hmax, hk]; ring⟩

theorem Registry.Known.ctlremove (h : r.Known) (name : Str) : (r.ctlremove name).Known := by
  have hsub : ∀ t ∈ (r.ctlremove name).tools, t ∈ r.tools := by
    intro t ht
    simp only [Registry.ctlremove, List.mem_reverse, List.mem_filter] at ht
    exact ht.1
  have hsplit : (r.tools.filter (fun t => t.name ≠ asciilower name) ++
      r.tools.filter fun t => t.name = asciilower name).Perm r.tools := by
    refine List.perm_append_comm.trans ?_
    simpa using List.filter_append_perm (fun t => decide (t.name = asciilower name)) r.tools
  refine ⟨?_, ?_, fun t ht => h.aligned t (hsub t ht), ?_⟩
  · refine List.Perm.trans ?_ h.known
    simp only [Registry.ctlremove, List.map_append, List.map_reverse, List.map_map]
    rw [← List.append_assoc]
    refine List.Perm.append_right _ ?_
    refine ((List.reverse_perm _).append (List.reverse_perm _)).trans ?_
    exact List.map_append ▸ hsplit.map ToolInfo.name
  · simp only [Registry.ctlremove, List.map_reverse, List.nodup_reverse]
    exact h.qids.sublist (List.filter_sublist.map _)
  · intro t ht
    simp only [Registry.ctlremove, List.mem_append, List.mem_reverse, List.mem_filter,
      List.mem_map] at ht
    rcases ht with ⟨ht, -⟩ | ⟨t, ⟨ht, -⟩, rfl⟩ | ht
    · exact h.own t (List.mem_append_left _ ht)
    · exact h.own t (List.mem_append_left _ ht)
    · exact h.own t (List.mem_append_right _ ht)

def Registry.Activates (r : Registry) (name : Str) : Prop :=
  r.findtool (asciilower name) = none ∧
    ∃ ti, r.findalltool (asciilower name) = some ti ∧ ti.mod = true

theorem ctladd_cases (r : Registry) (name : Str) :
    (r.ctladd name).1 = r ∨ ∃ ti ∈ r.alltools, ti.name = asciilower name ∧ r.Activates name ∧
      (r.ctladd name).1 =
        { tools := { ti with qid := r.nextqid } :: r.tools
          alltools := (r.alltools.filter fun t => t.name ≠ ti.name).reverse
          vers := r.vers + 1 } := by
  rw [Registry.ctladd]
  by_cases hactive : (r.findtool (asciilower name)).isSome
  · exact .inl (by rw [if_pos hactive])
  rw [if_neg hactive]
  cases hfind : r.findalltool (asciilower name) with
  | none => exact .inl rfl
  | some ti =>
    obtain ⟨hmem, hname⟩ := findin_some hfind
    rw [asciilower_idem] at hname
    by_cases hmod : ti.mod = false
    · exact .inl (by simp [hmod])
    · refine .inr ⟨ti, hmem, hname, ⟨by simpa using hactive, ti, hfind, by simpa using hmod⟩, ?_⟩
      simp [hmod]

theorem Registry.Known.ctladd (h : r.Known) (name : Str) : (r.ctladd name).1.Known := by
  rcases ctladd_cases r name with hsame | ⟨ti, hti, -, -, hadd⟩
  · rw [hsame]
    exact h
  rw [hadd]
  obtain ⟨-, hpool, hapart⟩ := List.nodup_append.mp h.nodup
  have hinj := List.inj_on_of_nodup_map hpool
  have hsplit : (ti :: r.alltools.filter fun t => t.name ≠ ti.name).Perm r.alltools := by
    have hone : (r.alltools.filter fun t => t.name = ti.name) = [ti] := by
      have hnodup := (List.Nodup.of_map _ hpool).filter (fun t => decide (t.name = ti.name))
      refine List.perm_singleton.mp ((List.perm_ext_iff_of_nodup hnodup (by simp)).mpr ?_)
      intro t
      simp only [List.mem_filter, decide_eq_true_eq, List.mem_singleton]
      constructor
      · exact fun ht => hinj ht.1 hti ht.2
      · rintro rfl
        exact ⟨hti, rfl⟩
    have hperm := List.filter_append_perm (fun t => decide (t.name = ti.name)) r.alltools
    rw [hone] at hperm
    simpa using hperm
  refine ⟨?_, ?_, ?_, ?_⟩
  · refine List.Perm.trans ?_ h.known
    simp only [List.map_cons, List.map_reverse, List.cons_append]
    refine ((List.reverse_perm _).append_left _).cons _ |>.trans ?_
    refine List.perm_middle.symm.trans (List.Perm.append_left _ ?_)
    simpa using hsplit.map ToolInfo.name
  · simp only [List.map_cons, List.nodup_cons]
    refine ⟨fun hmem => ?_, h.qids⟩
    obtain ⟨t, ht, hqid⟩ := List.mem_map.mp hmem
    exact absurd hqid (lt_nextqid ht).ne
  · intro t ht
    rcases List.mem_cons.mp ht with rfl | ht
    · exact h.nextqid
    · exact h.aligned t ht
  · intro t ht
    simp only [List.cons_append, List.mem_cons, List.mem_append, List.mem_reverse,
      List.mem_filter] at ht
    rcases ht with rfl | ht | ⟨ht, -⟩
    · exact h.own ti (List.mem_append_right _ hti)
    · exact h.own t (List.mem_append_left _ ht)
    · exact h.own t (List.mem_append_right _ ht)

theorem Registry.Known.setresult (h : r.Known) (res : Result) :
    (r.setresult res.tool res).Known := by
  have hnames : ∀ tools : List ToolInfo, (tools.map fun ti : ToolInfo =>
      if ti.name = res.tool then { ti with result := some res } else ti).map ToolInfo.name =
        tools.map ToolInfo.name := by
    intro tools
    rw [List.map_map]
    refine List.map_congr_left (fun t _ => ?_)
    simp only [Function.comp]
    split_ifs <;> rfl
  have hqids : ∀ tools : List ToolInfo, (tools.map fun ti : ToolInfo =>
      if ti.name = res.tool then { ti with result := some res } else ti).map ToolInfo.qid =
        tools.map ToolInfo.qid := by
    intro tools
    rw [List.map_map]
    refine List.map_congr_left (fun t _ => ?_)
    simp only [Function.comp]
    split_ifs <;> rfl
  refine ⟨?_, ?_, ?_, ?_⟩
  · simp only [Registry.setresult, hnames]
    exact h.known
  · simp only [Registry.setresult, hqids]
    exact h.qids
  · intro t ht
    obtain ⟨t', ht', rfl⟩ := List.mem_map.mp ht
    obtain ⟨k, hk⟩ := h.aligned t' ht'
    refine ⟨k, ?_⟩
    split_ifs
    · exact hk
    · exact hk
  · intro t ht
    simp only [Registry.setresult, ← List.map_append] at ht
    obtain ⟨t', ht', rfl⟩ := List.mem_map.mp ht
    split_ifs with hname
    · intro res' hres
      obtain rfl : res = res' := by simpa using hres
      exact hname.symm
    · exact h.own t' ht'

structure Started (tools : List ToolInfo) (qid : ℕ) : Prop where
  names : (tools.map ToolInfo.name).Nodup
  known : ∀ ti ∈ tools, ti.name ∈ toolnames
  qids : tools.map ToolInfo.qid = (List.range tools.length).reverse.map
    fun k => Qtoolbase + k * TOOL_STRIDE
  qid : qid = Qtoolbase + tools.length * TOOL_STRIDE
  result : ∀ ti ∈ tools, ti.result = none

theorem initloop_started (loads : Str → Bool) (args : List Str) {qid : ℕ}
    {tools : List ToolInfo} (h : Started tools qid) :
    ∃ qid', Started (initloop loads args qid tools) qid' := by
  induction args generalizing qid tools with
  | nil => exact ⟨qid, h⟩
  | cons arg args ih =>
    rw [initloop]
    by_cases hknown : asciilower arg ∉ toolnames
    · simpa only [if_pos hknown] using ih h
    by_cases hactive : (findin tools (asciilower arg)).isSome
    · simpa only [if_neg hknown, if_pos hactive] using ih h
    simp only [if_neg hknown, if_neg hactive]
    refine ih ⟨?_, ?_, ?_, ?_, ?_⟩
    · rw [List.map_cons, List.nodup_cons]
      refine ⟨?_, h.names⟩
      have hnone : findin tools (asciilower arg) = none := by simpa using hactive
      rw [findin_none, asciilower_idem] at hnone
      exact hnone
    · intro ti hti
      rcases List.mem_cons.mp hti with rfl | hti
      · exact not_not.mp hknown
      · exact h.known ti hti
    · rw [List.map_cons, h.qids, List.length_cons, List.range_succ, List.reverse_append,
        List.map_append, h.qid]
      rfl
    · rw [h.qid, List.length_cons]
      ring
    · intro ti hti
      rcases List.mem_cons.mp hti with rfl | hti
      · rfl
      · exact h.result ti hti

theorem inittools_known (loads : Str → Bool) (args : List Str) :
    (inittools loads args).Known ∧ (inittools loads args).Low := by
  have hstart : Started [] Qtoolbase := ⟨List.nodup_nil, by simp, rfl, rfl, by simp⟩
  obtain ⟨qid, h⟩ := initloop_started loads args hstart
  generalize htools : (initloop loads args Qtoolbase []) = tools at h
  have hreg : inittools loads args =
      ⟨tools.reverse, ((toolnames.filter fun name => (findin tools.reverse name).isNone).map
        fun name => ⟨name, loads name, 0, none⟩).reverse, 0⟩ := by
    simp only [inittools, htools]
  have hsub : (tools.map ToolInfo.name) ⊆ toolnames := by
    intro name hname
    obtain ⟨ti, hti, rfl⟩ := List.mem_map.mp hname
    exact h.known ti hti
  have hqid : ∀ ti ∈ tools, ∃ k < tools.length, ti.qid = Qtoolbase + k * TOOL_STRIDE := by
    intro ti hti
    have hmem : ti.qid ∈ tools.map ToolInfo.qid := List.mem_map_of_mem hti
    rw [h.qids] at hmem
    obtain ⟨k, hk, hqid⟩ := List.mem_map.mp hmem
    exact ⟨k, by simpa using hk, hqid.symm⟩
  rw [hreg]
  refine ⟨⟨?_, ?_, ?_, ?_⟩, ?_⟩
  · have hin : ∀ name ∈ toolnames, (findin tools.reverse name).isNone =
        decide (name ∉ tools.map ToolInfo.name) := by
      intro name hname
      have hiff : findin tools.reverse name = none ↔ _ := findin_none
      rw [toolnames_lower hname, List.map_reverse, List.mem_reverse, ← Option.isNone_iff_eq_none]
        at hiff
      exact Bool.eq_iff_iff.mpr (by simpa using hiff)
    simp only [List.map_reverse, List.map_map]
    rw [List.filter_congr hin]
    refine ((List.reverse_perm _).append (List.reverse_perm _)).trans ?_
    have hid : ToolInfo.name ∘ (fun name => (⟨name, loads name, 0, none⟩ : ToolInfo)) = id := rfl
    rw [hid, List.map_id]
    refine (List.perm_ext_iff_of_nodup ?_ toolnames_nodup).mpr (fun name => ?_)
    · rw [List.nodup_append]
      refine ⟨h.names, toolnames_nodup.filter _, fun a ha b hb hab => ?_⟩
      have hnot : b ∉ tools.map ToolInfo.name := by simpa using (List.mem_filter.mp hb).2
      exact hnot (hab ▸ ha)
    · simp only [List.mem_append, List.mem_filter, decide_eq_true_eq]
      constructor
      · rintro (hname | hname)
        · exact hsub hname
        · exact hname.1
      · intro hname
        by_cases hmem : name ∈ tools.map ToolInfo.name
        · exact .inl hmem
        · exact .inr ⟨hname, hmem⟩
  · rw [List.map_reverse, List.nodup_reverse, h.qids]
    refine (List.nodup_reverse.mpr List.nodup_range).map (fun a b hab => ?_)
    simpa [TOOL_STRIDE] using hab
  · intro ti hti
    obtain ⟨k, -, hk⟩ := hqid ti (List.mem_reverse.mp hti)
    exact ⟨k, hk⟩
  · intro ti hti res hres
    simp only [List.mem_append, List.mem_reverse, List.mem_map] at hti
    rcases hti with hti | ⟨name, -, rfl⟩
    · rw [h.result ti hti] at hres
      exact absurd hres (by simp)
    · exact absurd hres (by simp)
  · intro ti hti
    obtain ⟨k, hk, hqid⟩ := hqid ti (List.mem_reverse.mp hti)
    have hlen := (List.subperm_of_subset h.names hsub).length_le
    rw [List.length_map] at hlen
    have hmax : toolnames.length = 43 := rfl
    rw [hqid, Qtoolbase, TOOL_STRIDE]
    omega

theorem sent_eq (i count k : ℕ) (ps : List ℕ) :
    sent i count k ps = (ps.drop (i - k)).take count := by
  induction ps generalizing i count k with
  | nil => simp [sent]
  | cons p ps ih =>
    rw [sent]
    by_cases hle : i ≤ k
    · have hzero : i - k = 0 := Nat.sub_eq_zero_of_le hle
      cases count with
      | zero => simp [ih]
      | succ count =>
        have hnext : i + 1 - (k + 1) = 0 := by omega
        rw [if_pos ⟨hle, count.succ_pos⟩, ih, hnext, hzero, Nat.add_sub_cancel]
        rfl
    · rw [if_neg (fun h => hle h.1), ih, show i - k = i - (k + 1) + 1 by omega,
        List.drop_succ_cons]

theorem toolqtype_add (k : ℕ) {off : ℕ} (hoff : off < TOOL_STRIDE) :
    toolqtype (Qtoolbase + k * TOOL_STRIDE + off) = (Qtoolbase + k * TOOL_STRIDE, off) := by
  simp only [TOOL_STRIDE] at hoff
  simp only [toolqtype, Qtoolbase, TOOL_STRIDE, Prod.mk.injEq]
  omega

theorem TYPE_eq {p : ℕ} (h : p < 2 ^ 16) : TYPE p = p := Nat.mod_eq_of_lt h

theorem fixedfiles_lookup {q : ℕ} (h : Qtoolbase ≤ q) : fixedfiles.lookup q = none := by
  rw [List.lookup_eq_none_iff]
  intro f hf
  have hbelow : ∀ f ∈ fixedfiles, f.1 < Qtoolbase := by decide
  simpa using (Nat.lt_of_lt_of_le (hbelow f hf) h).ne'

theorem Registry.Known.dirgen (h : r.Known) (hlow : r.Low) (hti : ti ∈ r.tools) {off : ℕ}
    (hoff : off < TOOL_STRIDE) :
    r.dirgen (ti.qid + off) = toolfile (ti.qid + off) r.vers ti off := by
  obtain ⟨k, hk⟩ := h.aligned ti hti
  have hbelow := hlow ti hti
  have hbase : Qtoolbase ≤ ti.qid + off := by omega
  have hparts := toolqtype_add k hoff
  rw [← hk] at hparts
  rw [Registry.dirgen, TYPE_eq (by omega), fixedfiles_lookup hbase,
    h.findtoolbyqid hti (by rw [hparts]) hbase, hparts]
  rfl

theorem rootfile_dirgen (r : Registry) {q : ℕ} (h : rootfiles.lookup name = some q) :
    q ∈ rootfiles.map Prod.snd ∧ ∃ d, r.dirgen q = some d ∧ d.name = name := by
  have hall : ∀ f ∈ rootfiles, (fixedfiles.lookup (TYPE f.2)).map Prod.fst = some f.1 := by decide
  obtain ⟨l, l', hl, -⟩ := List.lookup_eq_some_iff.mp h
  have hmem : (name, q) ∈ rootfiles := by simp [hl]
  obtain ⟨⟨_, isdir, perm⟩, hfile, rfl⟩ := Option.map_eq_some_iff.mp (hall _ hmem)
  exact ⟨List.mem_map_of_mem hmem, ⟨q, r.vers, isdir, _, perm⟩,
    by simp only [Registry.dirgen, hfile], rfl⟩

theorem provision_dirgen (r : Registry) :
    r.dirgen Qprovision = some ⟨Qprovision, r.vers, false, lit "provision", 0o644⟩ := rfl

theorem mem_rootlist {p : ℕ} : p ∈ r.rootlist ↔ p ∈ rootfiles.map Prod.snd ∨
    ((r.findtool (lit "task")).isSome ∧ p = Qprovision) ∨ p ∈ r.tools.map ToolInfo.qid := by
  have hperm : [Qtools, Qhelp, Qregistry, Qctl, Qpaths, Qbudget, Qactivity, Qmeta, Qgrantable,
      Qns, Qevent, Qview].Perm (rootfiles.map Prod.snd) := by decide
  rw [Registry.rootlist, List.mem_append, List.mem_append, hperm.mem_iff]
  split_ifs with htask
  · simp [htask, or_assoc]
  · simp [htask]

def Named (name : Str) : Prop :=
  name = lit ".." ∨ (rootfiles.lookup name).isSome ∨ name = lit "provision"

theorem toolnames_named (h : name ∈ toolnames) : ¬Named name := by
  have hall : ∀ name ∈ toolnames, ¬(name = lit ".." ∨ (rootfiles.lookup name).isSome ∨
      name = lit "provision") := by decide
  exact hall name h

theorem walk1_root (r : Registry) (name : Str) : r.walk1 Qroot name =
    match r.navwalk Qroot name with
    | .error e => .error e
    | .ok p =>
      match r.dirgen p with
      | none => .error .Enotfound
      | some d => .ok d := rfl

theorem navwalk_tool (hname : ¬Named name) : r.navwalk Qroot name =
    match r.findtool name with
    | none => .error .Enotfound
    | some ti => .ok ti.qid := by
  have hlookup : rootfiles.lookup name = none :=
    Option.not_isSome_iff_eq_none.mp (fun h => hname (.inr (.inl h)))
  have hroot : TYPE Qroot = Qroot := rfl
  have hdots : name ≠ lit ".." := fun h => hname (.inl h)
  have hprovision : name ≠ lit "provision" := fun h => hname (.inr (.inr h))
  cases hfind : r.findtool name with
  | none | some ti =>
    simp only [Registry.navwalk, if_pos hroot, if_neg hdots, hlookup, if_neg hprovision, hfind]

theorem navwalk_rootfile {q : ℕ} (h : rootfiles.lookup name = some q) :
    r.navwalk Qroot name = .ok q := by
  have hroot : TYPE Qroot = Qroot := rfl
  have hdots : name ≠ lit ".." := by
    rintro rfl
    have hnone : rootfiles.lookup (lit "..") = none := by decide
    rw [hnone] at h
    exact absurd h nofun
  simp only [Registry.navwalk, if_pos hroot, if_neg hdots, h]

theorem navwalk_provision : r.navwalk Qroot (lit "provision") =
    if (r.findtool (lit "task")).isNone then .error .Enotfound else .ok Qprovision := rfl

theorem walk1_ok {p : ℕ} {d : Dir} (hnav : r.navwalk Qroot name = .ok p)
    (hdir : r.dirgen p = some d) : r.walk1 Qroot name = .ok d := by
  rw [walk1_root, hnav]
  simp only [hdir]

theorem Registry.Known.root (h : r.Known) (hlow : r.Low) :
    (∀ name d, name ≠ lit ".." → r.walk1 Qroot name = .ok d →
      ∃ p ∈ r.rootlist, r.dirgen p = some d) ∧
    ∀ p ∈ r.rootlist, ∃ d, r.dirgen p = some d ∧ r.walk1 Qroot d.name = .ok d := by
  have hreach : ∀ name p, p ∈ r.rootlist → r.navwalk Qroot name = .ok p →
      ∀ d, r.walk1 Qroot name = .ok d → ∃ p ∈ r.rootlist, r.dirgen p = some d := by
    intro name p hp hnav d hwalk
    rw [walk1_root, hnav] at hwalk
    cases hdir : r.dirgen p with
    | none => simp [hdir] at hwalk
    | some d' => exact ⟨p, hp, by simpa [hdir] using hwalk⟩
  constructor
  · intro name d hdots hwalk
    cases hlookup : rootfiles.lookup name with
    | some q =>
      refine hreach name q (mem_rootlist.mpr (.inl ?_)) (navwalk_rootfile hlookup) d hwalk
      exact (rootfile_dirgen r hlookup).1
    | none =>
      by_cases hprovision : name = lit "provision"
      · subst hprovision
        cases htask : r.findtool (lit "task") with
        | none =>
          rw [walk1_root, navwalk_provision, htask] at hwalk
          exact absurd hwalk nofun
        | some ti =>
          refine hreach _ Qprovision (mem_rootlist.mpr (.inr (.inl ⟨by simp [htask], rfl⟩))) ?_ d
            hwalk
          rw [navwalk_provision, htask]
          rfl
      · have hnamed : ¬Named name := by
          rintro (h | h | h)
          · exact hdots h
          · simp [hlookup] at h
          · exact hprovision h
        have hnav := navwalk_tool (r := r) hnamed
        cases hfind : r.findtool name with
        | none =>
          rw [walk1_root, hnav, hfind] at hwalk
          exact absurd hwalk nofun
        | some ti =>
          rw [hfind] at hnav
          refine hreach name ti.qid (mem_rootlist.mpr (.inr (.inr ?_))) hnav d hwalk
          exact List.mem_map_of_mem (findin_some hfind).1
  · intro p hp
    rcases mem_rootlist.mp hp with hp | ⟨htask, rfl⟩ | hp
    · obtain ⟨⟨name, q⟩, hmem, rfl⟩ := List.mem_map.mp hp
      have hall : ∀ f ∈ rootfiles, rootfiles.lookup f.1 = some f.2 := by decide
      have hlookup := hall _ hmem
      obtain ⟨-, d, hdir, hname⟩ := rootfile_dirgen r hlookup
      exact ⟨d, hdir, walk1_ok (hname ▸ navwalk_rootfile hlookup) hdir⟩
    · refine ⟨_, provision_dirgen r, walk1_ok ?_ (provision_dirgen r)⟩
      rw [navwalk_provision, if_neg (by simpa [Option.isSome_iff_ne_none] using htask)]
    · obtain ⟨ti, hti, rfl⟩ := List.mem_map.mp hp
      have hdir : r.dirgen ti.qid = some ⟨ti.qid, r.vers, true, ti.name, 0o755⟩ :=
        h.dirgen hlow hti (show 0 < TOOL_STRIDE by decide)
      refine ⟨_, hdir, walk1_ok ?_ hdir⟩
      rw [navwalk_tool (toolnames_named (h.name_mem hti)), h.findtool hti]

end Infernode.Tools
