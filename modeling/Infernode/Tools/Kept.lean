import Infernode.Tools.Known

/-!
# A fid keeps its tool

A block of qids is given again once its tool is removed. As long as no fid of another
tool stands in it then, the blocks stay below what `TYPE` cuts off, and no directory of a
removed tool is read, every fid of a tool is served by that tool or not at all.
-/

namespace Infernode.Tools

open Lib Limbo

variable {r r' : Registry} {s : Server} {f : Fid} {ti : ToolInfo} {name : Str} {fid o : ℕ}

def Stands (r : Registry) (f : Fid) : Prop :=
  match f.tool with
  | none => f.path < Qtoolbase
  | some T => Qtoolbase ≤ f.path ∧ f.path < 2 ^ 16 ∧
      ∀ ti ∈ r.tools, ti.qid = (toolqtype f.path).1 → ti.name = T

theorem Stands.below (h : Stands r f) : f.path < 2 ^ 16 := by
  rw [Stands] at h
  split at h
  · exact h.trans (by decide)
  · exact h.2.1

theorem Stands.type (h : Stands r f) : TYPE f.path = f.path := TYPE_eq h.below

theorem Stands.tool (h : Stands r f) (hbase : Qtoolbase ≤ f.path) : ∃ T, f.tool = some T ∧
    ∀ ti ∈ r.tools, ti.qid = (toolqtype f.path).1 → ti.name = T := by
  rw [Stands] at h
  split at h
  next => exact absurd h (Nat.not_lt.mpr hbase)
  next T hT => exact ⟨T, hT, h.2.2⟩

theorem Stands.base (h : Stands r f) {T : Str} (hT : f.tool = some T) : Qtoolbase ≤ f.path := by
  rw [Stands, hT] at h
  exact h.1

theorem Stands.served (h : Stands r f) {T : Str} (hT : f.tool = some T)
    (hfind : r.findtoolbyqid (TYPE f.path) = some ti) : ti ∈ r.tools ∧ ti.name = T := by
  rw [h.type] at hfind
  obtain ⟨-, hmem, hqid⟩ := findtoolbyqid_some hfind
  rw [Stands, hT] at h
  exact ⟨hmem, h.2.2 ti hmem hqid⟩

theorem Stands.mono (h : Stands r f) (hsub : ∀ ti ∈ r'.tools, ti ∈ r.tools) : Stands r' f := by
  rw [Stands] at h ⊢
  split at h
  · exact h
  · exact ⟨h.1, h.2.1, fun ti hti hqid => h.2.2 ti (hsub ti hti) hqid⟩

theorem toolfile_path {p vers suboff : ℕ} {d : Dir} (h : toolfile p vers ti suboff = some d) :
    d.path = p := by
  rw [toolfile] at h
  split_ifs at h
  · rw [← Option.some.inj h]
  · obtain ⟨⟨_, _, _⟩, -, rfl⟩ := Option.map_eq_some_iff.mp h
    rfl

theorem dirgen_path {p : ℕ} {d : Dir} (h : r.dirgen p = some d) : d.path = p := by
  rw [Registry.dirgen] at h
  split at h
  · rw [← Option.some.inj h]
  · obtain ⟨ti, -, hfile⟩ := Option.bind_eq_some_iff.mp h
    exact toolfile_path hfile

theorem walk1_cases {path : ℕ} {d : Dir} (h : r.walk1 path name = .ok d) :
    (∃ d', r.dirgen path = some d') ∧ r.navwalk path name = .ok d.path := by
  rw [Registry.walk1] at h
  split at h
  · exact absurd h nofun
  next d' hdir =>
    split_ifs at h
    split at h
    · exact absurd h nofun
    next p hnav =>
      split at h
      · exact absurd h nofun
      next d'' hdir' =>
        obtain rfl := Except.ok.inj h
        rw [dirgen_path hdir', ← dirgen_path hdir]
        exact ⟨⟨d', by rw [dirgen_path hdir, hdir]⟩, hnav⟩

theorem rootfiles_below {q : ℕ} (h : rootfiles.lookup name = some q) :
    q < Qtoolbase ∧ q ≠ Qroot := by
  have hall : ∀ f ∈ rootfiles, f.2 < Qtoolbase ∧ f.2 ≠ Qroot := by decide
  obtain ⟨l, l', hl, -⟩ := List.lookup_eq_some_iff.mp h
  exact hall (name, q) (by simp [hl])

theorem metafiles_below {q : ℕ} (h : metafiles.lookup name = some q) :
    q < Qtoolbase ∧ q ≠ Qroot := by
  have hall : ∀ f ∈ metafiles, f.2 < Qtoolbase ∧ f.2 ≠ Qroot := by decide
  obtain ⟨l, l', hl, -⟩ := List.lookup_eq_some_iff.mp h
  exact hall (name, q) (by simp [hl])

theorem subfiles_small {q : ℕ} (h : subfiles.lookup name = some q) : q < TOOL_STRIDE := by
  have hall : ∀ f ∈ subfiles, f.2 < TOOL_STRIDE := by decide
  obtain ⟨l, l', hl, -⟩ := List.lookup_eq_some_iff.mp h
  exact hall (name, q) (by simp [hl])

theorem Registry.Known.stands (h : r.Known) (hlow : r.Low) (hti : ti ∈ r.tools) (f : Fid)
    {isdir : Bool} :
    Stands r { f with path := ti.qid, isdir := isdir, tool := some ti.name } := by
  obtain ⟨k, hk⟩ := h.aligned ti hti
  have hbelow := hlow ti hti
  have hparts := toolqtype_add k (show 0 < TOOL_STRIDE by decide)
  rw [Nat.add_zero, ← hk] at hparts
  refine ⟨by rw [hk]; exact Nat.le_add_right _ _, ?_, fun t ht hqid => ?_⟩
  · rw [TOOL_STRIDE] at hbelow
    dsimp only
    omega
  · rw [hparts] at hqid
    rw [List.inj_on_of_nodup_map h.qids ht hti hqid]

theorem stands_fixed {d : Dir} {T : Option Str} (hT : T = none) (hpath : d.path < Qtoolbase) :
    Stands r { f with path := d.path, isdir := d.isdir, tool := T } := by
  subst hT
  exact hpath

theorem dirgen_tool (hf : Stands r f) (hbase : Qtoolbase ≤ f.path) {d : Dir}
    (hdir : r.dirgen f.path = some d) : ∃ ti ∈ r.tools, ti.qid = (toolqtype f.path).1 := by
  rw [Registry.dirgen, hf.type, fixedfiles_lookup hbase] at hdir
  obtain ⟨ti, hfind, -⟩ := Option.bind_eq_some_iff.mp hdir
  obtain ⟨-, hmem, hqid⟩ := findtoolbyqid_some hfind
  exact ⟨ti, hmem, hqid⟩

theorem toolqtype_base {p : ℕ} (hbase : Qtoolbase ≤ p) (hoff : (toolqtype p).2 = Qtool_dir) :
    (toolqtype p).1 = p := by
  simp only [toolqtype, Qtoolbase, TOOL_STRIDE, Qtool_dir] at *
  omega

theorem walk1_stands (h : r.Known) (hlow : r.Low) (hf : Stands r f) {d : Dir}
    (hwalk : r.walk1 f.path name = .ok d) :
    Stands r { f with path := d.path, isdir := d.isdir, tool := walkedtool r f name d } := by
  obtain ⟨⟨d', hdir⟩, hnav⟩ := walk1_cases hwalk
  have hleave : f.path < Qtoolbase → f.tool = none := by
    intro hpath
    cases hT : f.tool with
    | none => rfl
    | some T => exact absurd (hf.base hT) (Nat.not_le.mpr hpath)
  rw [Registry.navwalk] at hnav
  rw [walkedtool]
  simp only [hf.type] at hnav ⊢
  by_cases hroot : f.path = Qroot
  · rw [if_pos hroot] at hnav ⊢
    by_cases hdots : name = lit ".."
    · rw [if_pos hdots] at hnav
      rw [if_pos (.inl hdots)]
      exact stands_fixed rfl (by rw [← Except.ok.inj hnav, hroot]; decide)
    rw [if_neg hdots] at hnav
    cases hlookup : rootfiles.lookup name with
    | some q =>
      rw [hlookup] at hnav
      rw [if_pos (.inr (.inl rfl))]
      exact stands_fixed rfl (by rw [← Except.ok.inj hnav]; exact (rootfiles_below hlookup).1)
    | none =>
      rw [hlookup] at hnav
      dsimp only at hnav
      by_cases hprovision : name = lit "provision"
      · rw [if_pos hprovision] at hnav
        split_ifs at hnav
        rw [if_pos (.inr (.inr hprovision))]
        exact stands_fixed rfl (by rw [← Except.ok.inj hnav]; decide)
      rw [if_neg hprovision] at hnav
      rw [if_neg (by simp [hdots, hprovision])]
      cases hfind : r.findtool name with
      | none =>
        rw [hfind] at hnav
        exact absurd hnav nofun
      | some ti =>
        rw [hfind] at hnav
        rw [← Except.ok.inj hnav]
        exact h.stands hlow (findin_some hfind).1 f
  rw [if_neg hroot] at hnav ⊢
  by_cases hmeta : f.path = Qmeta
  · have hnone : (if d.path = Qroot then none else f.tool) = none := by
      rw [hleave (by rw [hmeta]; decide), ite_self]
    refine stands_fixed hnone ?_
    rw [if_pos hmeta] at hnav
    by_cases hdots : name = lit ".."
    · rw [if_pos hdots] at hnav
      rw [← Except.ok.inj hnav]
      decide
    rw [if_neg hdots] at hnav
    cases hlookup : metafiles.lookup name with
    | none =>
      rw [hlookup] at hnav
      exact absurd hnav nofun
    | some q =>
      rw [hlookup] at hnav
      rw [← Except.ok.inj hnav]
      exact (metafiles_below hlookup).1
  rw [if_neg hmeta] at hnav
  split_ifs at hnav with hbase hsub hdots
  · obtain hpath := Except.ok.inj hnav
    exact stands_fixed (if_pos hpath.symm) (by rw [← hpath]; decide)
  cases hlookup : subfiles.lookup name with
  | none =>
    rw [hlookup] at hnav
    exact absurd hnav nofun
  | some off =>
    -- another file of the same block
    rw [hlookup] at hnav
    have hpath : f.path + off = d.path := Except.ok.inj hnav
    obtain ⟨T, hT, hown⟩ := hf.tool hbase
    obtain ⟨ti, hti, hqid⟩ := dirgen_tool hf hbase hdir
    have hlow := hlow ti hti
    obtain ⟨k, hk⟩ := h.aligned ti hti
    have hdot : f.path = ti.qid := by rw [hqid, toolqtype_base hbase (not_not.mp hsub)]
    have hparts := toolqtype_add k (subfiles_small hlookup)
    rw [← hk, ← hdot, hpath] at hparts
    have hoff := subfiles_small hlookup
    have hleft : d.path ≠ Qroot := by
      rw [← hpath, Qroot]
      rw [Qtoolbase] at hbase
      omega
    rw [if_neg hleft]
    refine (show Stands r { f with path := d.path, isdir := d.isdir } from ?_)
    rw [Stands, hT]
    refine ⟨hbase.le.trans (hpath ▸ Nat.le_add_right _ _), ?_, fun t ht hqid' => hown t ht ?_⟩
    · dsimp only
      omega
    · rw [hqid', hparts, ← hqid, hdot]

theorem walkfid_stands (h : r.Known) (hlow : r.Low) {names : List Str} {f f' : Fid}
    (hf : Stands r f) (hwalk : (r.walkfid f names).2 = .ok f') :
    Stands r f' ∧ f'.isopen = f.isopen ∧ f'.data = f.data := by
  induction names generalizing f with
  | nil =>
    obtain rfl := Except.ok.inj hwalk
    exact ⟨hf, rfl, rfl⟩
  | cons name names ih =>
    rw [Registry.walkfid] at hwalk
    cases hone : r.walk1 f.path name with
    | error e =>
      rw [hone] at hwalk
      exact absurd hwalk nofun
    | ok d =>
      rw [hone] at hwalk
      have hrest := ih (walk1_stands h hlow hf hone) hwalk
      exact hrest

structure Inv (s : Server) : Prop where
  known : s.reg.Known
  low : s.reg.Low
  live : ∀ fid o, s.fids fid = some o → o < s.next ∧ Stands s.reg (s.obj o)
  data : ∀ o < s.next, ∀ res ∈ (s.obj o).data,
    (s.obj o).tool = some res.tool ∧ (s.obj o).isopen = true
  calls : ∀ c ∈ s.calls, ∀ o ∈ c.fid,
    o < s.next ∧ (s.obj o).tool = some c.tool ∧ (s.obj o).isopen = true
  owed : s.owed = false
  hung : s.hung = false

theorem Inv.registry (h : Inv s) (hknown : r.Known) (hlow : r.Low)
    (hstands : ∀ fid f, s.fid fid = some f → Stands r f) : Inv { s with reg := r } := by
  refine ⟨hknown, hlow, fun fid o ho => ?_, h.data, h.calls, h.owed, h.hung⟩
  exact ⟨(h.live fid o ho).1, hstands fid _ (by rw [Server.fid, ho]; rfl)⟩

theorem Inv.setobj (h : Inv s) (hf : ∀ fid, s.fids fid = some o → Stands s.reg f)
    (hopen : (s.obj o).isopen = true → f.isopen = true ∧ f.tool = (s.obj o).tool)
    (hdata : ∀ res ∈ f.data, f.tool = some res.tool ∧ f.isopen = true) :
    Inv (s.setobj o f) := by
  refine ⟨h.known, h.low, fun fid o' ho' => ?_, fun o' ho' res hres => ?_,
    fun c hc o' ho' => ?_, h.owed, h.hung⟩
  · refine ⟨(h.live fid o' ho').1, ?_⟩
    simp only [Server.setobj, Function.update_apply]
    split_ifs with hsame
    · exact hf fid (hsame ▸ ho')
    · exact (h.live fid o' ho').2
  · simp only [Server.setobj, Function.update_apply] at hres ⊢
    split_ifs at hres ⊢
    · exact hdata res hres
    · exact h.data o' ho' res hres
  · obtain ⟨hlt, htool, hisopen⟩ := h.calls c hc o' ho'
    refine ⟨hlt, ?_⟩
    simp only [Server.setobj, Function.update_apply]
    split_ifs with hsame
    · subst hsame
      obtain ⟨hopen, hsame⟩ := hopen hisopen
      exact ⟨hsame.trans htool, hopen⟩
    · exact ⟨htool, hisopen⟩

theorem Inv.newfid (h : Inv s) (hf : Stands s.reg f)
    (hdata : ∀ res ∈ f.data, f.tool = some res.tool ∧ f.isopen = true) :
    Inv (s.newfid fid f) := by
  have hold : ∀ o < s.next, Function.update s.obj s.next f o = s.obj o :=
    fun o ho => Function.update_of_ne ho.ne _ _
  refine ⟨h.known, h.low, fun fid' o' ho' => ?_, fun o' ho' res hres => ?_,
    fun c hc o' ho' => ?_, h.owed, h.hung⟩
  · simp only [Server.newfid, Function.update_apply] at ho' ⊢
    split_ifs at ho' with hsame
    · obtain rfl := Option.some.inj ho'
      exact ⟨Nat.lt_succ_self _, by rw [if_pos rfl]; exact hf⟩
    · obtain ⟨hlt, hstands⟩ := h.live fid' o' ho'
      exact ⟨hlt.trans (Nat.lt_succ_self _), by rw [if_neg hlt.ne]; exact hstands⟩
  · rcases Nat.lt_succ_iff_lt_or_eq.mp ho' with ho' | rfl
    · simp only [Server.newfid, hold o' ho'] at hres ⊢
      exact h.data o' ho' res hres
    · simp only [Server.newfid, Function.update_self] at hres ⊢
      exact hdata res hres
  · obtain ⟨hlt, hcall⟩ := h.calls c hc o' ho'
    refine ⟨hlt.trans (Nat.lt_succ_self _), ?_⟩
    simp only [Server.newfid, hold o' hlt]
    exact hcall

theorem Inv.delfid (h : Inv s) (fid : ℕ) : Inv (s.delfid fid) := by
  refine ⟨h.known, h.low, fun fid' o ho => ?_, h.data, h.calls, h.owed, h.hung⟩
  simp only [Server.delfid, Function.update_apply] at ho
  split_ifs at ho
  exact h.live fid' o ho

theorem Inv.pending (h : Inv s) (pending : List (ℕ × List UInt8)) :
    Inv { s with pendingargs := pending } :=
  ⟨h.known, h.low, h.live, h.data, h.calls, h.owed, h.hung⟩

theorem Inv.begin (h : Inv s) {c : Call} (hc : ∀ o ∈ c.fid,
    o < s.next ∧ (s.obj o).tool = some c.tool ∧ (s.obj o).isopen = true) : Inv (s.begin c) := by
  refine ⟨h.known, h.low, h.live, h.data, fun c' hc' => ?_, h.owed, h.hung⟩
  rcases List.mem_append.mp hc' with hc' | hc'
  · exact h.calls c' hc'
  · obtain rfl := List.mem_singleton.mp hc'
    exact hc

theorem Inv.nav (h : Inv s) (k : Server × Answer) : s.nav k = k := by
  rw [Server.nav, h.owed, if_neg (by decide)]

theorem Inv.closed (h : Inv s) (ho : s.fids fid = some o) (hopen : (s.obj o).isopen = false) :
    (s.obj o).data = none := by
  cases hdata : (s.obj o).data with
  | none => rfl
  | some res =>
    have hisopen := (h.data o (h.live fid o ho).1 res hdata).2
    rw [hopen] at hisopen
    exact absurd hisopen (by decide)

/-- No fid of another tool stands in the block that the tool gets, and it is below what
`TYPE` cuts off. -/
def Server.Room (s : Server) (name : Str) : Prop :=
  s.reg.nextqid + TOOL_STRIDE ≤ 2 ^ 16 ∧
    ∀ fid f, s.fid fid = some f → Qtoolbase ≤ TYPE f.path →
      (toolqtype (TYPE f.path)).1 = s.reg.nextqid → f.tool = some (asciilower name)

/-- A tool that is added gets a block with room, and a directory that is read while it is
not past its files has its tool. -/
def Meets (s : Server) : Request → Prop
  | .write fid data => ∀ f, s.fid fid = some f → TYPE f.path = Qctl →
      ∀ name, dropnl (string data) = lit "add " ++ name → s.reg.Activates name → s.Room name
  | .read fid i count => ∀ f, s.fid fid = some f → f.isdir = true →
      Qtoolbase ≤ TYPE f.path → i < subfiles.length → 0 < count →
        (s.reg.findtoolbyqid (TYPE f.path)).isSome = true
  | _ => True

theorem Inv.ctladd (h : Inv s) (hroom : s.reg.Activates name → s.Room name) :
    Inv { s with reg := (s.reg.ctladd name).1 } := by
  have hknown := h.known.ctladd name
  rcases ctladd_cases s.reg name with hsame | ⟨ti, hti, hname, hact, hadd⟩
  · rw [hsame]
    exact h
  obtain ⟨hlow, hfree⟩ := hroom hact
  rw [hadd] at hknown ⊢
  refine h.registry hknown ?_ (fun fid f hf => ?_)
  · intro t ht
    rcases List.mem_cons.mp ht with rfl | ht
    · exact hlow
    · exact h.low t ht
  · obtain ⟨o, ho, rfl⟩ := Option.map_eq_some_iff.mp hf
    have hstands := (h.live fid o ho).2
    have htype := hstands.type
    cases hT : (s.obj o).tool with
    | none =>
      rw [Stands, hT] at hstands ⊢
      exact hstands
    | some T =>
      have hbase := hstands.base hT
      rw [Stands, hT] at hstands ⊢
      refine ⟨hstands.1, hstands.2.1, fun t ht hqid => ?_⟩
      rcases List.mem_cons.mp ht with rfl | ht
      · have hsame := hfree fid _ hf (by rw [htype]; exact hbase)
          (by rw [htype]; exact hqid.symm)
        rw [hT] at hsame
        exact hname.trans (Option.some.inj hsame).symm
      · exact hstands.2.2 t ht hqid

theorem Inv.ctlremove (h : Inv s) (name : Str) : Inv { s with reg := s.reg.ctlremove name } := by
  have hsub : ∀ t ∈ (s.reg.ctlremove name).tools, t ∈ s.reg.tools := by
    intro t ht
    simp only [Registry.ctlremove, List.mem_reverse, List.mem_filter] at ht
    exact ht.1
  refine h.registry (h.known.ctlremove name) (fun t ht => h.low t (hsub t ht)) ?_
  intro fid f hf
  obtain ⟨o, ho, rfl⟩ := Option.map_eq_some_iff.mp hf
  exact (h.live fid o ho).2.mono hsub

theorem Inv.setresult (h : Inv s) (res : Result) :
    Inv { s with reg := s.reg.setresult res.tool res } := by
  have hsame : ∀ t ∈ (s.reg.setresult res.tool res).tools,
      ∃ t' ∈ s.reg.tools, t.name = t'.name ∧ t.qid = t'.qid := by
    intro t ht
    obtain ⟨t', ht', rfl⟩ := List.mem_map.mp ht
    refine ⟨t', ht', ?_⟩
    split_ifs
    · exact ⟨rfl, rfl⟩
    · exact ⟨rfl, rfl⟩
  refine h.registry (h.known.setresult res) ?_ ?_
  · intro t ht
    obtain ⟨t', ht', -, hqid⟩ := hsame t ht
    rw [hqid]
    exact h.low t' ht'
  · intro fid f hf
    obtain ⟨o, ho, rfl⟩ := Option.map_eq_some_iff.mp hf
    have hstands := (h.live fid o ho).2
    rw [Stands] at hstands ⊢
    split at hstands
    · exact hstands
    · refine ⟨hstands.1, hstands.2.1, fun t ht hqid => ?_⟩
      obtain ⟨t', ht', hname, hqid'⟩ := hsame t ht
      rw [hname]
      exact hstands.2.2 t' ht' (hqid' ▸ hqid)

theorem replies_some (h : Inv s) (ho : s.fids fid = some o) {i count : ℕ}
    (hdir : Qtoolbase ≤ TYPE (s.obj o).path → i < subfiles.length → 0 < count →
      (s.reg.findtoolbyqid (TYPE (s.obj o).path)).isSome = true) (hcount : 0 < count) :
    ∀ d ∈ s.reg.replies (s.obj o).path i count, d.isSome = true := by
  have hstands := (h.live fid o ho).2
  have hpart : ∀ ps : List ℕ, (∀ p ∈ ps, (s.reg.dirgen p).isSome = true) →
      ∀ d ∈ (sent i count 0 ps).map s.reg.dirgen, d.isSome = true := by
    intro ps hps d hd
    obtain ⟨p, hp, rfl⟩ := List.mem_map.mp hd
    rw [sent_eq] at hp
    exact hps p (List.mem_of_mem_drop (List.mem_of_mem_take hp))
  rw [Registry.replies]
  simp only [hstands.type] at hdir ⊢
  split_ifs with hroot hmeta htool
  · refine hpart _ (fun p hp => ?_)
    obtain ⟨d, hd, -⟩ := (h.known.root h.low).2 p hp
    rw [hd]
    rfl
  · refine hpart _ (fun p hp => ?_)
    have hall : ∀ p ∈ [Qmetarole, Qmetaxenith, Qmetaactid, Qmetanodevs],
        (fixedfiles.lookup (TYPE p)).isSome = true := by decide
    obtain ⟨⟨name, isdir, perm⟩, hfile⟩ := Option.isSome_iff_exists.mp (hall p hp)
    simp [Registry.dirgen, hfile]
  · obtain ⟨hbase, hsub⟩ := htool
    by_cases hi : i < subfiles.length
    · obtain ⟨ti, hti⟩ := Option.isSome_iff_exists.mp (hdir hbase hi hcount)
      obtain ⟨-, hmem, hqid⟩ := findtoolbyqid_some hti
      rw [toolqtype_base hbase hsub] at hqid
      refine hpart _ (fun p hp => ?_)
      obtain ⟨file, hfile, rfl⟩ := List.mem_map.mp hp
      have hall : ∀ f ∈ subfiles, f.2 < TOOL_STRIDE ∧ (toolfiles.lookup f.2).isSome = true := by
        decide
      obtain ⟨hoff, hsome⟩ := hall file hfile
      rw [← hqid, h.known.dirgen h.low hmem hoff, toolfile]
      split_ifs
      · rfl
      · simpa using hsome
    · have hnone : sent i count 0 (subfiles.map fun f => (s.obj o).path + f.2) = [] := by
        rw [sent_eq, List.drop_eq_nil_of_le (by simpa using hi), List.take_nil]
      simp [hnone]
  · simp

theorem attach_inv (h : Inv s) (fid : ℕ) : Inv (s.attach fid).1 := by
  rw [Server.attach]
  split_ifs
  · exact h
  · exact h.newfid (show Qroot < Qtoolbase by decide) (by simp)

theorem place_inv (h : Inv s) (fid newfid : ℕ)
    (hopen : (s.obj o).isopen = false) {f' : Fid} (hf' : Stands s.reg f')
    (hnone : f'.data = none) : Inv (s.place fid newfid o f') := by
  rw [Server.place]
  split_ifs
  · refine h.setobj (fun _ _ => hf') (fun hopen' => ?_) (by simp [hnone])
    rw [hopen] at hopen'
    exact absurd hopen' (by decide)
  · exact h.newfid hf' (by simp [hnone])

theorem walk_inv (h : Inv s) (fid newfid : ℕ) (names : List Str) :
    Inv (s.walk fid newfid names).1 := by
  rw [Server.walk]
  cases ho : s.fids fid with
  | none => exact h
  | some o =>
    obtain ⟨hlt, hstands⟩ := h.live fid o ho
    dsimp only
    split_ifs with hopen hused hnames
    · exact h
    · exact h
    · rw [Bool.not_eq_true] at hopen
      exact place_inv h fid newfid hopen hstands (h.closed ho hopen)
    · rw [Bool.not_eq_true] at hopen
      rw [h.nav]
      split
      next => exact h
      next => exact h
      next ds f' hwalk =>
        obtain ⟨hf', -, hdata⟩ := walkfid_stands h.known h.low hstands (congrArg Prod.snd hwalk)
        exact place_inv h fid newfid hopen hf' (hdata.trans (h.closed ho hopen))

theorem open_inv (h : Inv s) (fid mode : ℕ) : Inv (s.open fid mode).1 := by
  rw [Server.open]
  cases ho : s.fids fid with
  | none => exact h
  | some o =>
    dsimp only
    split
    · exact h
    · refine h.setobj (fun _ _ => ?_) (fun _ => ⟨rfl, rfl⟩) (by simp)
      exact (h.live fid o ho).2

theorem readdir_inv (h : Inv s) (ho : s.fids fid = some o) {i count : ℕ}
    (hdir : Qtoolbase ≤ TYPE (s.obj o).path → i < subfiles.length → 0 < count →
      (s.reg.findtoolbyqid (TYPE (s.obj o).path)).isSome = true) :
    Inv (s.readdir (s.obj o).path i count).1 := by
  rw [Server.readdir]
  split_ifs with hcount
  · exact h
  · rw [h.nav]
    have hsome := replies_some h ho hdir (Nat.pos_of_ne_zero hcount)
    refine ⟨h.known, h.low, h.live, h.data, h.calls, ?_, h.hung⟩
    rw [List.any_eq_false]
    intro d hd
    simpa [Option.isSome_iff_ne_none] using hsome d hd

theorem Inv.serves (h : Inv s) (ho : s.fids fid = some o)
    (hbase : Qtoolbase ≤ TYPE (s.obj o).path)
    (hfind : s.reg.findtoolbyqid (TYPE (s.obj o).path) = some ti) :
    ti ∈ s.reg.tools ∧ (s.obj o).tool = some ti.name := by
  have hstands := (h.live fid o ho).2
  obtain ⟨T, hT, -⟩ := hstands.tool (hstands.type ▸ hbase)
  obtain ⟨hmem, hname⟩ := hstands.served hT hfind
  exact ⟨hmem, hname ▸ hT⟩

theorem readtool_inv (h : Inv s) (ho : s.fids fid = some o) (hopen : (s.obj o).isopen = true)
    (htool : (s.obj o).tool = some ti.name) (suboff : ℕ) :
    Inv (s.readtool fid o ti suboff).1 := by
  have htaken := h.pending (s.pendingargs.filter fun p => p.1 ≠ fid).reverse
  rw [Server.readtool]
  split_ifs
  · exact h
  · exact h
  · exact h
  · simp only [Server.takeargs]
    split
    · refine htaken.begin (fun o' ho' => ?_)
      obtain rfl := Option.some.inj ho'
      exact ⟨(h.live fid o ho).1, htool, hopen⟩
    · exact htaken
    · exact htaken
    · exact htaken.setresult (noresult ti)

theorem read_inv (h : Inv s) (fid i count : ℕ) (hm : Meets s (.read fid i count)) :
    Inv (s.read fid i count).1 := by
  rw [Server.read]
  cases ho : s.fids fid with
  | none => exact h
  | some o =>
    dsimp only
    split_ifs with hopen hmode hdir hbase
    · exact h
    · exact h
    · exact readdir_inv h ho (hm _ (by rw [Server.fid, ho]; rfl) hdir)
    · exact h
    · cases hfind : s.reg.findtoolbyqid (TYPE (s.obj o).path) with
      | none => exact h
      | some ti =>
        have htool := (h.serves ho (Nat.le_of_not_lt hbase) hfind).2
        exact readtool_inv h ho (by simpa using hopen) htool _

theorem writetool_inv (iounit : Iounit) (h : Inv s) (ho : s.fids fid = some o)
    (hopen : (s.obj o).isopen = true) (htool : (s.obj o).tool = some ti.name)
    (data : List UInt8) : Inv (s.writetool iounit fid o ti data).1 := by
  have htaken : Inv (s.takeargs fid).1 := h.pending _
  rw [Server.writetool]
  dsimp only
  split
  · exact htaken
  split
  · exact htaken.pending _
  · refine htaken.begin (fun o' ho' => ?_)
    obtain rfl := Option.some.inj ho'
    exact ⟨(h.live fid o ho).1, htool, hopen⟩

theorem ctl_inv (h : Inv s) {data : Str}
    (hroom : ∀ name, data = lit "add " ++ name → s.reg.Activates name → s.Room name) :
    Inv (s.ctl data).1 := by
  rw [Server.ctl]
  split_ifs with hadd hremove
  · obtain ⟨name, hname⟩ := hadd.2
    have hdrop : data.drop 4 = name := by rw [← hname]; rfl
    rw [hdrop]
    have hinv := h.ctladd (hroom name hname.symm)
    cases hres : s.reg.ctladd name with
    | mk r e =>
      rw [hres] at hinv
      cases e with
      | none => exact hinv
      | some e => exact h
  · exact h.ctlremove _
  · exact h

theorem write_inv (iounit : Iounit) (h : Inv s) (fid : ℕ) (data : List UInt8)
    (hm : Meets s (.write fid data)) : Inv (s.write iounit fid data).1 := by
  rw [Server.write]
  cases ho : s.fids fid with
  | none => exact h
  | some o =>
    dsimp only
    split_ifs with hopen hdir hmode hctl hbase hoff
    · exact h
    · exact h
    · exact h
    · exact ctl_inv h (hm _ (by rw [Server.fid, ho]; rfl) hctl)
    · exact h
    · exact h
    · cases hfind : s.reg.findtoolbyqid (TYPE (s.obj o).path) with
      | none => exact h
      | some ti =>
        have htool := (h.serves ho (Nat.le_of_not_lt hbase) hfind).2
        exact writetool_inv iounit h ho (by simpa using hopen) htool data

theorem stat_inv (h : Inv s) (fid : ℕ) : Inv (s.stat fid).1 := by
  rw [Server.stat]
  cases ho : s.fids fid with
  | none => exact h
  | some o =>
    dsimp only
    rw [h.nav]
    split
    · exact h
    · exact h

theorem clunk_inv (h : Inv s) (fid : ℕ) : Inv (s.clunk fid).1 := by
  have htaken := h.pending (s.pendingargs.filter fun p => p.1 ≠ fid).reverse
  simp only [Server.clunk, Server.takeargs]
  split
  · exact htaken
  · refine Inv.delfid ?_ fid
    split
    · exact htaken.begin (by simp)
    · exact htaken

theorem remove_inv (h : Inv s) (fid : ℕ) : Inv (s.remove fid).1 := by
  rw [Server.remove]
  split
  · exact h
  · exact h.delfid fid

theorem done_inv (h : Inv s) (k : ℕ) (out : List UInt8) (ok : Bool) :
    Inv (s.done k out ok).1 := by
  rw [Server.done]
  cases hk : s.calls[k]? with
  | none => exact h
  | some c =>
    have hc := h.calls c (List.mem_of_getElem? hk)
    generalize hres : (⟨c.tool, if ok then s.reg.exectool c.tool out else out⟩ : Result) = res
    have htool : res.tool = c.tool := by rw [← hres]
    have hset : Inv { s with calls := s.calls.eraseIdx k, reg := s.reg.setresult c.tool res } := by
      have hreg := h.setresult res
      rw [htool] at hreg
      exact ⟨hreg.known, hreg.low, hreg.live, hreg.data,
        fun c' hc' => h.calls c' (List.mem_of_mem_eraseIdx hc'), h.owed, h.hung⟩
    dsimp only
    rw [hres]
    cases hfid : c.fid with
    | none => exact hset
    | some o =>
      obtain ⟨-, hown, hopen⟩ := hc o (by rw [hfid]; rfl)
      refine hset.setobj (fun fid ho => (hset.live fid o ho).2) (fun _ => ⟨hopen, rfl⟩) ?_
      intro res' hres'
      obtain rfl := Option.some.inj hres'
      exact ⟨htool ▸ hown, hopen⟩

theorem serve_inv (iounit : Iounit) (h : Inv s) {m : Request} (hm : Meets s m) :
    Inv (s.serve iounit m).1 := by
  unfold Server.serve
  rw [h.hung, if_neg (by decide)]
  cases m with
  | attach fid =>
    dsimp only
    rw [h.nav]
    exact attach_inv h fid
  | walk fid newfid names => exact walk_inv h fid newfid names
  | «open» fid mode => exact open_inv h fid mode
  | read fid i count => exact read_inv h fid i count hm
  | write fid data => exact write_inv iounit h fid data hm
  | stat fid => exact stat_inv h fid
  | clunk fid => exact clunk_inv h fid
  | remove fid => exact remove_inv h fid
  | done k out ok => exact done_inv h k out ok

theorem start_inv (loads : Str → Bool) (args : List Str) : Inv (Server.start loads args) := by
  obtain ⟨hknown, hlow⟩ := inittools_known loads args
  exact ⟨hknown, hlow, fun _ _ h => absurd h nofun, fun _ h => absurd h (Nat.not_lt_zero _),
    fun _ h => absurd h List.not_mem_nil, rfl, rfl⟩

def Answer.Of (r : Registry) (T : Str) : Answer → Prop
  | .dir d => ∃ ti ∈ r.tools, ti.name = T ∧
      ∃ suboff, toolfile d.path r.vers ti suboff = some d
  | .dirs ds => ∀ d ∈ ds, ∃ ti ∈ r.tools, ti.name = T ∧
      ∃ suboff, toolfile d.path r.vers ti suboff = some d
  | .result res => res.tool = T
  | .doc tool => tool = T
  | .schema tool => tool = T
  | .hang => False
  | _ => True

def Answer.Fails : Answer → Prop
  | .error _ => True
  | .dirs ds => ds = []
  | _ => False

/-- A request served for tool `T`: what it shows and the call it begins are that tool's,
and with no such tool it fails. -/
structure Serves (s : Server) (T : Str) (p : Server × Answer) : Prop where
  of : p.2.Of s.reg T
  calls : p.1.calls = s.calls ∨ ∃ c, p.1.calls = s.calls ++ [c] ∧ c.tool = T
  gone : (∀ ti ∈ s.reg.tools, ti.name ≠ T) → p.1.calls = s.calls ∧ p.2.Fails

theorem serves_error (s : Server) (T : Str) (e : Err) : Serves s T (s, .error e) :=
  ⟨trivial, .inl rfl, fun _ => ⟨rfl, trivial⟩⟩

theorem serves_active {p : Server × Answer} (hti : ti ∈ s.reg.tools)
    (hof : p.2.Of s.reg ti.name)
    (hcalls : p.1.calls = s.calls ∨ ∃ c, p.1.calls = s.calls ++ [c] ∧ c.tool = ti.name) :
    Serves s ti.name p :=
  ⟨hof, hcalls, fun hgone => absurd rfl (hgone ti hti)⟩

theorem stat_serves (h : Inv s) (ho : s.fids fid = some o) {T : Str}
    (hT : (s.obj o).tool = some T) : Serves s T (s.stat fid) := by
  have hstands := (h.live fid o ho).2
  have hbase := hstands.base hT
  rw [Server.stat, ho]
  dsimp only
  rw [h.nav]
  cases hdir : s.reg.dirgen (s.obj o).path with
  | none => exact serves_error s T _
  | some d =>
    have hpath := dirgen_path hdir
    rw [Registry.dirgen, hstands.type, fixedfiles_lookup hbase] at hdir
    obtain ⟨ti, hfind, hfile⟩ := Option.bind_eq_some_iff.mp hdir
    rw [← hstands.type] at hfind
    obtain ⟨hti, rfl⟩ := hstands.served hT hfind
    exact serves_active hti ⟨ti, hti, rfl, _, hpath ▸ hfile⟩ (.inl rfl)

theorem readdir_serves (h : Inv s) (ho : s.fids fid = some o) {T : Str}
    (hT : (s.obj o).tool = some T) {i count : ℕ}
    (hdir : Qtoolbase ≤ TYPE (s.obj o).path → i < subfiles.length → 0 < count →
      (s.reg.findtoolbyqid (TYPE (s.obj o).path)).isSome = true) :
    Serves s T (s.readdir (s.obj o).path i count) := by
  have hstands := (h.live fid o ho).2
  have hbase := hstands.base hT
  have hnone : Serves s T (s, .dirs []) := ⟨by simp [Answer.Of], .inl rfl, fun _ => ⟨rfl, rfl⟩⟩
  rw [Server.readdir]
  split_ifs with hcount
  · exact hnone
  rw [h.nav]
  have hroot : (s.obj o).path ≠ Qroot := by
    rw [Qroot]
    rw [Qtoolbase] at hbase
    omega
  have hmeta : (s.obj o).path ≠ Qmeta := by
    rw [Qmeta]
    rw [Qtoolbase] at hbase
    omega
  simp only [Registry.replies, hstands.type, if_neg hroot, if_neg hmeta]
  split_ifs with htool
  · by_cases hi : i < subfiles.length
    · obtain ⟨ti, hfind⟩ := Option.isSome_iff_exists.mp
        (hdir (by rw [hstands.type]; exact hbase) hi (Nat.pos_of_ne_zero hcount))
      obtain ⟨hti, rfl⟩ := hstands.served hT hfind
      obtain ⟨-, -, hqid⟩ := findtoolbyqid_some hfind
      rw [hstands.type, toolqtype_base hbase htool.2] at hqid
      refine serves_active hti (fun d hd => ?_) (.inl rfl)
      have hmem := (List.takeWhile_sublist _).subset (List.reduceOption_mem_iff.mp hd)
      obtain ⟨p, hp, hdirgen⟩ := List.mem_map.mp hmem
      rw [sent_eq] at hp
      obtain ⟨file, hfile, rfl⟩ := List.mem_map.mp (List.mem_of_mem_drop (List.mem_of_mem_take hp))
      have hall : ∀ f ∈ subfiles, f.2 < TOOL_STRIDE := by decide
      have hpath := dirgen_path hdirgen
      rw [← hqid, h.known.dirgen h.low hti (hall file hfile), hqid, ← hpath] at hdirgen
      exact ⟨ti, hti, rfl, _, hdirgen⟩
    · rw [sent_eq, List.drop_eq_nil_of_le (by simpa using hi), List.take_nil]
      exact ⟨by simp [Answer.Of], .inl rfl, fun _ => ⟨rfl, rfl⟩⟩
  · exact ⟨by simp [Answer.Of], .inl rfl, fun _ => ⟨rfl, rfl⟩⟩

theorem readtool_serves (h : Inv s) (ho : s.fids fid = some o) (hti : ti ∈ s.reg.tools)
    (htool : (s.obj o).tool = some ti.name) (suboff : ℕ) :
    Serves s ti.name (s.readtool fid o ti suboff) := by
  rw [Server.readtool]
  split_ifs
  · exact serves_error s _ _
  · exact serves_active hti rfl (.inl rfl)
  · exact serves_active hti rfl (.inl rfl)
  · simp only [Server.takeargs]
    split
    · exact serves_active hti trivial (.inr ⟨_, rfl, rfl⟩)
    next res hargs hdata =>
      refine serves_active hti ?_ (.inl rfl)
      have hown := (h.data o (h.live fid o ho).1 res hdata).1
      exact (Option.some.inj (htool.symm.trans hown)).symm
    next res hargs hdata hres =>
      exact serves_active hti (h.known.own ti (List.mem_append_left _ hti) res hres) (.inl rfl)
    · exact serves_active hti rfl (.inl rfl)

theorem read_serves (h : Inv s) (ho : s.fids fid = some o) {T : Str}
    (hT : (s.obj o).tool = some T) {i count : ℕ} (hm : Meets s (.read fid i count)) :
    Serves s T (s.read fid i count) := by
  have hstands := (h.live fid o ho).2
  have hbase := hstands.base hT
  rw [Server.read, ho]
  dsimp only
  split_ifs with hopen hmode hdir hlow
  · exact serves_error s T _
  · exact serves_error s T _
  · exact readdir_serves h ho hT (hm _ (by rw [Server.fid, ho]; rfl) hdir)
  · exact absurd hlow (by rw [hstands.type]; exact Nat.not_lt.mpr hbase)
  · cases hfind : s.reg.findtoolbyqid (TYPE (s.obj o).path) with
    | none => exact serves_error s T _
    | some ti =>
      obtain ⟨hti, rfl⟩ := hstands.served hT hfind
      exact readtool_serves h ho hti hT _

theorem write_serves (iounit : Iounit) (h : Inv s) (ho : s.fids fid = some o) {T : Str}
    (hT : (s.obj o).tool = some T) (data : List UInt8) :
    Serves s T (s.write iounit fid data) := by
  have hstands := (h.live fid o ho).2
  have hbase := hstands.base hT
  rw [Server.write, ho]
  dsimp only
  split_ifs with hopen hdir hmode hctl hlow hoff
  · exact serves_error s T _
  · exact serves_error s T _
  · exact serves_error s T _
  · rw [hstands.type] at hctl
    exact absurd (hctl ▸ hbase) (by decide)
  · exact absurd hlow (by rw [hstands.type]; exact Nat.not_lt.mpr hbase)
  · exact serves_error s T _
  · cases hfind : s.reg.findtoolbyqid (TYPE (s.obj o).path) with
    | none => exact serves_error s T _
    | some ti =>
      obtain ⟨hti, rfl⟩ := hstands.served hT hfind
      dsimp only
      rw [Server.writetool]
      dsimp only
      split
      · exact serves_active hti trivial (.inl rfl)
      split
      · exact serves_active hti trivial (.inl rfl)
      · exact serves_active hti trivial (.inr ⟨_, rfl, rfl⟩)

theorem clunk_serves (h : Inv s) (ho : s.fids fid = some o) {T : Str}
    (hT : (s.obj o).tool = some T) : (s.clunk fid).2 = .ok ∧
      ((s.clunk fid).1.calls = s.calls ∨ ∃ c, (s.clunk fid).1.calls = s.calls ++ [c] ∧
        c.tool = T ∧ ∃ ti ∈ s.reg.tools, ti.name = T) := by
  have hstands := (h.live fid o ho).2
  simp only [Server.clunk, Server.takeargs, ho]
  refine ⟨trivial, ?_⟩
  split
  next args ti hargs hfind =>
    obtain ⟨hti, rfl⟩ := hstands.served hT hfind
    exact .inr ⟨_, rfl, rfl, ti, hti, rfl⟩
  next => exact .inl rfl

/-- In every run that meets the condition the registry is sound, the list of the root is
what it can be walked to, the server goes on, and a fid is served by its own tool or by
none; a call that runs for a fid is its tool's. -/
theorem fid_keeps_tool (loads : Str → Bool) (args : List Str) (iounit : Iounit)
    {ms : List Request}
    (hm : Always (fun s m => (Server.serve iounit s m).1) Meets (Server.start loads args) ms) :
    let s := (Server.start loads args).run iounit ms
    (s.reg.tools.map ToolInfo.name ++ s.reg.alltools.map ToolInfo.name).Perm toolnames ∧
    (s.reg.tools.map ToolInfo.name ++ s.reg.alltools.map ToolInfo.name).Nodup ∧
    (s.reg.tools.map ToolInfo.qid).Nodup ∧
    (∀ ti ∈ s.reg.tools, ∃ k, ti.qid = Qtoolbase + k * TOOL_STRIDE) ∧
    (∀ name d, name ≠ lit ".." → s.reg.walk1 Qroot name = .ok d →
      ∃ p ∈ s.reg.rootlist, s.reg.dirgen p = some d) ∧
    (∀ p ∈ s.reg.rootlist, ∃ d, s.reg.dirgen p = some d ∧ s.reg.walk1 Qroot d.name = .ok d) ∧
    s.hung = false ∧
    (∀ c ∈ s.calls, ∀ o ∈ c.fid, (s.obj o).tool = some c.tool) ∧
    ∀ fid f T, s.fid fid = some f → f.tool = some T →
      Serves s T (s.serve iounit (.stat fid)) ∧
      (∀ i count, Meets s (.read fid i count) →
        Serves s T (s.serve iounit (.read fid i count))) ∧
      (∀ data, Serves s T (s.serve iounit (.write fid data))) ∧
      ((s.serve iounit (.clunk fid)).1.calls = s.calls ∨
        ∃ c, (s.serve iounit (.clunk fid)).1.calls = s.calls ++ [c] ∧ c.tool = T ∧
          ∃ ti ∈ s.reg.tools, ti.name = T) := by
  intro s
  have h : Inv s :=
    hm.invariant Inv (fun _ _ hs hmeets => serve_inv iounit hs hmeets) (start_inv loads args)
  obtain ⟨hwalked, hlisted⟩ := h.known.root h.low
  refine ⟨h.known.known, h.known.nodup, h.known.qids, h.known.aligned, hwalked, hlisted, h.hung,
    fun c hc o ho => (h.calls c hc o ho).2.1, fun fid f T hf hT => ?_⟩
  obtain ⟨o, ho, rfl⟩ := Option.map_eq_some_iff.mp hf
  refine ⟨?_, fun i count hread => ?_, fun data => ?_, ?_⟩
  · unfold Server.serve
    rw [h.hung, if_neg (by decide)]
    exact stat_serves h ho hT
  · unfold Server.serve
    rw [h.hung, if_neg (by decide)]
    exact read_serves h ho hT hread
  · unfold Server.serve
    rw [h.hung, if_neg (by decide)]
    exact write_serves iounit h ho hT data
  · unfold Server.serve
    rw [h.hung, if_neg (by decide)]
    exact (clunk_serves h ho hT).2

def reusing : List Request :=
  [.attach 0, .walk 0 1 [lit "ctl"], .open 1 1, .walk 0 2 [lit "write", lit "doc"], .open 2 0,
    .write 1 (bytes (lit "remove write\n")), .write 1 (bytes (lit "add exec\n"))]

def hanging : List Request :=
  [.attach 0, .walk 0 1 [lit "ctl"], .open 1 1, .walk 0 2 [lit "write"], .open 2 0,
    .write 1 (bytes (lit "remove write\n")), .read 2 0 10]

def twotools : Server := Server.start (fun _ => true) [lit "read", lit "write"]

set_option maxRecDepth 4000 in
/-- The fid of `write` shows the documentation of `exec`; the server stops. -/
theorem tool_fid_taken :
    ((twotools.run 8192 reusing).fid 2).bind Fid.tool = some (lit "write") ∧
    ((twotools.run 8192 reusing).serve 8192 (.read 2 0 100)).2 = .doc (lit "exec") ∧
    ((twotools.run 8192 hanging).serve 8192 (.stat 0)).2 = .hang := by
  decide

def adding : List Request :=
  [.attach 0, .walk 0 1 [lit "ctl"], .open 1 1, .write 1 (bytes (lit "add exec\n")),
    .walk 0 2 [lit "exec", lit "doc"], .open 2 0]

theorem adding_meets :
    Always (fun s m => (Server.serve 8192 s m).1) Meets twotools adding := by
  refine ⟨trivial, trivial, trivial, ?_, trivial, trivial, trivial⟩
  intro f hf hctl name hname hact
  have hcmd : lit "add exec" = lit "add " ++ name := hname
  have hsplit : lit "add " ++ lit "exec" = lit "add " ++ name := hcmd
  obtain rfl := List.append_cancel_left hsplit
  refine ⟨by decide, fun fid f hf hbase => ?_⟩
  -- the fids are of the root and of its ctl file
  obtain ⟨o, ho, rfl⟩ := Option.map_eq_some_iff.mp hf
  have hfids : Function.update (Function.update (fun _ => none) 0 (some 0)) 1 (some 1) fid =
      some o := ho
  simp only [Function.update_apply] at hfids
  split_ifs at hfids
  · obtain rfl := Option.some.inj hfids
    exact absurd hbase (by decide)
  · obtain rfl := Option.some.inj hfids
    exact absurd hbase (by decide)

theorem fid_keeps_tool_adding :
    ((twotools.run 8192 adding).fid 2).bind Fid.tool = some (lit "exec") ∧
    Serves (twotools.run 8192 adding) (lit "exec")
      ((twotools.run 8192 adding).serve 8192 (.stat 2)) := by
  have h := fid_keeps_tool (fun _ => true) [lit "read", lit "write"] 8192 adding_meets
  obtain ⟨-, -, -, -, -, -, -, -, hserves⟩ := h
  exact ⟨by decide, (hserves 2 _ (lit "exec") rfl (by decide)).1⟩

end Infernode.Tools
