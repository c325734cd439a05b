import Infernode.Tools.Session

/-!
# What the requests of a session do

Most requests begin no call and leave alone what is kept of arguments. A read or a clunk that
finds arguments kept under its fid's number begins a call on them, and a write to a tool's
file is refused, kept, or begins a call.
-/

namespace Infernode.Tools

open Lib Limbo

variable {s s' : Server} {fid fid' o o' : ℕ} {b : List UInt8} {f : Fid}

theorem pending_none : s.pending fid = none ↔ ∀ b, (fid, b) ∉ s.pendingargs := by
  simp only [Server.pending, Server.takeargs, Option.map_eq_none_iff, List.getLast?_eq_none_iff,
    List.filter_eq_nil_iff, decide_eq_true_eq, Prod.forall]
  constructor
  · intro h b hb
    exact h fid b hb rfl
  · rintro h fid' b hb rfl
    exact h b hb

theorem pending_some (hkeys : (s.pendingargs.map Prod.fst).Nodup) :
    s.pending fid = some b ↔ (fid, b) ∈ s.pendingargs := by
  have hmem : ∀ p, ((s.pendingargs.filter fun p => p.1 = fid).getLast?) = some p →
      p ∈ s.pendingargs ∧ p.1 = fid := by
    intro p hp
    simpa using List.mem_filter.mp (List.mem_of_getLast? hp)
  constructor
  · intro h
    obtain ⟨p, hp, rfl⟩ := Option.map_eq_some_iff.mp h
    obtain ⟨hin, hfid⟩ := hmem p hp
    rw [← hfid]
    exact hin
  · intro h
    cases hlast : s.pending fid with
    | none => exact absurd h (pending_none.mp hlast b)
    | some b' =>
      obtain ⟨p, hp, rfl⟩ := Option.map_eq_some_iff.mp hlast
      obtain ⟨hp, hfid⟩ := hmem p hp
      rw [List.inj_on_of_nodup_map hkeys hp h hfid]

theorem pending_same (hkeys : (s.pendingargs.map Prod.fst).Nodup)
    (hkeys' : (s'.pendingargs.map Prod.fst).Nodup)
    (h : ∀ b, (fid, b) ∈ s'.pendingargs ↔ (fid, b) ∈ s.pendingargs) :
    s'.pending fid = s.pending fid :=
  Option.ext fun b => by rw [pending_some hkeys, pending_some hkeys', h]

theorem mem_takeargs {p : ℕ × List UInt8} :
    p ∈ (s.takeargs fid).1.pendingargs ↔ p ∈ s.pendingargs ∧ p.1 ≠ fid := by
  simp [Server.takeargs]

theorem takeargs_keys (hkeys : (s.pendingargs.map Prod.fst).Nodup) :
    ((s.takeargs fid).1.pendingargs.map Prod.fst).Nodup := by
  simp only [Server.takeargs, List.map_reverse, List.nodup_reverse]
  exact (List.filter_sublist.map _).nodup hkeys

theorem takeargs_perm (h : s.pending fid = none) :
    (s.takeargs fid).1.pendingargs.Perm s.pendingargs := by
  have hall : ∀ p ∈ s.pendingargs, decide (p.1 ≠ fid) = true := by
    rintro ⟨fid', b⟩ hp
    refine decide_eq_true fun hsame => ?_
    exact pending_none.mp h b (hsame ▸ hp)
  simp only [Server.takeargs, List.filter_eq_self.mpr hall]
  exact List.reverse_perm _

structure Sound (s : Server) : Prop where
  hung : s.hung = false
  owed : s.owed = false
  inj : ∀ fid fid' o, s.fids fid = some o → s.fids fid' = some o → fid = fid'
  live : ∀ fid o, s.fids fid = some o → o < s.next
  closed : ∀ fid o, s.fids fid = some o → (s.obj o).isopen = false → (s.obj o).data = none
  keys : (s.pendingargs.map Prod.fst).Nodup
  owner : ∀ p ∈ s.pendingargs, ∃ o, s.fids p.1 = some o
  opened : ∀ c ∈ s.calls, ∀ o ∈ c.fid, o < s.next ∧ (s.obj o).isopen = true

/-- No call begins, and every fid that stands has the object it had or a new one. -/
structure Stays (s s' : Server) : Prop where
  calls : s'.calls = s.calls
  next : s.next ≤ s'.next
  new : ∀ fid o, s'.fids fid = some o → s.fids fid = some o ∨
    s.fids fid = none ∧ s.next ≤ o ∧ (s'.obj o).data = none
  obj : ∀ o < s.next, (s'.obj o).data = (s.obj o).data

structure Keeps (s s' : Server) : Prop extends Stays s s' where
  sound : Sound s'
  old : ∀ fid o, s.fids fid = some o → s'.fids fid = some o
  pending : s'.pendingargs.Perm s.pendingargs

theorem Sound.nav (h : Sound s) (k : Server × Answer) : s.nav k = k := by
  rw [Server.nav, h.owed, if_neg (by decide)]

theorem Sound.keeps (h : Sound s) : Keeps s s :=
  ⟨⟨rfl, le_rfl, fun _ _ => .inl, fun _ _ => rfl⟩, h, fun _ _ => id, .refl _⟩

theorem Sound.same (h : Sound s) (r : Registry) {pend : List (ℕ × List UInt8)}
    (hpend : pend.Perm s.pendingargs) : Keeps s { s with reg := r, pendingargs := pend } := by
  refine ⟨⟨rfl, le_rfl, fun _ _ => .inl, fun _ _ => rfl⟩, ?_, fun _ _ => id, hpend⟩
  refine ⟨h.hung, h.owed, h.inj, h.live, h.closed, (hpend.map _).nodup_iff.mpr h.keys,
    fun p hp => h.owner p (hpend.mem_iff.mp hp), h.opened⟩

theorem Sound.setobj (h : Sound s) (hopen : (s.obj o).isopen = true → f.isopen = true)
    (hclosed : f.isopen = false → f.data = none) : Sound (s.setobj o f) := by
  refine ⟨h.hung, h.owed, h.inj, h.live, fun fid o' ho' hisopen => ?_, h.keys, h.owner,
    fun c hc o' ho' => ?_⟩
  · simp only [Server.setobj, Function.update_apply] at hisopen ⊢
    split_ifs at hisopen ⊢
    · exact hclosed hisopen
    · exact h.closed fid o' ho' hisopen
  · obtain ⟨hlt, hisopen⟩ := h.opened c hc o' ho'
    refine ⟨hlt, ?_⟩
    simp only [Server.setobj, Function.update_apply]
    split_ifs with hsame
    · exact hopen (hsame ▸ hisopen)
    · exact hisopen

theorem Sound.setobj_keeps (h : Sound s) (hopen : (s.obj o).isopen = true → f.isopen = true)
    (hclosed : f.isopen = false → f.data = none) (hdata : f.data = (s.obj o).data) :
    Keeps s (s.setobj o f) := by
  refine ⟨⟨rfl, le_rfl, fun _ _ => .inl, fun o' _ => ?_⟩, h.setobj hopen hclosed,
    fun _ _ => id, .refl _⟩
  simp only [Server.setobj, Function.update_apply]
  split_ifs with hsame
  · rw [hdata, hsame]
  · rfl

theorem Sound.newfid (h : Sound s) (hfid : s.fids fid = none) (hf : f.data = none) :
    Keeps s (s.newfid fid f) := by
  have hold : ∀ o < s.next, Function.update s.obj s.next f o = s.obj o :=
    fun o ho => Function.update_of_ne ho.ne _ _
  have hnew : ∀ fid' o, (s.newfid fid f).fids fid' = some o →
      s.fids fid' = some o ∨ fid' = fid ∧ o = s.next := by
    intro fid' o ho
    simp only [Server.newfid, Function.update_apply] at ho
    split_ifs at ho with hsame
    · exact .inr ⟨hsame, (Option.some.inj ho).symm⟩
    · exact .inl ho
  have hfids : ∀ fid' o, s.fids fid' = some o → (s.newfid fid f).fids fid' = some o := by
    intro fid' o ho
    have hne : fid' ≠ fid := by
      rintro rfl
      rw [hfid] at ho
      exact absurd ho nofun
    exact (Function.update_of_ne hne _ _).trans ho
  refine ⟨⟨rfl, Nat.le_succ _, fun fid' o ho => ?_, fun o ho => ?_⟩, ?_, hfids, .refl _⟩
  · rcases hnew fid' o ho with ho | ⟨rfl, rfl⟩
    · exact .inl ho
    · refine .inr ⟨hfid, le_rfl, ?_⟩
      simp only [Server.newfid, Function.update_self]
      exact hf
  · simp only [Server.newfid, hold o ho]
  · refine ⟨h.hung, h.owed, fun fid₁ fid₂ o h₁ h₂ => ?_, fun fid' o ho => ?_,
      fun fid' o ho hisopen => ?_, h.keys, fun p hp => ?_, fun c hc o ho => ?_⟩
    · rcases hnew _ _ h₁ with hold₁ | ⟨hfid₁, hnext₁⟩ <;>
        rcases hnew _ _ h₂ with hold₂ | ⟨hfid₂, hnext₂⟩
      · exact h.inj _ _ _ hold₁ hold₂
      · exact absurd (h.live _ _ hold₁) hnext₂.not_lt
      · exact absurd (h.live _ _ hold₂) hnext₁.not_lt
      · rw [hfid₁, hfid₂]
    · rcases hnew _ _ ho with ho | ⟨rfl, rfl⟩
      · exact (h.live _ _ ho).trans (Nat.lt_succ_self _)
      · exact Nat.lt_succ_self _
    · rcases hnew _ _ ho with ho | ⟨rfl, rfl⟩
      · simp only [Server.newfid, hold o (h.live _ _ ho)] at hisopen ⊢
        exact h.closed _ _ ho hisopen
      · simp only [Server.newfid, Function.update_self]
        exact hf
    · obtain ⟨o, ho⟩ := h.owner p hp
      exact ⟨o, hfids _ _ ho⟩
    · obtain ⟨hlt, hisopen⟩ := h.opened c hc o ho
      refine ⟨hlt.trans (Nat.lt_succ_self _), ?_⟩
      simp only [Server.newfid, hold o hlt]
      exact hisopen

theorem Sound.delfid (h : Sound s) (hfid : s.pending fid = none) :
    Sound (s.delfid fid) ∧ Stays s (s.delfid fid) := by
  have hold : ∀ fid' o, (s.delfid fid).fids fid' = some o → s.fids fid' = some o := by
    intro fid' o ho
    simp only [Server.delfid, Function.update_apply] at ho
    split_ifs at ho
    exact ho
  refine ⟨⟨h.hung, h.owed, fun _ _ _ h₁ h₂ => h.inj _ _ _ (hold _ _ h₁) (hold _ _ h₂),
    fun _ _ ho => h.live _ _ (hold _ _ ho), fun _ _ ho => h.closed _ _ (hold _ _ ho), h.keys,
    ?_, h.opened⟩, rfl, le_rfl, fun fid' o ho => .inl (hold _ _ ho), fun _ _ => rfl⟩
  rintro ⟨fid', b⟩ hp
  obtain ⟨o, ho⟩ := h.owner _ hp
  refine ⟨o, (Function.update_of_ne ?_ _ _).trans ho⟩
  rintro rfl
  exact pending_none.mp hfid b hp

theorem Sound.takeargs (h : Sound s) (fid : ℕ) : Sound (s.takeargs fid).1 :=
  ⟨h.hung, h.owed, h.inj, h.live, h.closed, takeargs_keys h.keys,
    fun p hp => h.owner p (mem_takeargs.mp hp).1, h.opened⟩

theorem Sound.keepargs (h : Sound s) (hfid : s.pending fid = none) (ho : s.fids fid = some o)
    (b : List UInt8) : Sound (s.keepargs fid b) := by
  refine ⟨h.hung, h.owed, h.inj, h.live, h.closed, ?_, fun p hp => ?_, h.opened⟩
  · refine List.nodup_cons.mpr ⟨fun hmem => ?_, h.keys⟩
    obtain ⟨⟨fid', b'⟩, hp, rfl⟩ := List.mem_map.mp hmem
    exact pending_none.mp hfid b' hp
  · rcases List.mem_cons.mp hp with rfl | hp
    · exact ⟨o, ho⟩
    · exact h.owner p hp

theorem Sound.begin (h : Sound s) {c : Call}
    (hc : ∀ o ∈ c.fid, o < s.next ∧ (s.obj o).isopen = true) : Sound (s.begin c) := by
  refine ⟨h.hung, h.owed, h.inj, h.live, h.closed, h.keys, h.owner, fun c' hc' => ?_⟩
  rcases List.mem_append.mp hc' with hc' | hc'
  · exact h.opened c' hc'
  · obtain rfl := List.mem_singleton.mp hc'
    exact hc

theorem pending_takeargs : (s.takeargs fid).1.pending fid = none :=
  pending_none.mpr fun _ hb => (mem_takeargs.mp hb).2 rfl

def Plain (s : Server) (r : Server × Answer) : Prop := Keeps s r.1 ∧ r.2 ≠ .later

theorem Sound.plain (h : Sound s) {a : Answer} (ha : a ≠ .later) : Plain s (s, a) :=
  ⟨h.keeps, ha⟩

theorem walkfid_same {r : Registry} {names : List Str} {f f' : Fid}
    (hwalk : (r.walkfid f names).2 = .ok f') : f'.isopen = f.isopen ∧ f'.data = f.data := by
  induction names generalizing f with
  | nil =>
    obtain rfl := Except.ok.inj hwalk
    exact ⟨rfl, rfl⟩
  | cons name names ih =>
    rw [Registry.walkfid] at hwalk
    cases hone : r.walk1 f.path name with
    | error e =>
      rw [hone] at hwalk
      exact absurd hwalk nofun
    | ok d =>
      rw [hone] at hwalk
      have hrest := ih hwalk
      exact hrest

theorem attach_plain (h : Sound s) (fid : ℕ) : Plain s (s.attach fid) := by
  rw [Server.attach]
  split_ifs with hfid
  · exact h.plain nofun
  · exact ⟨h.newfid (Option.not_isSome_iff_eq_none.mp hfid) rfl, nofun⟩

theorem walk_plain (h : Sound s) (fid newfid : ℕ) (names : List Str) :
    Plain s (s.walk fid newfid names) := by
  rw [Server.walk]
  cases ho : s.fids fid with
  | none => exact h.plain nofun
  | some o =>
    dsimp only
    by_cases hopen : (s.obj o).isopen = true
    · rw [if_pos hopen]
      exact h.plain nofun
    rw [if_neg hopen]
    by_cases huse : newfid ≠ fid ∧ (s.fids newfid).isSome = true
    · rw [if_pos huse]
      exact h.plain nofun
    rw [if_neg huse]
    have hnone := h.closed fid o ho (Bool.not_eq_true _ ▸ hopen)
    have hplace : ∀ f : Fid, f.data = none → Keeps s (s.place fid newfid o f) := by
      intro f hf
      rw [Server.place]
      split_ifs with hsame
      · exact h.setobj_keeps (fun hisopen => absurd hisopen hopen) (fun _ => hf)
          (hf.trans hnone.symm)
      · exact h.newfid (Option.not_isSome_iff_eq_none.mp fun hsome => huse ⟨hsame, hsome⟩) hf
    by_cases hnames : names = []
    · rw [if_pos hnames]
      exact ⟨hplace _ hnone, nofun⟩
    rw [if_neg hnames, h.nav]
    split
    · exact h.plain nofun
    · exact h.plain nofun
    next ds f' hwalk =>
      exact ⟨hplace f' ((walkfid_same (by rw [hwalk])).2.trans hnone), nofun⟩

theorem open_plain (h : Sound s) (hopen : ∀ f, s.fid fid = some f → f.isopen = false)
    (mode : ℕ) : Plain s (s.open fid mode) := by
  rw [Server.open]
  cases ho : s.fids fid with
  | none => exact h.plain nofun
  | some o =>
    dsimp only
    cases openmode mode with
    | none => exact h.plain nofun
    | some mode =>
      have hclosed := hopen (s.obj o) (by rw [Server.fid, ho]; rfl)
      exact ⟨h.setobj_keeps (fun _ => rfl) nofun (h.closed fid o ho hclosed).symm, nofun⟩

theorem stat_plain (h : Sound s) (fid : ℕ) : Plain s (s.stat fid) := by
  rw [Server.stat]
  cases s.fids fid with
  | none => exact h.plain nofun
  | some o =>
    dsimp only
    rw [h.nav]
    split
    · exact h.plain nofun
    · exact h.plain nofun

theorem readdir_plain (h : Sound s) {path i count : ℕ}
    (hlist : 0 < count → ∀ d ∈ s.reg.replies path i count, d.isSome = true) :
    Plain s (s.readdir path i count) := by
  rw [Server.readdir]
  split_ifs with hcount
  · exact h.plain nofun
  rw [h.nav]
  have hnone : (s.reg.replies path i count).any Option.isNone = false := by
    rw [List.any_eq_false]
    intro d hd
    have hsome := hlist (Nat.pos_of_ne_zero hcount) d hd
    cases d with
    | none => exact absurd hsome nofun
    | some d => exact nofun
  have hsame : { s with owed := (s.reg.replies path i count).any Option.isNone } = s := by
    rw [hnone]
    exact congrArg (fun owed => { s with owed := owed }) h.owed.symm
  dsimp only
  rw [hsame]
  exact h.plain nofun

theorem read_cases (h : Sound s) {i count : ℕ} (hlist : ∀ f, s.fid fid = some f →
    f.isdir = true → 0 < count → ∀ d ∈ s.reg.replies f.path i count, d.isSome = true) :
    Plain s (s.read fid i count) ∨
    ∃ o tool args, s.fids fid = some o ∧ (s.obj o).isopen = true ∧
      ((s.obj o).mode = 0 ∨ (s.obj o).mode = 2) ∧ s.pending fid = some args ∧
      s.read fid i count =
        ((s.takeargs fid).1.begin ⟨.read, tool, some o, argstring args⟩, .later) := by
  rw [Server.read]
  cases ho : s.fids fid with
  | none => exact .inl (h.plain nofun)
  | some o =>
    dsimp only
    by_cases hopen : (s.obj o).isopen = false
    · rw [if_pos hopen]
      exact .inl (h.plain nofun)
    rw [if_neg hopen]
    by_cases hmode : (s.obj o).mode ≠ 0 ∧ (s.obj o).mode ≠ 2
    · rw [if_pos hmode]
      exact .inl (h.plain nofun)
    rw [if_neg hmode]
    by_cases hdir : (s.obj o).isdir = true
    · rw [if_pos hdir]
      exact .inl (readdir_plain h (hlist _ (by rw [Server.fid, ho]; rfl) hdir))
    rw [if_neg hdir]
    by_cases hbase : TYPE (s.obj o).path < Qtoolbase
    · rw [if_pos hbase]
      exact .inl (h.plain nofun)
    rw [if_neg hbase]
    cases s.reg.findtoolbyqid (TYPE (s.obj o).path) with
    | none => exact .inl (h.plain nofun)
    | some ti =>
      dsimp only
      rw [Server.readtool]
      split_ifs
      · exact .inl (h.plain nofun)
      · exact .inl (h.plain nofun)
      · exact .inl (h.plain nofun)
      cases hargs : s.pending fid with
      | some args =>
        refine .inr ⟨o, ti.name, args, rfl, Bool.eq_true_of_not_eq_false hopen, by omega, rfl, ?_⟩
        rw [show s.takeargs fid = ((s.takeargs fid).1, some args) from Prod.ext rfl hargs]
      | none =>
        have htaken := fun r => h.same r (takeargs_perm hargs)
        left
        rw [show s.takeargs fid = ((s.takeargs fid).1, none) from Prod.ext rfl hargs]
        dsimp only
        cases ((s.takeargs fid).1.obj o).data with
        | some r => exact ⟨htaken s.reg, nofun⟩
        | none =>
          cases ti.result with
          | some r => exact ⟨htaken s.reg, nofun⟩
          | none => exact ⟨htaken _, nofun⟩

theorem ctl_plain (h : Sound s) (data : Str) : Plain s (s.ctl data) := by
  rw [Server.ctl]
  split_ifs
  · split
    · exact ⟨h.same _ (.refl _), nofun⟩
    · exact h.plain nofun
  · exact ⟨h.same _ (.refl _), nofun⟩
  · exact h.plain nofun

theorem write_plain (h : Sound s) (iounit : Iounit) (data : List UInt8)
    (hbelow : ∀ f, s.fid fid = some f → TYPE f.path < Qtoolbase) :
    Plain s (s.write iounit fid data) := by
  rw [Server.write]
  cases ho : s.fids fid with
  | none => exact h.plain nofun
  | some o =>
    have hbase := hbelow (s.obj o) (by rw [Server.fid, ho]; rfl)
    dsimp only
    rw [if_pos hbase]
    split_ifs
    · exact h.plain nofun
    · exact h.plain nofun
    · exact h.plain nofun
    · exact ctl_plain h _
    · exact h.plain nofun

theorem write_tool (iounit : Iounit) (hopen : Opened s fid fun m => m = 1 ∨ m = 2) :
    ∃ o tool, s.fids fid = some o ∧ (s.obj o).isopen = true ∧ ∀ data,
      s.write iounit fid data =
        if (catargs (s.pending fid) data).length > MAXARGS then
          ((s.takeargs fid).1, .error .Etoolarge)
        else if data.length ≥ iounit then
          ((s.takeargs fid).1.keepargs fid (catargs (s.pending fid) data), .ok)
        else
          ((s.takeargs fid).1.begin
            ⟨.write, tool, some o, argstring (catargs (s.pending fid) data)⟩, .later) := by
  obtain ⟨f, hf, hisopen, hdir, hmode, hbase, hsub, hact⟩ := hopen
  obtain ⟨o, ho, rfl⟩ := Option.map_eq_some_iff.mp hf
  obtain ⟨ti, hti⟩ := Option.isSome_iff_exists.mp hact
  refine ⟨o, ti.name, ho, hisopen, fun data => ?_⟩
  have hmode' : ¬((s.obj o).mode ≠ 1 ∧ (s.obj o).mode ≠ 2) := by omega
  have hctl : ¬TYPE (s.obj o).path = Qctl := by
    rw [Qtoolbase] at hbase
    rw [Qctl]
    omega
  have hsub' : ¬((toolqtype (TYPE (s.obj o).path)).2 ≠ Qtool_ctl ∧
      (toolqtype (TYPE (s.obj o).path)).2 ≠ Qtool_run) := by omega
  simp only [Server.write, ho]
  rw [if_neg (by rw [hisopen]; decide), if_neg (by rw [hdir]; decide), if_neg hmode',
    if_neg hctl, if_neg (Nat.not_lt.mpr hbase), if_neg hsub', hti]
  rfl

theorem clunk_none (hpend : s.pending fid = none) (ho : s.fids fid = some o) :
    s.clunk fid = ((s.takeargs fid).1.delfid fid, .ok) := by
  rw [Server.clunk, show s.takeargs fid = ((s.takeargs fid).1, none) from Prod.ext rfl hpend]
  dsimp only
  rw [show (s.takeargs fid).1.fids fid = some o from ho]

theorem clunk_some {args : List UInt8} {ti : ToolInfo} (hpend : s.pending fid = some args)
    (ho : s.fids fid = some o) (hti : s.reg.findtoolbyqid (TYPE (s.obj o).path) = some ti) :
    s.clunk fid =
      (((s.takeargs fid).1.begin ⟨.none, ti.name, none, argstring args⟩).delfid fid, .ok) := by
  rw [Server.clunk,
    show s.takeargs fid = ((s.takeargs fid).1, some args) from Prod.ext rfl hpend]
  dsimp only
  rw [show (s.takeargs fid).1.fids fid = some o from ho]
  dsimp only
  rw [show (s.takeargs fid).1.reg.findtoolbyqid (TYPE ((s.takeargs fid).1.obj o).path) = some ti
    from hti]

theorem done_some {k : ℕ} {c : Call} (hc : s.calls[k]? = some c)
    (hact : (s.reg.findtool c.tool).isSome = true) (out : List UInt8) :
    ∃ a r, s.done k out true =
        ((match c.fid with
          | none => { s with calls := s.calls.eraseIdx k, reg := r }
          | some o => { s with calls := s.calls.eraseIdx k, reg := r }.setobj o
              { s.obj o with data := some ⟨c.tool, out⟩ }), a) ∧
      (a = .ok ∨ a = .result ⟨c.tool, out⟩) := by
  have hrun : s.reg.exectool c.tool out = out := by
    rw [Registry.exectool, if_neg (by rw [Option.isNone_iff_eq_none]; grind)]
  rw [Server.done, hc]
  dsimp only
  rw [if_pos rfl, hrun]
  refine ⟨_, _, rfl, ?_⟩
  cases c.cr with
  | none | write => exact .inl rfl
  | read => exact .inr rfl

end Infernode.Tools
