import Infernode.Delegate.Request

/-!
# Delegation narrows

The narrowest grant over a path decides what may be done there. A child is given the grants
that its request names, each no wider than the server's own at that very path; but what the
server holds below a path named is not looked at. So a child has no more than its server
just when every read-only grant of the server that lies below a path named for writing is
itself below a narrower path that is named and read-only, and nothing privileged lies below
a path that is named.
-/

namespace Infernode.Delegate

open Limbo Veltro.Grant

variable {tree : Tree} {S C D : Server} {args p : Str} {bs : List BoundPath}

def Narrowest (bs : List BoundPath) (p : Str) (b : BoundPath) : Prop :=
  b ∈ bs ∧ within b.path p = true ∧
    ∀ c ∈ bs, within c.path p = true → c.path.length ≤ b.path.length

theorem Narrowest.same {b c : BoundPath} (hb : Narrowest bs p b) (hc : Narrowest bs p c) :
    b.path = c.path := by
  have hlen : b.path.length = c.path.length :=
    le_antisymm (hc.2.2 b hb.1 hb.2.1) (hb.2.2 c hc.1 hc.2.1)
  have heq {q r : Str} (hw : within q r = true) (hlen : q.length = r.length) : q = r := by
    rcases (within_iff q r).mp hw with h | ⟨t, rfl⟩
    · exact h.symm
    · simp at hlen
  rcases within_comparable hb.2.1 hc.2.1 with h | h
  · exact heq h hlen
  · exact (heq h hlen.symm).symm

/-- What the loop of `pathperm` has found: the narrowest grant, the read-only one of two. -/
def Best (bs : List BoundPath) (p : Str) (best : Str × Perm) : Prop :=
  (best = ([], .ro) ∧ ∀ b ∈ bs, within b.path p = false) ∨
    ∃ b, Narrowest bs p b ∧ best = (b.path, b.perm) ∧
      ∀ c, Narrowest bs p c → c.perm = .ro → b.perm = .ro

theorem foldl_narrower (p : Str) (hne : ∀ b ∈ bs, b.path ≠ []) :
    Best bs p (bs.foldl (narrower p) ([], .ro)) := by
  induction bs using List.reverseRecOn with
  | nil => exact .inl ⟨rfl, by simp⟩
  | append_singleton bs b ih =>
    have hbs : ∀ b ∈ bs, b.path ≠ [] := fun c hc => hne c (by simp [hc])
    have hpos : 0 < b.path.length := List.length_pos_of_ne_nil (hne b (by simp))
    rw [List.foldl_append, List.foldl_cons, List.foldl_nil, narrower]
    rcases ih hbs with ⟨hbest, hnone⟩ | ⟨d, hd, hbest, htie⟩
    · rw [hbest]
      split_ifs with hover
      · refine .inr ⟨b, ⟨by simp, hover.1, ?_⟩, rfl, ?_⟩
        · intro c hc hw
          rcases List.mem_append.mp hc with hc | hc
          · rw [hnone c hc] at hw
            cases hw
          · rw [List.mem_singleton.mp hc]
        · intro c hc hro
          rcases List.mem_append.mp hc.1 with hmem | hmem
          · have hw := hc.2.1
            rw [hnone c hmem] at hw
            cases hw
          · rwa [List.mem_singleton.mp hmem] at hro
      · refine .inl ⟨rfl, fun c hc => ?_⟩
        rcases List.mem_append.mp hc with hc | hc
        · exact hnone c hc
        · rw [List.mem_singleton.mp hc, ← Bool.not_eq_true]
          exact fun hw => hover ⟨hw, .inl hpos⟩
    · rw [hbest]
      split_ifs with hover
      · -- the new grant is longer than the best, or as long and read-only
        have hle : d.path.length ≤ b.path.length := by
          rcases hover.2 with h | h
          · exact h.le
          · exact h.1.ge
        refine .inr ⟨b, ⟨by simp, hover.1, ?_⟩, rfl, ?_⟩
        · intro c hc hw
          rcases List.mem_append.mp hc with hc | hc
          · exact (hd.2.2 c hc hw).trans hle
          · rw [List.mem_singleton.mp hc]
        · intro c hc hro
          rcases List.mem_append.mp hc.1 with hmem | hmem
          · rcases hover.2 with hlt | htied
            · have hcb := hc.2.2 b (by simp) hover.1
              have hdc := hd.2.2 c hmem hc.2.1
              exact absurd hlt (by simp only; omega)
            · exact htied.2
          · rwa [List.mem_singleton.mp hmem] at hro
      · refine .inr ⟨d, ⟨by simp [hd.1], hd.2.1, ?_⟩, rfl, ?_⟩
        · intro c hc hw
          rcases List.mem_append.mp hc with hc | hc
          · exact hd.2.2 c hc hw
          · rw [List.mem_singleton.mp hc] at hw ⊢
            by_contra hlt
            exact hover ⟨hw, .inl (by simpa using hlt)⟩
        · intro c hc hro
          rcases List.mem_append.mp hc.1 with hmem | hmem
          · exact htie c ⟨hmem, hc.2.1, fun e he => hc.2.2 e (by simp [he])⟩ hro
          · rw [List.mem_singleton.mp hmem] at hc hro
            have hdb := hc.2.2 d (by simp [hd.1]) hd.2.1
            by_contra hrw
            refine hover ⟨hc.2.1, ?_⟩
            simp only
            rcases hdb.lt_or_eq with hlt | heq
            · exact .inl hlt
            · exact .inr ⟨heq.symm, hro⟩

theorem pathperm_cases (hne : ∀ b ∈ bs, b.path ≠ []) (hp : p ≠ scratch) :
    (pathperm bs p = .bound .ro ∧ ∀ b ∈ bs, within b.path p = false) ∨
      ∃ b, Narrowest bs p b ∧ pathperm bs p = .bound b.perm ∧
        ∀ c, Narrowest bs p c → c.perm = .ro → b.perm = .ro := by
  rw [pathperm, if_neg hp]
  rcases foldl_narrower p hne with ⟨hbest, hnone⟩ | ⟨b, hb, hbest, htie⟩
  · exact .inl ⟨by rw [hbest], hnone⟩
  · exact .inr ⟨b, hb, by rw [hbest], htie⟩

theorem within_trans {q r s : Str} (h : within q r = true) (h' : within r s = true) :
    within q s = true := by
  rw [within_iff_isPrefix] at *
  exact h.trans h'

theorem within_length {q r : Str} (h : within q r = true) : q.length ≤ r.length := by
  obtain ⟨t, rfl⟩ := (prefixed_iff r q).mp (prefixed_of_within h)
  simp

theorem Narrowest.between {b : BoundPath} {q : Str} (hb : Narrowest bs p b)
    (hbq : within b.path q = true) (hqp : within q p = true) : Narrowest bs q b :=
  ⟨hb.1, hbq, fun c hc hw => hb.2.2 c hc (within_trans hw hqp)⟩

/-- Read-only is below every permission, and the others are apart. -/
instance : LE Access := ⟨fun a b => a = b ∨ a = .bound .ro⟩

theorem Access.le_trans {a b c : Access} (hab : a ≤ b) (hbc : b ≤ c) : a ≤ c := by
  rcases hab with rfl | rfl
  · exact hbc
  · exact .inr rfl

theorem Access.option_le_trans {a b c : Option Access} (hab : a ≤ b) (hbc : b ≤ c) : a ≤ c := by
  cases a with
  | none => exact Option.none_le
  | some a =>
    cases b with
    | none => exact absurd hab Option.not_some_le_none
    | some b =>
      cases c with
      | none => exact absurd hbc Option.not_some_le_none
      | some c =>
        rw [Option.some_le_some] at *
        exact Access.le_trans hab hbc

namespace Server

def covers (S : Server) (p : Str) : Bool :=
  p == scratch || (S.extpaths.any fun ep => within ep p) ||
    S.boundpaths.any fun b => within b.path p

def effective (S : Server) (p : Str) : Option Access :=
  if S.covers p then some (pathperm S.boundpaths p) else none

end Server

structure Narrows (tree : Tree) (S C : Server) : Prop where
  tools : ∀ ti ∈ C.reg.tools, S.Hands ti.name
  budget : C.budget = []
  access : ∀ p, tree.stat p = true → C.effective p ≤ S.effective p
  closed : ∀ p, tree.stat p = true → bindpathallowed p = false → C.covers p = false

/-- What a request must leave alone: the read-only grants below the paths it names for
writing, and what is privileged below any. -/
structure Keeps (tree : Tree) (S : Server) (args : Str) : Prop where
  readonly : ∀ b ∈ S.boundpaths, b.perm = .ro → tree.stat b.path = true →
    ∀ c, Narrowest (named args) b.path c →
      c.perm = .ro ∨ pathperm S.boundpaths c.path = .bound .ro
  closed : ∀ c ∈ named args, ∀ p, tree.stat p = true → within c.path p = true →
    bindpathallowed p = true

theorem narrowest_capped {asks : List BoundPath} {b : BoundPath} :
    Narrowest (asks.map (capped bs)) p b ↔ ∃ c, Narrowest asks p c ∧ capped bs c = b := by
  constructor
  · rintro ⟨hmem, hw, hlen⟩
    obtain ⟨c, hc, rfl⟩ := List.mem_map.mp hmem
    rw [capped_path] at hw hlen
    refine ⟨c, ⟨hc, hw, fun d hd hdw => ?_⟩, rfl⟩
    simpa using hlen (capped bs d) (List.mem_map_of_mem hd) (by simpa using hdw)
  · rintro ⟨c, ⟨hc, hw, hlen⟩, rfl⟩
    refine ⟨List.mem_map_of_mem hc, by simpa using hw, fun d hd hdw => ?_⟩
    obtain ⟨e, he, rfl⟩ := List.mem_map.mp hd
    simp only [capped_path] at hdw ⊢
    exact hlen e he hdw

theorem capped_rw {c : BoundPath} :
    (capped bs c).perm = .rw ↔ c.perm = .rw ∧ pathperm bs c.path ≠ .bound .ro := by
  rw [capped]
  split_ifs with h
  · simp [h]
  · simp [h]

theorem covers_bound {b : BoundPath} (hb : b ∈ S.boundpaths) (hw : within b.path p = true) :
    S.covers p = true := by
  simp only [Server.covers, Bool.or_eq_true, List.any_eq_true]
  exact .inr ⟨b, hb, hw⟩

theorem covers_of_allowed {q : Str} (h : S.childpathallowed tree q = true)
    (hw : within q p = true) : S.covers p = true := by
  have hext (ep : Str) (hep : ep ∈ S.extpaths) (hq : within ep q = true) : S.covers p = true := by
    simp only [Server.covers, Bool.or_eq_true, List.any_eq_true]
    exact .inl (.inr ⟨ep, hep, within_trans hq hw⟩)
  have hwithin {g : Str} (hg : grantcovers tree g q = true) : within g q = true := by
    simp only [grantcovers, Bool.and_eq_true] at hg
    exact hg.1.1
  rw [Server.childpathallowed] at h
  split_ifs at h
  · rcases (Bool.or_eq_true _ _).mp h with hmem | hfound
    · exact hext q (of_decide_eq_true hmem) (within_self q)
    · obtain ⟨b, hb⟩ := Option.isSome_iff_exists.mp hfound
      have hpath : b.path = q := by simpa using List.find?_some hb
      exact covers_bound (List.mem_of_find?_eq_some hb) (hpath ▸ hw)
  · rcases (Bool.or_eq_true _ _).mp h with hany | hany
    · obtain ⟨ep, hep, hg⟩ := List.any_eq_true.mp hany
      exact hext ep hep (hwithin hg)
    · obtain ⟨b, hb, hg⟩ := List.any_eq_true.mp hany
      exact covers_bound hb (within_trans (hwithin hg) hw)

theorem grants_ne_nil (S : Server) : ∀ b ∈ S.boundpaths, b.path ≠ [] :=
  fun b hb => (S.grants b hb).ne_nil

theorem pathperm_rw (hp : p ≠ scratch) (h : pathperm bs p ≠ .bound .ro) :
    pathperm bs p = .bound .rw := by
  rw [pathperm, if_neg hp] at h ⊢
  generalize (bs.foldl (narrower p) ([], .ro)).2 = perm at h ⊢
  cases perm with
  | ro => exact absurd rfl h
  | rw => rfl

theorem exists_grant (hp : p ≠ scratch) (h : pathperm S.boundpaths p = .bound .rw) :
    ∃ b ∈ S.boundpaths, within b.path p = true := by
  rcases pathperm_cases (grants_ne_nil S) hp with ⟨hro, -⟩ | ⟨b, hb, -⟩
  · rw [hro] at h
    cases h
  · exact ⟨b, hb.1, hb.2.1⟩

theorem pathperm_readonly {b : BoundPath} (hb : b ∈ S.boundpaths) (hro : b.perm = .ro) :
    pathperm S.boundpaths b.path = .bound .ro := by
  have hself : Narrowest S.boundpaths b.path b :=
    ⟨hb, within_self _, fun c _ hw => within_length hw⟩
  rcases pathperm_cases (grants_ne_nil S) (S.grants b hb).2.2 with ⟨h, -⟩ | ⟨c, -, h, htie⟩
  · exact h
  · rw [h, htie b hself hro]

theorem covers_given (hg : Given tree S args C) :
    C.covers p = true ↔ p = scratch ∨ ∃ c ∈ named args, within c.path p = true := by
  simp [Server.covers, hg.extpaths, hg.boundpaths]

theorem widened (hg : Given tree S args C) (hp : p ≠ scratch)
    (hC : pathperm C.boundpaths p = .bound .rw) (hS : pathperm S.boundpaths p ≠ .bound .rw) :
    ∃ b ∈ S.boundpaths, b.perm = .ro ∧ within b.path p = true ∧
      ∃ c, Narrowest (named args) b.path c ∧ c.perm = .rw ∧
        pathperm S.boundpaths c.path ≠ .bound .ro := by
  rcases pathperm_cases (grants_ne_nil C) hp with ⟨hro, -⟩ | ⟨d, hd, hperm, -⟩
  · rw [hro] at hC
    cases hC
  rw [hg.boundpaths] at hd
  obtain ⟨c, hc, rfl⟩ := narrowest_capped.mp hd
  have hrw : (capped S.boundpaths c).perm = .rw := by
    rw [hperm] at hC
    exact Access.bound.inj hC
  obtain ⟨hcrw, hcS⟩ := capped_rw.mp hrw
  have hcscratch : c.path ≠ scratch := (hg.allowed c hc.1).1.2.2
  obtain ⟨g, hgS, hgw⟩ := exists_grant hcscratch (pathperm_rw hcscratch hcS)
  have hcp : within c.path p = true := hc.2.1
  rcases pathperm_cases (grants_ne_nil S) hp with ⟨-, hnone⟩ | ⟨b, hb, hbperm, -⟩
  · have hover := within_trans hgw hcp
    rw [hnone g hgS] at hover
    cases hover
  have hbro : b.perm = .ro := by
    cases hperm' : b.perm with
    | ro => rfl
    | rw => exact absurd (hperm' ▸ hbperm) hS
  refine ⟨b, hb.1, hbro, hb.2.1, c, ?_, hcrw, hcS⟩
  rcases within_comparable hb.2.1 hcp with hbc | hcb
  · -- a read-only grant over the path that was named caps it
    have hnarrow := hb.between hbc hcp
    rcases pathperm_cases (grants_ne_nil S) hcscratch with ⟨hro, -⟩ | ⟨e, -, he, htie⟩
    · exact absurd hro hcS
    · exact absurd (he.trans (congrArg Access.bound (htie b hnarrow hbro))) hcS
  · exact hc.between hcb hb.2.1

theorem narrows_iff (hg : Given tree S args C) : Narrows tree S C ↔ Keeps tree S args := by
  constructor
  · intro h
    refine ⟨fun b hb hro hstat c hc => ?_, fun c hc p hstat hw => ?_⟩
    · by_contra hwide
      rw [not_or] at hwide
      have hcrw : c.perm = .rw := by
        cases hperm : c.perm with
        | ro => exact absurd hperm hwide.1
        | rw => rfl
      have hbscratch := (S.grants b hb).2.2
      have hcap : Narrowest C.boundpaths b.path (capped S.boundpaths c) := by
        rw [hg.boundpaths]
        exact narrowest_capped.mpr ⟨c, hc, rfl⟩
      have hC : pathperm C.boundpaths b.path = .bound .rw := by
        rcases pathperm_cases (grants_ne_nil C) hbscratch with ⟨-, hnone⟩ | ⟨d, hd, hperm, -⟩
        · have hover := hcap.2.1
          rw [hnone _ hcap.1] at hover
          cases hover
        · rw [hperm]
          rw [hg.boundpaths] at hd
          obtain ⟨e, he, rfl⟩ := narrowest_capped.mp hd
          have hec : e = c := by
            refine List.inj_on_of_nodup_map (named_nodup args) he.1 hc.1 (he.same hc)
          rw [hec, capped_rw.mpr ⟨hcrw, hwide.2⟩]
      have haccess := h.access b.path hstat
      rw [Server.effective, Server.effective, if_pos (covers_bound hcap.1 hcap.2.1),
        if_pos (covers_bound hb (within_self _)), hC, pathperm_readonly hb hro,
        Option.some_le_some] at haccess
      rcases haccess with heq | heq
      · cases heq
      · cases heq
    · by_contra hpriv
      rw [Bool.not_eq_true] at hpriv
      have hopen := h.closed p hstat hpriv
      rw [(covers_given hg).mpr (.inr ⟨c, hc, hw⟩)] at hopen
      cases hopen
  · intro h
    refine ⟨hg.tools, hg.budget, fun p hstat => ?_, fun p hstat hpriv => ?_⟩
    · rw [Server.effective]
      split_ifs with hcov
      swap
      · exact Option.none_le
      by_cases hp : p = scratch
      · subst hp
        have hcovS : S.covers scratch = true := by simp [Server.covers]
        rw [Server.effective, if_pos hcovS, pathperm, if_pos rfl, pathperm, if_pos rfl,
          Option.some_le_some]
        exact .inl rfl
      obtain ⟨c, hc, hw⟩ := ((covers_given hg).mp hcov).resolve_left hp
      rw [Server.effective, if_pos (covers_of_allowed (hg.allowed c hc).2 hw),
        Option.some_le_some]
      by_cases hro : pathperm C.boundpaths p = .bound .ro
      · exact .inr hro
      left
      rw [pathperm_rw hp hro]
      by_contra hS
      obtain ⟨b, hb, hbro, hbw, d, hd, hdrw, hdS⟩ :=
        widened hg hp (pathperm_rw hp hro) (fun heq => hS heq.symm)
      rcases h.readonly b hb hbro (tree.up _ _ hbw hstat) d hd with hdro | hcap
      · rw [hdrw] at hdro
        cases hdro
      · exact hdS hcap
    · rw [← Bool.not_eq_true, covers_given hg]
      rintro (rfl | ⟨c, hc, hw⟩)
      · exact absurd hpriv (by decide)
      · rw [h.closed c hc p hstat hw] at hpriv
        cases hpriv

theorem Narrows.trans (h : Narrows tree S C) (h' : Narrows tree C D) : Narrows tree S D where
  tools := by
    intro ti hti
    rcases h'.tools ti hti with hbudget | ⟨hbasic, hactive⟩
    · rw [h.budget] at hbudget
      simp at hbudget
    · obtain ⟨ti', hfound⟩ := Option.isSome_iff_exists.mp hactive
      obtain ⟨hmem, hname⟩ := Tools.findin_some hfound
      have hlow : ∀ t ∈ basics, asciilower t = t := by decide
      rw [hlow _ hbasic] at hname
      exact hname ▸ h.tools ti' hmem
  budget := h'.budget
  access := fun p hp => Access.option_le_trans (h'.access p hp) (h.access p hp)
  closed := h'.closed

/-- A server starts a child for a request that keeps to what it must leave alone. -/
def Provisions (tree : Tree) (S C : Server) : Prop :=
  ∃ args S' child loads, S.provisionwrite tree args = (S', .started child) ∧
    init loads child.rargs = some C ∧ Keeps tree S args

theorem provisionwrite_started {S' : Server} {child : Child}
    (h : S.provisionwrite tree args = (S', .started child)) :
    S.provisionparse tree args = .ok child := by
  rw [Server.provisionwrite] at h
  split at h
  · cases h
  · rename_i child' hparse
    rw [hparse, Outcome.started.inj (Prod.mk.inj h).2]

/-- A request that is refused starts nothing. A child has no more than its server just when
its request keeps to what it must leave alone, and so has every child down a chain of such
requests. -/
theorem provision_narrows (tree : Tree) (S : Server) :
    (∀ args e, S.provisionparse tree args = .error e →
      S.provisionwrite tree args = (S, .refused ("provision refused: " ++ e))) ∧
    (∀ args S' child loads C, S.provisionwrite tree args = (S', .started child) →
      init loads child.rargs = some C → (Narrows tree S C ↔ Keeps tree S args)) ∧
    ∀ C, Relation.TransGen (Provisions tree) S C → Narrows tree S C := by
  have hone (S : Server) (args : Str) (S' : Server) (child : Child) (loads : Str → Bool)
      (C : Server) (hwrite : S.provisionwrite tree args = (S', .started child))
      (hinit : init loads child.rargs = some C) : Narrows tree S C ↔ Keeps tree S args :=
    narrows_iff (given (provisionwrite_started hwrite) hinit)
  refine ⟨?_, hone S, ?_⟩
  · intro args e he
    rw [Server.provisionwrite, he]
  · intro C hchain
    have hstep {S C : Server} : Provisions tree S C → Narrows tree S C := by
      rintro ⟨args, S', child, loads, hwrite, hinit, hkeeps⟩
      exact (hone S args S' child loads C hwrite hinit).mpr hkeeps
    -- along the chain, from the first server
    induction hchain with
    | single h => exact hstep h
    | tail _ h ih => exact ih.trans (hstep h)

def smalltree : Tree where
  stat := fun p => within p "/n/a/b"
  up := fun _ _ => within_trans

def smallserver : Server where
  reg := Tools.inittools (fun _ => true) ["read"]
  budget := []
  extpaths := []
  boundpaths := [⟨"/n/a/b", .ro⟩, ⟨"/n/a", .rw⟩]
  provisionstates := []
  verbose := false
  known := (Tools.inittools_known _ _).1
  extgrants := Conf.start.extgrants
  grants := by decide

/-- Asked for `/n/a` alone, the server starts a child that may write below `/n/a/b`. -/
theorem provision_widens : ∃ S' child C,
    smallserver.provisionwrite smalltree "7 paths=/n/a" = (S', .started child) ∧
      init (fun _ => true) child.rargs = some C ∧
      smallserver.effective "/n/a/b" = some (.bound .ro) ∧
      C.effective "/n/a/b" = some (.bound .rw) ∧ ¬Narrows smalltree smallserver C := by
  have hok : (smallserver.provisionparse smalltree "7 paths=/n/a").toOption.isSome = true := by
    decide
  obtain ⟨child, hparse⟩ : ∃ child,
      smallserver.provisionparse smalltree "7 paths=/n/a" = .ok child := by
    cases h : smallserver.provisionparse smalltree "7 paths=/n/a" with
    | error e => simp [h, Except.toOption] at hok
    | ok child => exact ⟨child, rfl⟩
  obtain ⟨C, hinit⟩ := init_starts (fun _ => true) hparse ⟨"read", by decide, by decide⟩
  have hg := given hparse hinit
  have hbound : C.boundpaths = [⟨"/n/a", .rw⟩] := by
    rw [hg.boundpaths]
    decide
  have hS : smallserver.effective "/n/a/b" = some (.bound .ro) := by decide
  have hC : C.effective "/n/a/b" = some (.bound .rw) := by
    rw [Server.effective, Server.covers, hbound, hg.extpaths]
    decide
  refine ⟨_, child, C, by rw [Server.provisionwrite, hparse], hinit, hS, hC, fun h => ?_⟩
  have haccess := h.access "/n/a/b" (by decide)
  rw [hS, hC, Option.some_le_some] at haccess
  rcases haccess with heq | heq
  · cases heq
  · cases heq

/-!
## Commands

Each command of the ctl file changes what is granted at one path, and the rest follows.
-/

/-- What is granted at a path itself. -/
def held (bs : List BoundPath) (p : Str) : Option Perm := (findboundpath bs p).map (·.perm)

def Ctl.tell (h : Str → Option Perm) : Ctl → Str → Option Perm
  | bindpath rest =>
    let bp := splitpathperm rest
    if Grantable bp.1 then Function.update h bp.1 (some bp.2) else h
  | unbindpath p => if validatepath p = none then Function.update h p none else h
  | setperm rest =>
    let sp := splitpathperm rest
    if validatepath sp.1 = none ∧ (h sp.1).isSome then Function.update h sp.1 (some sp.2) else h

theorem held_cons (b : BoundPath) (q : Str) :
    held (b :: bs) q = if b.path = q then some b.perm else held bs q := by
  rw [held, findboundpath, List.find?_cons]
  split_ifs <;> simp_all [held, findboundpath]

theorem held_isSome {q : Str} : (held bs q).isSome ↔ q ∈ bs.map (·.path) := by
  induction bs with
  | nil => simp [held, findboundpath]
  | cons b bs ih => grind [held_cons]

theorem held_eq (hn : (bs.map (·.path)).Nodup) {q : Str} {perm : Perm} :
    held bs q = some perm ↔ ⟨q, perm⟩ ∈ bs := by
  induction bs with
  | nil => simp [held, findboundpath]
  | cons b bs ih =>
    obtain ⟨r, c⟩ := b
    have := @held_isSome bs q
    grind [held_cons]

theorem held_setbound (perm : Perm) (h : p ∈ bs.map (·.path)) :
    held (Server.setbound p perm bs) = Function.update (held bs) p (some perm) := by
  ext1 q
  induction bs with
  | nil => simp at h
  | cons b bs ih => grind [held_cons, Server.setbound, Function.update_apply]

theorem Server.ctl_held (S : Server) (c : Ctl) (hn : (S.boundpaths.map (·.path)).Nodup) :
    ((S.ctl c).boundpaths.map (·.path)).Nodup ∧
      held (S.ctl c).boundpaths = c.tell (held S.boundpaths) := by
  have hin := @held_isSome S.boundpaths
  cases c with
  | bindpath rest =>
    simp only [ctl, Ctl.tell, bindpath]
    grind [Grantable, held_setbound, setbound_path, held, held_cons, Function.update_apply]
  | unbindpath p =>
    simp only [ctl, Ctl.tell, unbindpath]
    cases validatepath p with
    | some => exact ⟨hn, rfl⟩
    | none =>
      have hn' : (((S.boundpaths.filter fun b => b.path ≠ p).reverse).map (·.path)).Nodup := by
        rw [List.map_reverse, List.nodup_reverse]
        exact hn.sublist (List.filter_sublist.map _)
      refine ⟨hn', funext fun q => Option.ext fun perm => ?_⟩
      grind [held_eq, Function.update_apply]
  | setperm rest =>
    simp only [ctl, Ctl.tell, setperm]
    grind [held_setbound, setbound_path, held]

theorem pathperm_held (hn : (S.boundpaths.map (·.path)).Nodup) (hp : p ≠ scratch) :
    pathperm S.boundpaths p = .bound .rw ↔ ∃ q, held S.boundpaths q = some .rw ∧
      within q p ∧ ∀ r, (held S.boundpaths r).isSome → within r p → r.length ≤ q.length := by
  simp only [held_eq hn, held_isSome]
  rcases pathperm_cases (grants_ne_nil S) hp with ⟨hro, hnone⟩ | ⟨b, hb, hperm, -⟩
  · grind
  constructor
  · intro h
    refine ⟨b.path, ?_, hb.2.1, List.forall_mem_map.mpr hb.2.2⟩
    rw [← Access.bound.inj (hperm.symm.trans h)]
    exact hb.1
  · rintro ⟨q, hq, hw, hlen⟩
    have hqn : Narrowest S.boundpaths p ⟨q, .rw⟩ := ⟨hq, hw, List.forall_mem_map.mp hlen⟩
    rw [hperm, List.inj_on_of_nodup_map hn hb.1 hq (hb.same hqn)]

theorem Conf.setopt_nodup {conf conf' : Conf} {o : Char} {a a' : Arg}
    (h : conf.setopt o a = some (conf', a')) (hn : (conf.boundpaths.map (·.path)).Nodup) :
    (conf'.boundpaths.map (·.path)).Nodup := by
  have := @nodup_addgrant
  simp only [Conf.setopt, Conf.optpath, Conf.optrole, Option.bind_eq_bind] at h
  grind [Option.bind_eq_some_iff]

theorem getopts_nodup {conf conf' : Conf} {a : Arg} {args : List Str}
    (h : getopts conf a = some (conf', args)) (hn : (conf.boundpaths.map (·.path)).Nodup) :
    (conf'.boundpaths.map (·.path)).Nodup := by
  fun_induction getopts with grind [Conf.setopt_nodup]

theorem init_nodup {loads : Str → Bool} {argv : List Str} (h : init loads argv = some S) :
    (S.boundpaths.map (·.path)).Nodup := by
  rw [init] at h
  grind [getopts_nodup, Conf.start]

/-- However the control file is written to, what is held is what each command says of its own
path, and what may be written is what the narrowest path held says. -/
theorem ctl_exact {loads : Str → Bool} {argv : List Str} (hinit : init loads argv = some S)
    (cs : List Ctl) (hp : p ≠ scratch) :
    let h := cs.foldl Ctl.tell (held S.boundpaths)
    held (cs.foldl Server.ctl S).boundpaths = h ∧
      (pathperm (cs.foldl Server.ctl S).boundpaths p = .bound .rw ↔ ∃ q, h q = some .rw ∧
        within q p ∧ ∀ r, (h r).isSome → within r p → r.length ≤ q.length) := by
  have hn := init_nodup hinit
  clear hinit
  induction cs generalizing S with
  | nil => exact ⟨rfl, pathperm_held hn hp⟩
  | cons c cs ih =>
    obtain ⟨hn, hc⟩ := S.ctl_held c hn
    simpa [hc] using ih hn

theorem ctl_exact_narrower : ∃ S q, init (fun _ => true) ["tools9p", "read"] = some S ∧
    [Ctl.bindpath "/n/a ro", .bindpath "/n/a/b"].foldl Ctl.tell (held S.boundpaths) q = some .rw ∧
      within q "/n/a/b/c" := by
  have hinit : init (fun _ => true) ["tools9p", "read"] =
      some { smallserver with boundpaths := [], grants := by simp } := by
    rw [init, List.tail, getopts_words _ (by decide)]
    exact rfl
  obtain ⟨q, hq, hw, -⟩ := (ctl_exact (p := "/n/a/b/c") hinit
    [Ctl.bindpath "/n/a ro", .bindpath "/n/a/b"] (by decide)).2.mp (by decide)
  exact ⟨_, q, hinit, hq, hw⟩

end Infernode.Delegate
