import Infernode.Namespace.Element

/-!
# Dot-dot and the mount-point stack

Walking `..` returns to the channel recorded in the stack where a mount was
crossed, and to the device's parent elsewhere. The file is always the one that
the list without its `x/..` leads to, so nothing above the origin is reached.
The channel recorded is the one the mount was made on, with the flags it had
then, and not the one walked through.
-/

namespace Infernode.Namespace

def Device.Parents (D : Device) : Prop :=
  ∀ f s q, D.child f s = some q → D.parent (f.at q) = f.path

def cleanelems (st : List String) : List Elem → List String
  | [] => st
  | .name s :: names => cleanelems (s :: st) names
  | .dotdot :: names => cleanelems st.tail names

def cleanname (names : List Elem) : List Elem := (cleanelems [] names).reverse.map .name

def Pinned (p : Named) : Prop :=
  ∃ c, pin p = [some c] ∧ c.file = p.c.file ∧ readonly c.mflag = readonly p.c.mflag

section
variable (D : Device) (T : MountTable) (nomount : Bool) (p : Named)

def Walks (names : List Elem) : Prop := ∀ k, ∃ r, walk D T p (names.take k) nomount = .ok r

def Lexical : Prop :=
  ∀ names, Walks D T nomount p names → ∃ r r', walk D T p names nomount = .ok r ∧
    walk D T p (cleanname names) nomount = .ok r' ∧
    r.c.file = r'.c.file ∧ readonly r.c.mflag = readonly r'.c.mflag

def Carried : Prop :=
  ∀ before q names r, walk D T p before nomount = .ok q →
    (walk D T q names nomount = .ok r ↔ walk D T p (before ++ names) nomount = .ok r)

def Clamped : Prop :=
  ∀ names r, walk D T p names nomount = .ok r →
    (∃ c, r.name.getLast? = some (some c) ∧ c.file = p.c.file) ∧
    ∃ (below : List String) (r' : Named), walk D T p (below.map .name) nomount = .ok r' ∧ r.c.file = r'.c.file

/-- The channels at and below the origin, each reached by name from the members
of what is mounted on the last. -/
inductive Below : Chan → Prop
  | origin : Below p.c
  | child (c c' : Chan) (s : String) (h : Below c) (hd : D.dir c.file = true)
      (hs : enter D s (members T nomount c) = some c') : Below c'

/-- Where a directory can be entered through a mount point, the channel the
mount was made on is as writable as the one met there. -/
def Steady : Prop :=
  ∀ c c' s m, Below D T nomount p c → D.dir c.file = true →
    enter D s (members T nomount c) = some c' → D.dir c'.file = true →
    mounted T nomount c.file = some m → readonly m.fromchan.mflag = readonly c.mflag

end

section
variable {D : Device} {T : MountTable} {nomount : Bool} {p : Named}

def kept (D : Device) (T : MountTable) (nomount : Bool) (p : Named) : List String → Option Named
  | [] => some ⟨p.c, pin p⟩
  | s :: st => (kept D T nomount p st).bind fun r => walkelem D T nomount r (.name s)

theorem kept_eq (st : List String) :
    kept D T nomount p st = walkelems D T nomount ⟨p.c, pin p⟩ (st.reverse.map .name) := by
  induction st with
  | nil => rfl
  | cons s st ih =>
    rw [kept, ih, List.reverse_cons, List.map_append, walkelems_append]
    congr 1
    funext r
    simp [walkelems_cons, walkelems_nil]

theorem kept_cons {s : String} {st : List String} {r : Named}
    (h : kept D T nomount p (s :: st) = some r) :
    ∃ q c, kept D T nomount p st = some q ∧ D.dir q.c.file = true ∧
      enter D s (members T nomount q.c) = some c ∧ r = ⟨c, none :: crossed T nomount q⟩ := by
  obtain ⟨q, hq, hr⟩ := Option.bind_eq_some_iff.mp h
  simp only [walkelem] at hr
  split_ifs at hr with hd
  obtain ⟨c, hc, rfl⟩ := Option.map_eq_some_iff.mp hr
  exact ⟨q, c, hq, hd, hc, rfl⟩

theorem kept_below {st : List String} {r : Named} (h : kept D T nomount p st = some r) :
    Below D T nomount p r.c := by
  induction st generalizing r with
  | nil =>
    obtain rfl := Option.some.inj h
    exact .origin
  | cons s st ih =>
    obtain ⟨q, c, hq, hd, hc, rfl⟩ := kept_cons h
    exact .child q.c c s (ih hq) hd hc

theorem below_kept {c : Chan} (h : Below D T nomount p c) :
    ∃ st r, kept D T nomount p st = some r ∧ r.c = c := by
  induction h with
  | origin => exact ⟨[], _, rfl, rfl⟩
  | child c c' s h hd hs ih =>
    obtain ⟨st, r, hr, rfl⟩ := ih
    refine ⟨s :: st, ⟨c', none :: crossed T nomount r⟩, ?_, rfl⟩
    simp only [kept, hr, Option.bind_some, walkelem, hd, if_true, hs, Option.map_some]

structure Like (K : Prop) (c c' : Chan) : Prop where
  file_eq : c.file = c'.file
  readonly_eq : K → readonly c.mflag = readonly c'.mflag

theorem Like.symm {K : Prop} {c c' : Chan} (h : Like K c c') : Like K c' c :=
  ⟨h.file_eq.symm, fun k => (h.readonly_eq k).symm⟩

theorem Like.refl (K : Prop) (c : Chan) : Like K c c := ⟨rfl, fun _ => rfl⟩

/-- The stack once the channel at its top is left by name: a slot holds what was
mounted upon there, and slot 0 the origin. -/
def Left (D : Device) (T : MountTable) (nomount : Bool) (p : Named) (K : Prop) :
    List String → Mtpt → Prop
  | [], name => ∃ c, name = [some c] ∧
      (Like K c p.c ∨ ∃ m, mounted T nomount p.c.file = some m ∧ c = m.fromchan)
  | s :: st, name => ∃ r rest, kept D T nomount p (s :: st) = some r ∧
      name = (mounted T nomount r.c.file).map Mhead.fromchan :: rest ∧
      Left D T nomount p K st rest

def Held (D : Device) (T : MountTable) (nomount : Bool) (p : Named) (K : Prop) :
    List String → Mtpt → Prop
  | [], name => ∃ c, name = [some c] ∧ Like K c p.c
  | _ :: st, name => ∃ rest, name = none :: rest ∧ Left D T nomount p K st rest

structure Follows (D : Device) (T : MountTable) (nomount : Bool) (p : Named) (K : Prop)
    (st : List String) (r : Named) : Prop where
  like : ∃ r', kept D T nomount p st = some r' ∧ Like K r.c r'.c
  held : Held D T nomount p K st r.name

variable {K : Prop}

theorem left_ne_nil {st : List String} {name : Mtpt} (h : Left D T nomount p K st name) :
    name ≠ [] := by
  cases st with
  | nil =>
    obtain ⟨c, rfl, -⟩ := h
    simp
  | cons s st =>
    obtain ⟨r, rest, -, rfl, -⟩ := h
    simp

theorem held_left {st : List String} {r r' : Named} (hr' : kept D T nomount p st = some r')
    (hfile : r.c.file = r'.c.file) (h : Held D T nomount p K st r.name) :
    Left D T nomount p K st (crossed T nomount r) := by
  cases st with
  | nil =>
    obtain rfl := Option.some.inj hr'
    obtain ⟨c, hname, hlike⟩ := h
    cases hm : mounted T nomount r.c.file with
    | none => exact ⟨c, by rw [crossed_clear hm, hname], .inl hlike⟩
    | some m =>
      refine ⟨m.fromchan, by rw [crossed_mounted hm, hname]; rfl, .inr ⟨m, ?_, rfl⟩⟩
      rw [← hm, hfile]
  | cons s st =>
    obtain ⟨rest, hname, hleft⟩ := h
    refine ⟨r', rest, hr', ?_, hleft⟩
    rw [← hfile]
    cases hm : mounted T nomount r.c.file with
    | none => rw [crossed_clear hm, hname]; rfl
    | some m => rw [crossed_mounted hm, hname]; rfl

theorem enter_like {s : String} {c c' d' : Chan} (h : Like K c c')
    (hd : enter D s (members T nomount c') = some d') :
    ∃ d, enter D s (members T nomount c) = some d ∧ Like K d d' := by
  cases hm : mounted T nomount c.file with
  | some m =>
    rw [members_mounted (h.file_eq ▸ hm)] at hd
    rw [members_mounted hm]
    exact ⟨d', hd, .refl K d'⟩
  | none =>
    rw [members_clear (h.file_eq ▸ hm)] at hd
    rw [members_clear hm]
    simp only [enter, h.file_eq] at hd ⊢
    cases hq : lookup D c'.file s with
    | none => simp [hq] at hd
    | some q =>
      simp only [hq] at hd ⊢
      obtain rfl := Option.some.inj hd
      refine ⟨_, rfl, ?_, h.readonly_eq⟩
      simp only [Chan.at, Bound.chan, h.file_eq]

theorem walkelem_name_follows {s : String} {st : List String} {r r' : Named}
    (h : Follows D T nomount p K st r) (hr : walkelem D T nomount r (.name s) = some r') :
    Follows D T nomount p K (s :: st) r' := by
  obtain ⟨⟨q, hq, hlike⟩, hheld⟩ := h
  simp only [walkelem] at hr
  split_ifs at hr with hd
  obtain ⟨c, hc, rfl⟩ := Option.map_eq_some_iff.mp hr
  obtain ⟨c', hc', hlike'⟩ := enter_like hlike.symm hc
  refine ⟨⟨⟨c', none :: crossed T nomount q⟩, ?_, hlike'.symm⟩, ?_⟩
  · rw [hlike.file_eq] at hd
    simp only [kept, hq, Option.bind_some, walkelem, hd, if_true, hc', Option.map_some]
  · exact ⟨_, rfl, held_left hq hlike.file_eq hheld⟩

theorem enter_clear_parent (hD : D.Parents) {s : String} {c d : Chan}
    (hm : mounted T nomount c.file = none) (h : enter D s (members T nomount c) = some d) :
    d.file.at (D.parent d.file) = c.file ∧ d.mflag = c.mflag := by
  rw [members_clear hm] at h
  simp only [enter] at h
  cases hq : lookup D c.file s with
  | none => simp [hq] at h
  | some q =>
    simp only [hq] at h
    obtain rfl := Option.some.inj h
    refine ⟨?_, rfl⟩
    have hchild : D.child c.file s = some q := by
      unfold lookup at hq
      split_ifs at hq
      exact hq
    change c.file.at (D.parent (c.file.at q)) = c.file
    rw [hD c.file s q hchild]
    rfl

theorem walkelem_dotdot_follows (hD : D.Parents) (hK : K → Steady D T nomount p)
    {st : List String} {r r' : Named} (h : Follows D T nomount p K st r)
    (hr : walkelem D T nomount r .dotdot = some r') :
    Follows D T nomount p K st.tail r' := by
  obtain ⟨⟨q, hq, hlike⟩, hheld⟩ := h
  simp only [walkelem] at hr
  split_ifs at hr with hd
  obtain rfl := Option.some.inj hr
  cases st with
  | nil =>
    obtain ⟨c, hname, hc⟩ := hheld
    have hdotdot : dotdot D r = ⟨c, [some c]⟩ := by
      simp [dotdot, hname, adddotdot, undomount]
    rw [hdotdot]
    exact ⟨⟨_, rfl, hc⟩, c, rfl, hc⟩
  | cons s st =>
    obtain ⟨rest, hname, hleft⟩ := hheld
    obtain ⟨q', c, hq', hdir, hc, rfl⟩ := kept_cons hq
    rw [hlike.file_eq] at hd
    have hcrossed : ∀ m, mounted T nomount q'.c.file = some m → Like K m.fromchan q'.c := by
      intro m hm
      exact ⟨mounted_file hm, fun k => hK k q'.c c s m (kept_below hq') hdir hc hd hm⟩
    have hrest : adddotdot r.name = rest := by
      rw [hname, adddotdot, if_pos]
      · rfl
      · have hlen := List.length_pos_iff.mpr (left_ne_nil hleft)
        simpa using hlen
    cases st with
    | nil =>
      obtain rfl := Option.some.inj hq'
      obtain ⟨x, hx, hlikex⟩ := hleft
      have hxp : Like K x p.c := by
        obtain hlikex | ⟨m, hm, rfl⟩ := hlikex
        · exact hlikex
        · exact hcrossed m hm
      have hdotdot : dotdot D r = ⟨x, [some x]⟩ := by
        simp [dotdot, hrest, hx, undomount]
      rw [hdotdot]
      exact ⟨⟨_, rfl, hxp⟩, x, rfl, hxp⟩
    | cons s' st =>
      obtain ⟨q'', rest', hq'', hx, hleft'⟩ := hleft
      obtain rfl := Option.some.inj (hq'.symm.trans hq'')
      have hne := left_ne_nil hleft'
      cases hm : mounted T nomount q'.c.file with
      | some m =>
        have hdotdot : dotdot D r = ⟨m.fromchan, none :: rest'⟩ := by
          cases rest' with
          | nil => exact absurd rfl hne
          | cons y ys => simp [dotdot, hrest, hx, hm, undomount]
        rw [hdotdot]
        exact ⟨⟨q', hq', hcrossed m hm⟩, rest', rfl, hleft'⟩
      | none =>
        have hdotdot : dotdot D r = ⟨devwalkdotdot D r.c, none :: rest'⟩ := by
          cases rest' with
          | nil => exact absurd rfl hne
          | cons y ys => simp [dotdot, hrest, hx, hm, undomount]
        obtain ⟨hparent, hflag⟩ := enter_clear_parent hD hm hc
        rw [hdotdot]
        refine ⟨⟨q', hq', ?_, ?_⟩, rest', rfl, hleft'⟩
        · change r.c.file.at (D.parent r.c.file) = q'.c.file
          rw [hlike.file_eq, hparent]
        · intro k
          exact (hlike.readonly_eq k).trans (congrArg readonly hflag)

theorem walkelems_follows (hD : D.Parents) (hK : K → Steady D T nomount p)
    {names : List Elem} {st : List String} {r r' : Named} (h : Follows D T nomount p K st r)
    (hr : walkelems D T nomount r names = some r') :
    Follows D T nomount p K (cleanelems st names) r' := by
  induction names generalizing st r with
  | nil =>
    obtain rfl := Option.some.inj hr
    exact h
  | cons x names ih =>
    rw [walkelems_cons] at hr
    obtain ⟨q, hq, hrest⟩ := Option.bind_eq_some_iff.mp hr
    cases x with
    | name s => exact ih (walkelem_name_follows h hq) hrest
    | dotdot => exact ih (walkelem_dotdot_follows hD hK h hq) hrest

theorem walk_ok (hT : T.Level D) {names : List Elem} {r : Named} :
    walk D T p names nomount = .ok r ↔
      walkelems D T nomount ⟨p.c, pin p⟩ names = some r := by
  rw [← walk_eq hT]
  cases walk D T p names nomount with
  | error e | ok r' => simp [Except.toOption]

theorem pinned_follows (hp : Pinned p) : Follows D T nomount p K [] ⟨p.c, pin p⟩ := by
  obtain ⟨c, hc, hfile, hflag⟩ := hp
  exact ⟨⟨_, rfl, .refl K _⟩, c, hc, hfile, fun _ => hflag⟩

theorem walks_of_walkelems (hT : T.Level D) {names : List Elem} {r : Named}
    (h : walkelems D T nomount ⟨p.c, pin p⟩ names = some r) : Walks D T nomount p names := by
  intro k
  rw [walkelems_split _ k] at h
  obtain ⟨q, hq, -⟩ := Option.bind_eq_some_iff.mp h
  exact ⟨q, (walk_ok hT).mpr hq⟩

theorem left_origin {st : List String} {name : Mtpt} (h : Left D T nomount p K st name) :
    ∃ c, name.getLast? = some (some c) ∧ c.file = p.c.file := by
  induction st generalizing name with
  | nil =>
    obtain ⟨c, rfl, hlike | ⟨m, hm, rfl⟩⟩ := h
    · exact ⟨c, rfl, hlike.file_eq⟩
    · exact ⟨m.fromchan, rfl, mounted_file hm⟩
  | cons s st ih =>
    obtain ⟨r, rest, -, rfl, hleft⟩ := h
    obtain ⟨c, hc, hfile⟩ := ih hleft
    refine ⟨c, ?_, hfile⟩
    rw [List.getLast?_cons, hc]
    rfl

theorem held_origin {st : List String} {name : Mtpt} (h : Held D T nomount p K st name) :
    ∃ c, name.getLast? = some (some c) ∧ c.file = p.c.file := by
  cases st with
  | nil =>
    obtain ⟨c, rfl, hlike⟩ := h
    exact ⟨c, rfl, hlike.file_eq⟩
  | cons s st =>
    obtain ⟨rest, rfl, hleft⟩ := h
    obtain ⟨c, hc, hfile⟩ := left_origin hleft
    refine ⟨c, ?_, hfile⟩
    rw [List.getLast?_cons, hc]
    rfl

theorem held_ne_nil {st : List String} {name : Mtpt} (h : Held D T nomount p K st name) :
    name ≠ [] := by
  obtain ⟨c, hc, -⟩ := held_origin h
  rintro rfl
  simp at hc

theorem walk_carried (hD : D.Parents) (hT : T.Level D) (hp : Pinned p) :
    Carried D T nomount p := by
  intro before q names r hq
  rw [walk_ok hT] at hq
  have hfollows : Follows D T nomount p False (cleanelems [] before) q :=
    walkelems_follows hD False.elim (pinned_follows hp) hq
  have hpin : pin q = q.name := if_neg (held_ne_nil hfollows.held)
  rw [walk_ok hT, walk_ok hT, hpin, walkelems_append, hq]
  rfl

theorem walk_clamped (hD : D.Parents) (hT : T.Level D) (hp : Pinned p) :
    Clamped D T nomount p := by
  intro names r hr
  have hfollows : Follows D T nomount p False (cleanelems [] names) r :=
    walkelems_follows hD False.elim (pinned_follows hp) ((walk_ok hT).mp hr)
  obtain ⟨⟨r', hr', hlike⟩, hheld⟩ := hfollows
  rw [kept_eq] at hr'
  exact ⟨held_origin hheld, _, r', (walk_ok hT).mpr hr', hlike.file_eq⟩

theorem steady_lexical (hD : D.Parents) (hT : T.Level D) (hp : Pinned p)
    (hsteady : Steady D T nomount p) : Lexical D T nomount p := by
  intro names hwalks
  obtain ⟨r, hr⟩ := hwalks names.length
  rw [List.take_length] at hr
  have hfollows : Follows D T nomount p True (cleanelems [] names) r :=
    walkelems_follows hD (fun _ => hsteady) (pinned_follows hp) ((walk_ok hT).mp hr)
  obtain ⟨⟨r', hr', hlike⟩, -⟩ := hfollows
  rw [kept_eq] at hr'
  exact ⟨r, r', hr, (walk_ok hT).mpr hr', hlike.file_eq, hlike.readonly_eq trivial⟩

theorem cleanelems_append (st : List String) (xs ys : List Elem) :
    cleanelems st (xs ++ ys) = cleanelems (cleanelems st xs) ys := by
  induction xs generalizing st with
  | nil => rfl
  | cons x xs ih =>
    cases x with
    | name s => exact ih (s :: st)
    | dotdot => exact ih st.tail

theorem cleanelems_names (st names : List String) :
    cleanelems st (names.map .name) = names.reverse ++ st := by
  induction names generalizing st with
  | nil => rfl
  | cons s names ih =>
    rw [List.map_cons, cleanelems, ih, List.reverse_cons, List.append_assoc]
    rfl

theorem kept_follows (hD : D.Parents) (hp : Pinned p) {st : List String} {r : Named}
    (h : kept D T nomount p st = some r) : Follows D T nomount p False st r := by
  rw [kept_eq] at h
  have hfollows := walkelems_follows hD False.elim (pinned_follows hp) h
  rwa [cleanelems_names, List.reverse_reverse, List.append_nil] at hfollows

theorem dotdot_mounted (hD : D.Parents) (hp : Pinned p) {st : List String} {r : Named} {c : Chan}
    {m : Mhead} (hr : kept D T nomount p st = some r)
    (hm : mounted T nomount r.c.file = some m) :
    (dotdot D ⟨c, none :: crossed T nomount r⟩).c = m.fromchan := by
  have hleft := held_left hr rfl (kept_follows hD hp hr).held
  have hne := left_ne_nil hleft
  rw [crossed_mounted hm] at hne ⊢
  cases hname : r.name with
  | nil => simp [hname, cnamecross] at hne
  | cons x rest =>
    cases rest with
    | nil | cons y ys => simp [dotdot, adddotdot, cnamecross, undomount]

theorem lexical_steady (hD : D.Parents) (hT : T.Level D) (hp : Pinned p)
    (hlexical : Lexical D T nomount p) : Steady D T nomount p := by
  intro c c' s m hbelow hdir hs hdir' hm
  obtain ⟨st, r, hr, rfl⟩ := below_kept hbelow
  have hwalk : walkelems D T nomount ⟨p.c, pin p⟩ (((s :: st).reverse.map .name) ++ [.dotdot]) =
      some (dotdot D ⟨c', none :: crossed T nomount r⟩) := by
    rw [walkelems_append, ← kept_eq, kept, hr]
    simp only [Option.bind_some, walkelem, hdir, hs, if_true, Option.map_some, walkelems_cons,
      hdir', walkelems_nil]
  have hclean : cleanname (((s :: st).reverse.map .name) ++ [.dotdot]) =
      st.reverse.map .name := by
    rw [cleanname, cleanelems_append, cleanelems_names, List.reverse_reverse, List.append_nil]
    rfl
  obtain ⟨q, q', hq, hq', -, hflag⟩ := hlexical _ (walks_of_walkelems hT hwalk)
  rw [walk_ok hT, hwalk] at hq
  rw [hclean, walk_ok hT, ← kept_eq, hr] at hq'
  obtain rfl := Option.some.inj hq
  obtain rfl := Option.some.inj hq'
  rwa [dotdot_mounted hD hp hr hm] at hflag

theorem lexical_iff (D : Device) (T : MountTable) (nomount : Bool) (p : Named)
    (hD : D.Parents) (hT : T.Level D) (hp : Pinned p) :
    Lexical D T nomount p ∧ Carried D T nomount p ∧ Clamped D T nomount p ↔
      Steady D T nomount p := by
  constructor
  · intro h
    exact lexical_steady hD hT hp h.1
  · intro h
    exact ⟨steady_lexical hD hT hp h, walk_carried hD hT hp, walk_clamped hD hT hp⟩

end

def treedev : Device where
  child f s :=
    match f.path, s with
    | 0, "Q" => some 1
    | 0, "q" => some 2
    | 0, "M" => some 3
    | 1, "p" => some 4
    | 4, "m" => some 5
    | 3, "c" => some 6
    | _, _ => none
  parent f :=
    match f.path with
    | 4 => 1
    | 5 => 4
    | 6 => 3
    | _ => 0
  dir _ := true

def treefile (path : ℕ) : File := ⟨0, 0, path⟩

def treetab : MountTable where
  find f :=
    if f = treefile 5 then some ⟨⟨treefile 5, 0⟩, [⟨⟨treefile 3, 0⟩, MREPL⟩]⟩
    else if f = treefile 2 then
      some ⟨⟨treefile 2, 0⟩, [⟨⟨treefile 1, 0⟩, MREPL ||| MREADONLY⟩]⟩
    else none
  keyed f m h := by
    split_ifs at h with h5 h2
    · obtain rfl := Option.some.inj h
      exact h5.symm
    · obtain rfl := Option.some.inj h
      exact h2.symm

def treeroot : Named := ⟨⟨treefile 0, 0⟩, []⟩

theorem treedev_parents : treedev.Parents := by
  intro f s q h
  simp only [treedev] at h
  split at h <;> cases h <;> simp_all [treedev, File.at]

theorem treetab_level : treetab.Level treedev := fun _ _ _ _ _ => rfl

theorem treeroot_pinned : Pinned treeroot := ⟨_, rfl, rfl, rfl⟩

theorem treeroot_lexical_iff :
    Lexical treedev treetab false treeroot ∧ Carried treedev treetab false treeroot ∧
      Clamped treedev treetab false treeroot ↔ Steady treedev treetab false treeroot :=
  lexical_iff treedev treetab false treeroot treedev_parents treetab_level treeroot_pinned

/-- `/q/p/m/c/../..` is `/q/p`, and is not read-only. -/
theorem treeroot_reopened : ¬ Lexical treedev treetab false treeroot := by
  intro h
  have hwalk : walkelems treedev treetab false ⟨treeroot.c, pin treeroot⟩
      [.name "q", .name "p", .name "m", .name "c", .dotdot, .dotdot] =
      some ⟨⟨treefile 4, 0⟩, [none, some ⟨treefile 2, 0⟩, some ⟨treefile 0, 0⟩]⟩ := by
    decide
  have hclean : walk treedev treetab treeroot [.name "q", .name "p"] false =
      .ok ⟨⟨treefile 4, MREADONLY⟩, [none, some ⟨treefile 2, 0⟩, some ⟨treefile 0, 0⟩]⟩ := by
    decide
  obtain ⟨r, r', hr, hr', -, hflag⟩ := h _ (walks_of_walkelems treetab_level hwalk)
  obtain rfl := Option.some.inj (((walk_ok treetab_level).mp hr).symm.trans hwalk)
  obtain rfl := Except.ok.inj (hr'.symm.trans hclean)
  exact absurd hflag (by decide)

end Infernode.Namespace
