import Infernode.Namespace.Walk

/-!
# A walk, one element at a time

The walk asks a device for many names at once and looks for mounts afterwards.
What it computes is one step for each element: a name is looked up in the
members of what is mounted on the channel, `..` goes to the device's parent and
the stack. The channel is then always the one mounted upon.
-/

namespace Infernode.Namespace

theorem File.at_at (f : File) (p q : ℕ) : (f.at p).at q = f.at q := rfl

/-- A file is a directory exactly when what is mounted on it are. `cmount`
refuses a mount of the one kind on the other. -/
def MountTable.Level (T : MountTable) (D : Device) : Prop :=
  ∀ f m b, T.find f = some m → b ∈ m.mount → D.dir b.tochan.file = D.dir f

section
variable (D : Device) (T : MountTable) (nomount : Bool)

def mounted (f : File) : Option Mhead := if nomount then none else T.find f

def members (c : Chan) : List Bound :=
  match mounted T nomount c.file with
  | none => [⟨c, c.mflag⟩]
  | some m => m.mount

def crossed (p : Named) : Mtpt :=
  match mounted T nomount p.c.file with
  | none => p.name
  | some m => cnamecross p.name m.fromchan

def enter (s : String) : List Bound → Option Chan
  | [] => none
  | b :: bs =>
    match lookup D b.tochan.file s with
    | some q => some (b.chan.at q)
    | none => enter s bs

def dotdot (p : Named) : Named :=
  let (c, name) := undomount (devwalkdotdot D p.c) (adddotdot p.name)
  ⟨c, name⟩

def walkelem (p : Named) : Elem → Option Named
  | .dotdot => if D.dir p.c.file then some (dotdot D p) else none
  | .name s =>
    if D.dir p.c.file then
      (enter D s (members T nomount p.c)).map fun c => ⟨c, none :: crossed T nomount p⟩
    else none

def walkelems (p : Named) (names : List Elem) : Option Named :=
  names.foldlM (walkelem D T nomount) p

end

section
variable {D : Device} {T : MountTable} {nomount : Bool}

theorem walkelems_nil (p : Named) : walkelems D T nomount p [] = some p := rfl

theorem walkelems_cons (p : Named) (x : Elem) (names : List Elem) :
    walkelems D T nomount p (x :: names) =
      (walkelem D T nomount p x).bind fun r => walkelems D T nomount r names := rfl

theorem walkelems_append (p : Named) (xs ys : List Elem) :
    walkelems D T nomount p (xs ++ ys) =
      (walkelems D T nomount p xs).bind fun r => walkelems D T nomount r ys := by
  simp only [walkelems, List.foldlM_append]
  rfl

theorem walkelems_split (p : Named) (n : ℕ) (names : List Elem) :
    walkelems D T nomount p names =
      (walkelems D T nomount p (names.take n)).bind fun r =>
        walkelems D T nomount r (names.drop n) := by
  rw [← walkelems_append, List.take_append_drop]

theorem members_clear {c : Chan} (h : mounted T nomount c.file = none) :
    members T nomount c = [⟨c, c.mflag⟩] := by
  simp only [members, h]

theorem crossed_clear {p : Named} (h : mounted T nomount p.c.file = none) :
    crossed T nomount p = p.name := by
  simp only [crossed, h]

theorem members_mounted {c : Chan} {m : Mhead} (h : mounted T nomount c.file = some m) :
    members T nomount c = m.mount := by
  simp only [members, h]

theorem crossed_mounted {p : Named} {m : Mhead} (h : mounted T nomount p.c.file = some m) :
    crossed T nomount p = cnamecross p.name m.fromchan := by
  simp only [crossed, h]

theorem mounted_some {f : File} {m : Mhead} :
    mounted T nomount f = some m ↔ nomount = false ∧ T.find f = some m := by
  cases nomount <;> simp [mounted]

theorem mounted_file {f : File} {m : Mhead} (h : mounted T nomount f = some m) :
    m.fromchan.file = f :=
  T.keyed f m (mounted_some.mp h).2

theorem lookup_dir {f : File} {s : String} {q : ℕ} (h : lookup D f s = some q) :
    D.dir f = true := by
  unfold lookup at h
  split_ifs at h with hd
  exact hd

theorem walkelem_clear {p : Named} (h : mounted T nomount p.c.file = none) (s : String) :
    walkelem D T nomount p (.name s) =
      (lookup D p.c.file s).map fun q => ⟨p.c.at q, none :: p.name⟩ := by
  simp only [walkelem, members_clear h, crossed_clear h, enter]
  cases hq : lookup D p.c.file s with
  | none => simp
  | some q =>
    simp only [lookup_dir hq, if_true, Option.map_some]
    rfl

def pushes (n : ℕ) (name : Mtpt) : Mtpt := List.replicate n none ++ name

theorem pushes_succ (n : ℕ) (name : Mtpt) : pushes n (none :: name) = pushes (n + 1) name := by
  simp [pushes, List.replicate_succ', List.append_assoc]

theorem findmounts_clear {f : File} {q : ℕ} (h : mounted T nomount (f.at q) = none) (qs : List ℕ) :
    (if nomount then none else findmounts T f (q :: qs)) =
      (if nomount then none else findmounts T f qs).map fun r => (r.1 + 1, r.2) := by
  cases nomount with
  | true => rfl
  | false =>
    have hnone : T.find (f.at q) = none := h
    simp [findmounts, hnone]

def Ends (D : Device) (T : MountTable) (nomount : Bool) (f : File) (flag : Flag) (name : Mtpt)
    (q : ℕ) (rest : List String) (qs : List ℕ) : Option (ℕ × ℕ × Mhead) → Prop
  | some (i, q', m) =>
    i < rest.length ∧ mounted T nomount (f.at q') = some m ∧
      walkelems D T nomount ⟨⟨f.at q, flag⟩, none :: name⟩ ((rest.take i).map .name) =
        some ⟨⟨f.at q', flag⟩, none :: pushes i name⟩
  | none =>
    walkelems D T nomount ⟨⟨f.at q, flag⟩, none :: name⟩ (rest.map .name) =
      if qs.length = rest.length + 1 then
        some ⟨⟨f.at (qs.getLastD 0), flag⟩, pushes qs.length name⟩
      else none

theorem ends_cons {f : File} {flag : Flag} {name : Mtpt} {q q' : ℕ} {s : String}
    {rest : List String} {qs : List ℕ} (hclear : mounted T nomount (f.at q) = none)
    (hq : lookup D (f.at q) s = some q') {r : Option (ℕ × ℕ × Mhead)}
    (h : Ends D T nomount f flag (none :: name) q' rest qs r) (hqs : qs ≠ []) :
    Ends D T nomount f flag name q (s :: rest) (q :: qs) (r.map fun r => (r.1 + 1, r.2)) := by
  have hstep : walkelem D T nomount ⟨⟨f.at q, flag⟩, none :: name⟩ (.name s) =
      some ⟨⟨f.at q', flag⟩, none :: none :: name⟩ := by
    rw [walkelem_clear hclear, hq]
    rfl
  cases r with
  | none =>
    simp only [Ends, pushes_succ] at h
    simp only [Ends, Option.map_none, List.map_cons, walkelems_cons, hstep, Option.bind_some, h,
      List.length_cons, Nat.add_right_cancel_iff]
    cases qs with
    | nil => exact absurd rfl hqs
    | cons a qs => rfl
  | some r =>
    obtain ⟨i, q'', m⟩ := r
    obtain ⟨hi, hm, hw⟩ := h
    refine ⟨?_, hm, ?_⟩
    · simpa using hi
    · simp only [List.take_succ_cons, List.map_cons, walkelems_cons, hstep, Option.bind_some, hw,
        pushes_succ]

theorem request_ends (f : File) (flag : Flag) (q : ℕ) (name : Mtpt) (rest : List String) :
    Ends D T nomount f flag name q rest (q :: walkqids D (f.at q) rest)
      (if nomount then none else
        findmounts T f ((q :: walkqids D (f.at q) rest).take rest.length)) := by
  induction rest generalizing q name with
  | nil =>
    cases nomount <;> simp [Ends, findmounts, walkqids, walkelems_nil, pushes]
  | cons s rest ih =>
    cases hm : mounted T nomount (f.at q) with
    | none =>
      simp only [List.length_cons, List.take_succ_cons, findmounts_clear hm]
      cases hq : lookup D (f.at q) s with
      | none =>
        have hempty : walkqids D (f.at q) (s :: rest) = [] := by simp [walkqids, hq]
        have hstep : walkelem D T nomount ⟨⟨f.at q, flag⟩, none :: name⟩ (.name s) = none := by
          rw [walkelem_clear hm, hq]
          rfl
        simp only [hempty, List.take_nil, findmounts, ite_self, Option.map_none, Ends,
          List.map_cons, walkelems_cons, hstep]
        simp
      | some q' =>
        have hcons : walkqids D (f.at q) (s :: rest) = q' :: walkqids D (f.at q') rest := by
          simp [walkqids, hq, File.at_at]
        rw [hcons]
        exact ends_cons hm hq (ih q' (none :: name)) (by simp)
    | some m =>
      obtain ⟨rfl, hfind⟩ := mounted_some.mp hm
      simp [Ends, findmounts, hfind, hm, walkelems_nil, pushes]

/-- The state of the loop for a channel mounted upon and its stack. On the far
side of a mount point a name is still to come. -/
inductive Stands (T : MountTable) (nomount : Bool) : WalkState → Named → List Elem → Prop
  | near (p : Named) (names : List Elem) : Stands T nomount ⟨p.c, none, false, p.name⟩ p names
  | far (p : Named) (m : Mhead) (b : Bound) (bs : List Bound) (s : String) (names : List Elem)
      (hm : mounted T nomount p.c.file = some m) (hb : m.mount = b :: bs) :
      Stands T nomount ⟨b.chan, some m, true, cnamecross p.name m.fromchan⟩ p (.name s :: names)

theorem stands_dir {s : WalkState} {p : Named} {names : List Elem} (hT : T.Level D)
    (h : Stands T nomount s p names) : D.dir s.c.file = D.dir p.c.file := by
  cases h with
  | near => rfl
  | far _ m b bs s names hm hb =>
    apply hT p.c.file m b (mounted_some.mp hm).2
    simp [hb]

structure Opens (T : MountTable) (nomount : Bool) (s : WalkState) (p : Named) (b : Bound)
    (bs : List Bound) : Prop where
  members_eq : members T nomount p.c = b :: bs
  c_eq : s.c = b.chan
  name_eq : s.name = crossed T nomount p
  tail_eq : ((if nomount then none else s.mh).elim [] fun m => m.mount.tail) = bs

theorem domount_stands {s : WalkState} {p : Named} {names : List Elem} (nhave : ℕ)
    (h : Stands T nomount s p names) :
    match domount T nomount s nhave with
    | .error _ => members T nomount p.c = []
    | .ok s' => ∃ b bs, Opens T nomount s' p b bs := by
  cases h with
  | near =>
    cases hm : mounted T nomount p.c.file with
    | none =>
      have hsame : domount T nomount ⟨p.c, none, false, p.name⟩ nhave =
          .ok ⟨p.c, none, false, p.name⟩ := by
        cases nomount with
        | true => rfl
        | false =>
          have hnone : T.find p.c.file = none := hm
          simp [domount, hnone]
      rw [hsame]
      exact ⟨⟨p.c, p.c.mflag⟩, [], members_clear hm, rfl, (crossed_clear hm).symm,
        by simp⟩
    | some m =>
      obtain ⟨rfl, hfind⟩ := mounted_some.mp hm
      cases hb : m.mount with
      | nil =>
        have hfault : domount T false ⟨p.c, none, false, p.name⟩ nhave =
            .error ⟨nhave, .fault⟩ := by
          simp only [domount, hfind, Mhead.first, hb]
          rfl
        rw [hfault]
        simp only [members_mounted hm, hb]
      | cons b bs =>
        simp only [domount, hfind, Mhead.first, hb, Bool.not_false, Bool.and_self, if_true]
        exact ⟨b, bs, by rw [members_mounted hm, hb], rfl, (crossed_mounted hm).symm,
          by simp [hb]⟩
  | far _ m b bs s names hm hb =>
    obtain ⟨rfl, hfind⟩ := mounted_some.mp hm
    simp only [domount, Bool.not_false, Bool.not_true, Bool.and_false]
    exact ⟨b, bs, by rw [members_mounted hm, hb], rfl, (crossed_mounted hm).symm,
      by simp [hb]⟩

structure Answers (D : Device) (f : File) (q : ℕ) (names : List String) (wq : Walkqid) :
    Prop where
  qid_eq : wq.qid = q :: walkqids D (f.at q) names
  clone_eq : ∃ c : Chan, c.file = f ∧
    wq.clone =
      if wq.qid.length = names.length + 1 then some (c.at (wq.qid.getLastD 0)) else none

theorem devwalk_none {c : Chan} {s : String} (names : List String)
    (h : lookup D c.file s = none) : devwalk D c (s :: names) = none := by
  simp [devwalk, walkqids, h]

theorem devwalk_some {c : Chan} {s : String} (names : List String) {q : ℕ}
    (h : lookup D c.file s = some q) :
    ∃ wq, devwalk D c (s :: names) = some wq ∧ Answers D c.file q names wq := by
  have hqids : walkqids D c.file (s :: names) = q :: walkqids D (c.file.at q) names := by
    simp [walkqids, h]
  simp only [devwalk, hqids]
  exact ⟨_, rfl, rfl, c, rfl, rfl⟩

theorem unionwalk_enter (s : String) (names : List String) (bs : List Bound) :
    match unionwalk D (s :: names) bs with
    | none => enter D s bs = none
    | some (b, wq) => ∃ q, enter D s bs = some (b.chan.at q) ∧
        Answers D b.tochan.file q names wq := by
  induction bs with
  | nil => rfl
  | cons b bs ih =>
    cases h : lookup D b.tochan.file s with
    | none => simpa only [unionwalk, devwalk_none names h, enter, h] using ih
    | some q =>
      obtain ⟨wq, hwq, hanswers⟩ := devwalk_some names h
      simp only [unionwalk, hwq, enter, h]
      exact ⟨q, rfl, hanswers⟩

theorem request_enter {s : WalkState} {p : Named} {b : Bound} {bs : List Bound} (nhave : ℕ)
    (h : Opens T nomount s p b bs) (n : String) (names : List String) :
    match request D nomount s nhave (n :: names) with
    | .error _ => enter D n (members T nomount p.c) = none
    | .ok (c, wq) => ∃ (b' : Bound) (q : ℕ), c = b'.chan ∧
        enter D n (members T nomount p.c) = some (b'.chan.at q) ∧
        Answers D b'.tochan.file q names wq := by
  have hfile : s.c.file = b.tochan.file := by rw [h.c_eq]; rfl
  rw [h.members_eq]
  cases hq : lookup D b.tochan.file n with
  | some q =>
    obtain ⟨wq, hwq, hanswers⟩ := devwalk_some (c := s.c) names (hfile ▸ hq)
    simp only [request, hwq]
    rw [hfile] at hanswers
    exact ⟨b, q, h.c_eq, by simp only [enter, hq], hanswers⟩
  | none =>
    have hrest := unionwalk_enter (D := D) n names bs
    have hbs : (if nomount then none else s.mh).bind (fun m => unionwalk D (n :: names)
        m.mount.tail) = unionwalk D (n :: names) bs := by
      rw [← h.tail_eq]
      cases (if nomount then none else s.mh) with
      | none => rfl
      | some m => rfl
    simp only [request, devwalk_none (c := s.c) names (hfile ▸ hq), hbs, enter, hq]
    revert hrest
    cases unionwalk D (n :: names) bs with
    | none => exact id
    | some r =>
      intro hrest
      obtain ⟨q, henter, hanswers⟩ := hrest
      exact ⟨r.1, q, rfl, henter, hanswers⟩

theorem batch_cons (n : ℕ) (s : String) (names : List Elem) :
    batch (n + 1) (.name s :: names) = s :: batch n names := rfl

theorem batch_take (n : ℕ) (names : List Elem) :
    (batch n names).map .name = names.take (batch n names).length := by
  induction n generalizing names with
  | zero => simp [batch]
  | succ n ih =>
    cases names with
    | nil => rfl
    | cons x names =>
      cases x with
      | dotdot => rfl
      | name s =>
        simp only [batch_cons, List.map_cons, List.length_cons, List.take_succ_cons]
        rw [ih]

theorem batch_dotdot (names : List Elem) : batch MAXWELEM (.dotdot :: names) = [] := rfl

def Rounds (D : Device) (T : MountTable) (nomount : Bool) (p : Named) (names : List Elem) :
    Except WalkError (WalkState × ℕ) → Prop
  | .error _ => walkelems D T nomount p names = none
  | .ok (s, n) => 0 < n ∧ ∃ p', walkelems D T nomount p (names.take n) = some p' ∧
      Stands T nomount s p' (names.drop n)

theorem walkround_dotdot {s : WalkState} {p : Named} {names : List Elem} (nhave : ℕ)
    (h : Stands T nomount s p (.dotdot :: names)) :
    Rounds D T nomount p (.dotdot :: names)
      (walkround D T nomount s nhave (.dotdot :: names)) := by
  cases h with
  | near =>
    cases hd : D.dir p.c.file with
    | false =>
      simp [walkround, hd, Rounds, walkelems_cons, walkelem]
    | true =>
      simp only [walkround, hd, batch_dotdot]
      refine ⟨Nat.one_pos, dotdot D p, ?_, ?_⟩
      · simp [walkelems_cons, walkelems_nil, walkelem, hd]
      · exact .near (dotdot D p) names

theorem walkelems_none {p : Named} {n : ℕ} {names : List Elem}
    (h : walkelems D T nomount p (names.take n) = none) : walkelems D T nomount p names = none := by
  rw [walkelems_split p n, h]
  rfl

theorem drop_name {names : List Elem} {n : String} {ns : List String} {i : ℕ}
    (hns : names.take (ns.length + 1) = (n :: ns).map .name) (hi : i < ns.length) :
    ∃ s rest, names.drop (i + 1) = .name s :: rest := by
  have hget : (names.take (ns.length + 1))[i + 1]? = some (.name ns[i]) := by
    rw [hns]
    simp [hi]
  have hlt : i + 1 < ns.length + 1 := by omega
  rw [List.getElem?_take, if_pos hlt] at hget
  obtain ⟨hlen, hval⟩ := List.getElem?_eq_some_iff.mp hget
  exact ⟨ns[i], names.drop (i + 2), by rw [List.drop_eq_getElem_cons hlen, hval]⟩

theorem walkround_answered {p : Named} {f : File} {flag : Flag} {q : ℕ} {name : Mtpt}
    {n : String} {ns : List String} {names : List Elem} {wq : Walkqid}
    (hns : names.take (ns.length + 1) = (n :: ns).map .name)
    (hstep : walkelem D T nomount p (.name n) = some ⟨⟨f.at q, flag⟩, none :: name⟩)
    (hanswers : Answers D f q ns wq) (nhave : ℕ) :
    Rounds D T nomount p names
      (arrive D T nomount name nhave (ns.length + 1) ⟨f, flag⟩ wq) := by
  simp only [arrive, Nat.add_sub_cancel]
  have hends := @request_ends D T nomount f flag q name ns
  rw [← hanswers.qid_eq] at hends
  obtain ⟨c, hfile, hclone⟩ := hanswers.clone_eq
  have hwalk : ∀ k, k ≤ ns.length → walkelems D T nomount p (names.take (k + 1)) =
      walkelems D T nomount ⟨⟨f.at q, flag⟩, none :: name⟩ ((ns.take k).map .name) := by
    intro k hk
    have htake : names.take (k + 1) = .name n :: (ns.take k).map .name := by
      calc names.take (k + 1) = (names.take (ns.length + 1)).take (k + 1) := by
            rw [List.take_take]; congr 1; omega
        _ = _ := by rw [hns]; simp
    rw [htake, walkelems_cons, hstep]
    rfl
  revert hends
  cases (if nomount then none else findmounts T f (wq.qid.take ns.length)) with
  | some r =>
    obtain ⟨i, q', m⟩ := r
    intro hends
    obtain ⟨hi, hm, hw⟩ := hends
    have hat := (hwalk i hi.le).trans hw
    obtain ⟨s', rest, hdrop⟩ := drop_name hns hi
    cases hb : m.mount with
    | nil =>
      have hnone : walkelems D T nomount p names = none := by
        rw [walkelems_split p (i + 1), hat, hdrop, Option.bind_some, walkelems_cons]
        simp only [walkelem, members_mounted (c := ⟨f.at q', flag⟩) hm, hb, enter,
          Option.map_none, ite_self]
        rfl
      simp only [Mhead.first, hb]
      exact hnone
    | cons b bs =>
      simp only [Mhead.first, hb]
      refine ⟨Nat.succ_pos i, _, hat, ?_⟩
      rw [hdrop]
      exact .far ⟨⟨f.at q', flag⟩, none :: pushes i name⟩ m b bs s' rest hm hb
  | none =>
    intro hends
    have hall := (hwalk ns.length le_rfl).trans (by rw [List.take_length])
    simp only [Ends] at hends
    rw [hends] at hall
    by_cases hlen : wq.qid.length = ns.length + 1
    · rw [if_pos hlen, ← hlen] at hall
      rw [if_pos hlen] at hclone
      simp only [hclone]
      refine ⟨by omega, _, hall, ?_⟩
      subst hfile
      exact .near ⟨⟨c.file.at (wq.qid.getLastD 0), flag⟩, pushes wq.qid.length name⟩ _
    · rw [if_neg hlen] at hall hclone
      simp only [hclone]
      exact walkelems_none hall

theorem walkround_name {s : WalkState} {p : Named} {n : String} {names : List Elem} (nhave : ℕ)
    (hT : T.Level D) (h : Stands T nomount s p (.name n :: names)) :
    Rounds D T nomount p (.name n :: names)
      (walkround D T nomount s nhave (.name n :: names)) := by
  have hdir := stands_dir hT h
  have hns : (Elem.name n :: names).take ((batch 15 names).length + 1) =
      (n :: batch 15 names).map .name := by
    rw [List.take_succ_cons, ← batch_take, List.map_cons]
  cases hd : D.dir s.c.file with
  | false =>
    simp [walkround, hd, Rounds, walkelems_cons, walkelem, ← hdir]
  | true =>
    have hopens := domount_stands nhave h
    have hvalue : walkround D T nomount s nhave (.name n :: names) =
        (domount T nomount s nhave).bind fun s' =>
          (request D nomount s' nhave (n :: batch 15 names)).bind fun r =>
            arrive D T nomount s'.name nhave ((batch 15 names).length + 1) r.1 r.2 := by
      rw [walkround, hd]
      rfl
    rw [hvalue]
    cases hdomount : domount T nomount s nhave with
    | error e =>
      rw [hdomount] at hopens
      simp only at hopens
      have hnone : walkelems D T nomount p (.name n :: names) = none := by
        rw [walkelems_cons, walkelem, hopens]
        simp [enter]
      exact hnone
    | ok s' =>
      rw [hdomount] at hopens
      obtain ⟨b, bs, hopens⟩ := hopens
      rw [Except.bind]
      have henter := @request_enter D _ _ _ _ _ _ nhave hopens n (batch 15 names)
      cases hrequest : request D nomount s' nhave (n :: batch 15 names) with
      | error e =>
        rw [hrequest] at henter
        simp only at henter
        have hnone : walkelems D T nomount p (.name n :: names) = none := by
          rw [walkelems_cons, walkelem, henter]
          simp
        exact hnone
      | ok r =>
        obtain ⟨c, wq⟩ := r
        rw [hrequest] at henter
        obtain ⟨b', q, rfl, henter, hanswers⟩ := henter
        have hstep : walkelem D T nomount p (.name n) =
            some ⟨⟨b'.tochan.file.at q, b'.mflag⟩, none :: crossed T nomount p⟩ := by
          rw [walkelem, ← hdir, hd, henter]
          rfl
        have hround := walkround_answered hns hstep hanswers nhave
        rw [← hopens.name_eq] at hround
        exact hround

theorem walkround_stands {s : WalkState} {p : Named} {x : Elem} {names : List Elem} (nhave : ℕ)
    (hT : T.Level D) (h : Stands T nomount s p (x :: names)) :
    Rounds D T nomount p (x :: names) (walkround D T nomount s nhave (x :: names)) := by
  cases x with
  | dotdot => exact walkround_dotdot nhave h
  | name n => exact walkround_name nhave hT h

theorem walkloop_stands {s : WalkState} {p : Named} {names : List Elem} {fuel n : ℕ}
    (hT : T.Level D) (h : Stands T nomount s p names) (hfuel : names.length ≤ fuel) :
    (walkloop D T nomount fuel s n names).toOption.map (fun s => ⟨s.c, s.name⟩) =
      walkelems D T nomount p names := by
  induction fuel generalizing s p names n with
  | zero =>
    obtain rfl : names = [] := List.length_eq_zero_iff.mp (by omega)
    cases h with
    | near => rfl
  | succ fuel ih =>
    cases names with
    | nil =>
      cases h with
      | near => rfl
    | cons x names =>
      have hround := walkround_stands n hT h
      simp only [walkloop]
      cases hr : walkround D T nomount s n (x :: names) with
      | error e =>
        rw [hr] at hround
        exact hround.symm
      | ok r =>
        obtain ⟨s', m⟩ := r
        rw [hr] at hround
        obtain ⟨hn, p', hp', hstands⟩ := hround
        rw [walkelems_split p m, hp', Option.bind_some]
        refine ih hstands ?_
        simp only [List.length_drop, List.length_cons] at hfuel ⊢
        omega

theorem walk_eq (hT : T.Level D) (p : Named) (names : List Elem) :
    (walk D T p names nomount).toOption = walkelems D T nomount ⟨p.c, pin p⟩ names := by
  rw [← walkloop_stands (n := 0) hT (.near ⟨p.c, pin p⟩ names) le_rfl, walk]
  cases walkloop D T nomount names.length ⟨p.c, none, false, pin p⟩ 0 names with
  | error e => rfl
  | ok s => rfl

end

end Infernode.Namespace
