import Infernode.Git.Walk

/-!
# Places

The place that a path names: its components from the root, or from the working directory of
a path that does not begin there. A component `.` stays and `..` goes up, at the root nowhere.
-/

namespace Infernode.Git

open Limbo (Str lit components components_append)

def goto (at' : List Str) (c : Str) : List Str :=
  if c = ['.'] then at' else if c = ['.', '.'] then at'.dropLast else at' ++ [c]

def place (cwd : List Str) (path : Str) : List Str :=
  (components [] path).foldl goto (if path.head? = some '/' then [] else cwd)

def placefrom (at' : List Str) (s : Str) : List Str := (components [] s).foldl goto at'

variable {cwd : List Str}

theorem components_slash (s : Str) : components [] (s ++ ['/']) = components [] s := by
  rw [components_append]
  simp [components]

theorem head_slash (a b : Str) : (a ++ '/' :: b).head? = (a ++ ['/']).head? := by
  cases a <;> rfl

theorem place_append (a b : Str) :
    place cwd (a ++ '/' :: b) = placefrom (place cwd (a ++ ['/'])) b := by
  rw [place, place, placefrom, components_append, components_slash, head_slash, List.foldl_append]

theorem place_slash {a : Str} (h : a ≠ []) : place cwd (a ++ ['/']) = place cwd a := by
  rw [place, place, components_slash]
  cases a with
  | nil => exact absurd rfl h
  | cons c a => rfl

theorem place_below (dir name : Str) :
    place cwd (dir ++ '/' :: name ++ ['/']) = place cwd (dir ++ '/' :: name) :=
  place_slash (by simp)

/-!
## Checkout

`checkout` makes the directories and files of a tree below a directory, at the names that
the entries have. What the system answers to a call may depend on all calls before it.
-/

open Limbo (Str lit components)

inductive Call
  | mkdir (path : Str)
  | create (path : Str) (perm : ℕ) (data : List UInt8)
  deriving DecidableEq

def Call.path : Call → Str
  | .mkdir path => path
  | .create path _ _ => path

abbrev System := List Call → Call → Option Str

inductive Stop
  | error (err : Str)
  | more
  deriving DecidableEq

section

variable (repo : Repo) (sys : System)

def onward (run : List Call × Option Stop) (rest : List Call → List Call × Option Stop) :
    List Call × Option Stop :=
  match run.2 with
  | some stop => (run.1, some stop)
  | none => rest run.1

def checkoutloop (walk : Hash → Str → List Call → List Call × Option Stop) (destpath : Str) :
    List TreeEntry → List Call → List Call × Option Stop
  | [], calls => (calls, none)
  | e :: entries, calls =>
    let path := destpath ++ '/' :: e.name
    if e.mode = 0o40000 then
      onward (walk e.hash path (calls ++ [.mkdir path])) (checkoutloop walk destpath entries)
    else if e.mode = 0o120000 then checkoutloop walk destpath entries calls
    else
      match repo.readobj e.hash with
      | .error err => (calls, some (.error (lit "read blob " ++ e.name ++ lit ": " ++ err)))
      | .ok (btype, bdata) =>
        if btype ≠ OBJ_BLOB then (calls, some (.error (e.name ++ lit ": not a blob")))
        else
          let perm := if e.mode = 0o100755 then 0o755 else 0o644
          match sys calls (.create path perm bdata) with
          | some err =>
            (calls ++ [.create path perm bdata],
              some (.error (lit "create " ++ path ++ lit ": " ++ err)))
          | none => checkoutloop walk destpath entries (calls ++ [.create path perm bdata])

def checkout : ℕ → Hash → Str → List Call → List Call × Option Stop
  | 0, _, _, calls => (calls, some .more)
  | fuel + 1, treehash, destpath, calls =>
    match repo.readobj treehash with
    | .error err => (calls, some (.error (lit "read tree: " ++ err)))
    | .ok (otype, data) =>
      if otype ≠ OBJ_TREE then (calls, some (.error (lit "not a tree object")))
      else
        match parsetree data with
        | .error err => (calls, some (.error (lit "parse tree: " ++ err)))
        | .ok entries => checkoutloop repo sys (checkout fuel) destpath entries calls

/-- The names from the tree down to each entry that a walk makes when every call succeeds,
and whether it comes to its end. -/
def chainsloop (walk : Hash → List (List Str) × Bool) : List TreeEntry → List (List Str) × Bool
  | [] => ([], true)
  | e :: entries =>
    if e.mode = 0o40000 then
      if (walk e.hash).2 then
        ([e.name] :: (walk e.hash).1.map (e.name :: ·) ++ (chainsloop walk entries).1,
          (chainsloop walk entries).2)
      else ([e.name] :: (walk e.hash).1.map (e.name :: ·), false)
    else if e.mode = 0o120000 then chainsloop walk entries
    else
      match repo.readobj e.hash with
      | .error _ => ([], false)
      | .ok (btype, _) =>
        if btype ≠ OBJ_BLOB then ([], false)
        else ([e.name] :: (chainsloop walk entries).1, (chainsloop walk entries).2)

def chains : ℕ → Hash → List (List Str) × Bool
  | 0, _ => ([], false)
  | fuel + 1, treehash =>
    match repo.readobj treehash with
    | .error _ => ([], false)
    | .ok (otype, data) =>
      if otype ≠ OBJ_TREE then ([], false)
      else
        match parsetree data with
        | .error _ => ([], false)
        | .ok entries => chainsloop repo (chains fuel) entries

end

def under (destpath : Str) (names : List Str) : Str :=
  names.foldl (fun path name => path ++ '/' :: name) destpath

/-- The calls of a walk are at the paths of its chains, in their order: all of them where the
walk ends, and where no call fails. -/
def Follows (sys : System) (destpath : Str) (calls : List Call) (run : List Call × Option Stop)
    (names : List (List Str) × Bool) : Prop :=
  ∃ new, run.1 = calls ++ new ∧
    new.map Call.path <+: names.1.map (under destpath) ∧
    (run.2 = none → new.map Call.path = names.1.map (under destpath) ∧ names.2 = true) ∧
    ((∀ h c, sys h c = none) → new.map Call.path = names.1.map (under destpath) ∧
      (names.2 = true → run.2 = none))

section

variable {repo : Repo} {sys : System} {destpath : Str} {calls : List Call}

theorem follows_stop (stop : Stop) : Follows sys destpath calls (calls, some stop) ([], false) :=
  ⟨[], by simp, by simp, by simp, by simp⟩

theorem follows_nil : Follows sys destpath calls (calls, none) ([], true) :=
  ⟨[], by simp, by simp, by simp, by simp⟩

theorem Follows.call {c : Call} {run : List Call × Option Stop} {names : List (List Str) × Bool}
    {name : Str} (hc : c.path = destpath ++ '/' :: name)
    (h : Follows sys destpath (calls ++ [c]) run names) :
    Follows sys destpath calls run ([name] :: names.1, names.2) := by
  obtain ⟨new, hrun, hpre, hnone, hall⟩ := h
  have hpath : c.path = under destpath [name] := hc
  refine ⟨c :: new, by rw [hrun, List.append_assoc]; rfl, ?_, fun hstop => ?_, fun hsys => ?_⟩
  · rw [List.map_cons, List.map_cons, hpath]
    exact List.cons_prefix_cons.mpr ⟨rfl, hpre⟩
  · obtain ⟨heq, hdone⟩ := hnone hstop
    exact ⟨by rw [List.map_cons, List.map_cons, hpath, heq], hdone⟩
  · obtain ⟨heq, hdone⟩ := hall hsys
    exact ⟨by rw [List.map_cons, List.map_cons, hpath, heq], hdone⟩

theorem Follows.dir {name : Str} {run : List Call × Option Stop} {sub rest : List (List Str) × Bool}
    {loop : List Call → List Call × Option Stop}
    (hsub : Follows sys (destpath ++ '/' :: name) (calls ++ [.mkdir (destpath ++ '/' :: name)])
      run sub)
    (hrest : ∀ calls, Follows sys destpath calls (loop calls) rest) :
    Follows sys destpath calls (onward run loop)
      (if sub.2 then ([name] :: sub.1.map (name :: ·) ++ rest.1, rest.2)
        else ([name] :: sub.1.map (name :: ·), false)) := by
  obtain ⟨new, hrun, hpre, hnone, hall⟩ := hsub
  obtain ⟨calls', stop⟩ := run
  obtain ⟨chains', done⟩ := sub
  simp only at hrun hpre hnone hall
  subst hrun
  obtain ⟨path, hpath⟩ : ∃ path, path = destpath ++ '/' :: name := ⟨_, rfl⟩
  rw [← hpath] at hpre hnone hall ⊢
  have hhere : ([name] :: chains'.map (name :: ·)).map (under destpath) =
      path :: chains'.map (under path) := by
    rw [List.map_cons, List.map_map, hpath]
    rfl
  cases stop with
  | none =>
    obtain ⟨heq, hdone⟩ := hnone rfl
    obtain ⟨new', hrun', hpre', hnone', hall'⟩ :=
      hrest (calls ++ [.mkdir path] ++ new)
    have hpaths : (Call.mkdir path :: new).map Call.path =
        ([name] :: chains'.map (name :: ·)).map (under destpath) := by
      rw [hhere, List.map_cons, heq]
      rfl
    simp only [hdone, if_true]
    refine ⟨.mkdir path :: new ++ new', ?_, ?_, fun hstop => ?_, fun hsys => ?_⟩
    · change (loop (calls ++ [Call.mkdir path] ++ new)).1 = _
      rw [hrun']
      simp
    · rw [List.map_append, List.map_append, hpaths]
      exact (List.prefix_append_right_inj _).mpr hpre'
    · obtain ⟨heq', hdone'⟩ := hnone' hstop
      exact ⟨by rw [List.map_append, List.map_append, hpaths, heq'], hdone'⟩
    · obtain ⟨heq', hdone'⟩ := hall' hsys
      exact ⟨by rw [List.map_append, List.map_append, hpaths, heq'], hdone'⟩
  | some stop =>
    have hcut : (Call.mkdir path :: new).map Call.path <+:
        ([name] :: chains'.map (name :: ·)).map (under destpath) := by
      rw [hhere, List.map_cons]
      exact List.cons_prefix_cons.mpr ⟨rfl, hpre⟩
    refine ⟨.mkdir path :: new, by simp [onward], ?_, by simp [onward], fun hsys => ?_⟩
    · refine hcut.trans ?_
      split_ifs
      · rw [List.map_append]
        exact List.prefix_append _ _
      · exact List.prefix_rfl
    · obtain ⟨heq, hdone⟩ := hall hsys
      cases done with
      | true => cases hdone rfl
      | false =>
        refine ⟨?_, by simp⟩
        simp only [Bool.false_eq_true, if_false]
        rw [hhere, List.map_cons, heq]
        rfl

theorem follows_failed {c : Call} {name err : Str} {stop : Stop} {names : List (List Str) × Bool}
    (hc : c.path = destpath ++ '/' :: name) (hsys : sys calls c = some err) :
    Follows sys destpath calls (calls ++ [c], some stop) ([name] :: names.1, names.2) := by
  refine ⟨[c], rfl, ?_, by simp, fun hnone => ?_⟩
  · have hpath : c.path = under destpath [name] := hc
    rw [List.map_cons, List.map_cons, hpath]
    exact List.cons_prefix_cons.mpr ⟨rfl, List.nil_prefix⟩
  · rw [hnone] at hsys
    cases hsys

theorem checkoutloop_follows {walk : Hash → Str → List Call → List Call × Option Stop}
    {walk' : Hash → List (List Str) × Bool}
    (hwalk : ∀ h destpath calls, Follows sys destpath calls (walk h destpath calls) (walk' h))
    (entries : List TreeEntry) (destpath : Str) (calls : List Call) :
    Follows sys destpath calls (checkoutloop repo sys walk destpath entries calls)
      (chainsloop repo walk' entries) := by
  induction entries generalizing calls with
  | nil => exact follows_nil
  | cons e entries ih =>
    simp only [checkoutloop, chainsloop]
    by_cases hdir : e.mode = 0o40000
    · rw [if_pos hdir, if_pos hdir]
      exact Follows.dir (hwalk e.hash _ _) ih
    rw [if_neg hdir, if_neg hdir]
    by_cases hlink : e.mode = 0o120000
    · rw [if_pos hlink, if_pos hlink]
      exact ih calls
    rw [if_neg hlink, if_neg hlink]
    cases repo.readobj e.hash with
    | error err => exact follows_stop _
    | ok o =>
      obtain ⟨btype, bdata⟩ := o
      by_cases hblob : btype ≠ OBJ_BLOB
      · simp only [if_pos hblob]
        exact follows_stop _
      · simp only [if_neg hblob]
        split
        · rename_i err hsys
          exact follows_failed rfl hsys
        · exact Follows.call rfl (ih _)

variable (repo sys) in
theorem checkout_follows (fuel : ℕ) (treehash : Hash) (destpath : Str) (calls : List Call) :
    Follows sys destpath calls (checkout repo sys fuel treehash destpath calls)
      (chains repo fuel treehash) := by
  induction fuel generalizing treehash destpath calls with
  | zero => exact follows_stop _
  | succ fuel ih =>
    rw [checkout, chains]
    cases repo.readobj treehash with
    | error err => exact follows_stop _
    | ok o =>
      obtain ⟨otype, data⟩ := o
      simp only
      split_ifs with htree
      · exact follows_stop _
      · cases parsetree data with
        | error err => exact follows_stop _
        | ok entries => exact checkoutloop_follows ih entries destpath calls

end

end Infernode.Git
