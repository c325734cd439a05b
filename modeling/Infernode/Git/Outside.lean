import Infernode.Git.Checkout
import Infernode.Limbo.Token

/-!
# Refs

`updaterefs` writes the branches and tags that a remote has named, with the directories on
the way. `readref` reads a ref, or the ref that it is symbolic for, and looks for a ref that
has no file in the packed refs.
-/

namespace Infernode.Git

open Limbo (Str lit string bytes tokenize)

structure Ref where
  name : Str
  hash : Hash

def mkdirp (filepath : Str) : List Call :=
  (List.range filepath.length).filterMap fun i =>
    if 1 ≤ i ∧ filepath[i]? = some '/' then some (.mkdir (filepath.take i)) else none

def writeref (gitdir name : Str) (h : Hash) : List Call :=
  mkdirp (gitdir ++ '/' :: name) ++
    [.create (gitdir ++ '/' :: name) 0o644 (bytes (h.hex ++ ['\n']))]

def updateref (gitdir remote : Str) (r : Ref) : List Call :=
  if r.name = lit "HEAD" then []
  else
    (if 11 < r.name.length ∧ r.name.take 11 = lit "refs/heads/" then
      writeref gitdir (lit "refs/remotes/" ++ remote ++ lit "/" ++ r.name.drop 11) r.hash
    else []) ++
    (if 10 < r.name.length ∧ r.name.take 10 = lit "refs/tags/" then
      writeref gitdir r.name r.hash
    else [])

def updaterefs (gitdir remote : Str) (refs : List Ref) : List Call :=
  refs.flatMap (updateref gitdir remote)

/-- What can be read at a path; `none` where it cannot be opened. -/
abbrev Files := Str → Option (List UInt8)

def stripend (s : Str) : Str := (s.reverse.dropWhile fun c => c = '\n' || c = '\r').reverse

def packedline (name line : Str) : Option Str :=
  if line.head? = some '#' then none
  else
    match tokenize line (lit " \t") with
    | hash :: refname :: _ => if refname = name then some hash else none
    | _ => none

def packedref (name : Str) (packed : Option (List UInt8)) : Except Str Hash :=
  match packed with
  | none => .error (lit "ref not found: " ++ name)
  | some content =>
    match ((string content).splitOn '\n').findSome? (packedline name) with
    | some hash => parsehash hash
    | none => .error (lit "ref not found: " ++ name)

/-- What the file of a ref says; `none` if there is none or nothing in it. -/
def refvalue (files : Files) (path name : Str) : Option Str :=
  match files (path ++ '/' :: name) with
  | none => none
  | some content =>
    if content.take 256 = [] then none else some (stripend (string (content.take 256)))

def symbolic (files : Files) (path name : Str) : Option Str :=
  match refvalue files path name with
  | none => none
  | some s => if 5 < s.length ∧ s.take 5 = lit "ref: " then some (s.drop 5) else none

/-- The paths opened, and the hash or error; `none` is that it has not ended. -/
def readref (files : Files) (path : Str) :
    ℕ → Str → List Str → List Str × Option (Except Str Hash)
  | 0, _, opened => (opened, none)
  | fuel + 1, name, opened =>
    let opened := opened ++ [path ++ '/' :: name]
    match refvalue files path name with
    | some s =>
      if 5 < s.length ∧ s.take 5 = lit "ref: " then readref files path fuel (s.drop 5) opened
      else (opened, some (parsehash s))
    | none =>
      (opened ++ [path ++ lit "/packed-refs"],
        some (packedref name (files (path ++ lit "/packed-refs"))))

def chainat (files : Files) (path name : Str) : ℕ → Option Str
  | 0 => some name
  | n + 1 => (chainat files path name n).bind (symbolic files path)

theorem mem_writeref {gitdir name p : Str} {h : Hash} :
    (∃ c ∈ writeref gitdir name h, c.path = p) ↔
      p = gitdir ++ '/' :: name ∨
        (p ≠ [] ∧ ∃ b, gitdir ++ '/' :: name = p ++ '/' :: b) := by
  have hdirs (path : Str) : (∃ c ∈ mkdirp path, c.path = p) ↔
      p ≠ [] ∧ ∃ b, path = p ++ '/' :: b := by
    constructor
    · rintro ⟨c, hc, rfl⟩
      obtain ⟨i, hi, hsome⟩ := List.mem_filterMap.mp hc
      split_ifs at hsome with hslash
      obtain rfl := Option.some.inj hsome
      have hlt := List.mem_range.mp hi
      refine ⟨?_, path.drop (i + 1), ?_⟩
      · intro hnil
        have hlen := congrArg List.length hnil
        simp only [Call.path, List.length_take, List.length_nil] at hlen
        omega
      · obtain ⟨hlt', hget⟩ := List.getElem?_eq_some_iff.mp hslash.2
        rw [Call.path, ← hget, ← List.drop_eq_getElem_cons hlt', List.take_append_drop]
    · rintro ⟨hne, b, rfl⟩
      have hpos := List.length_pos_of_ne_nil hne
      refine ⟨.mkdir p, List.mem_filterMap.mpr ⟨p.length, ?_, ?_⟩, rfl⟩
      · simp
      · rw [if_pos ⟨hpos, by simp⟩, List.take_left]
  rw [← hdirs, writeref]
  constructor
  · rintro ⟨c, hc, hp⟩
    rcases List.mem_append.mp hc with hc | hc
    · exact .inr ⟨c, hc, hp⟩
    · rw [List.mem_singleton] at hc
      subst hc
      exact .inl hp.symm
  · rintro (rfl | ⟨c, hc, hp⟩)
    · exact ⟨_, List.mem_append_right _ (List.mem_singleton.mpr rfl), rfl⟩
    · exact ⟨c, List.mem_append_left _ hc, hp⟩

def targets (remote : Str) (r : Ref) : List Str :=
  if r.name = lit "HEAD" then []
  else
    (if 11 < r.name.length ∧ r.name.take 11 = lit "refs/heads/" then
      [lit "refs/remotes/" ++ remote ++ lit "/" ++ r.name.drop 11] else []) ++
    (if 10 < r.name.length ∧ r.name.take 10 = lit "refs/tags/" then [r.name] else [])

theorem updaterefs_eq (gitdir remote : Str) (refs : List Ref) :
    updaterefs gitdir remote refs =
      refs.flatMap fun r => (targets remote r).flatMap fun name => writeref gitdir name r.hash := by
  rw [updaterefs]
  congr 1
  funext r
  rw [updateref, targets]
  split_ifs <;> simp

theorem symbolic_eq (files : Files) (path name : Str) : symbolic files path name =
    (refvalue files path name).bind fun s =>
      if 5 < s.length ∧ s.take 5 = lit "ref: " then some (s.drop 5) else none := by
  rw [symbolic]
  cases refvalue files path name <;> rfl

theorem chainat_succ (files : Files) (path name : Str) (n : ℕ) :
    chainat files path name (n + 1) =
      (symbolic files path name).bind fun next => chainat files path next n := by
  induction n with
  | zero =>
    rw [chainat, chainat, Option.bind_some]
    cases symbolic files path name <;> rfl
  | succ n ih =>
    rw [chainat, ih]
    cases symbolic files path name with
    | none => rfl
    | some next => rfl

/-!
## What a remote can reach

The names of entries, refs and symbolic refs are put into paths as they are. A checkout stays
below its directory, a fetch in the refs and a read in the repository just when the components
of the names do: nothing checks them.
-/

open Limbo (Str lit components bytes string)

variable (cwd : List Str)

/-- Strictly below the directory and not below its `.git`; or the directory or one above it,
which is there and is not made or written by a call. -/
def Inside (dest p : List Str) : Prop :=
  p <+: dest ∨ dest <+: p ∧ ¬(dest ++ [lit ".git"] <+: p ∧ p ≠ dest ++ [lit ".git"])

def CheckoutInside (repo : Repo) (tree : Hash) (dest : Str) : Prop :=
  ∀ sys fuel, ∀ c ∈ (checkout repo sys fuel tree dest []).1,
    Inside (place cwd (dest ++ ['/'])) (place cwd c.path)

def NamesInside (repo : Repo) (tree : Hash) (dest : Str) : Prop :=
  ∀ fuel, ∀ names ∈ (chains repo fuel tree).1,
    Inside (place cwd (dest ++ ['/'])) (names.foldl placefrom (place cwd (dest ++ ['/'])))

/-- In the refs of the repository; or a directory above them, or on the way to it. -/
def InRefs (gitdir : Str) (p : List Str) : Prop :=
  placefrom (place cwd (gitdir ++ ['/'])) (lit "refs") <+: p ∨
    p <+: placefrom (place cwd (gitdir ++ ['/'])) (lit "refs") ∨
    ∃ q, q <+: gitdir ∧ p = place cwd q

def UpdatesInside (gitdir remote : Str) (refs : List Ref) : Prop :=
  ∀ c ∈ updaterefs gitdir remote refs, InRefs cwd gitdir (place cwd c.path)

/-- The name of every ref stays in the refs, and so does all before a slash of it. -/
def RefsInside (gitdir remote : Str) (refs : List Ref) : Prop :=
  ∀ r ∈ refs, ∀ name ∈ targets remote r, ∀ a, (a = name ∨ ∃ b, name = a ++ '/' :: b) →
    InRefs cwd gitdir (placefrom (place cwd (gitdir ++ ['/'])) a)

def ReadsInside (files : Files) (path name : Str) : Prop :=
  (∃ fuel r, (readref files path fuel name []).2 = some r) ∧
    ∀ fuel, ∀ p ∈ (readref files path fuel name []).1,
      place cwd (path ++ ['/']) <+: place cwd p

def ChainInside (files : Files) (path name : Str) : Prop :=
  (∃ n, chainat files path name n = none) ∧
    ∀ n next, chainat files path name n = some next →
      place cwd (path ++ ['/']) <+: placefrom (place cwd (path ++ ['/'])) next

section

variable {cwd} {repo : Repo} {tree : Hash} {dest : Str}

theorem place_under (names : List Str) (dest : Str) :
    place cwd (under dest names ++ ['/']) =
      names.foldl placefrom (place cwd (dest ++ ['/'])) := by
  induction names generalizing dest with
  | nil => rfl
  | cons name names ih =>
    change place cwd (under (dest ++ '/' :: name) names ++ ['/']) =
      names.foldl placefrom (placefrom (place cwd (dest ++ ['/'])) name)
    rw [ih, place_below, place_append]

theorem under_ne_nil {names : List Str} (hne : names ≠ []) (dest : Str) :
    under dest names ≠ [] := by
  induction names using List.reverseRecOn with
  | nil => exact absurd rfl hne
  | append_singleton names name => simp [under]

theorem chains_ne_nil (fuel : ℕ) (tree : Hash) :
    ∀ names ∈ (chains repo fuel tree).1, names ≠ [] := by
  have hloop (walk : Hash → List (List Str) × Bool) (entries : List TreeEntry) :
      ∀ names ∈ (chainsloop repo walk entries).1, names ≠ [] := by
    induction entries with
    | nil => simp [chainsloop]
    | cons e entries ih =>
      intro names hnames hnil
      subst hnil
      rw [chainsloop] at hnames
      split_ifs at hnames with hdir hdone hlink
      · simp only [List.mem_cons, List.mem_append, List.mem_map, List.cons_append] at hnames
        rcases hnames with h | ⟨_, -, h⟩ | h
        · cases h
        · cases h
        · exact ih _ h rfl
      · simp only [List.mem_cons, List.mem_map] at hnames
        rcases hnames with h | ⟨_, -, h⟩
        · cases h
        · cases h
      · exact ih _ hnames rfl
      · cases hread : repo.readobj e.hash with
        | error err => simp [hread] at hnames
        | ok o =>
          rw [hread] at hnames
          simp only at hnames
          split_ifs at hnames
          · cases hnames
          · rcases List.mem_cons.mp hnames with h | h
            · cases h
            · exact ih _ h rfl
  cases fuel with
  | zero => simp [chains]
  | succ fuel =>
    rw [chains]
    cases repo.readobj tree with
    | error err => simp
    | ok o =>
      obtain ⟨otype, data⟩ := o
      simp only
      split_ifs
      · simp
      · cases parsetree data with
        | error err => simp
        | ok entries => exact hloop _ _

theorem checkout_iff : CheckoutInside cwd repo tree dest ↔ NamesInside cwd repo tree dest := by
  have hplace {fuel : ℕ} {names : List Str} (hnames : names ∈ (chains repo fuel tree).1) :
      place cwd (under dest names) = names.foldl placefrom (place cwd (dest ++ ['/'])) := by
    rw [← place_under, place_slash (under_ne_nil (chains_ne_nil fuel tree names hnames) dest)]
  constructor
  · intro h fuel names hnames
    obtain ⟨new, hrun, -, -, hall⟩ :=
      checkout_follows repo (fun _ _ => none) fuel tree dest []
    have hpath : under dest names ∈ new.map Call.path := by
      rw [(hall fun _ _ => rfl).1]
      exact List.mem_map_of_mem hnames
    obtain ⟨c, hc, heq⟩ := List.mem_map.mp hpath
    have hin := h (fun _ _ => none) fuel c (by rw [hrun]; exact hc)
    rwa [heq, hplace hnames] at hin
  · intro h sys fuel c hc
    obtain ⟨new, hrun, hpre, -, -⟩ :=
      checkout_follows repo sys fuel tree dest []
    rw [hrun, List.nil_append] at hc
    obtain ⟨names, hnames, heq⟩ :=
      List.mem_map.mp (hpre.subset (List.mem_map_of_mem hc))
    rw [← heq, hplace hnames]
    exact h fuel names hnames

theorem updaterefs_iff (gitdir remote : Str) (refs : List Ref) :
    UpdatesInside cwd gitdir remote refs ↔ RefsInside cwd gitdir remote refs := by
  have hplace (a : Str) : place cwd (gitdir ++ '/' :: a) =
      placefrom (place cwd (gitdir ++ ['/'])) a := place_append gitdir a
  rw [UpdatesInside, updaterefs_eq]
  constructor
  · intro h r hr name hname a ha
    have hcall : ∃ c ∈ writeref gitdir name r.hash, c.path = gitdir ++ '/' :: a := by
      refine mem_writeref.mpr (ha.imp (fun heq => by rw [heq]) ?_)
      rintro ⟨b, rfl⟩
      exact ⟨by simp, b, by simp⟩
    obtain ⟨c, hc, hpath⟩ := hcall
    have hin := h c (List.mem_flatMap.mpr ⟨r, hr, List.mem_flatMap.mpr ⟨name, hname, hc⟩⟩)
    rwa [hpath, hplace] at hin
  · intro h c hc
    obtain ⟨r, hr, hc⟩ := List.mem_flatMap.mp hc
    obtain ⟨name, hname, hc⟩ := List.mem_flatMap.mp hc
    rcases mem_writeref.mp ⟨c, hc, rfl⟩ with hpath | ⟨-, b, hpath⟩
    · rw [hpath, hplace]
      exact h r hr name hname name (.inl rfl)
    · rcases List.append_eq_append_iff.mp hpath with ⟨a, ha, hb⟩ | ⟨a, ha, hb⟩
      · cases a with
        | nil =>
          refine .inr (.inr ⟨c.path, ?_, rfl⟩)
          rw [ha, List.append_nil]
        | cons x a =>
          rw [List.cons_append, List.cons.injEq] at hb
          obtain ⟨rfl, rfl⟩ := hb
          rw [ha, hplace]
          exact h r hr _ hname a (.inr ⟨b, rfl⟩)
      · exact .inr (.inr ⟨c.path, ⟨a, ha.symm⟩, rfl⟩)

theorem readref_opened {files : Files} {path name : Str} {fuel : ℕ} {opened : List Str} :
    ∀ p ∈ (readref files path fuel name opened).1, p ∈ opened ∨ p = path ++ lit "/packed-refs" ∨
      ∃ n next, chainat files path name n = some next ∧ p = path ++ '/' :: next := by
  induction fuel generalizing name opened with
  | zero => exact fun p hp => .inl hp
  | succ fuel ih =>
    have hhere {p : Str} (hp : p ∈ opened ++ [path ++ '/' :: name]) :
        p ∈ opened ∨ p = path ++ lit "/packed-refs" ∨
          ∃ n next, chainat files path name n = some next ∧ p = path ++ '/' :: next := by
      rcases List.mem_append.mp hp with hp | hp
      · exact .inl hp
      · exact .inr (.inr ⟨0, name, rfl, List.mem_singleton.mp hp⟩)
    intro p hp
    rw [readref] at hp
    cases hvalue : refvalue files path name with
    | none =>
      rw [hvalue] at hp
      rcases List.mem_append.mp hp with hp | hp
      · exact hhere hp
      · exact .inr (.inl (List.mem_singleton.mp hp))
    | some s =>
      rw [hvalue] at hp
      simp only at hp
      split_ifs at hp with hsym
      · rcases ih p hp with hp | hp | ⟨n, next, hnext, rfl⟩
        · exact hhere hp
        · exact .inr (.inl hp)
        · refine .inr (.inr ⟨n + 1, next, ?_, rfl⟩)
          rw [chainat_succ, symbolic_eq, hvalue, Option.bind_some, if_pos hsym]
          exact hnext
      · exact hhere hp

theorem readref_opens {files : Files} {path name next : Str} {n : ℕ} {opened : List Str}
    (hnext : chainat files path name n = some next) :
    path ++ '/' :: next ∈ (readref files path (n + 1) name opened).1 := by
  have hkept {fuel : ℕ} {name : Str} {opened : List Str} :
      opened ⊆ (readref files path fuel name opened).1 := by
    induction fuel generalizing name opened with
    | zero => exact fun p hp => hp
    | succ fuel ih =>
      intro p hp
      rw [readref]
      cases refvalue files path name with
      | none => simp [hp]
      | some s =>
        simp only
        split_ifs
        · exact ih (List.mem_append_left _ hp)
        · exact List.mem_append_left _ hp
  induction n generalizing name opened with
  | zero =>
    obtain rfl : name = next := Option.some.inj hnext
    rw [readref]
    cases refvalue files path name with
    | none => simp
    | some s =>
      simp only
      split_ifs
      · exact hkept (List.mem_append_right _ (List.mem_singleton.mpr rfl))
      · simp
  | succ n ih =>
    rw [chainat_succ, symbolic_eq] at hnext
    cases hvalue : refvalue files path name with
    | none =>
      rw [hvalue] at hnext
      cases hnext
    | some s =>
      rw [hvalue, Option.bind_some] at hnext
      split_ifs at hnext with hsym
      · rw [readref, hvalue]
        simp only [if_pos hsym]
        exact ih hnext
      · cases hnext

theorem readref_ends {files : Files} {path name : Str} {fuel : ℕ} {opened : List Str} :
    (∃ r, (readref files path fuel name opened).2 = some r) ↔
      chainat files path name fuel = none := by
  induction fuel generalizing name opened with
  | zero => simp [readref, chainat]
  | succ fuel ih =>
    rw [readref, chainat_succ, symbolic_eq]
    cases refvalue files path name with
    | none => simp
    | some s =>
      simp only [Option.bind_some]
      split_ifs with hsym
      · exact ih
      · simp

theorem readref_iff {files : Files} {path name : Str} :
    ReadsInside cwd files path name ↔ ChainInside cwd files path name := by
  have hpacked : place cwd (path ++ ['/']) <+: place cwd (path ++ lit "/packed-refs") := by
    rw [show lit "/packed-refs" = '/' :: lit "packed-refs" from rfl,
      place_append path (lit "packed-refs")]
    exact ⟨[lit "packed-refs"], rfl⟩
  constructor
  · rintro ⟨⟨fuel, hends⟩, hin⟩
    refine ⟨⟨fuel, readref_ends.mp hends⟩, fun n next hnext => ?_⟩
    rw [← place_append]
    exact hin (n + 1) _ (readref_opens hnext)
  · rintro ⟨⟨n, hend⟩, hin⟩
    refine ⟨⟨n, readref_ends.mpr hend⟩, fun fuel p hp => ?_⟩
    rcases readref_opened p hp with hp | rfl | ⟨m, next, hnext, rfl⟩
    · cases hp
    · exact hpacked
    · rw [place_append path next]
      exact hin m next hnext

end

def upward : Repo where
  readobj h :=
    if h = nullhash then .ok (OBJ_BLOB, [])
    else if h = (fun _ => 1) then
      .ok (OBJ_TREE, bytes (lit "100644 ../x") ++ 0 :: List.replicate 20 0)
    else .error (lit "object not found: " ++ h.hex)
  finite := by
    refine ((Set.finite_singleton (fun _ => 1)).insert nullhash).subset fun h hok => ?_
    rw [Set.mem_ofPred_eq] at hok
    split_ifs at hok with hnull htree
    · exact .inl hnull
    · exact .inr htree
    · cases hok

theorem upward_chains : (chains upward 1 (fun _ => 1)).1 = [[lit "../x"]] := by
  have hread : upward.readobj (fun _ => 1) =
      .ok (OBJ_TREE, bytes (lit "100644 ../x") ++ 0 :: List.replicate 20 0) := by
    have hne : (fun _ => 1 : Hash) ≠ nullhash := fun h => absurd (congrFun h 0) (by decide)
    simp only [upward]
    rw [if_neg hne, if_pos trivial]
  have hblob : upward.readobj nullhash = .ok (OBJ_BLOB, []) := by
    simp only [upward]
    rw [if_pos trivial]
  have hentry : parseentry (bytes (lit "100644 ../x") ++ 0 :: List.replicate 20 0) =
      .ok (⟨0o100644, lit "../x", nullhash⟩, []) := by
    have hmode : octal 0 ((bytes (lit "100644 ../x") ++ 0 :: List.replicate 20 0).takeWhile
        (· ≠ 32)) = some 0o100644 := by decide
    have hrest : (bytes (lit "100644 ../x") ++ 0 :: List.replicate 20 0).dropWhile (· ≠ 32) =
        32 :: (bytes (lit "../x") ++ 0 :: List.replicate 20 0) := by decide
    have hname : (bytes (lit "../x") ++ 0 :: List.replicate 20 0).takeWhile (· ≠ 0) =
        bytes (lit "../x") := by decide
    have hafter : (bytes (lit "../x") ++ 0 :: List.replicate 20 0).dropWhile (· ≠ 0) =
        0 :: List.replicate 20 0 := by decide
    have hhash : hashat (List.replicate 20 0) = nullhash := by decide
    rw [parseentry, hrest]
    simp only [hmode, hname, hafter, hhash, Limbo.string_bytes]
    simp
  have hparse : parsetree (bytes (lit "100644 ../x") ++ 0 :: List.replicate 20 0) =
      .ok [⟨0o100644, lit "../x", nullhash⟩] := by
    rw [parsetree, if_neg (by simp)]
    split
    · rename_i err herr
      rw [hentry] at herr
      cases herr
    · rename_i e rest hok
      rw [hentry, Except.ok.injEq, Prod.mk.injEq] at hok
      rw [← hok.1, ← hok.2, parsetree, if_pos rfl]
      rfl
  rw [chains, hread]
  simp only [hparse]
  simp [chainsloop, hblob]

def cyclic : Files := fun path =>
  if path = lit "/r/.git/refs/heads/a" then some (bytes (lit "ref: refs/heads/a")) else none

theorem cyclic_chain (n : ℕ) :
    chainat cyclic (lit "/r/.git") (lit "refs/heads/a") n = some (lit "refs/heads/a") := by
  have hself : symbolic cyclic (lit "/r/.git") (lit "refs/heads/a") =
      some (lit "refs/heads/a") := by
    have hvalue : refvalue cyclic (lit "/r/.git") (lit "refs/heads/a") =
        some (lit "ref: refs/heads/a") := by
      have hfile : cyclic (lit "/r/.git" ++ '/' :: lit "refs/heads/a") =
          some (bytes (lit "ref: refs/heads/a")) := by
        rw [cyclic, if_pos (by decide)]
      have hshort : (bytes (lit "ref: refs/heads/a")).take 256 =
          bytes (lit "ref: refs/heads/a") := by decide
      rw [refvalue, hfile]
      simp only
      rw [hshort, if_neg (by decide), Limbo.string_bytes]
      decide
    rw [symbolic, hvalue]
    decide
  induction n with
  | zero => rfl
  | succ n ih => rw [chainat, ih, Option.bind_some, hself]

end Infernode.Git
