import Infernode.Git.Walk

/-!
# What a push sends

The objects that a push has to send are those reached from what is wanted and not from what
the other side has: along the parents and the tree of a commit, the entries of a tree that
are not commits of another repository, and the object of a tag. `enumobjects` does not look
behind a tag and never reports an error.
-/

namespace Infernode.Git

open Limbo (Str lit)
open Lib (Work)
open Relation (ReflTransGen)

def gitlink : ℤ := 0o160000

/-- What an object names; `none` where it cannot be read. -/
def names (repo : Repo) (h : Hash) : Option (List Hash) :=
  match repo.readobj h with
  | .error _ => none
  | .ok (otype, data) =>
    if otype = OBJ_COMMIT then
      match parsecommit data with
      | .error _ => none
      | .ok commit => some (commit.tree :: commit.parents)
    else if otype = OBJ_TREE then
      match parsetree data with
      | .error _ => none
      | .ok entries => some ((entries.filter fun e => e.mode ≠ gitlink).map TreeEntry.hash)
    else if otype = OBJ_TAG then
      match parsetag data with
      | .error _ => none
      | .ok tag => some [tag.obj]
    else some []

def Names (repo : Repo) (a b : Hash) : Prop := ∃ l, names repo a = some l ∧ b ∈ l

def Reachable (repo : Repo) (roots : List Hash) (h : Hash) : Prop :=
  ∃ r ∈ roots, ReflTransGen (Names repo) r h

def Lacks (repo : Repo) (want have' : List Hash) (h : Hash) : Prop :=
  Reachable repo want h ∧ ¬Reachable repo have' h

def objectof (repo : Repo) (h : Hash) : Option ObjRef :=
  match repo.readobj h with
  | .error _ => none
  | .ok (otype, data) => some ⟨h, otype, data⟩

/-- A push sends what the other side lacks once each; if some of that cannot be read it
reports an error. -/
def Complete (repo : Repo) (want have' : List Hash) : Prop :=
  ((∀ h, Lacks repo want have' h → names repo h ≠ none) →
    ∃ fuel objects, enumobjects repo fuel want have' = some (objects, none) ∧
      ∀ h, Lacks repo want have' h → (objects.map ObjRef.hash).count h = 1 ∧
        ∃ obj ∈ objects, objectof repo h = some obj) ∧
  ((∃ h, Lacks repo want have' h ∧ names repo h = none) →
    ∃ fuel objects err, enumobjects repo fuel want have' = some (objects, some err))

/-- All of it can be read, and is reached without what a tag names and past no object that
the other side is said to have. -/
def Untagged (repo : Repo) (want have' : List Hash) : Prop :=
  ∀ h, Lacks repo want have' h →
    names repo h ≠ none ∧ Work.Reached (leads repo) (· ∈ have') want h

section

variable (repo : Repo) (have' : List Hash)

theorem objectof_hash {h : Hash} {obj : ObjRef} (hobj : objectof repo h = some obj) :
    obj.hash = h := by
  rw [objectof] at hobj
  split at hobj
  · cases hobj
  · exact (Option.some.inj hobj) ▸ rfl

def enumat (fuel : ℕ) (w : Work Hash) : Option (List ObjRef) :=
  enumloop repo (have'.map Hash.hex).reverse fuel w.queue (w.seen.map Hash.hex)
    (w.seen.filterMap (objectof repo))

theorem enumat_nil (fuel : ℕ) (seen : List Hash) :
    enumat repo have' fuel ⟨[], seen⟩ = some (seen.filterMap (objectof repo)) := by
  cases fuel <;> rfl

theorem enumat_turn (h : Hash) (queue seen : List Hash) :
    ∃ w', Work.Step (leads repo) (· ∈ have') ⟨h :: queue, seen⟩ w' ∧
      ∀ fuel, enumat repo have' (fuel + 1) ⟨h :: queue, seen⟩ = enumat repo have' fuel w' := by
  have hhave {x : Hash} : x.hex ∈ (have'.map Hash.hex).reverse ↔ x ∈ have' := by
    rw [List.mem_reverse, hex_mem]
  by_cases hdone : h ∈ seen ∨ h ∈ have'
  · refine ⟨_, .drop hdone, fun fuel => ?_⟩
    have hdone' : h.hex ∈ seen.map Hash.hex ∨ h.hex ∈ (have'.map Hash.hex).reverse := by
      rwa [hex_mem, hhave]
    simp only [enumat, enumloop]
    rw [if_pos hdone']
  · have hdone' : ¬(h.hex ∈ seen.map Hash.hex ∨ h.hex ∈ (have'.map Hash.hex).reverse) := by
      rwa [hex_mem, hhave]
    rw [not_or] at hdone
    cases hread : repo.readobj h with
    | error err =>
      refine ⟨⟨[] ++ queue, h :: seen⟩, .visit hdone.1 hdone.2 (by simp) ?_, fun fuel => ?_⟩
      · rw [leads_error hread]
        simp
      · have hnone : objectof repo h = none := by rw [objectof, hread]
        simp only [enumat, enumloop]
        rw [if_neg hdone', hread, List.filterMap_cons, hnone]
        rfl
    | ok o =>
      obtain ⟨otype, data⟩ := o
      let keep : Hash → Bool := fun x =>
        ¬(x.hex ∈ h.hex :: seen.map Hash.hex ∨ x.hex ∈ (have'.map Hash.hex).reverse)
      refine ⟨⟨((leads repo h).filter keep).reverse ++ queue, h :: seen⟩,
        .visit hdone.1 hdone.2 ?_ ?_, fun fuel => ?_⟩
      · intro y hy
        exact (List.mem_filter.mp (List.mem_reverse.mp hy)).1
      · intro y hy
        by_cases hkeep : keep y = true
        · exact .inl (List.mem_reverse.mpr (List.mem_filter.mpr ⟨hy, hkeep⟩))
        · have hout : y.hex ∈ (h :: seen).map Hash.hex ∨
              y.hex ∈ (have'.map Hash.hex).reverse := by
            simpa only [keep, decide_not, Bool.not_eq_true', decide_eq_false_iff_not,
              not_not, List.map_cons] using hkeep
          rw [hex_mem, hhave] at hout
          exact .inr (.inr hout)
      · have hsome : objectof repo h = some ⟨h, otype, data⟩ := by rw [objectof, hread]
        simp only [enumat, enumloop]
        rw [if_neg hdone', hread, List.filterMap_cons, hsome]
        simp only [follow_eq repo hread]
        rfl

variable {repo have'} {want : List Hash}

theorem enumat_result {fuel : ℕ} {w : Work Hash} {objects : List ObjRef}
    (hw : Work.Inv (leads repo) (· ∈ have') want w)
    (hrun : enumat repo have' fuel w = some objects) :
    ∃ seen, objects = seen.filterMap (objectof repo) ∧
      Work.Inv (leads repo) (· ∈ have') want ⟨[], seen⟩ := by
  induction fuel generalizing w with
  | zero =>
    obtain ⟨queue, seen⟩ := w
    cases queue with
    | nil =>
      rw [enumat_nil, Option.some.injEq] at hrun
      exact ⟨seen, hrun.symm, hw⟩
    | cons h queue => cases hrun
  | succ fuel ih =>
    obtain ⟨queue, seen⟩ := w
    cases queue with
    | nil =>
      rw [enumat_nil, Option.some.injEq] at hrun
      exact ⟨seen, hrun.symm, hw⟩
    | cons h queue =>
      obtain ⟨w', hstep, hturn⟩ := enumat_turn repo have' h queue seen
      exact ih (hstep.inv hw) (hturn fuel ▸ hrun)

variable (repo have') in
theorem enumat_ends (w : Work Hash) : ∃ fuel objects, enumat repo have' fuel w = some objects := by
  induction w using (Work.step_wellFounded (· ∈ have') (leads_finite repo)).induction with
  | _ w ih =>
    obtain ⟨queue, seen⟩ := w
    cases queue with
    | nil => exact ⟨0, _, enumat_nil repo have' 0 seen⟩
    | cons h queue =>
      obtain ⟨w', hstep, hturn⟩ := enumat_turn repo have' h queue seen
      obtain ⟨fuel, objects, hrun⟩ := ih w' hstep
      exact ⟨fuel + 1, objects, (hturn fuel).trans hrun⟩

theorem enumobjects_eq (fuel : ℕ) : enumobjects repo fuel want have' =
    (enumat repo have' fuel ⟨want, []⟩).map fun objects => (objects, none) := by
  rw [enumobjects, haveset_eq]
  rfl

theorem count_objects {seen : List Hash} (hseen : seen.Nodup) {h : Hash} {obj : ObjRef}
    (hmem : h ∈ seen) (hobj : objectof repo h = some obj) :
    ((seen.filterMap (objectof repo)).map ObjRef.hash).count h = 1 ∧
      obj ∈ seen.filterMap (objectof repo) := by
  have hin : obj ∈ seen.filterMap (objectof repo) := List.mem_filterMap.mpr ⟨h, hmem, hobj⟩
  have hsub : ((seen.filterMap (objectof repo)).map ObjRef.hash).Sublist seen := by
    clear hmem hin hobj hseen
    induction seen with
    | nil => exact .slnil
    | cons x seen ih =>
      rw [List.filterMap_cons]
      cases hx : objectof repo x with
      | none => exact ih.cons x
      | some o =>
        simp only [List.map_cons]
        rw [objectof_hash repo hx]
        exact ih.cons_cons x
  refine ⟨List.count_eq_one_of_mem (hsub.nodup hseen) ?_, hin⟩
  exact objectof_hash repo hobj ▸ List.mem_map_of_mem hin

theorem mem_seen {seen : List Hash} {h : Hash}
    (hmem : h ∈ (seen.filterMap (objectof repo)).map ObjRef.hash) : h ∈ seen := by
  obtain ⟨obj, hobj, rfl⟩ := List.mem_map.mp hmem
  obtain ⟨x, hx, hread⟩ := List.mem_filterMap.mp hobj
  rwa [objectof_hash repo hread]

theorem objectof_of_names {h : Hash} (hnames : names repo h ≠ none) :
    ∃ obj, objectof repo h = some obj := by
  rw [names] at hnames
  rw [objectof]
  cases hread : repo.readobj h with
  | error err =>
    rw [hread] at hnames
    exact absurd rfl hnames
  | ok o => exact ⟨_, rfl⟩

theorem complete_iff (repo : Repo) (want have' : List Hash) :
    Complete repo want have' ↔ Untagged repo want have' := by
  constructor
  · rintro ⟨hall, hsome⟩
    have hread : ∀ h, Lacks repo want have' h → names repo h ≠ none := by
      intro h hlacks hnone
      obtain ⟨fuel, objects, err, hrun⟩ := hsome ⟨h, hlacks, hnone⟩
      rw [enumobjects_eq, Option.map_eq_some_iff] at hrun
      obtain ⟨_, -, heq⟩ := hrun
      cases heq
    obtain ⟨fuel, objects, hrun, honce⟩ := hall hread
    rw [enumobjects_eq, Option.map_eq_some_iff] at hrun
    obtain ⟨objects', hrun', heq⟩ := hrun
    obtain rfl : objects' = objects := congrArg Prod.fst heq
    obtain ⟨seen, rfl, hinv⟩ := enumat_result Work.inv_start hrun'
    intro h hlacks
    have hcount := (honce h hlacks).1
    have hpos := Nat.lt_of_lt_of_eq Nat.zero_lt_one hcount.symm
    have hmem := mem_seen (List.count_pos_iff.mp hpos)
    exact ⟨hread h hlacks, hinv.seen_iff.mp hmem⟩
  · intro h
    refine ⟨fun _ => ?_, fun ⟨x, hlacks, hnone⟩ => absurd hnone (h x hlacks).1⟩
    obtain ⟨fuel, objects, hrun⟩ := enumat_ends repo have' ⟨want, []⟩
    obtain ⟨seen, rfl, hinv⟩ := enumat_result Work.inv_start hrun
    refine ⟨fuel, _, by rw [enumobjects_eq, hrun]; rfl, fun x hlacks => ?_⟩
    obtain ⟨hnames, hreached⟩ := h x hlacks
    obtain ⟨obj, hobj⟩ := objectof_of_names hnames
    obtain ⟨hone, hin⟩ := count_objects hinv.nodup (hinv.seen_iff.mpr hreached) hobj
    exact ⟨hone, obj, hin, hobj⟩

end

end Infernode.Git
