import Infernode.Git.Push

/-!
# Ancestors

`isancestor` tells for every history whether a commit is reached from another along parents.
-/

namespace Infernode.Git

open Limbo (Str lit)
open Lib (Work)
open Relation (ReflTransGen)

variable (repo : Repo)

def parentsof (h : Hash) : List Hash :=
  match commitof repo h with
  | none => []
  | some commit => commit.parents

def Parent (a b : Hash) : Prop := b ∈ parentsof repo a

theorem parents_finite : {h | parentsof repo h ≠ []}.Finite := by
  refine repo.finite.subset fun h hne => ?_
  rw [Set.mem_ofPred_eq] at hne ⊢
  cases hread : repo.readobj h with
  | error err => simp [parentsof, commitof, hread] at hne
  | ok o => rfl

def ancestorat (ancestor : Hash) (fuel : ℕ) (w : Work Hash) : Option Bool :=
  ancestorloop repo ancestor fuel w.queue (w.seen.map Hash.hex)

theorem ancestorat_turn (ancestor h : Hash) (queue seen : List Hash) :
    (Parent repo h ancestor ∧ h ∉ seen ∧
      ∀ fuel, ancestorat repo ancestor (fuel + 1) ⟨h :: queue, seen⟩ = some true) ∨
    ∃ w', Work.Step (parentsof repo) (fun _ => False) ⟨h :: queue, seen⟩ w' ∧
      (∀ x ∈ w'.seen, x ∈ seen ∨ ¬Parent repo x ancestor) ∧
      ∀ fuel, ancestorat repo ancestor (fuel + 1) ⟨h :: queue, seen⟩ =
        ancestorat repo ancestor fuel w' := by
  by_cases hdone : h ∈ seen
  · refine .inr ⟨_, .drop (.inl hdone), fun x hx => .inl hx, fun fuel => ?_⟩
    simp only [ancestorat, ancestorloop]
    rw [if_pos (hex_mem.mpr hdone)]
  have hdone' : ¬h.hex ∈ seen.map Hash.hex := fun hin => hdone (hex_mem.mp hin)
  cases hcommit : commitof repo h with
  | none =>
    have hnil : parentsof repo h = [] := by rw [parentsof, hcommit]
    refine .inr ⟨⟨[] ++ queue, h :: seen⟩, .visit hdone (by simp) (by simp) ?_, ?_, fun fuel => ?_⟩
    · rw [hnil]
      simp
    · intro x hx
      rcases List.mem_cons.mp hx with rfl | hx
      · exact .inr (by rw [Parent, hnil]; simp)
      · exact .inl hx
    · simp only [ancestorat, ancestorloop]
      rw [if_neg hdone', hcommit]
      rfl
  | some commit =>
    have hparents : parentsof repo h = commit.parents := by rw [parentsof, hcommit]
    by_cases hfound : ancestor ∈ commit.parents
    · refine .inl ⟨by rw [Parent, hparents]; exact hfound, hdone, fun fuel => ?_⟩
      simp only [ancestorat, ancestorloop]
      rw [if_neg hdone', hcommit]
      simp only [scanparents_eq, if_pos hfound]
    · refine .inr ⟨⟨commit.parents.reverse ++ queue, h :: seen⟩,
        .visit hdone (by simp) ?_ ?_, ?_, fun fuel => ?_⟩
      · intro y hy
        rw [hparents]
        exact List.mem_reverse.mp hy
      · intro y hy
        rw [hparents] at hy
        exact .inl (List.mem_reverse.mpr hy)
      · intro x hx
        rcases List.mem_cons.mp hx with rfl | hx
        · exact .inr (by rw [Parent, hparents]; exact hfound)
        · exact .inl hx
      · simp only [ancestorat, ancestorloop]
        rw [if_neg hdone', hcommit]
        simp only [scanparents_eq, if_neg hfound]
        rfl

variable {repo} {ancestor : Hash} {start : List Hash}

theorem reached_iff {h : Hash} : Work.Reached (parentsof repo) (fun _ => False) start h ↔
    ∃ r ∈ start, ReflTransGen (Parent repo) r h := by
  simp only [Work.Reached, not_false_eq_true, and_true, true_and]
  rfl

theorem ancestorat_result {fuel : ℕ} {w : Work Hash} {r : Bool}
    (hw : Work.Inv (parentsof repo) (fun _ => False) start w)
    (hnot : ∀ x ∈ w.seen, ¬Parent repo x ancestor) (hother : ancestor ∉ start)
    (hrun : ancestorat repo ancestor fuel w = some r) :
    r = true ↔ ∃ s ∈ start, ReflTransGen (Parent repo) s ancestor := by
  have hend {seen : List Hash} (hw : Work.Inv (parentsof repo) (fun _ => False) start ⟨[], seen⟩)
      (hnot : ∀ x ∈ seen, ¬Parent repo x ancestor) :
      ¬∃ s ∈ start, ReflTransGen (Parent repo) s ancestor := by
    rintro ⟨s, hs, hpath⟩
    rcases hpath.cases_tail with heq | ⟨x, hpre, hlast⟩
    · exact hother (heq ▸ hs)
    · exact hnot x (hw.seen_iff.mpr (reached_iff.mpr ⟨s, hs, hpre⟩)) hlast
  induction fuel generalizing w with
  | zero =>
    obtain ⟨queue, seen⟩ := w
    cases queue with
    | nil =>
      obtain rfl : false = r := Option.some.inj hrun
      simpa using hend hw hnot
    | cons h queue => cases hrun
  | succ fuel ih =>
    obtain ⟨queue, seen⟩ := w
    cases queue with
    | nil =>
      obtain rfl : false = r := Option.some.inj hrun
      simpa using hend hw hnot
    | cons h queue =>
      rcases ancestorat_turn repo ancestor h queue seen with
        ⟨hparent, -, hfound⟩ | ⟨w', hstep, hseen, hturn⟩
      · obtain rfl : true = r := Option.some.inj ((hfound fuel).symm.trans hrun)
        obtain ⟨s, hs, hpath⟩ :=
          reached_iff.mp ((hw.ahead h List.mem_cons_self).resolve_left not_false)
        exact iff_of_true rfl ⟨s, hs, hpath.tail hparent⟩
      · exact ih (hstep.inv hw) (fun x hx => (hseen x hx).elim (hnot x) id) (hturn fuel ▸ hrun)

variable (repo ancestor) in
theorem ancestorat_ends (w : Work Hash) : ∃ fuel r, ancestorat repo ancestor fuel w = some r := by
  induction w using (Work.step_wellFounded (fun _ => False) (parents_finite repo)).induction with
  | _ w ih =>
    obtain ⟨queue, seen⟩ := w
    cases queue with
    | nil => exact ⟨0, false, rfl⟩
    | cons h queue =>
      rcases ancestorat_turn repo ancestor h queue seen with
        ⟨-, -, hfound⟩ | ⟨w', hstep, -, hturn⟩
      · exact ⟨1, true, hfound 0⟩
      · obtain ⟨fuel, r, hrun⟩ := ih w' hstep
        exact ⟨fuel + 1, r, (hturn fuel).trans hrun⟩

/-- The check of the history: it ends, and tells what is reached along parents. -/
def Checks (repo : Repo) (ancestor descendant : Hash) : Prop :=
  (∃ fuel r, isancestor repo fuel ancestor descendant = some r) ∧
    ∀ fuel r, isancestor repo fuel ancestor descendant = some r →
      (r = true ↔ ReflTransGen (Parent repo) descendant ancestor)

theorem isancestor_checks (repo : Repo) (ancestor descendant : Hash) :
    Checks repo ancestor descendant := by
  by_cases hsame : ancestor = descendant
  · subst hsame
    refine ⟨⟨0, true, by rw [isancestor, if_pos rfl]⟩, fun fuel r hrun => ?_⟩
    rw [isancestor, if_pos rfl, Option.some.injEq] at hrun
    exact iff_of_true hrun.symm .refl
  · have hrun (fuel : ℕ) : isancestor repo fuel ancestor descendant =
        ancestorat repo ancestor fuel ⟨[descendant], []⟩ := by
      rw [isancestor, if_neg hsame]
      rfl
    simp only [Checks, hrun]
    refine ⟨ancestorat_ends repo ancestor _, fun fuel r hres => ?_⟩
    have hresult := ancestorat_result Work.inv_start (by simp) (by simpa using hsame) hres
    simpa using hresult

/-- A push is complete just when nothing it has to send is behind a tag or unreadable; the
check of the history is always exact. -/
theorem push_complete (repo : Repo) (want have' : List Hash) (ancestor descendant : Hash) :
    (Complete repo want have' ∧ Checks repo ancestor descendant) ↔ Untagged repo want have' :=
  ⟨fun h => (complete_iff repo want have').mp h.1,
    fun h => ⟨(complete_iff repo want have').mpr h, isancestor_checks repo ancestor descendant⟩⟩

def tagged : Repo where
  readobj h :=
    if h = nullhash then .ok (OBJ_BLOB, [])
    else if h = (fun _ => 1) then
      .ok (OBJ_TAG, Limbo.bytes (lit "object " ++ nullhash.hex ++ ['\n']))
    else .error (lit "object not found: " ++ h.hex)
  finite := by
    refine ((Set.finite_singleton (fun _ => 1)).insert nullhash).subset fun h hok => ?_
    rw [Set.mem_ofPred_eq] at hok
    split_ifs at hok with hnull htag
    · exact .inl hnull
    · exact .inr htag
    · cases hok

def unreadable : Repo where
  readobj h := .error (lit "object not found: " ++ h.hex)
  finite := by
    convert Set.finite_empty
    ext h
    simp [Except.isOk, Except.toBool]

theorem tagged_tag : tagged.readobj (fun _ => 1) =
    .ok (OBJ_TAG, Limbo.bytes (lit "object " ++ nullhash.hex ++ ['\n'])) := by
  have hne : (fun _ => 1 : Hash) ≠ nullhash := fun h => absurd (congrFun h 0) (by decide)
  simp only [tagged]
  rw [if_neg hne, if_pos trivial]

theorem tagged_names : names tagged (fun _ => 1) = some [nullhash] := by
  have hparse : parsetag (Limbo.bytes (lit "object " ++ nullhash.hex ++ ['\n'])) =
      .ok ⟨nullhash, 0, [], [], []⟩ := by
    rw [parsetag, Limbo.string_bytes]
    have hline : splitline (lit "object " ++ nullhash.hex ++ ['\n']) =
        (lit "object " ++ nullhash.hex, []) := by decide
    have hfirst : splitfirst ' ' (lit "object " ++ nullhash.hex) =
        (lit "object", nullhash.hex) := by decide
    have hhash : parsehash nullhash.hex = .ok nullhash := by
      have h := parsehash_hex nullhash []
      rwa [List.append_nil] at h
    rw [tagloop, dif_neg (by rw [hline]; decide)]
    simp only [hline, hfirst, hhash, if_true]
    rw [tagloop, dif_pos (by rfl)]
    rfl
  rw [names, tagged_tag]
  simp only [hparse]
  rfl

/-- The tagged object is not sent; of an object that cannot be read nothing is said. -/
theorem push_incomplete :
    ¬Complete tagged [fun _ => 1] [] ∧ ¬Complete unreadable [nullhash] [] := by
  have hnone (repo : Repo) (h : Hash) : ¬Reachable repo [] h := by simp [Reachable]
  rw [complete_iff, complete_iff]
  constructor
  · intro h
    have hlacks : Lacks tagged [fun _ => 1] [] nullhash :=
      ⟨⟨_, List.mem_cons_self, .single ⟨_, tagged_names, List.mem_cons_self⟩⟩, hnone _ _⟩
    obtain ⟨r, hr, -, hpath⟩ := (h nullhash hlacks).2
    obtain rfl : r = fun _ => 1 := List.mem_singleton.mp hr
    have hleads : leads tagged (fun _ => 1) = [] := by
      rw [leads, tagged_tag]
      rfl
    rcases hpath.cases_head with heq | ⟨x, hfirst, -⟩
    · exact absurd (congrFun heq 0) (by decide)
    · rw [hleads] at hfirst
      cases hfirst.1
  · intro h
    have hlacks : Lacks unreadable [nullhash] [] nullhash :=
      ⟨⟨_, List.mem_cons_self, .refl⟩, hnone _ _⟩
    exact (h nullhash hlacks).1 rfl

end Infernode.Git
