import Infernode.Wallet.Cap

/-!
# The life of a proposal

What the log of a run may say: a proposal is executed and resolved at most
once, an unresolved one stays in the queue, and what a reader of pay or
authorize is told is the state of the proposal its fid wrote last. The queue
keeps this as long as no submission recycles a record that a fid still refers
to and ids have at most nine digits.
-/

namespace Infernode.Wallet
open Infernode.Limbo Infernode.Lib

def executions : List Log → List ℤ
  | [] => []
  | .executed id :: l => id :: executions l
  | _ :: l => executions l

def resolutions : List Log → List ℤ
  | [] => []
  | .resolved id _ :: l => id :: resolutions l
  | _ :: l => resolutions l

def proposals : List Log → List ℤ
  | [] => []
  | .proposed _ _ id :: l => id :: proposals l
  | _ :: l => proposals l

def current (f : File) (fid : ℕ) : List Log → Option ℤ
  | [] => none
  | .proposed g n id :: l => if g = f ∧ n = fid then some id else current f fid l
  | .clunked n :: l => if n = fid then none else current f fid l
  | _ :: l => current f fid l

def outcometext (r : Str) : Str := if 9 < r.length ∧ prefixed r "approved:" then r.drop 9 else r

def Honest (f : File) (fid : ℕ) (text : Str) (log : List Log) : Prop :=
  match current f fid log with
  | none => text = []
  | some id =>
    id ∉ resolutions log ∧ text = ("pending:" ++ intstr id) ++ ['\n'] ∨
      ∃ r, .resolved id r ∈ log ∧ text = outcometext r ++ ['\n']

def HonestLog : List Log → Prop
  | [] => True
  | .told f m text :: l => Honest f m.fid text l ∧ HonestLog l
  | _ :: l => HonestLog l

theorem HonestLog.told {f : File} {m : Tread} {text : Str} {post pre : List Log}
    (h : HonestLog (post ++ .told f m text :: pre)) : Honest f m.fid text pre := by
  induction post with
  | nil => exact h.1
  | cons e post ih =>
    cases e with
    | told g n t => exact ih h.2
    | _ => exact ih h

theorem mem_resolutions {id : ℤ} {log : List Log} :
    id ∈ resolutions log ↔ ∃ r, .resolved id r ∈ log := by
  induction log with
  | nil => simp [resolutions]
  | cons e log ih =>
    cases e with
    | resolved i r =>
      simp only [resolutions, List.mem_cons, ih, Log.resolved.injEq]
      constructor
      · rintro (rfl | ⟨r', hr'⟩)
        · exact ⟨r, Or.inl ⟨rfl, rfl⟩⟩
        · exact ⟨r', Or.inr hr'⟩
      · rintro ⟨r', ⟨rfl, rfl⟩ | hr'⟩
        · exact Or.inl rfl
        · exact Or.inr ⟨r', hr'⟩
    | _ => simpa [resolutions] using ih

theorem outcome_unique {log : List Log} (h : (resolutions log).Nodup) {id : ℤ} {r r' : Str}
    (hr : .resolved id r ∈ log) (hr' : .resolved id r' ∈ log) : r = r' := by
  induction log with
  | nil => simp at hr
  | cons e log ih =>
    cases e with
    | resolved i q =>
      obtain ⟨hi, hnd⟩ := List.nodup_cons.mp h
      rcases List.mem_cons.mp hr with he | hr
      · rcases List.mem_cons.mp hr' with he' | hr'
        · rw [(Log.resolved.inj he).2, (Log.resolved.inj he').2]
        · rw [← (Log.resolved.inj he).1] at hi
          exact absurd (mem_resolutions.mpr ⟨r', hr'⟩) hi
      · rcases List.mem_cons.mp hr' with he' | hr'
        · rw [← (Log.resolved.inj he').1] at hi
          exact absurd (mem_resolutions.mpr ⟨r, hr⟩) hi
        · exact ih hnd hr hr'
    | _ => exact ih h (by simpa using hr) (by simpa using hr')

structure QInv (K : Prop) (Q : Queue) : Prop where
  next : 1 ≤ Q.nextpendingid ∧ Q.nextpendingid < 2 ^ 31
  nine : K → Q.nextpendingid ≤ 10 ^ 9
  ids : (Q.pendingpays.map (·.id)).Nodup
  range : ∀ pp ∈ Q.pendingpays, 1 ≤ pp.id ∧ pp.id < Q.nextpendingid
  unresolved : ∀ pp ∈ Q.pendingpays, pp.result = none → pp.id ∉ resolutions Q.log
  resolved : ∀ pp ∈ Q.pendingpays, ∀ r, pp.result = some r → .resolved pp.id r ∈ Q.log
  past : ∀ id ∈ resolutions Q.log, id < Q.nextpendingid
  kept : ∀ id, 1 ≤ id → id < Q.nextpendingid → id ∉ resolutions Q.log →
    ∃ pp ∈ Q.pendingpays, pp.id = id
  once : (executions Q.log).Nodup
  settled : ∀ id ∈ executions Q.log, id ∈ resolutions Q.log
  fixed : (resolutions Q.log).Nodup
  distinct : (proposals Q.log).Nodup
  proposed : ∀ id ∈ proposals Q.log, 1 ≤ id ∧ id < Q.nextpendingid
  bounded : live Q.pendingpays ≤ MAXPENDING
  honest : K → HonestLog Q.log

variable {K : Prop}

def Known (Q : Queue) (id : ℤ) : Prop :=
  (∃ pp ∈ Q.pendingpays, pp.id = id) ∨ .resolved id "expired" ∈ Q.log

/-- A change of the queue that keeps its invariant, the proposal that each fid
holds, and which records are known. -/
structure Carries (K : Prop) (Q Q' : Queue) : Prop where
  inv : QInv K Q → QInv K Q'
  current : ∀ f fid, current f fid Q'.log = current f fid Q.log
  known : ∀ id, Known Q id → Known Q' id
  next : Q'.nextpendingid = Q.nextpendingid
  proposals : proposals Q'.log = proposals Q.log

structure Quiet (Q Q' : Queue) : Prop where
  grows : Q.log <:+ Q'.log
  executions : executions Q'.log = executions Q.log

theorem Quiet.refl (Q : Queue) : Quiet Q Q := ⟨List.suffix_rfl, rfl⟩

theorem Quiet.trans {Q Q' Q'' : Queue} (h : Quiet Q Q') (h' : Quiet Q' Q'') : Quiet Q Q'' :=
  ⟨h.grows.trans h'.grows, h'.executions.trans h.executions⟩

structure Keeps (K : Prop) (Q Q' : Queue) : Prop extends Carries K Q Q' where
  quiet : Quiet Q Q'

theorem Keeps.refl (Q : Queue) : Keeps K Q Q :=
  ⟨⟨id, fun _ _ => rfl, fun _ h => h, rfl, rfl⟩, Quiet.refl Q⟩

theorem Keeps.trans {Q Q' Q'' : Queue} (h : Keeps K Q Q') (h' : Keeps K Q' Q'') : Keeps K Q Q'' where
  inv hQ := h'.inv (h.inv hQ)
  current f fid := (h'.current f fid).trans (h.current f fid)
  known id hk := h'.known id (h.known id hk)
  next := h'.next.trans h.next
  proposals := h'.proposals.trans h.proposals
  quiet := h.quiet.trans h'.quiet

theorem keeps_ticks (Q : Queue) (n : ℕ) : Keeps K Q { Q with ticks := n } :=
  ⟨⟨fun h => ⟨h.next, h.nine, h.ids, h.range, h.unresolved, h.resolved, h.past, h.kept, h.once, h.settled,
      h.fixed, h.distinct, h.proposed, h.bounded, h.honest⟩,
    fun _ _ => rfl, fun _ h => h, rfl, rfl⟩, List.suffix_rfl, rfl⟩

theorem keeps_tick (Q : Queue) : Keeps K Q Q.tick := keeps_ticks Q _

def Log.idle : Log → Bool
  | .asked _ => true
  | .posted _ => true
  | .event _ _ => true
  | .refused _ _ => true
  | .dropped _ => true
  | _ => false

theorem keeps_idle (Q : Queue) {e : Log} (he : e.idle = true) : Keeps K Q (Q.say e) := by
  have hknown : ∀ id, Known Q id → Known (Q.say e) id := fun id h =>
    h.imp_right fun hm => List.mem_cons_of_mem _ hm
  cases e with
  | proposed | executed | resolved | told | clunked => simp [Log.idle] at he
  | asked | posted | event | refused | dropped =>
    exact ⟨⟨fun h => ⟨h.next, h.nine, h.ids, h.range, h.unresolved,
        fun pp hpp r hr => List.mem_cons_of_mem _ (h.resolved pp hpp r hr), h.past, h.kept, h.once,
        h.settled, h.fixed, h.distinct, h.proposed, h.bounded, h.honest⟩,
      fun _ _ => rfl, hknown, rfl, rfl⟩, List.suffix_cons _ _, rfl⟩

theorem keeps_told (Q : Queue) {f : File} {m : Tread} {text : Str}
    (ht : K → Honest f m.fid text Q.log) : Keeps K Q (Q.say (.told f m text)) :=
  ⟨⟨fun h => ⟨h.next, h.nine, h.ids, h.range, h.unresolved,
      fun pp hpp r hr => List.mem_cons_of_mem _ (h.resolved pp hpp r hr), h.past, h.kept, h.once,
      h.settled, h.fixed, h.distinct, h.proposed, h.bounded, fun hK => ⟨ht hK, h.honest hK⟩⟩,
    fun _ _ => rfl, fun _ h => h.imp_right fun hm => List.mem_cons_of_mem _ hm, rfl, rfl⟩,
    List.suffix_cons _ _, rfl⟩

theorem map_id_setresult (id : ℤ) (r : Str) (l : List PendingPay) :
    (setresult id r l).map (·.id) = l.map (·.id) := by
  induction l with
  | nil => rfl
  | cons pp l ih =>
    simp only [setresult]
    split_ifs
    · rfl
    · simp [ih]

theorem mem_setresult {id : ℤ} {r : Str} {l : List PendingPay} (h : (l.map (·.id)).Nodup)
    {pp : PendingPay} (hpp : pp ∈ setresult id r l) :
    pp ∈ l ∧ pp.id ≠ id ∨ pp.id = id ∧ pp.result = some r := by
  induction l with
  | nil => simp [setresult] at hpp
  | cons x l ih =>
    obtain ⟨hx, hl⟩ : x.id ∉ l.map (·.id) ∧ (l.map (·.id)).Nodup := List.nodup_cons.mp h
    simp only [setresult] at hpp
    split_ifs at hpp with hid
    · rcases List.mem_cons.mp hpp with rfl | hpp
      · exact Or.inr ⟨hid, rfl⟩
      · refine Or.inl ⟨by simp [hpp], fun he => hx ?_⟩
        exact List.mem_map.mpr ⟨pp, hpp, by simp [he, hid]⟩
    · rcases List.mem_cons.mp hpp with rfl | hpp
      · exact Or.inl ⟨by simp, hid⟩
      · rcases ih hl hpp with ⟨hmem, hne⟩ | hr
        · exact Or.inl ⟨by simp [hmem], hne⟩
        · exact Or.inr hr

theorem findpending_setresult {id : ℤ} {r : Str} {l : List PendingPay} {pp : PendingPay}
    (h : findpending id l = some pp) :
    findpending id (setresult id r l) = some { pp with result := some r } := by
  induction l with
  | nil => cases h
  | cons x l ih =>
    by_cases hx : x.id = id
    · have hpp : x = pp := by simpa [findpending, hx] using h
      simp [setresult, findpending, hx, ← hpp]
    · have hl : findpending id l = some pp := by simpa [findpending, hx] using h
      have := ih hl
      simpa [setresult, findpending, hx] using this

theorem live_setresult (id : ℤ) (r : Str) (l : List PendingPay) :
    live (setresult id r l) ≤ live l := by
  induction l with
  | nil => simp [setresult]
  | cons x l ih =>
    simp only [setresult, live] at ih ⊢
    split_ifs
    · simp [List.countP_cons]
    · simp only [List.countP_cons]
      omega

theorem known_setresult {Q : Queue} {id : ℤ} {r : Str} {log : List Log} (hsub : ∀ e ∈ Q.log, e ∈ log)
    {i : ℤ} (h : Known Q i) :
    Known { Q with pendingpays := setresult id r Q.pendingpays, log := log } i := by
  rcases h with ⟨pp, hpp, hid⟩ | hlog
  · left
    have hmem : i ∈ (setresult id r Q.pendingpays).map (·.id) := by
      rw [map_id_setresult]
      exact List.mem_map.mpr ⟨pp, hpp, hid⟩
    obtain ⟨pp', hpp', hid'⟩ := List.mem_map.mp hmem
    exact ⟨pp', hpp', hid'⟩
  · exact Or.inr (hsub _ hlog)

theorem QInv.resolve {Q : Queue} (h : QInv K Q) {pp : PendingPay} (hpp : pp ∈ Q.pendingpays)
    (hnone : pp.result = none) (r : Str) : QInv K (Q.resolve pp.id r) where
  next := h.next
  nine := h.nine
  ids := by
    simp only [Queue.resolve, map_id_setresult]
    exact h.ids
  range x hx := by
    rcases mem_setresult h.ids hx with ⟨hmem, -⟩ | ⟨he, -⟩
    · exact h.range x hmem
    · rw [he]
      exact h.range pp hpp
  unresolved x hx hxn := by
    rcases mem_setresult h.ids hx with ⟨hmem, hne⟩ | ⟨-, hr⟩
    · simp only [Queue.resolve, resolutions, List.mem_cons, not_or]
      exact ⟨hne, h.unresolved x hmem hxn⟩
    · rw [hr] at hxn
      cases hxn
  resolved x hx q hq := by
    rcases mem_setresult h.ids hx with ⟨hmem, -⟩ | ⟨he, hr⟩
    · exact List.mem_cons_of_mem _ (h.resolved x hmem q hq)
    · rw [hr] at hq
      rw [he, ← Option.some.inj hq]
      exact List.mem_cons_self
  past id hid := by
    rcases List.mem_cons.mp hid with rfl | hid
    · exact (h.range pp hpp).2
    · exact h.past id hid
  kept id h1 h2 hn := by
    obtain ⟨x, hx, hxid⟩ := h.kept id h1 h2 fun hm => hn (List.mem_cons_of_mem _ hm)
    have hmem : id ∈ (setresult pp.id r Q.pendingpays).map (·.id) := by
      rw [map_id_setresult]
      exact List.mem_map.mpr ⟨x, hx, hxid⟩
    obtain ⟨y, hy, hyid⟩ := List.mem_map.mp hmem
    exact ⟨y, hy, hyid⟩
  once := h.once
  settled id hid := List.mem_cons_of_mem _ (h.settled id hid)
  fixed := List.nodup_cons.mpr ⟨h.unresolved pp hpp hnone, h.fixed⟩
  distinct := h.distinct
  proposed := h.proposed
  bounded := (live_setresult _ _ _).trans h.bounded
  honest := h.honest

theorem keeps_resolve (Q : Queue) {pp : PendingPay} (hpp : pp ∈ Q.pendingpays)
    (hnone : pp.result = none) (r : Str) : Keeps K Q (Q.resolve pp.id r) :=
  ⟨⟨fun h => h.resolve hpp hnone r, fun _ _ => rfl,
    fun _ hk => known_setresult (fun _ he => List.mem_cons_of_mem _ he) hk, rfl, rfl⟩,
    List.suffix_cons _ _, rfl⟩

theorem findpending_some {id : ℤ} {l : List PendingPay} {pp : PendingPay}
    (h : findpending id l = some pp) : pp ∈ l ∧ pp.id = id :=
  ⟨List.mem_of_find?_eq_some h, by simpa using List.find?_some h⟩

theorem keeps_checkpendingexpiry (time : ℕ → ℤ) (Q : Queue) (id : ℤ) :
    Keeps K Q (checkpendingexpiry time Q id) := by
  simp only [checkpendingexpiry]
  cases hf : findpending id Q.pendingpays with
  | none => exact Keeps.refl Q
  | some pp =>
    obtain ⟨hpp, rfl⟩ := findpending_some hf
    simp only []
    split_ifs with hr hl
    · exact Keeps.refl Q
    · exact (keeps_tick Q).trans (keeps_resolve Q.tick hpp (not_not.mp hr) "expired")
    · exact keeps_tick Q

theorem setresult_append {id : ℤ} {r : Str} {done l : List PendingPay}
    (h : id ∉ done.map (·.id)) :
    setresult id r (done ++ l) = done ++ setresult id r l := by
  induction done with
  | nil => rfl
  | cons x done ih =>
    simp only [List.map_cons, List.mem_cons, not_or] at h
    simp only [List.cons_append, setresult, if_neg (Ne.symm h.1), ih h.2]

theorem keeps_expireall_from (time : ℕ → ℤ) (Q : Queue) :
    ∀ (todo done : List PendingPay) (n : ℕ) (log : List Log),
      ((done ++ todo).map (·.id)).Nodup →
      Keeps K { Q with pendingpays := done ++ todo, ticks := n, log := log }
        { Q with
          pendingpays := done ++ (expireall time todo n log).1
          ticks := (expireall time todo n log).2.1
          log := (expireall time todo n log).2.2 } := by
  intro todo
  induction todo with
  | nil => exact fun done n log _ => Keeps.refl _
  | cons pp todo ih =>
    intro done n log hids
    simp only [expireall]
    split_ifs with hr hl
    · simpa using ih (done ++ [pp]) n log (by simpa using hids)
    · have hnot : pp.id ∉ done.map (·.id) := by
        intro hm
        rw [List.map_append, List.map_cons] at hids
        exact List.disjoint_of_nodup_append hids hm List.mem_cons_self
      have hstep : Keeps K { Q with pendingpays := done ++ pp :: todo, ticks := n, log := log }
          { Q with
            pendingpays := done ++ { pp with result := some "expired" } :: todo
            ticks := n + 1
            log := .resolved pp.id "expired" :: log } := by
        have hres : setresult pp.id "expired" (done ++ pp :: todo) =
            done ++ { pp with result := some "expired" } :: todo := by
          rw [setresult_append hnot]
          simp [setresult]
        have hk := (keeps_ticks (K := K) { Q with
          pendingpays := done ++ pp :: todo, ticks := n, log := log } (n + 1)).trans
            (keeps_resolve _ (show pp ∈ done ++ pp :: todo by simp) (not_not.mp hr) "expired")
        simpa only [Queue.resolve, hres] using hk
      have hrec := ih (done ++ [{ pp with result := some "expired" }]) (n + 1)
        (.resolved pp.id "expired" :: log) (by simpa using hids)
      exact hstep.trans (by simpa using hrec)
    · have hrec := ih (done ++ [pp]) (n + 1) log (by simpa using hids)
      exact (keeps_ticks { Q with pendingpays := done ++ pp :: todo, ticks := n, log := log }
        (n + 1)).trans (by simpa using hrec)

theorem keeps_expireall (time : ℕ → ℤ) {Q : Queue} (h : QInv K Q) :
    Keeps K Q (Q.expireall time) := by
  simpa [Queue.expireall] using keeps_expireall_from time Q Q.pendingpays [] Q.ticks Q.log
    (by simpa using h.ids)

theorem carries_conclude (Q : Queue) {pp : PendingPay} (hpp : pp ∈ Q.pendingpays)
    (hnone : pp.result = none) (r : Str) :
    Carries K Q ((Q.say (.executed pp.id)).resolve pp.id r) where
  inv h := by
    have hr := h.resolve hpp hnone r
    refine ⟨hr.next, hr.nine, hr.ids, hr.range, hr.unresolved, fun x hx q hq => ?_, hr.past, hr.kept, ?_, ?_,
      hr.fixed, hr.distinct, hr.proposed, hr.bounded, hr.honest⟩
    · rcases List.mem_cons.mp (hr.resolved x hx q hq) with he | hm
      · exact List.mem_cons.mpr (Or.inl he)
      · exact List.mem_cons_of_mem _ (List.mem_cons_of_mem _ hm)
    · exact List.nodup_cons.mpr ⟨fun hm => h.unresolved pp hpp hnone (h.settled _ hm), h.once⟩
    · intro id hid
      rcases List.mem_cons.mp hid with rfl | hid
      · exact List.mem_cons_self
      · exact List.mem_cons_of_mem _ (h.settled id hid)
  current _ _ := rfl
  known _ hk := known_setresult
    (fun _ he => List.mem_cons_of_mem _ (List.mem_cons_of_mem _ he)) hk
  next := rfl
  proposals := rfl

theorem ids_checkpendingexpiry (time : ℕ → ℤ) (Q : Queue) (id : ℤ) :
    (checkpendingexpiry time Q id).pendingpays.map (·.id) = Q.pendingpays.map (·.id) := by
  simp only [checkpendingexpiry]
  cases findpending id Q.pendingpays with
  | none => rfl
  | some pp =>
    simp only []
    split_ifs
    · rfl
    · exact map_id_setresult _ _ _
    · rfl

theorem findpending_isSome {id : ℤ} {l : List PendingPay} :
    (∃ pp, findpending id l = some pp) ↔ id ∈ l.map (·.id) := by
  simp only [findpending, ← Option.isSome_iff_exists, List.find?_isSome, List.mem_map,
    decide_eq_true_eq]

theorem intstr_nat {id : ℤ} (h : 1 ≤ id) : intstr id = decimal id.toNat := by
  rw [intstr, if_neg (by omega)]
  congr 1
  omega

theorem strint_intstr {id : ℤ} (h : 1 ≤ id) (h9 : id < 10 ^ 9) :
    strint (intstr id) = some id.toNat := by
  rw [intstr_nat h]
  exact strint_decimal (by omega)

theorem pending_append (s : Str) : ("pending:" ++ s : Str).drop 8 = s := rfl

theorem ispending_append {s : Str} (h : s ≠ []) : ispending ("pending:" ++ s) = true := by
  have hlen : 0 < s.length := List.length_pos_iff.mpr h
  have hpre : prefixed ("pending:" ++ s) "pending:" = true := (prefixed_iff _ _).mpr ⟨s, rfl⟩
  have h8 : 8 < ("pending:" ++ s : Str).length := by
    simp only [List.length_append, show (lit "pending:").length = 8 by decide]
    omega
  simp only [ispending, hpre, Bool.and_true, decide_eq_true_eq]
  exact h8

theorem intstr_ne_nil (id : ℤ) : intstr id ≠ [] := by
  rw [intstr]
  split_ifs
  · simp
  · exact decimal_ne_nil _

theorem resolvefidresult_cases (time : ℕ → ℤ) {Q : Queue} (hQ : QInv K Q) {id : ℤ} (h1 : 1 ≤ id)
    {Q' : Queue} {r : Str} (h : resolvefidresult time Q ("pending:" ++ intstr id) = (Q', r)) :
    10 ^ 9 ≤ id ∧ Q' = Q ∧ r = lit "error:bad pending id" ∨
    id ∉ Q.pendingpays.map (·.id) ∧ Q' = Q ∧ r = lit "expired" ∨
    (id ∈ Q.pendingpays.map (·.id) ∧ Q' = checkpendingexpiry time Q id ∧
      (id ∉ resolutions Q'.log ∧ r = "pending:" ++ intstr id ∨
        ∃ x, .resolved id x ∈ Q'.log ∧ r = outcometext x)) := by
  have hnil : ("pending:" ++ intstr id : Str) ≠ [] := by
    intro he
    exact intstr_ne_nil id (List.append_eq_nil_iff.mp he).2
  by_cases h9 : id < 10 ^ 9
  swap
  · have hlarge : strint (intstr id) = none := by
      rw [intstr_nat h1]
      exact strint_decimal_large (by omega)
    simp only [resolvefidresult, if_neg hnil, ispending_append (intstr_ne_nil id),
      Bool.true_eq_false, if_false, pending_append, hlarge, Prod.mk.injEq] at h
    exact Or.inl ⟨not_lt.mp h9, h.1.symm, h.2.symm⟩
  simp only [resolvefidresult, if_neg hnil, ispending_append (intstr_ne_nil id), Bool.true_eq_false,
    if_false, pending_append, strint_intstr h1 h9] at h
  rw [show ((id.toNat : ℕ) : ℤ) = id by omega] at h
  refine Or.inr ?_
  cases hf : findpending id Q.pendingpays with
  | none =>
    simp only [hf, Prod.mk.injEq] at h
    refine Or.inl ⟨fun hm => ?_, h.1.symm, h.2.symm⟩
    obtain ⟨x, hx⟩ := findpending_isSome.mpr hm
    rw [hf] at hx
    cases hx
  | some pp =>
    simp only [hf] at h
    have hin : id ∈ Q.pendingpays.map (·.id) := findpending_isSome.mp ⟨pp, hf⟩
    have hinv := (keeps_checkpendingexpiry time Q id).inv hQ
    obtain ⟨x, hx⟩ : ∃ x, findpending id (checkpendingexpiry time Q id).pendingpays = some x := by
      rw [findpending_isSome, ids_checkpendingexpiry]
      exact hin
    obtain ⟨hmem, hid⟩ := findpending_some hx
    simp only [hx, Option.bind_some] at h
    cases hr : x.result with
    | none =>
      simp only [hr, Prod.mk.injEq] at h
      obtain ⟨rfl, rfl⟩ := h
      have hno := hinv.unresolved x hmem hr
      rw [hid] at hno
      exact Or.inr ⟨hin, rfl, Or.inl ⟨hno, rfl⟩⟩
    | some q =>
      simp only [hr, Prod.mk.injEq] at h
      obtain ⟨rfl, rfl⟩ := h
      have hlog := hinv.resolved x hmem q hr
      rw [hid] at hlog
      exact Or.inr ⟨hin, rfl, Or.inr ⟨q, hlog, rfl⟩⟩

theorem resolvefidresult_spec (time : ℕ → ℤ) {Q : Queue} (hQ : QInv K Q) {id : ℤ} (h1 : 1 ≤ id)
    (h2 : id < Q.nextpendingid) (hk : K → Known Q id) {Q' : Queue} {r : Str}
    (h : resolvefidresult time Q ("pending:" ++ intstr id) = (Q', r)) :
    Keeps K Q Q' ∧ (K → (id ∉ resolutions Q'.log ∧ r = "pending:" ++ intstr id ∨
      ∃ x, .resolved id x ∈ Q'.log ∧ r = outcometext x)) := by
  rcases resolvefidresult_cases time hQ h1 h with ⟨h9, rfl, -⟩ | ⟨hno, rfl, rfl⟩ | ⟨-, rfl, hcase⟩
  · refine ⟨Keeps.refl _, fun hK => ?_⟩
    have := hQ.nine hK
    omega
  · refine ⟨Keeps.refl _, fun hK => Or.inr ⟨"expired", ?_, by decide⟩⟩
    rcases hk hK with ⟨pp, hpp, hid⟩ | hlog
    · exact absurd (List.mem_map.mpr ⟨pp, hpp, hid⟩) hno
    · exact hlog
  · exact ⟨keeps_checkpendingexpiry time Q id, fun _ => hcase⟩

def shape (l : List FidResult) : List (ℕ × Str) := l.map fun fr => (fr.fid, fr.result)

def Held (K : Prop) (Q : Queue) (f : File) (e : ℕ × Str) : Prop :=
  ∃ id, e.2 = "pending:" ++ intstr id ∧ current f e.1 Q.log = some id ∧ 1 ≤ id ∧
    id < Q.nextpendingid ∧ (K → Known Q id)

structure Linked (K : Prop) (Q : Queue) (f : File) (l : List (ℕ × Str)) : Prop where
  fids : (l.map Prod.fst).Nodup
  held : ∀ e ∈ l, Held K Q f e
  every : ∀ fid id, current f fid Q.log = some id → fid ∈ l.map Prod.fst

theorem Held.carries {Q Q' : Queue} (h : Carries K Q Q') {f : File} {e : ℕ × Str}
    (he : Held K Q f e) : Held K Q' f e := by
  obtain ⟨id, hres, hcur, h1, h2, hk⟩ := he
  exact ⟨id, hres, (h.current f e.1).trans hcur, h1, by rw [h.next]; exact h2, fun hK => h.known id (hk hK)⟩

theorem Linked.carries {Q Q' : Queue} (h : Carries K Q Q') {f : File} {l : List (ℕ × Str)}
    (hl : Linked K Q f l) : Linked K Q' f l :=
  ⟨hl.fids, fun e he => (hl.held e he).carries h,
    fun fid id hc => hl.every fid id (by rw [← h.current]; exact hc)⟩

theorem answer_spec (time : ℕ → ℤ) {Q : Queue} (hQ : QInv K Q) {f : File} {fid : ℕ} {result : Str}
    (he : Held K Q f (fid, result)) {Q' : Queue} {r : Str}
    (h : resolvefidresult time Q result = (Q', r)) :
    Keeps K Q Q' ∧ (K → Honest f fid (r ++ ['\n']) Q'.log) := by
  obtain ⟨id, hres, hcur, h1, h2, hk⟩ := he
  simp only at hres
  subst hres
  obtain ⟨hkeep, hcase⟩ := resolvefidresult_spec time hQ h1 h2 hk h
  refine ⟨hkeep, fun hK => ?_⟩
  have hcur' : current f fid Q'.log = some id := (hkeep.current f fid).trans hcur
  simp only [Honest, hcur']
  rcases hcase hK with ⟨hno, rfl⟩ | ⟨x, hx, rfl⟩
  · exact Or.inl ⟨hno, rfl⟩
  · exact Or.inr ⟨x, hx, rfl⟩

def Waits (l : List FidResult) : Prop := ∀ fr ∈ l, ∀ m, fr.wait = some m → m.fid = fr.fid

theorem wakeresult_spec (time : ℕ → ℤ) {Q : Queue} (hQ : QInv K Q) {f : File} {fr : FidResult}
    (he : Held K Q f (fr.fid, fr.result)) (hw : ∀ m, fr.wait = some m → m.fid = fr.fid) :
    Keeps K Q (wakeresult time f fr Q).2 ∧ (wakeresult time f fr Q).1.fid = fr.fid ∧
      (wakeresult time f fr Q).1.result = fr.result ∧
      ∀ m, (wakeresult time f fr Q).1.wait = some m → m.fid = fr.fid := by
  simp only [wakeresult]
  cases hm : fr.wait with
  | none => exact ⟨Keeps.refl Q, rfl, rfl, fun m h => hw m h⟩
  | some m =>
    cases hr : resolvefidresult time Q fr.result with
    | mk Q' r =>
      obtain ⟨hkeep, hhonest⟩ := answer_spec time hQ he hr
      simp only []
      split_ifs
      · exact ⟨hkeep, rfl, rfl, fun m h => hw m h⟩
      · rw [← hw m hm] at hhonest
        exact ⟨hkeep.trans (keeps_told Q' hhonest), rfl, rfl, fun m h => by cases h⟩

theorem wakelist_spec (time : ℕ → ℤ) {f : File} {l : List FidResult} :
    ∀ {Q : Queue}, QInv K Q → (∀ e ∈ shape l, Held K Q f e) → Waits l →
      Keeps K Q (wakelist time f l Q).2 ∧ shape (wakelist time f l Q).1 = shape l ∧
        Waits (wakelist time f l Q).1 := by
  induction l with
  | nil => exact fun _ _ _ => ⟨Keeps.refl _, rfl, fun _ h => by simp [wakelist] at h⟩
  | cons fr l ih =>
    intro Q hQ he hw
    obtain ⟨hkeep, hfid, hres, hwait⟩ := wakeresult_spec time hQ
      (he (fr.fid, fr.result) (by simp [shape])) (hw fr (by simp))
    have hrest : ∀ e ∈ shape l, Held K (wakeresult time f fr Q).2 f e := fun e hm =>
      (he e (List.mem_cons_of_mem _ hm)).carries hkeep.toCarries
    obtain ⟨hkeep', hshape, hwaits⟩ := ih (hkeep.inv hQ) hrest
      fun x hx => hw x (List.mem_cons_of_mem _ hx)
    refine ⟨hkeep.trans hkeep', ?_, ?_⟩
    · simp only [wakelist, shape, List.map_cons] at hshape ⊢
      rw [hfid, hres, hshape]
    · intro x hx m hm
      simp only [wakelist] at hx
      rcases List.mem_cons.mp hx with rfl | hx
      · rw [hfid]
        exact hwait m hm
      · exact hwaits x hx m hm

theorem tellevent_spec (msg : Str) (l : List EvFid) :
    ∀ Q : Queue, Keeps K Q (tellevent msg l Q).2 := by
  induction l with
  | nil => exact fun Q => Keeps.refl Q
  | cons ef l ih =>
    intro Q
    simp only [tellevent]
    cases ef.rd with
    | none => exact ih Q
    | some m => exact (keeps_idle Q rfl).trans (ih _)

structure SInv (K : Prop) (s : Server) : Prop where
  queue : QInv K s.queue
  linked : ∀ f, Linked K s.queue f (shape (states s f))
  waits : ∀ f, Waits (states s f)

structure Carried (K : Prop) (s s' : Server) : Prop where
  queue : Carries K s.queue s'.queue
  shape : ∀ f, shape (states s' f) = shape (states s f)
  waits : ∀ f, Waits (states s f) → Waits (states s' f)

theorem SInv.carried {s s' : Server} (h : SInv K s) (hs : Carried K s s') : SInv K s' where
  queue := hs.queue.inv h.queue
  linked f := by
    rw [hs.shape]
    exact (h.linked f).carries hs.queue
  waits f := hs.waits f (h.waits f)

theorem states_queue (s : Server) (Q : Queue) (f : File) :
    states { s with queue := Q } f = states s f := by
  cases f <;> rfl

theorem carried_queue {s : Server} {Q : Queue} (h : Carries K s.queue Q) :
    Carried K s { s with queue := Q } :=
  ⟨h, fun f => by cases f <;> rfl, fun f hw => by cases f <;> exact hw⟩

theorem postevent_spec (time : ℕ → ℤ) {s : Server} (h : SInv K s) (msg : Str) :
    Carried K s (postevent time s msg) ∧
      Quiet s.queue (postevent time s msg).queue := by
  obtain ⟨hk1, hs1, hw1⟩ := wakelist_spec time h.queue (h.linked .pay).held (h.waits .pay)
  obtain ⟨hk2, hs2, hw2⟩ := wakelist_spec time (hk1.inv h.queue)
    ((h.linked .authorize).carries hk1.toCarries).held (h.waits .authorize)
  have hk3 := (keeps_idle (K := K) (wakelist time .authorize s.authstates
    (wakelist time .pay s.paystates s.queue).2).2 (e := .posted msg) rfl).trans
      (tellevent_spec msg s.evfids _)
  have hk := hk1.trans (hk2.trans hk3)
  refine ⟨⟨hk.toCarries, fun f => ?_, fun f _ => ?_⟩, hk.quiet⟩
  · cases f with
    | pay => exact hs1
    | authorize => exact hs2
  · cases f with
    | pay => exact hw1
    | authorize => exact hw2

theorem prune_sublist (kept : ℕ) (l : List PendingPay) : List.Sublist (prune kept l) l := by
  induction l generalizing kept with
  | nil => exact List.Sublist.refl _
  | cons pp l ih =>
    simp only [prune]
    split_ifs
    · exact (ih _).cons_cons pp
    · exact (ih _).cons pp

theorem mem_prune {kept : ℕ} {l : List PendingPay} {pp : PendingPay} (h : pp ∈ l)
    (hr : pp.result = none) : pp ∈ prune kept l := by
  induction l generalizing kept with
  | nil => simp at h
  | cons x l ih =>
    simp only [prune]
    rcases List.mem_cons.mp h with rfl | h
    · simp [hr]
    · split_ifs
      · exact List.mem_cons_of_mem _ (ih h)
      · exact ih h

theorem live_prune (kept : ℕ) (l : List PendingPay) : live (prune kept l) = live l := by
  induction l generalizing kept with
  | nil => rfl
  | cons x l ih =>
    simp only [prune]
    split_ifs with hx
    · simp only [live, List.countP_cons] at ih ⊢
      rw [ih]
    · have hxr : x.result ≠ none := fun h => hx (Or.inl h)
      simp only [live, List.countP_cons, hxr, decide_false] at ih ⊢
      simpa using ih kept

/-- What a submission recycles: no record with an outcome that a fid has still
to read. -/
def Spares (Q : Queue) (results : List Str) : Prop :=
  Q.nextpendingid < 10 ^ 9 ∧ ∀ pp ∈ Q.pendingpays, pp ∉ prune 0 Q.pendingpays →
    pp.result = some "expired" ∨ "pending:" ++ intstr pp.id ∉ results

def results (s : Server) : List Str :=
  s.paystates.map (·.result) ++ s.authstates.map (·.result)

theorem mem_results {s : Server} {f : File} {e : ℕ × Str} (h : e ∈ shape (states s f)) :
    e.2 ∈ results s := by
  obtain ⟨fr, hfr, rfl⟩ := List.mem_map.mp h
  cases f with
  | pay => exact List.mem_append_left _ (List.mem_map.mpr ⟨fr, hfr, rfl⟩)
  | authorize => exact List.mem_append_right _ (List.mem_map.mpr ⟨fr, hfr, rfl⟩)

theorem wrap32_small {n : ℤ} (h0 : 0 ≤ n) (h : n < 2 ^ 31) : wrap32 n = n := by
  simp only [wrap32]
  omega

theorem QInv.insert {Q : Queue} (h : QInv K Q) {np : PendingPay} (hid : np.id = Q.nextpendingid)
    (hnew : np.result = none) (hlive : live Q.pendingpays < MAXPENDING)
    (hint : Q.nextpendingid + 1 < 2 ^ 31) (h9 : K → Q.nextpendingid < 10 ^ 9) :
    QInv K (Q.insert np) := by
  have hnext := h.next
  have hwrap : wrap32 (Q.nextpendingid + 1) = Q.nextpendingid + 1 :=
    wrap32_small (by omega) (by omega)
  have hsub := prune_sublist 0 Q.pendingpays
  have hfresh : np.id ∉ resolutions Q.log := fun hm => by
    have := h.past _ hm
    omega
  refine
    { next := ?_, nine := ?_, ids := ?_, range := ?_, unresolved := ?_, resolved := ?_, past := ?_, kept := ?_,
      once := h.once, settled := h.settled, fixed := h.fixed, distinct := h.distinct,
      proposed := ?_, bounded := ?_, honest := h.honest }
  · simp only [Queue.insert, hwrap]
    omega
  · intro hK
    have := h9 hK
    simp only [Queue.insert, hwrap]
    omega
  · simp only [Queue.insert, List.map_cons, List.nodup_cons]
    refine ⟨fun hm => ?_, h.ids.sublist (hsub.map _)⟩
    obtain ⟨pp, hpp, he⟩ := List.mem_map.mp hm
    have := h.range pp (hsub.subset hpp)
    omega
  · intro pp hpp
    simp only [Queue.insert, hwrap] at hpp ⊢
    rcases List.mem_cons.mp hpp with rfl | hpp
    · omega
    · have := h.range pp (hsub.subset hpp)
      omega
  · intro pp hpp hr
    rcases List.mem_cons.mp hpp with rfl | hpp
    · exact hfresh
    · exact h.unresolved pp (hsub.subset hpp) hr
  · intro pp hpp r hr
    rcases List.mem_cons.mp hpp with rfl | hpp
    · rw [hnew] at hr
      cases hr
    · exact h.resolved pp (hsub.subset hpp) r hr
  · intro id hid'
    have := h.past id hid'
    simp only [Queue.insert, hwrap]
    omega
  · intro id h1 h2 hno
    simp only [Queue.insert, hwrap] at h2
    by_cases he : id = Q.nextpendingid
    · exact ⟨np, List.mem_cons_self, by rw [hid, he]⟩
    · obtain ⟨pp, hpp, rfl⟩ := h.kept id h1 (by omega) hno
      have hnone : pp.result = none := by
        cases hr : pp.result with
        | none => rfl
        | some r => exact absurd (mem_resolutions.mpr ⟨r, h.resolved pp hpp r hr⟩) hno
      exact ⟨pp, List.mem_cons_of_mem _ (mem_prune hpp hnone), rfl⟩
  · intro id hid'
    have := h.proposed id hid'
    simp only [Queue.insert, hwrap]
    omega
  · simp only [Queue.insert]
    have hcount : live (np :: prune 0 Q.pendingpays) = live (prune 0 Q.pendingpays) + 1 := by
      simp [live, hnew]
    rw [hcount, live_prune]
    omega

theorem SInv.insert {s : Server} (h : SInv K s) {np : PendingPay}
    (hid : np.id = s.queue.nextpendingid) (hnew : np.result = none)
    (hlive : live s.queue.pendingpays < MAXPENDING) (hint : s.queue.nextpendingid + 1 < 2 ^ 31)
    (hsp : K → Spares s.queue (results s)) :
    SInv K { s with queue := s.queue.insert np } where
  queue := h.queue.insert hid hnew hlive hint fun hK => (hsp hK).1
  waits f := by
    rw [states_queue]
    exact h.waits f
  linked f := by
    have hl := h.linked f
    have hnext := h.queue.next
    have hwrap : wrap32 (s.queue.nextpendingid + 1) = s.queue.nextpendingid + 1 :=
      wrap32_small (by omega) (by omega)
    rw [states_queue]
    refine ⟨hl.fids, fun e he => ?_, hl.every⟩
    obtain ⟨id, hres, hcur, h1, h2, hk⟩ := hl.held e he
    refine ⟨id, hres, hcur, h1, ?_, fun hK => ?_⟩
    · simp only [Queue.insert, hwrap]
      omega
    · rcases hk hK with ⟨pp, hpp, rfl⟩ | hlog
      · by_cases hkept : pp ∈ prune 0 s.queue.pendingpays
        · exact Or.inl ⟨pp, List.mem_cons_of_mem _ hkept, rfl⟩
        · rcases (hsp hK).2 pp hpp hkept with hexp | hno
          · exact Or.inr (h.queue.resolved pp hpp _ hexp)
          · exact absurd (hres ▸ mem_results he) hno
      · exact Or.inr hlog

/-- `P` holds of the queue that `newpending` puts a new record into, if it gets
that far. -/
def Room (time : ℕ → ℤ) (s : Server) (P : Queue → Prop) : Prop :=
  let Q := s.queue.tick.expireall time
  0 < time s.queue.ticks → live Q.pendingpays < MAXPENDING → P Q

def Spacious (K : Prop) (s : Server) (Q : Queue) : Prop :=
  Q.nextpendingid + 1 < 2 ^ 31 ∧ (K → Spares Q (results s))

theorem newpending_spec {time : ℕ → ℤ} {s s' : Server} (h : SInv K s)
    (hroom : Room time s (Spacious K s)) {kind : Kind} {acct amount recipient token : Str} {r : Except Str ℤ}
    (hn : newpending time s kind acct amount recipient token = (s', r)) :
    SInv K s' ∧ Quiet s.queue s'.queue ∧
      ∀ id, r = .ok id → 1 ≤ id ∧ id < s'.queue.nextpendingid ∧ Known s'.queue id ∧
        id ∉ proposals s'.queue.log := by
  have htick := keeps_tick (K := K) s.queue
  have hexp := htick.trans (keeps_expireall time (htick.inv h.queue))
  have hQ := h.carried (carried_queue hexp.toCarries)
  simp only [newpending] at hn
  split_ifs at hn with ht hlive
  · obtain ⟨rfl, rfl⟩ := Prod.mk.inj hn
    exact ⟨h.carried (carried_queue htick.toCarries), htick.quiet, fun id he => by cases he⟩
  · obtain ⟨rfl, rfl⟩ := Prod.mk.inj hn
    exact ⟨hQ, hexp.quiet, fun id he => by cases he⟩
  · obtain ⟨rfl, rfl⟩ := Prod.mk.inj hn
    set Q := s.queue.tick.expireall time with hQdef
    set np : PendingPay := ⟨Q.nextpendingid, kind, acct, amount, recipient, token, "agent",
      time s.queue.ticks, [], [], [], 0, [], none⟩ with hnp
    obtain ⟨hint, hsp⟩ : Spacious K s Q := hroom (not_le.mp ht) (not_le.mp hlive)
    have hnext : 1 ≤ Q.nextpendingid ∧ Q.nextpendingid < 2 ^ 31 := hQ.queue.next
    have hwrap : wrap32 (Q.nextpendingid + 1) = Q.nextpendingid + 1 :=
      wrap32_small (by omega) (by omega)
    have hins : SInv K { s with queue := Q.insert np } :=
      hQ.insert rfl rfl (not_le.mp hlive) hint hsp
    obtain ⟨hcar, hquiet⟩ := postevent_spec time hins "pending"
    have hput : Quiet s.queue (Q.insert np) := ⟨hexp.quiet.grows, hexp.quiet.executions⟩
    refine ⟨hins.carried hcar, hput.trans hquiet, fun id he => ?_⟩
    obtain rfl := Except.ok.inj he
    refine ⟨hQ.queue.next.1, ?_, hcar.queue.known _ (Or.inl ⟨np, List.mem_cons_self, rfl⟩), ?_⟩
    · rw [hcar.queue.next]
      simp only [Queue.insert, hwrap]
      omega
    · rw [hcar.queue.proposals]
      exact fun hm => lt_irrefl _ (hQ.queue.proposed _ hm).2

def record (pp : PendingPay) : ℤ × Option Str := (pp.id, pp.result)

theorem keeps_records (Q : Queue) {l : List PendingPay}
    (h : l.map record = Q.pendingpays.map record) : Keeps K Q { Q with pendingpays := l } := by
  have hto : ∀ pp ∈ l, ∃ x ∈ Q.pendingpays, x.id = pp.id ∧ x.result = pp.result := by
    intro pp hpp
    obtain ⟨x, hx, he⟩ := List.mem_map.mp (h ▸ List.mem_map.mpr ⟨pp, hpp, rfl⟩)
    exact ⟨x, hx, (Prod.mk.inj he).1, (Prod.mk.inj he).2⟩
  have hfrom : ∀ x ∈ Q.pendingpays, ∃ pp ∈ l, pp.id = x.id := by
    intro x hx
    obtain ⟨pp, hpp, he⟩ := List.mem_map.mp (h.symm ▸ List.mem_map.mpr ⟨x, hx, rfl⟩)
    exact ⟨pp, hpp, (Prod.mk.inj he).1⟩
  have hids : l.map (·.id) = Q.pendingpays.map (·.id) := by
    simpa [record, Function.comp_def] using congrArg (List.map Prod.fst) h
  have hlive : live l = live Q.pendingpays := by
    have hcount := congrArg (List.countP fun e : ℤ × Option Str => decide (e.2 = none)) h
    rw [List.countP_map, List.countP_map] at hcount
    exact hcount
  refine ⟨⟨fun hQ => ?_, fun _ _ => rfl, fun id hk => ?_, rfl, rfl⟩, List.suffix_rfl, rfl⟩
  · refine ⟨hQ.next, hQ.nine, by rw [hids]; exact hQ.ids, ?_, ?_, ?_, hQ.past, ?_, hQ.once, hQ.settled,
      hQ.fixed, hQ.distinct, hQ.proposed, by rw [hlive]; exact hQ.bounded, hQ.honest⟩
    · intro pp hpp
      obtain ⟨x, hx, hid, -⟩ := hto pp hpp
      rw [← hid]
      exact hQ.range x hx
    · intro pp hpp hr
      obtain ⟨x, hx, hid, hres⟩ := hto pp hpp
      rw [← hid]
      exact hQ.unresolved x hx (hres.trans hr)
    · intro pp hpp r hr
      obtain ⟨x, hx, hid, hres⟩ := hto pp hpp
      rw [← hid]
      exact hQ.resolved x hx r (hres.trans hr)
    · intro id h1 h2 hno
      obtain ⟨x, hx, rfl⟩ := hQ.kept id h1 h2 hno
      exact hfrom x hx
  · rcases hk with ⟨x, hx, rfl⟩ | hlog
    · exact Or.inl (hfrom x hx)
    · exact Or.inr hlog

theorem fillpending_spec {s : Server} {g : PendingPay → PendingPay}
    (hg : ∀ pp, record (g pp) = record pp) : Keeps K s.queue (fillpending s g).queue := by
  refine keeps_records s.queue ?_
  cases s.queue.pendingpays with
  | nil => rfl
  | cons pp l => simp [hg]

theorem map_fid_updatefid (fid : ℕ) {g : FidResult → FidResult} (hg : ∀ fr, (g fr).fid = fr.fid)
    (l : List FidResult) : (updatefid fid g l).map (·.fid) = l.map (·.fid) := by
  induction l with
  | nil => rfl
  | cons fr l ih =>
    simp only [updatefid]
    split_ifs
    · simp [hg]
    · simp [ih]

theorem mem_updatefid {fid : ℕ} {g : FidResult → FidResult} {l : List FidResult}
    (h : (l.map (·.fid)).Nodup) {x : FidResult} (hx : x ∈ updatefid fid g l) :
    x ∈ l ∧ x.fid ≠ fid ∨ ∃ fr ∈ l, fr.fid = fid ∧ x = g fr := by
  induction l with
  | nil => simp [updatefid] at hx
  | cons fr l ih =>
    obtain ⟨hfr, hl⟩ : fr.fid ∉ l.map (·.fid) ∧ (l.map (·.fid)).Nodup := List.nodup_cons.mp h
    simp only [updatefid] at hx
    split_ifs at hx with hid
    · rcases List.mem_cons.mp hx with rfl | hx
      · exact Or.inr ⟨fr, by simp, hid, rfl⟩
      · refine Or.inl ⟨by simp [hx], fun he => hfr ?_⟩
        exact List.mem_map.mpr ⟨x, hx, by rw [he, hid]⟩
    · rcases List.mem_cons.mp hx with rfl | hx
      · exact Or.inl ⟨by simp, hid⟩
      · rcases ih hl hx with ⟨hm, hne⟩ | ⟨y, hy, hyf, he⟩
        · exact Or.inl ⟨by simp [hm], hne⟩
        · exact Or.inr ⟨y, by simp [hy], hyf, he⟩

theorem getfidresult_none {l : List FidResult} {fid : ℕ} (h : getfidresult l fid = none) :
    fid ∉ l.map (·.fid) := by
  intro hm
  obtain ⟨fr, hfr, he⟩ := List.mem_map.mp hm
  have := List.find?_eq_none.mp h fr hfr
  simp [he] at this

theorem states_setstates (s : Server) (f g : File) (l : List FidResult) :
    states (setstates s f l) g = if g = f then l else states s g := by
  cases f <;> cases g <;> rfl

theorem queue_setstates (s : Server) (f : File) (l : List FidResult) :
    (setstates s f l).queue = s.queue := by
  cases f <;> rfl

theorem map_fst_shape (l : List FidResult) : (shape l).map Prod.fst = l.map (·.fid) := by
  simp [shape, Function.comp_def]

theorem setfidresult_spec {s : Server} {f : File} (hn : ((states s f).map (·.fid)).Nodup) (fid : ℕ)
    (result : Str) :
    ∃ l, setfidresult s f fid result = setstates s f l ∧ (l.map (·.fid)).Nodup ∧
      (∀ n, n ∈ l.map (·.fid) ↔ n = fid ∨ n ∈ (states s f).map (·.fid)) ∧
      ∀ x ∈ l, x ∈ states s f ∧ x.fid ≠ fid ∨
        x.fid = fid ∧ x.result = result ∧
          (x.wait = none ∨ ∃ fr ∈ states s f, fr.fid = fid ∧ x.wait = fr.wait) := by
  simp only [setfidresult]
  cases hget : getfidresult (states s f) fid with
  | none =>
    have hnot := getfidresult_none hget
    refine ⟨_, rfl, ?_, fun n => by simp, fun x hx => ?_⟩
    · simpa using ⟨by simpa using hnot, hn⟩
    · rcases List.mem_cons.mp hx with rfl | hx
      · exact Or.inr ⟨rfl, rfl, Or.inl rfl⟩
      · exact Or.inl ⟨hx, fun he => hnot (List.mem_map.mpr ⟨x, hx, he⟩)⟩
  | some fr0 =>
    have hmem : fid ∈ (states s f).map (·.fid) :=
      List.mem_map.mpr ⟨fr0, List.mem_of_find?_eq_some hget, by simpa using List.find?_some hget⟩
    have hmap := map_fid_updatefid fid (g := fun fr => { fr with
      result := result, told := false }) (fun _ => rfl) (states s f)
    refine ⟨_, rfl, by rw [hmap]; exact hn, fun n => ?_, fun x hx => ?_⟩
    · rw [hmap]
      constructor
      · exact Or.inr
      · rintro (rfl | h)
        · exact hmem
        · exact h
    · rcases mem_updatefid hn hx with h | ⟨fr, hfr, hid, rfl⟩
      · exact Or.inl h
      · exact Or.inr ⟨hid, rfl, Or.inr ⟨fr, hfr, hid, rfl⟩⟩

theorem propose_spec {s : Server} (h : SInv K s) (f : File) (fid : ℕ) {id : ℤ} (h1 : 1 ≤ id)
    (h2 : id < s.queue.nextpendingid) (hk : K → Known s.queue id) (hp : id ∉ proposals s.queue.log) :
    SInv K (propose s f fid id) := by
  have hfids : ((states s f).map (·.fid)).Nodup := map_fst_shape (states s f) ▸ (h.linked f).fids
  obtain ⟨l, hset, hnodup, hmem, hl⟩ := setfidresult_spec hfids fid ("pending:" ++ intstr id)
  have hq : (propose s f fid id).queue = s.queue.say (.proposed f fid id) := by
    simp only [propose, hset, queue_setstates]
  have hst : ∀ g, states (propose s f fid id) g = if g = f then l else states s g := by
    intro g
    simp only [propose, hset, states_queue, states_setstates]
  have hknown : ∀ i, Known s.queue i → Known (propose s f fid id).queue i := by
    intro i hi
    rw [hq]
    exact hi.imp_right fun hm => List.mem_cons_of_mem _ hm
  have hcur : ∀ g n, current g n (propose s f fid id).queue.log =
      if f = g ∧ fid = n then some id else current g n s.queue.log := by
    intro g n
    rw [hq]
    rfl
  have hnext : (propose s f fid id).queue.nextpendingid = s.queue.nextpendingid := by
    rw [hq]
    rfl
  have hheld : ∀ g, ∀ e ∈ shape (states s g), (g = f → e.1 ≠ fid) →
      Held K (propose s f fid id).queue g e := by
    intro g e he hne
    obtain ⟨i, hres, hc, hi1, hi2, hki⟩ := (h.linked g).held e he
    refine ⟨i, hres, ?_, hi1, by rw [hnext]; exact hi2, fun hK => hknown i (hki hK)⟩
    rw [hcur, if_neg, hc]
    rintro ⟨rfl, rfl⟩
    exact hne rfl rfl
  refine ⟨?_, fun g => ?_, fun g => ?_⟩
  · rw [hq]
    have hQ := h.queue
    exact ⟨hQ.next, hQ.nine, hQ.ids, hQ.range, hQ.unresolved,
      fun pp hpp r hr => List.mem_cons_of_mem _ (hQ.resolved pp hpp r hr), hQ.past, hQ.kept,
      hQ.once, hQ.settled, hQ.fixed, List.nodup_cons.mpr ⟨hp, hQ.distinct⟩,
      fun i hi => by
        rcases List.mem_cons.mp hi with rfl | hi
        · exact ⟨h1, h2⟩
        · exact hQ.proposed i hi, hQ.bounded, hQ.honest⟩
  · rw [hst]
    split_ifs with hg
    · subst hg
      refine ⟨by rw [map_fst_shape]; exact hnodup, fun e he => ?_, fun n i hc => ?_⟩
      · obtain ⟨x, hx, rfl⟩ := List.mem_map.mp he
        rcases hl x hx with ⟨hxs, hne⟩ | ⟨hxf, hxr, -⟩
        · exact hheld g _ (List.mem_map.mpr ⟨x, hxs, rfl⟩) fun _ => hne
        · refine ⟨id, hxr, ?_, h1, by rw [hnext]; exact h2, fun hK => hknown id (hk hK)⟩
          rw [hcur, if_pos ⟨rfl, hxf.symm⟩]
      · rw [map_fst_shape, hmem]
        rw [hcur] at hc
        split_ifs at hc with hn
        · exact Or.inl hn.2.symm
        · exact Or.inr (map_fst_shape (states s g) ▸ (h.linked g).every n i hc)
    · refine ⟨(h.linked g).fids, fun e he => hheld g e he fun he' => absurd he' hg, fun n i hc => ?_⟩
      rw [hcur, if_neg fun hn => hg hn.1.symm] at hc
      exact (h.linked g).every n i hc
  · rw [hst]
    split_ifs with hg
    · subst hg
      intro x hx m hm
      rcases hl x hx with ⟨hxs, -⟩ | ⟨hxf, -, hw | ⟨fr, hfr, hfrid, hw⟩⟩
      · exact h.waits g x hxs m hm
      · rw [hw] at hm
        cases hm
      · rw [hw] at hm
        rw [hxf, ← hfrid]
        exact h.waits g fr hfr m hm
    · exact h.waits g

theorem propose_quiet (s : Server) (f : File) (fid : ℕ) (id : ℤ) :
    Quiet s.queue (propose s f fid id).queue := by
  have hq : (propose s f fid id).queue = s.queue.say (.proposed f fid id) := by
    simp only [propose, setfidresult]
    split <;> rw [queue_setstates]
  rw [hq]
  exact ⟨List.suffix_cons _ _, rfl⟩

def Submits (s : Server) : Request → Prop
  | .pay _ aid usdc amount recipient => ∃ acct, findacctbyid s aid = some acct ∧
      ¬(acct.accttype = .stripe ∧ usdc) ∧
      validatepay s acct (paytoken acct usdc) amount recipient = .ok ()
  | .authorize _ aid areq => ∃ acct, findacctbyid s aid = some acct ∧
      validateauth (getnetwork s) acct areq s.books.budgets = .ok ()
  | _ => False

def Spared (K : Prop) (time : ℕ → ℤ) (s : Server) (r : Request) : Prop :=
  Submits s r → Room time s (Spacious K s)

/-- No accepted submission recycles an outcome that a fid has still to read,
and ids have at most nine digits. -/
def Lasting (time : ℕ → ℤ) (s : Server) (r : Request) : Prop :=
  Submits s r → Room time s fun Q => Spares Q (results s)

theorem Lasting.spared {time : ℕ → ℤ} {s : Server} {r : Request} (h : Lasting time s r) :
    Spared True time s r := by
  intro hs ht hlive
  have hsp := h hs ht hlive
  refine ⟨?_, fun _ => hsp⟩
  have := hsp.1
  omega

theorem submit_spec {time : ℕ → ℤ} {s s' : Server} (h : SInv K s)
    (hroom : Room time s (Spacious K s))
    {kind : Kind} {acct amount recipient token : Str} {id : ℤ}
    (hn : newpending time s kind acct amount recipient token = (s', .ok id))
    {g : PendingPay → PendingPay} (hg : ∀ pp, record (g pp) = record pp) (f : File) (fid : ℕ) :
    SInv K (propose (fillpending s' g) f fid id) ∧
      Quiet s.queue (propose (fillpending s' g) f fid id).queue := by
  obtain ⟨hs', hquiet, hid⟩ := newpending_spec h hroom hn
  obtain ⟨h1, h2, hk, hp⟩ := hid id rfl
  have hfill := fillpending_spec (K := K) (s := s') hg
  have hcar : Carried K s' (fillpending s' g) := carried_queue hfill.toCarries
  refine ⟨propose_spec (hs'.carried hcar) f fid h1 ?_ (fun _ => hfill.known id hk) ?_, ?_⟩
  · rw [hfill.next]
    exact h2
  · rw [hfill.proposals]
    exact hp
  · exact hquiet.trans (hfill.quiet.trans (propose_quiet _ f fid id))

theorem writepay_spec {time : ℕ → ℤ} {s : Server} (h : SInv K s) {fid aid : ℕ} {usdc : Bool}
    {amount recipient : Str} (hl : Spared K time s (.pay fid aid usdc amount recipient)) :
    SInv K (writepay time s fid aid usdc amount recipient).1 ∧
      Quiet s.queue (writepay time s fid aid usdc amount recipient).1.queue := by
  simp only [writepay]
  cases ha : findacctbyid s aid with
  | none => exact ⟨h, Quiet.refl _⟩
  | some acct =>
    simp only []
    split_ifs with hs
    · exact ⟨h, Quiet.refl _⟩
    · cases hv : validatepay s acct (paytoken acct usdc) amount recipient with
      | error err => exact ⟨h, Quiet.refl _⟩
      | ok u =>
        have hroom := hl ⟨acct, ha, hs, hv⟩
        simp only []
        cases hn : newpending time s .pay acct.name amount recipient (paytoken acct usdc) with
        | mk s' r =>
          cases r with
          | error err =>
            obtain ⟨hs', hquiet, -⟩ := newpending_spec h hroom hn
            exact ⟨hs', hquiet⟩
          | ok id =>
            refine submit_spec h hroom hn ?_ .pay fid
            exact fun _ => rfl

theorem writeauthorize_spec {time : ℕ → ℤ} {s : Server} (h : SInv K s) {fid aid : ℕ}
    {areq : AuthReq} (hl : Spared K time s (.authorize fid aid areq)) :
    SInv K (writeauthorize time s fid aid areq).1 ∧
      Quiet s.queue (writeauthorize time s fid aid areq).1.queue := by
  simp only [writeauthorize]
  cases ha : findacctbyid s aid with
  | none => exact ⟨h, Quiet.refl _⟩
  | some acct =>
    simp only []
    cases hv : validateauth (getnetwork s) acct areq s.books.budgets with
    | error err => exact ⟨h, Quiet.refl _⟩
    | ok u =>
      have hroom := hl ⟨acct, ha, hv⟩
      simp only []
      cases hn : newpending time s .x402 acct.name areq.amount areq.payto areq.asset with
      | mk s' r =>
        cases r with
        | error err =>
          obtain ⟨hs', hquiet, -⟩ := newpending_spec h hroom hn
          exact ⟨hs', hquiet⟩
        | ok id =>
          refine submit_spec h hroom hn ?_ .authorize fid
          exact fun _ => rfl

theorem keeps_queue {s : Server} (h : SInv K s) {Q : Queue} (hk : Keeps K s.queue Q) :
    SInv K { s with queue := Q } ∧ Quiet s.queue Q :=
  ⟨h.carried (carried_queue hk.toCarries), hk.quiet⟩

/-- A record that may be executed: unresolved, and within its time when its
approval looks at the clock. -/
def Approvable (time : ℕ → ℤ) (s : Server) (id : ℤ) : Prop :=
  ∃ pp, findpending id s.queue.pendingpays = some pp ∧ pp.result = none ∧
    lapsed (time s.queue.ticks) pp = false

theorem admission_spec (time : ℕ → ℤ) {s s' : Server} (h : SInv K s) {id : ℤ}
    {r : Except Str (Account × PendingPay)} (ha : admission time s id = (s', r)) :
    SInv K s' ∧ Quiet s.queue s'.queue ∧
      ∀ acct pp, r = .ok (acct, pp) → Approvable time s id ∧ pp ∈ s'.queue.pendingpays ∧
        pp.id = id ∧ pp.result = none := by
  have hcheck := keeps_queue h (keeps_checkpendingexpiry time s.queue id)
  simp only [admission] at ha
  cases hf : findpending id s.queue.pendingpays with
  | none =>
    simp only [hf, Prod.mk.injEq] at ha
    obtain ⟨rfl, rfl⟩ := ha
    exact ⟨h, Quiet.refl _, fun _ _ he => by cases he⟩
  | some pp =>
    obtain ⟨hmem, hid⟩ := findpending_some hf
    simp only [hf] at ha
    by_cases hres : pp.result = none
    swap
    · rw [if_pos hres, Prod.mk.injEq] at ha
      obtain ⟨rfl, rfl⟩ := ha
      exact ⟨h, Quiet.refl _, fun _ _ he => by cases he⟩
    rw [if_neg (not_not.mpr hres)] at ha
    by_cases hl : lapsed (time s.queue.ticks) pp = true
    · have hexp : (findpending id (checkpendingexpiry time s.queue id).pendingpays).bind
          (·.result) ≠ none := by
        have hQ : checkpendingexpiry time s.queue id = s.queue.tick.resolve id "expired" := by
          simp [checkpendingexpiry, hf, hres, hl]
        rw [hQ]
        simp [Queue.resolve, Queue.tick, findpending_setresult hf]
      rw [if_pos hexp, Prod.mk.injEq] at ha
      obtain ⟨rfl, rfl⟩ := ha
      exact ⟨hcheck.1, hcheck.2, fun _ _ he => by cases he⟩
    · have htick : checkpendingexpiry time s.queue id = s.queue.tick := by
        simp [checkpendingexpiry, hf, hres, hl]
      rw [htick] at ha hcheck
      have hnone : ¬(findpending id s.queue.tick.pendingpays).bind (·.result) ≠ none := by
        simp [Queue.tick, hf, hres]
      rw [if_neg hnone] at ha
      cases hacct : findacct { s with queue := s.queue.tick } pp.acct with
      | none =>
        simp only [hacct, Prod.mk.injEq] at ha
        obtain ⟨rfl, rfl⟩ := ha
        exact ⟨hcheck.1, hcheck.2, fun _ _ he => by cases he⟩
      | some acct =>
        simp only [hacct] at ha
        split_ifs at ha
        · obtain ⟨rfl, rfl⟩ := Prod.mk.inj ha
          have hk := (keeps_tick (K := K) s.queue).trans
            (keeps_resolve s.queue.tick hmem hres "error:network changed since proposal")
          rw [hid] at hk
          obtain ⟨hs', hquiet⟩ := keeps_queue h hk
          exact ⟨hs', hquiet, fun _ _ he => by cases he⟩
        · obtain ⟨rfl, rfl⟩ := Prod.mk.inj ha
          refine ⟨hcheck.1, hcheck.2, fun _ _ he => ?_⟩
          obtain ⟨rfl, rfl⟩ := Prod.mk.inj (Except.ok.inj he)
          exact ⟨⟨pp, hf, hres, by simpa using hl⟩, hmem, hid, hres⟩

theorem approvepending_spec (time : ℕ → ℤ) {s : Server} (h : SInv K s) (id : ℤ) (env : Env) :
    SInv K (approvepending time env s id).1 ∧
      s.queue.log <:+ (approvepending time env s id).1.queue.log ∧
      ∀ i ∈ executions (approvepending time env s id).1.queue.log,
        i ∈ executions s.queue.log ∨ i = id ∧ Approvable time s id := by
  simp only [approvepending, approvepending0]
  cases ha : admission time s id with
  | mk s' r =>
    obtain ⟨hs', hquiet, hok⟩ := admission_spec time h ha
    cases r with
    | error err =>
      obtain ⟨hcar, hquiet'⟩ := postevent_spec time hs' "pending"
      have hall := hquiet.trans hquiet'
      refine ⟨hs'.carried hcar, hall.grows, fun i hi => Or.inl ?_⟩
      rwa [hall.executions] at hi
    | ok p =>
      obtain ⟨acct, pp⟩ := p
      obtain ⟨happ, hmem, rfl, hnone⟩ := hok acct pp rfl
      -- whatever the execution answers, the record is executed and then resolved
      have hdone : ∀ (B : Books) (x : Str) (s'' : Server),
          s'' = postevent time { s' with
            books := B, queue := (s'.queue.say (.executed pp.id)).resolve pp.id x } "pending" →
          SInv K s'' ∧ s.queue.log <:+ s''.queue.log ∧ ∀ i ∈ executions s''.queue.log,
            i ∈ executions s.queue.log ∨ i = pp.id ∧ Approvable time s pp.id := by
        rintro B x s'' rfl
        have hcar : Carried K s' { s' with
            books := B, queue := (s'.queue.say (.executed pp.id)).resolve pp.id x } :=
          ⟨carries_conclude s'.queue hmem hnone x, fun f => by cases f <;> rfl,
            fun f hw => by cases f <;> exact hw⟩
        have hsx := hs'.carried hcar
        obtain ⟨hcar', hquiet'⟩ := postevent_spec time hsx "pending"
        refine ⟨hsx.carried hcar', ?_, fun i hi => ?_⟩
        · exact ((hquiet.grows.trans (List.suffix_cons _ _)).trans (List.suffix_cons _ _)).trans
            hquiet'.grows
        · rw [hquiet'.executions] at hi
          rcases List.mem_cons.mp hi with rfl | hi
          · exact Or.inr ⟨rfl, happ⟩
          · rw [← hquiet.executions]
            exact Or.inl hi
      simp only []
      split
      · exact hdone _ _ _ rfl
      · exact hdone _ _ _ rfl

theorem denypending_spec (time : ℕ → ℤ) {s : Server} (h : SInv K s) (id : ℤ) :
    SInv K (denypending time s id).1 ∧
      Quiet s.queue (denypending time s id).1.queue := by
  simp only [denypending]
  cases hf : (findpending id s.queue.pendingpays).filter (·.result = none) with
  | none => exact ⟨h, Quiet.refl _⟩
  | some pp =>
    obtain ⟨hpp, hr⟩ := Option.filter_eq_some_iff.mp hf
    obtain ⟨hmem, rfl⟩ := findpending_some hpp
    obtain ⟨hs', hquiet⟩ := keeps_queue h
      (keeps_resolve s.queue hmem (by simpa using hr) "denied")
    obtain ⟨hcar, hquiet'⟩ := postevent_spec time hs' "pending"
    exact ⟨hs'.carried hcar, hquiet.trans hquiet'⟩

theorem expire_spec (time : ℕ → ℤ) {s : Server} (h : SInv K s) (id : ℤ) :
    SInv K (expire time s id) ∧
      Quiet s.queue (expire time s id).queue := by
  simp only [expire]
  cases (findpending id s.queue.pendingpays).filter (·.result = none) with
  | none => exact ⟨h, Quiet.refl _⟩
  | some pp =>
    obtain ⟨hs', hquiet⟩ := keeps_queue h (keeps_checkpendingexpiry time s.queue id)
    simp only []
    split_ifs
    · obtain ⟨hcar, hquiet'⟩ := postevent_spec time hs' "pending"
      exact ⟨hs'.carried hcar, hquiet.trans hquiet'⟩
    · exact ⟨hs', hquiet⟩

theorem shape_updatefid {fid : ℕ} {g : FidResult → FidResult}
    (hg : ∀ fr, (g fr).fid = fr.fid ∧ (g fr).result = fr.result) (l : List FidResult) :
    shape (updatefid fid g l) = shape l := by
  induction l with
  | nil => rfl
  | cons fr l ih =>
    simp only [updatefid]
    split_ifs
    · simp [shape, hg]
    · simpa [shape] using ih

theorem waits_updatefid {fid : ℕ} {g : FidResult → FidResult} {l : List FidResult} (h : Waits l)
    (hn : (l.map (·.fid)).Nodup) (hg : ∀ fr ∈ l, fr.fid = fid → ∀ m, (g fr).wait = some m →
      m.fid = (g fr).fid) : Waits (updatefid fid g l) := by
  intro x hx m hm
  rcases mem_updatefid hn hx with ⟨hxl, -⟩ | ⟨fr, hfr, hid, rfl⟩
  · exact h x hxl m hm
  · exact hg fr hfr hid m hm

theorem SInv.setstates {s : Server} (h : SInv K s) (f : File) (fid : ℕ) {g : FidResult → FidResult}
    (hg : ∀ fr, (g fr).fid = fr.fid ∧ (g fr).result = fr.result)
    (hw : ∀ fr, fr.fid = fid → (∀ m, fr.wait = some m → m.fid = fr.fid) →
      ∀ m, (g fr).wait = some m → m.fid = (g fr).fid) :
    SInv K (setstates s f (updatefid fid g (states s f))) := by
  have hfids : ((states s f).map (·.fid)).Nodup := map_fst_shape (states s f) ▸ (h.linked f).fids
  refine ⟨by rw [queue_setstates]; exact h.queue, fun k => ?_, fun k => ?_⟩
  · rw [queue_setstates, states_setstates]
    split_ifs with hk
    · subst hk
      rw [shape_updatefid hg]
      exact h.linked k
    · exact h.linked k
  · rw [states_setstates]
    split_ifs with hk
    · subst hk
      exact waits_updatefid (h.waits k) hfids fun fr hfr hid m hm =>
        hw fr hid (h.waits k fr hfr) m hm
    · exact h.waits k

theorem readresult_spec (time : ℕ → ℤ) {s : Server} (h : SInv K s) (f : File) (m : Tread) :
    SInv K (readresult time s f m) ∧
      Quiet s.queue (readresult time s f m).queue := by
  simp only [readresult]
  cases hget : getfidresult (states s f) m.fid with
  | none =>
    have hno : current f m.fid s.queue.log = none := by
      by_contra hc
      obtain ⟨id, hid⟩ := Option.ne_none_iff_exists'.mp hc
      have := (h.linked f).every m.fid id hid
      rw [map_fst_shape] at this
      exact getfidresult_none hget this
    exact keeps_queue h (keeps_told s.queue (by simp [Honest, hno]))
  | some fr =>
    have hmem : fr ∈ states s f := List.mem_of_find?_eq_some hget
    have hfid : fr.fid = m.fid := by simpa using List.find?_some hget
    have hheld := (h.linked f).held (fr.fid, fr.result) (List.mem_map.mpr ⟨fr, hmem, rfl⟩)
    have hne : fr.result ≠ [] := by
      obtain ⟨id, hres, -⟩ := hheld
      intro he
      rw [he] at hres
      exact intstr_ne_nil id (List.append_eq_nil_iff.mp hres.symm).2
    simp only [if_neg hne]
    cases hr : resolvefidresult time s.queue fr.result with
    | mk Q r =>
      obtain ⟨hkeep, hhonest⟩ := answer_spec time h.queue hheld hr
      rw [hfid] at hhonest
      obtain ⟨hs', hquiet⟩ := keeps_queue h hkeep
      simp only []
      split_ifs
      · refine ⟨hs'.setstates f _ (fun _ => ⟨rfl, rfl⟩) fun fr hid _ n hn => ?_, ?_⟩
        · rw [← Option.some.inj hn]
          exact hid.symm
        · rw [queue_setstates]
          exact hquiet
      · have hup := hs'.setstates f m.fid (g := fun fr => { fr with told := true })
          (fun _ => ⟨rfl, rfl⟩) fun fr _ hw n hn => hw n hn
        have htold : Keeps K (Wallet.setstates { s with queue := Q } f (updatefid m.fid
            (fun fr => { fr with told := true }) (states { s with queue := Q } f))).queue
            (Q.say (.told f m (r ++ ['\n']))) := by
          rw [queue_setstates]
          exact keeps_told Q hhonest
        obtain ⟨hs'', hquiet'⟩ := keeps_queue hup htold
        rw [queue_setstates] at hquiet'
        exact ⟨hs'', hquiet.trans hquiet'⟩
      · obtain ⟨hs'', hquiet'⟩ := keeps_queue hs' (keeps_told Q hhonest)
        exact ⟨hs'', hquiet.trans hquiet'⟩

theorem readfile_spec (time : ℕ → ℤ) {s : Server} (h : SInv K s) (f : File) (aid : ℕ) (m : Tread) :
    SInv K (readfile time s f aid m) ∧
      Quiet s.queue (readfile time s f aid m).queue := by
  obtain ⟨hs', hquiet⟩ := keeps_queue h (keeps_idle s.queue (e := .asked m) rfl)
  simp only [readfile]
  split
  · obtain ⟨hs'', hquiet'⟩ := keeps_queue hs' (keeps_idle _ (e := .refused m Enotfound) rfl)
    exact ⟨hs'', hquiet.trans hquiet'⟩
  · obtain ⟨hs'', hquiet'⟩ := readresult_spec time hs' f m
    exact ⟨hs'', hquiet.trans hquiet'⟩

theorem keeps_idles (Q : Queue) (es : List Log) (h : ∀ e ∈ es, e.idle = true) :
    Keeps K Q { Q with log := es ++ Q.log } := by
  induction es with
  | nil => exact Keeps.refl Q
  | cons e es ih =>
    exact (ih fun x hx => h x (List.mem_cons_of_mem _ hx)).trans
      (keeps_idle _ (h e List.mem_cons_self))

theorem idle_drops {P : Tread → Bool} {reads : List (Option Tread)} :
    ∀ e ∈ drops P reads, e.idle = true := by
  intro e he
  obtain ⟨rd, -, hrd⟩ := List.mem_filterMap.mp he
  obtain ⟨m, -, rfl⟩ := Option.map_eq_some_iff.mp hrd
  rfl

theorem readevent_spec {s : Server} (h : SInv K s) (m : Tread) :
    SInv K (readevent s m) ∧ Quiet s.queue (readevent s m).queue := by
  have hasked := keeps_idle (K := K) s.queue (e := .asked m) rfl
  have hevent : ∀ {Q : Queue} (l : List EvFid), Keeps K s.queue Q →
      SInv K { s with evfids := l, queue := Q } ∧ Quiet s.queue Q := fun l hk =>
    ⟨h.carried ⟨hk.toCarries, fun f => by cases f <;> rfl, fun f hw => by cases f <;> exact hw⟩,
      hk.quiet⟩
  simp only [readevent]
  cases s.evfids.find? (·.fid = m.fid) with
  | none => exact hevent _ (hasked.trans (keeps_idle _ (e := .refused m _) rfl))
  | some ef =>
    simp only []
    cases ef.q with
    | nil => exact hevent _ hasked
    | cons msg q => exact hevent _ (hasked.trans (keeps_idle _ (e := .event m msg) rfl))

theorem flush_spec {s : Server} (h : SInv K s) (oldtag : ℕ) :
    SInv K (flush s oldtag) ∧
      Quiet s.queue (flush s oldtag).queue := by
  have hk := keeps_idles (K := K) s.queue (drops (fun m => decide (m.tag = oldtag))
    (s.paystates.map (·.wait) ++ s.authstates.map (·.wait) ++ s.evfids.map (·.rd))) idle_drops
  have hshape : ∀ l : List FidResult, shape (l.map fun fr => { fr with
      wait := fr.wait.filter fun m => !decide (m.tag = oldtag) }) = shape l := fun l => by
    simp [shape]
  have hwaits : ∀ l : List FidResult, Waits l → Waits (l.map fun fr => { fr with
      wait := fr.wait.filter fun m => !decide (m.tag = oldtag) }) := by
    intro l hw x hx m hm
    obtain ⟨fr, hfr, rfl⟩ := List.mem_map.mp hx
    exact hw fr hfr m (Option.filter_eq_some_iff.mp hm).1
  refine ⟨h.carried ⟨hk.toCarries, fun f => ?_, fun f => ?_⟩, hk.quiet⟩
  · cases f with
    | pay => exact hshape s.paystates
    | authorize => exact hshape s.authstates
  · cases f with
    | pay => exact hwaits s.paystates
    | authorize => exact hwaits s.authstates

theorem states_clunk (s : Server) (fid : ℕ) (f : File) :
    states (clunk s fid) f = ((states s f).filter (·.fid ≠ fid)).reverse := by
  cases f <;> rfl

theorem mem_states_clunk {s : Server} {fid : ℕ} {f : File} {fr : FidResult} :
    fr ∈ states (clunk s fid) f ↔ fr ∈ states s f ∧ fr.fid ≠ fid := by
  simp [states_clunk]

theorem clunk_spec {s : Server} (h : SInv K s) (fid : ℕ) :
    SInv K (clunk s fid) ∧ Quiet s.queue (clunk s fid).queue := by
  set es := drops (fun _ => true) ((s.paystates.filter (·.fid = fid)).map (·.wait) ++
    (s.authstates.filter (·.fid = fid)).map (·.wait) ++
    (s.evfids.filter (·.fid = fid)).map (·.rd)) with hes
  have hk := keeps_idles (K := K) s.queue es idle_drops
  have hQ := hk.inv h.queue
  have hlog : (clunk s fid).queue.log = .clunked fid :: (es ++ s.queue.log) := rfl
  have hcur : ∀ f n, current f n (clunk s fid).queue.log =
      if fid = n then none else current f n s.queue.log := by
    intro f n
    rw [hlog, ← hk.current f n]
    rfl
  have hknown : ∀ id, Known s.queue id → Known (clunk s fid).queue id := fun id hi =>
    (hk.known id hi).imp_right fun hm => List.mem_cons_of_mem _ hm
  refine ⟨⟨?_, fun f => ?_, fun f fr hfr => ?_⟩, hk.quiet.trans ⟨List.suffix_cons _ _, rfl⟩⟩
  · exact ⟨hQ.next, hQ.nine, hQ.ids, hQ.range, hQ.unresolved,
      fun pp hpp r hr => List.mem_cons_of_mem _ (hQ.resolved pp hpp r hr), hQ.past, hQ.kept,
      hQ.once, hQ.settled, hQ.fixed, hQ.distinct, hQ.proposed, hQ.bounded, hQ.honest⟩
  · have hl := h.linked f
    refine ⟨?_, fun e he => ?_, fun n i hc => ?_⟩
    · rw [map_fst_shape, states_clunk, List.map_reverse, List.nodup_reverse]
      exact (map_fst_shape (states s f) ▸ hl.fids).sublist (List.filter_sublist.map _)
    · obtain ⟨fr, hfr, rfl⟩ := List.mem_map.mp he
      obtain ⟨hmem, hne⟩ := mem_states_clunk.mp hfr
      obtain ⟨id, hres, hc, h1, h2, hki⟩ := hl.held _ (List.mem_map.mpr ⟨fr, hmem, rfl⟩)
      refine ⟨id, hres, ?_, h1, h2, fun hK => hknown id (hki hK)⟩
      rw [hcur, if_neg (Ne.symm hne), hc]
    · rw [hcur] at hc
      split_ifs at hc with hn
      have hm := hl.every n i hc
      rw [map_fst_shape] at hm ⊢
      obtain ⟨fr, hfr, rfl⟩ := List.mem_map.mp hm
      exact List.mem_map.mpr ⟨fr, mem_states_clunk.mpr ⟨hfr, fun he => hn he.symm⟩, rfl⟩
  · exact h.waits f fr (mem_states_clunk.mp hfr).1

theorem SInv.same {s s' : Server} (h : SInv K s) (hq : s'.queue = s.queue)
    (hst : ∀ f, states s' f = states s f) : SInv K s' ∧ Quiet s.queue s'.queue := by
  refine ⟨⟨hq ▸ h.queue, fun f => ?_, fun f => ?_⟩, hq ▸ Quiet.refl _⟩
  · rw [hq, hst]
    exact h.linked f
  · rw [hst]
    exact h.waits f

/-- What one request does to the proposals: the log grows, and the only
execution is that of the proposal it approves. -/
structure Obedient (time : ℕ → ℤ) (s : Server) (r : Request) : Prop where
  grows : s.queue.log <:+ (step time s r).queue.log
  approved : ∀ i ∈ executions (step time s r).queue.log, i ∈ executions s.queue.log ∨
    (∃ env, r = .approve i env) ∧ Approvable time s i

theorem step_spec (time : ℕ → ℤ) {s : Server} (h : SInv K s) {r : Request}
    (hl : Spared K time s r) : SInv K (step time s r) ∧ Obedient time s r := by
  have hquiet : SInv K (step time s r) ∧ Quiet s.queue (step time s r).queue →
      SInv K (step time s r) ∧ Obedient time s r := by
    rintro ⟨hs, hq⟩
    refine ⟨hs, hq.grows, fun i hi => Or.inl ?_⟩
    rwa [hq.executions] at hi
  cases r with
  | account acct =>
    refine hquiet ?_
    simp only [step, serve, addaccount]
    split_ifs
    · exact ⟨h, Quiet.refl _⟩
    · exact h.same rfl fun f => by cases f <;> rfl
  | network name =>
    refine hquiet ?_
    simp only [step, serve, setnetwork]
    split
    · exact h.same rfl fun f => by cases f <;> rfl
    · exact ⟨h, Quiet.refl _⟩
  | budget aid maxpertx maxpersess currency =>
    refine hquiet ?_
    simp only [step, serve, writebudget]
    split
    · exact ⟨h, Quiet.refl _⟩
    · split_ifs
      · exact ⟨h, Quiet.refl _⟩
      · exact h.same rfl fun f => by cases f <;> rfl
  | gasbudget aid maxpertx maxpersess =>
    refine hquiet ?_
    simp only [step, serve, writegasbudget]
    split
    · exact ⟨h, Quiet.refl _⟩
    · split_ifs
      · exact ⟨h, Quiet.refl _⟩
      · exact h.same rfl fun f => by cases f <;> rfl
  | pay fid aid usdc amount recipient => exact hquiet (writepay_spec h hl)
  | authorize fid aid areq => exact hquiet (writeauthorize_spec h hl)
  | approve id env =>
    simp only [step, serve] at hquiet ⊢
    split_ifs at hquiet ⊢ with hid
    · exact hquiet ⟨h, Quiet.refl _⟩
    · obtain ⟨hs, hgrows, hexec⟩ := approvepending_spec time h id env
      refine ⟨hs, ?_, fun i hi => ?_⟩
      · simpa only [step, serve, if_neg hid] using hgrows
      · simp only [step, serve, if_neg hid] at hi
        rcases hexec i hi with ho | ⟨rfl, happ⟩
        · exact Or.inl ho
        · exact Or.inr ⟨⟨env, rfl⟩, happ⟩
  | deny id =>
    refine hquiet ?_
    simp only [step, serve]
    split_ifs
    · exact ⟨h, Quiet.refl _⟩
    · exact denypending_spec time h id
  | read f aid m => exact hquiet (readfile_spec time h f aid m)
  | readpending => exact hquiet (keeps_queue h (keeps_expireall time h.queue))
  | openevent fid | call c => exact hquiet (h.same rfl fun f => by cases f <;> rfl)
  | readevent m => exact hquiet (readevent_spec h m)
  | flush oldtag => exact hquiet (flush_spec h oldtag)
  | clunk fid => exact hquiet (clunk_spec h fid)
  | expire id => exact hquiet (expire_spec time h id)

theorem init_sinv (accts : List Account) : SInv K (Server.init accts) where
  queue :=
    { next := ⟨le_refl 1, by norm_num [Server.init]⟩
      nine := fun _ => by norm_num [Server.init]
      ids := List.nodup_nil
      range := fun _ h => absurd h List.not_mem_nil
      unresolved := fun _ h => absurd h List.not_mem_nil
      resolved := fun _ h => absurd h List.not_mem_nil
      past := fun _ h => absurd h List.not_mem_nil
      kept := fun id h1 h2 _ => absurd h2 (not_lt.mpr h1)
      once := List.nodup_nil
      settled := fun _ h => absurd h List.not_mem_nil
      fixed := List.nodup_nil
      distinct := List.nodup_nil
      proposed := fun _ h => absurd h List.not_mem_nil
      bounded := Nat.zero_le _
      honest := fun _ => trivial }
  linked f := by
    cases f <;> exact ⟨List.nodup_nil, fun _ h => absurd h List.not_mem_nil, fun _ _ h => by cases h⟩
  waits f := by
    cases f <;> exact fun _ h => absurd h List.not_mem_nil

theorem run_sinv {time : ℕ → ℤ} {s : Server} (h : SInv K s) {rs : List Request}
    (hl : Always (step time) (Spared K time) s rs) : SInv K (run time s rs) :=
  hl.invariant (SInv K) (fun _ _ hs hr => (step_spec time hs hr).1) h

theorem run_grows {time : ℕ → ℤ} {s : Server} (h : SInv K s) {rs : List Request}
    (hl : Always (step time) (Spared K time) s rs) : s.queue.log <:+ (run time s rs).queue.log := by
  induction rs generalizing s with
  | nil => exact List.suffix_rfl
  | cons r rs ih =>
    obtain ⟨hs, hstep⟩ := step_spec time h hl.1
    exact hstep.grows.trans (ih hs hl.2)

structure Lifecycle (time : ℕ → ℤ) (s : Server) (rs : List Request) : Prop where
  once : (executions (run time s rs).queue.log).Nodup
  approved : ∀ before r after, rs = before ++ r :: after →
    ∀ i ∈ executions (run time s (before ++ [r])).queue.log,
      i ∉ executions (run time s before).queue.log →
      (∃ env, r = .approve i env) ∧ Approvable time (run time s before) i
  fixed : ∀ before after, rs = before ++ after → ∀ pp ∈ (run time s before).queue.pendingpays,
    ∀ res, pp.result = some res → .resolved pp.id res ∈ (run time s rs).queue.log ∧
      ∀ pp' ∈ (run time s rs).queue.pendingpays, pp'.id = pp.id → pp'.result = some res
  kept : ∀ id ∈ proposals (run time s rs).queue.log,
    id ∉ resolutions (run time s rs).queue.log →
      ∃ pp ∈ (run time s rs).queue.pendingpays, pp.id = id ∧ pp.result = none
  resolved : (resolutions (run time s rs).queue.log).Nodup
  bounded : live (run time s rs).queue.pendingpays ≤ MAXPENDING
  distinct : (proposals (run time s rs).queue.log).Nodup
  honest : ∀ post f m text pre, (run time s rs).queue.log = post ++ .told f m text :: pre →
    Honest f m.fid text pre

theorem run_append (time : ℕ → ℤ) (s : Server) (rs rs' : List Request) :
    run time s (rs ++ rs') = run time (run time s rs) rs' := List.foldl_append

theorem run_lifecycle (time : ℕ → ℤ) (accts : List Account) (rs : List Request)
    (hl : Always (step time) (Lasting time) (Server.init accts) rs) :
    Lifecycle time (Server.init accts) rs := by
  have hinit := init_sinv (K := True) accts
  have hl : Always (step time) (Spared True time) (Server.init accts) rs :=
    hl.mono fun _ _ => Lasting.spared
  have hrun := run_sinv hinit hl
  refine
    { once := hrun.queue.once, approved := ?_, fixed := ?_, kept := ?_, resolved := hrun.queue.fixed,
      bounded := hrun.queue.bounded, distinct := hrun.queue.distinct, honest := ?_ }
  · rintro before r after rfl i hi hnew
    rw [always_append] at hl
    rw [run_append] at hi
    rcases (step_spec time (run_sinv hinit hl.1) hl.2.1).2.approved i hi with ho | hok
    · exact absurd ho hnew
    · exact hok
  · rintro before after rfl pp hpp res hres
    have hrun' := hrun
    rw [always_append] at hl
    rw [run_append] at hrun' ⊢
    have hbefore := run_sinv hinit hl.1
    have hlog := (run_grows hbefore hl.2).subset (hbefore.queue.resolved pp hpp res hres)
    refine ⟨hlog, fun pp' hpp' hid => ?_⟩
    cases hr : pp'.result with
    | none =>
      refine absurd (mem_resolutions.mpr ⟨res, hlog⟩) ?_
      rw [← hid]
      exact hrun'.queue.unresolved pp' hpp' hr
    | some res' =>
      have hlog' := hrun'.queue.resolved pp' hpp' res' hr
      rw [hid] at hlog'
      rw [outcome_unique hrun'.queue.fixed hlog' hlog]
  · intro id hid hno
    obtain ⟨h1, h2⟩ := hrun.queue.proposed id hid
    obtain ⟨pp, hpp, rfl⟩ := hrun.queue.kept id h1 h2 hno
    cases hr : pp.result with
    | none => exact ⟨pp, hpp, rfl, hr⟩
    | some res => exact absurd (mem_resolutions.mpr ⟨res, hrun.queue.resolved pp hpp res hr⟩) hno
  · intro post f m text pre he
    have hh := hrun.queue.honest trivial
    rw [he] at hh
    exact hh.told

def bobpay (fid : ℕ) : Request :=
  .pay fid 0 false "5" "0x00000000000000000000000000000000000000bb"

instance (Q : Queue) (results : List Str) : Decidable (Spares Q results) :=
  inferInstanceAs (Decidable (Q.nextpendingid < 10 ^ 9 ∧ ∀ pp ∈ Q.pendingpays,
    pp ∉ prune 0 Q.pendingpays →
      pp.result = some (lit "expired") ∨ "pending:" ++ intstr pp.id ∉ results))

instance (time : ℕ → ℤ) (s : Server) (P : Queue → Prop) [DecidablePred P] :
    Decidable (Room time s P) :=
  inferInstanceAs (Decidable (0 < time s.queue.ticks →
    live (s.queue.tick.expireall time).pendingpays < MAXPENDING →
      P (s.queue.tick.expireall time)))

def paidrun : List Request :=
  [bobpay 1, .approve 1 (agreeable []), .read .pay 0 ⟨7, 1, 0, 100⟩]

theorem paidrun_lifecycle :
    Lifecycle (fun _ => 1000) (Server.init [mainacct]) paidrun :=
  run_lifecycle (fun _ => 1000) [mainacct] paidrun
    ⟨fun _ => by decide, fun h => h.elim, fun h => h.elim, trivial⟩

def recycledrun : List Request :=
  [bobpay 1, .approve 1 (agreeable [])] ++
    (List.range 100).flatMap (fun n => [bobpay 2, .deny (n + 2)]) ++
    [bobpay 2, .read .pay 0 ⟨7, 1, 0, 100⟩]

set_option maxRecDepth 20000 in
theorem recycledrun_log :
    let log := (run (fun _ => 1000) (Server.init [mainacct]) recycledrun).queue.log
    log.head? = some (.told .pay ⟨7, 1, 0, 100⟩ (lit "expired" ++ ['\n'])) ∧
      current .pay 1 log.tail = some 1 ∧ .resolved 1 (lit "approved:0xhash") ∈ log.tail := by
  decide

theorem approved_read_expired :
    ¬∀ (time : ℕ → ℤ) (accts : List Account) (rs : List Request),
      Lifecycle time (Server.init accts) rs := by
  intro hall
  have hlife := hall (fun _ => 1000) [mainacct] recycledrun
  obtain ⟨hhead, hcur, hres⟩ := recycledrun_log
  obtain ⟨pre, hlog⟩ := List.head?_eq_some_iff.mp hhead
  rw [hlog] at hcur hres
  have hhonest := hlife.honest [] _ _ _ _ hlog
  simp only [List.tail_cons] at hcur hres
  simp only [Honest, hcur] at hhonest
  rcases hhonest with ⟨hno, -⟩ | ⟨r, hr, htext⟩
  · exact hno (mem_resolutions.mpr ⟨_, hres⟩)
  · have hnd := hlife.resolved
    rw [hlog] at hnd
    simp only [resolutions] at hnd
    rw [outcome_unique hnd hr hres] at htext
    exact absurd htext (by decide)

end Infernode.Wallet
