import Mathlib.Data.List.Perm.Basic
import Infernode.Tools.Requests

/-!
# Each call once

As long as a client's write finds nothing kept under the number of its fid and no call of
the fid running, nothing else comes between its parts, and what is kept is not dropped, the
calls of a fid are its writes, each once and in order, and a fid reads the result of its
own last call.
-/

namespace Infernode.Tools

open Lib Limbo

variable {t : Session} {srv : Server} {fid o k : ℕ} {r : Ran} {res : Result}

theorem mem_on {rs : List Ran} : r ∈ on o rs ↔ r ∈ rs ∧ r.obj = o := by
  simp [on]

theorem on_append (o : ℕ) (rs rs' : List Ran) : on o (rs ++ rs') = on o rs ++ on o rs' :=
  List.filter_append _ _

theorem on_other {rs : List Ran} (h : o ∉ rs.map Ran.obj) : on o rs = [] := by
  refine List.filter_eq_nil_iff.mpr fun r hr hobj => h ?_
  exact List.mem_map.mpr ⟨r, hr, of_decide_eq_true hobj⟩

theorem on_erase (o : ℕ) {rs : List Ran} (hnodup : (rs.map Ran.obj).Nodup)
    (hk : rs[k]? = some r) :
    on o rs = (if r.obj = o then [r] else []) ++ on o (rs.eraseIdx k) := by
  induction rs generalizing k with
  | nil => exact absurd hk (by simp)
  | cons x rs ih =>
    obtain ⟨hx, hnodup⟩ := List.nodup_cons.mp hnodup
    cases k with
    | zero =>
      obtain rfl : x = r := by simpa using hk
      rw [List.eraseIdx_cons_zero, on, List.filter_cons]
      split_ifs with hobj hobj' hobj'
      · rfl
      · exact absurd (of_decide_eq_true hobj) hobj'
      · exact absurd (decide_eq_true hobj') hobj
      · rfl
    | succ k =>
      have hk' : rs[k]? = some r := by simpa using hk
      have hne : x.obj ≠ r.obj := fun h =>
        hx (h ▸ List.mem_map_of_mem (List.mem_of_getElem? hk'))
      have hrest := ih hnodup hk'
      rw [List.eraseIdx_cons_succ]
      simp only [on, List.filter_cons] at hrest ⊢
      by_cases hobj : x.obj = o
      · have hother : ¬r.obj = o := fun h => hne (hobj.trans h.symm)
        rw [if_pos (decide_eq_true hobj), if_pos (decide_eq_true hobj), hrest,
          if_neg hother]
        rfl
      · have hx' : ¬decide (x.obj = o) = true := by simpa using hobj
        rw [if_neg hx', hrest, if_neg hx']

theorem erase_perm {rs : List Ran} (hk : rs[k]? = some r) : (r :: rs.eraseIdx k).Perm rs := by
  obtain ⟨hlt, rfl⟩ := List.getElem?_eq_some_iff.mp hk
  exact List.getElem_cons_eraseIdx_perm hlt

def Ran.seen (r : Ran) : Str × Bool × Option ℕ :=
  (r.args, r.tag.isNone, if r.tag.isNone then none else some r.obj)

def Call.seen (c : Call) : Str × Bool × Option ℕ := (c.args, c.cr = .none, c.fid)

structure Tallied (t : Session) : Prop where
  matched : t.srv.calls.map Call.seen = t.running.map Ran.seen
  single : (t.running.map Ran.obj).Nodup
  below : ∀ r ∈ t.begun, r.obj < t.srv.next
  order : ∀ o, on o (t.ended.map Prod.fst) ++ on o t.running = on o t.begun
  tagged : ∀ fid o, t.srv.fids fid = some o → ∀ r ∈ t.begun, r.obj = o → r.tag.isSome = true
  data : ∀ fid o, t.srv.fids fid = some o → (t.srv.obj o).data = t.lastresult o
  answered : (t.answers.map Prod.fst ++ t.running.filterMap Ran.tag).Perm (List.range t.sent)
  told : ∀ p ∈ t.ended, ∀ n ∈ p.1.tag,
    (n, Answer.ok) ∈ t.answers ∨ (n, Answer.result p.2) ∈ t.answers

theorem Tallied.running_begun (h : Tallied t) (hr : r ∈ t.running) : r ∈ t.begun := by
  have hon : r ∈ on r.obj t.begun := by
    rw [← h.order]
    exact List.mem_append_right _ (mem_on.mpr ⟨hr, rfl⟩)
  exact (mem_on.mp hon).1

theorem Tallied.ended_begun (h : Tallied t) {p : Ran × Result} (hp : p ∈ t.ended) :
    p.1 ∈ t.begun := by
  have hon : p.1 ∈ on p.1.obj t.begun := by
    rw [← h.order]
    exact List.mem_append_left _ (mem_on.mpr ⟨List.mem_map_of_mem hp, rfl⟩)
  exact (mem_on.mp hon).1

theorem Tallied.fresh (h : Tallied t) (ho : t.srv.next ≤ o) : t.lastresult o = none := by
  have hnone : t.ended.filter (fun p => p.1.obj = o) = [] := by
    refine List.filter_eq_nil_iff.mpr fun p hp hobj => ?_
    have hlt := h.below _ (h.ended_begun hp)
    rw [of_decide_eq_true hobj] at hlt
    exact absurd hlt (Nat.not_lt.mpr ho)
  rw [Session.lastresult, hnone]
  rfl

theorem Tallied.stays (h : Tallied t) (hsound : Sound t.srv) (hs : Stays t.srv srv) (a : Answer)
    (going : List Cwrite) (written : List (ℕ × List UInt8)) (refused : List (List UInt8)) :
    Tallied { t with
      srv := srv, going := going, written := written, refused := refused
      sent := t.sent + 1, answers := t.answers ++ [(t.sent, a)] } := by
  refine ⟨hs.calls ▸ h.matched, h.single, fun r hr => (h.below r hr).trans_le hs.next, h.order,
    fun fid o ho r hr hobj => ?_, fun fid o ho => ?_, ?_, fun p hp n hn => ?_⟩
  · rcases hs.new fid o ho with hold | ⟨-, hnext, -⟩
    · exact h.tagged fid o hold r hr hobj
    · exact absurd (h.below r hr) (by rw [hobj]; exact Nat.not_lt.mpr hnext)
  · rcases hs.new fid o ho with hold | ⟨-, hnext, hdata⟩
    · exact (hs.obj o (hsound.live fid o hold)).trans (h.data fid o hold)
    · exact hdata.trans (h.fresh hnext).symm
  · rw [List.range_succ, List.map_append, List.append_assoc]
    refine (List.perm_append_comm.append_left _).trans ?_
    rw [← List.append_assoc]
    exact h.answered.append_right _
  · exact (h.told p hp n hn).imp (List.mem_append_left _) (List.mem_append_left _)

theorem Tallied.begin (h : Tallied t) (srv : Server) (r : Ran) {c : Call}
    {answers : List (ℕ × Answer)} (hcalls : srv.calls = t.srv.calls ++ [c]) (hseen : c.seen = r.seen)
    (hnext : srv.next = t.srv.next) (hobj : srv.obj = t.srv.obj)
    (hfids : ∀ fid o, srv.fids fid = some o → t.srv.fids fid = some o)
    (hlt : r.obj < t.srv.next) (hidle : r.obj ∉ t.running.map Ran.obj)
    (htag : r.tag = some t.sent ∧ answers = t.answers ∨
      r.tag = none ∧ (∃ a, answers = t.answers ++ [(t.sent, a)]) ∧
        ∀ fid, srv.fids fid ≠ some r.obj)
    (going : List Cwrite) (written : List (ℕ × List UInt8)) :
    Tallied { t with
      srv := srv, going := going, written := written, begun := t.begun ++ [r]
      running := t.running ++ [r], sent := t.sent + 1, answers := answers } := by
  refine ⟨?_, ?_, fun r' hr' => ?_, fun o => ?_, fun fid o ho r' hr' hobj' => ?_,
    fun fid o ho => ?_, ?_, fun p hp n hn => ?_⟩
  · simp only [hcalls, List.map_append, h.matched, List.map_cons, List.map_nil, hseen]
  · rw [List.map_append]
    refine h.single.append (List.nodup_singleton _) ?_
    exact List.disjoint_singleton.mpr hidle
  · dsimp only
    rw [hnext]
    rcases List.mem_append.mp hr' with hr' | hr'
    · exact h.below r' hr'
    · rw [List.mem_singleton.mp hr']
      exact hlt
  · rw [on_append, on_append, ← List.append_assoc, h.order]
  · rcases List.mem_append.mp hr' with hr' | hr'
    · exact h.tagged fid o (hfids fid o ho) r' hr' hobj'
    · obtain rfl := List.mem_singleton.mp hr'
      rcases htag with ⟨htag, -⟩ | ⟨-, -, hgone⟩
      · rw [htag]
        rfl
      · exact absurd (hobj' ▸ ho) (hgone fid)
  · exact (congrArg (fun obj => (obj o).data) hobj).trans (h.data fid o (hfids fid o ho))
  · rw [List.range_succ, List.filterMap_append]
    rcases htag with ⟨htag, rfl⟩ | ⟨htag, ⟨a, rfl⟩, -⟩
    · rw [← List.append_assoc]
      simpa [htag] using h.answered.append_right [t.sent]
    · simp only [List.filterMap_cons, htag, List.filterMap_nil, List.append_nil,
        List.map_append, List.append_assoc]
      refine (List.perm_append_comm.append_left _).trans ?_
      rw [← List.append_assoc]
      exact h.answered.append_right _
  · have hmem := h.told p hp n hn
    rcases htag with ⟨-, rfl⟩ | ⟨-, ⟨a, rfl⟩, -⟩
    · exact hmem
    · exact hmem.imp (List.mem_append_left _) (List.mem_append_left _)

theorem Tallied.done (h : Tallied t) {c : Call} {a : Answer} (hc : t.srv.calls[k]? = some c)
    (hr : t.running[k]? = some r) (hcalls : srv.calls = t.srv.calls.eraseIdx k)
    (hnext : srv.next = t.srv.next) (hfids : srv.fids = t.srv.fids)
    (hobj : ∀ o, (srv.obj o).data = if c.fid = some o then some res else (t.srv.obj o).data)
    (ha : a = .ok ∨ a = .result res) :
    Tallied { t with
      srv := srv, running := t.running.eraseIdx k, ended := t.ended ++ [(r, res)]
      answers := t.answers ++ r.tag.toList.map fun n => (n, a) } := by
  have hseen : c.seen = r.seen := by
    have hget := congrArg (fun l => l[k]?) h.matched
    simpa only [List.getElem?_map, hc, hr, Option.map_some, Option.some.injEq] using hget
  have hbegun := h.running_begun (List.mem_of_getElem? hr)
  refine ⟨?_, h.single.sublist ((List.eraseIdx_sublist _ _).map _), hnext ▸ h.below,
    fun o => ?_, hfids ▸ h.tagged, fun fid o ho => ?_, ?_, fun p hp n hn => ?_⟩
  · simp only [hcalls, ← List.eraseIdx_map, h.matched]
  · rw [List.map_append, on_append, ← h.order o, on_erase o h.single hr,
      List.append_assoc]
    congr 2
    simp only [List.map_cons, List.map_nil, on, List.filter_cons, List.filter_nil,
      decide_eq_true_eq]
  · rw [hfids] at ho
    simp only [hobj, Session.lastresult, List.filter_append]
    by_cases hown : r.obj = o
    · have htag := h.tagged fid o ho r hbegun hown
      have hfid : c.fid = some o := by
        have hfid := congrArg (fun s => s.2.2) hseen
        simp only [Call.seen, Ran.seen] at hfid
        rw [hfid, if_neg, hown]
        rw [Option.isNone_iff_eq_none]
        exact Option.isSome_iff_ne_none.mp htag
      rw [if_pos hfid]
      simp [hown]
    · have hfid : ¬c.fid = some o := by
        have hfid := congrArg (fun s => s.2.2) hseen
        simp only [Call.seen, Ran.seen] at hfid
        rw [hfid]
        split_ifs
        · exact nofun
        · exact fun h => hown (Option.some.inj h)
      rw [if_neg hfid, h.data fid o ho, Session.lastresult]
      simp [hown]
  · have htags : (r.tag.toList ++ (t.running.eraseIdx k).filterMap Ran.tag).Perm
        (t.running.filterMap Ran.tag) := by
      have hperm := (erase_perm hr).filterMap Ran.tag
      cases htag : r.tag with
      | none | some n => simpa [htag] using hperm
    rw [List.map_append, List.map_map, List.append_assoc]
    refine List.Perm.trans ?_ h.answered
    refine List.Perm.append_left _ ?_
    simpa [Function.comp_def] using htags
  · rcases List.mem_append.mp hp with hp | hp
    · exact (h.told p hp n hn).imp (List.mem_append_left _) (List.mem_append_left _)
    · obtain rfl := List.mem_singleton.mp hp
      have hmem : (n, a) ∈ r.tag.toList.map fun n => (n, a) :=
        List.mem_map_of_mem (Option.mem_toList.mpr hn)
      rcases ha with rfl | rfl
      · exact .inl (List.mem_append_right _ hmem)
      · exact .inr (List.mem_append_right _ hmem)

structure Split (t : Session) : Prop where
  whole : ∀ w ∈ t.going,
    (w.fid, w.data.take w.taken) ∈ t.srv.pendingargs ∧ w.taken < w.data.length
  once : (t.going.map Cwrite.fid).Nodup
  idle : ∀ fid o b, t.srv.fids fid = some o → (fid, b) ∈ t.srv.pendingargs →
    o ∉ t.running.map Ran.obj
  below : ∀ p ∈ t.written, p.1 < t.srv.next
  called : ∀ fid o, t.srv.fids fid = some o → t.called o ++ t.held fid = t.asked o
  gone : ∀ o, (∀ fid, t.srv.fids fid ≠ some o) → t.called o = t.asked o
  small : ∀ p ∈ t.written, p.2.length ≤ MAXARGS
  large : ∀ data ∈ t.refused, MAXARGS < data.length

variable {t' : Session}

theorem held_same (hs : Sound t.srv) (hs' : Sound t'.srv)
    (hpend : ∀ b, (fid, b) ∈ t'.srv.pendingargs ↔ (fid, b) ∈ t.srv.pendingargs)
    (hpart : t'.partly fid ↔ t.partly fid) : t'.held fid = t.held fid := by
  rw [Session.held, Session.held, pending_same hs.keys hs'.keys hpend]
  by_cases h : t.partly fid
  · rw [if_pos h, if_pos (hpart.mpr h)]
  · rw [if_neg h, if_neg (hpart.not.mpr h)]

theorem held_none (hpend : t.srv.pending fid = none) : t.held fid = [] := by
  rw [Session.held, hpend]
  split_ifs <;> rfl

theorem held_some {b : List UInt8} (hpart : ¬t.partly fid) (hpend : t.srv.pending fid = some b) :
    t.held fid = [argstring b] := by
  rw [Session.held, if_neg hpart, hpend]
  rfl

theorem called_append {rs : List Ran} (hrs : t'.begun = t.begun ++ rs) (o : ℕ) :
    t'.called o = t.called o ++ (on o rs).map Ran.args := by
  rw [Session.called, hrs, on_append, List.map_append]
  rfl

theorem asked_append (t' : Session) {data : List UInt8} (hw : t'.written = t.written ++ [(o, data)]) (o' : ℕ) :
    t'.asked o' = t.asked o' ++ if o = o' then [argstring data] else [] := by
  rw [Session.asked, hw, List.filter_append, List.map_append]
  by_cases h : o = o' <;> simp [h, Session.asked]

theorem Split.keeps (h : Split t) (hs : Sound t.srv) (ht : Tallied t) (hk : Keeps t.srv srv)
    (answers : List (ℕ × Answer)) :
    Split { t with srv := srv, sent := t.sent + 1, answers := answers } := by
  have hpend : ∀ p, p ∈ srv.pendingargs ↔ p ∈ t.srv.pendingargs := fun p => hk.pending.mem_iff
  refine ⟨fun w hw => ?_, h.once, fun fid o b ho hb => ?_, fun p hp => ?_, fun fid o ho => ?_,
    fun o hgone => ?_, h.small, h.large⟩
  · obtain ⟨hmem, hlt⟩ := h.whole w hw
    exact ⟨(hpend _).mpr hmem, hlt⟩
  · obtain ⟨o', ho'⟩ := hs.owner _ ((hpend _).mp hb)
    obtain rfl := Option.some.inj ((hk.old fid o' ho').symm.trans ho)
    exact h.idle fid o' b ho' ((hpend _).mp hb)
  · exact (h.below p hp).trans_le hk.next
  · rcases hk.new fid o ho with hold | ⟨hnone, hnext, -⟩
    · refine Eq.trans ?_ (h.called fid o hold)
      refine congrArg (t.called o ++ ·) (held_same hs hk.sound (fun b => hpend _) Iff.rfl)
    · have hcalled : t.called o = [] := by
        rw [Session.called, on, List.filter_eq_nil_iff.mpr, List.map_nil]
        intro r hr hobj
        have hlt := ht.below r hr
        rw [of_decide_eq_true hobj] at hlt
        exact absurd hlt (Nat.not_lt.mpr hnext)
      have hasked : t.asked o = [] := by
        rw [Session.asked, List.filter_eq_nil_iff.mpr, List.map_nil]
        intro p hp hobj
        have hlt := h.below p hp
        rw [of_decide_eq_true hobj] at hlt
        exact absurd hlt (Nat.not_lt.mpr hnext)
      have hpending : srv.pending fid = none := by
        refine pending_none.mpr fun b hb => ?_
        obtain ⟨o', ho'⟩ := hs.owner _ ((hpend _).mp hb)
        exact absurd (hnone.symm.trans ho') nofun
      have hheld := held_none (t := { t with srv := srv, sent := t.sent + 1, answers := answers })
        hpending
      rw [hheld, List.append_nil]
      exact hcalled.trans hasked.symm
  · exact h.gone o fun fid ho => hgone fid (hk.old fid o ho)

theorem Split.update (h : Split t) (hs : Sound t.srv) (hs' : Sound t'.srv)
    (ho : t.srv.fids fid = some o) (hnext : t'.srv.next = t.srv.next)
    (hfids : ∀ fid' ≠ fid, t'.srv.fids fid' = t.srv.fids fid')
    (hfid : ∀ o', t'.srv.fids fid = some o' → o' = o)
    (hpend : ∀ p, p.1 ≠ fid → (p ∈ t'.srv.pendingargs ↔ p ∈ t.srv.pendingargs))
    (hgoing : ∀ w, w.fid ≠ fid → (w ∈ t'.going ↔ w ∈ t.going))
    (hwhole : ∀ w ∈ t'.going, w.fid = fid →
      (fid, w.data.take w.taken) ∈ t'.srv.pendingargs ∧ w.taken < w.data.length)
    (honce : (t'.going.map Cwrite.fid).Nodup)
    (hidle : ∀ b, (fid, b) ∈ t'.srv.pendingargs → o ∉ t'.running.map Ran.obj)
    (hrun : ∀ o' ≠ o, o' ∈ t'.running.map Ran.obj → o' ∈ t.running.map Ran.obj)
    (hcalled : ∀ o' ≠ o, t'.called o' = t.called o')
    (hasked : ∀ o' ≠ o, t'.asked o' = t.asked o')
    (hwritten : ∀ p ∈ t'.written, p ∈ t.written ∨ p.1 = o ∧ p.2.length ≤ MAXARGS)
    (hrefused : ∀ data ∈ t'.refused, data ∈ t.refused ∨ MAXARGS < data.length)
    (hown : t'.srv.fids fid = some o → t'.called o ++ t'.held fid = t'.asked o)
    (hgone : t'.srv.fids fid ≠ some o → t'.called o = t'.asked o) : Split t' := by
  have hother : ∀ fid' ≠ fid, ∀ o', t.srv.fids fid' = some o' → o' ≠ o := by
    rintro fid' hne o' ho' rfl
    exact hne (hs.inj _ _ _ ho' ho)
  refine ⟨fun w hw => ?_, honce, fun fid' o' b ho' hb => ?_, fun p hp => ?_,
    fun fid' o' ho' => ?_, fun o' hstands => ?_, fun p hp => ?_, fun data hdata => ?_⟩
  · by_cases hsame : w.fid = fid
    · rw [hsame]
      exact hwhole w hw hsame
    · obtain ⟨hmem, hlt⟩ := h.whole w ((hgoing w hsame).mp hw)
      exact ⟨(hpend (w.fid, w.data.take w.taken) hsame).mpr hmem, hlt⟩
  · by_cases hsame : fid' = fid
    · subst hsame
      rw [hfid o' ho']
      exact hidle b hb
    · rw [hfids fid' hsame] at ho'
      have hold := h.idle fid' o' b ho' ((hpend _ hsame).mp hb)
      exact fun hmem => hold (hrun o' (hother fid' hsame o' ho') hmem)
  · rw [hnext]
    rcases hwritten p hp with hp | ⟨hobj, -⟩
    · exact h.below p hp
    · rw [hobj]
      exact hs.live fid o ho
  · by_cases hsame : fid' = fid
    · subst hsame
      obtain rfl := hfid o' ho'
      exact hown ho'
    · rw [hfids fid' hsame] at ho'
      have hne := hother fid' hsame o' ho'
      rw [hcalled o' hne, hasked o' hne, ← h.called fid' o' ho']
      refine congrArg (t.called o' ++ ·) (held_same hs hs' (fun b => hpend _ hsame) ?_)
      simp only [Session.partly, List.mem_map]
      constructor
      · rintro ⟨w, hw, rfl⟩
        exact ⟨w, (hgoing w hsame).mp hw, rfl⟩
      · rintro ⟨w, hw, rfl⟩
        exact ⟨w, (hgoing w hsame).mpr hw, rfl⟩
  · by_cases hsame : o' = o
    · subst hsame
      exact hgone (hstands fid)
    · rw [hcalled o' hsame, hasked o' hsame]
      refine h.gone o' fun fid' ho' => ?_
      by_cases hfid' : fid' = fid
      · subst hfid'
        exact hsame (Option.some.inj (ho'.symm.trans ho))
      · exact hstands fid' ((hfids fid' hfid').trans ho')
  · rcases hwritten p hp with hp | ⟨-, hsmall⟩
    · exact h.small p hp
    · exact hsmall
  · rcases hrefused data hdata with hdata | hlarge
    · exact h.large data hdata
    · exact hlarge

structure Session.Inv (t : Session) : Prop where
  sound : Sound t.srv
  tallied : Tallied t
  split : Split t

variable {iounit : Iounit} {m : Request} {a : Answer}

theorem send_answer (hserve : t.srv.serve iounit m = (srv, a)) (hcalls : srv.calls = t.srv.calls)
    (ha : a ≠ .later) : t.send iounit m =
      ({ t with srv := srv, sent := t.sent + 1, answers := t.answers ++ [(t.sent, a)] }, a) := by
  simp only [Session.send, hserve, hcalls, List.drop_length, List.map_nil, List.append_nil,
    if_neg ha]

theorem send_begun {c : Call} (hserve : t.srv.serve iounit m = (srv, a))
    (hcalls : srv.calls = t.srv.calls ++ [c]) : t.send iounit m =
      ({ t with
          srv := srv
          begun := t.begun ++
            [⟨t.objof m.fid, if c.cr = .none then none else some t.sent, c.args⟩]
          running := t.running ++
            [⟨t.objof m.fid, if c.cr = .none then none else some t.sent, c.args⟩]
          sent := t.sent + 1
          answers := if a = .later then t.answers else t.answers ++ [(t.sent, a)] }, a) := by
  simp only [Session.send, hserve, hcalls, List.drop_left, List.map_cons, List.map_nil]

theorem objof_eq (ho : t.srv.fids fid = some o) : t.objof fid = o := by
  rw [Session.objof, ho]
  rfl

theorem Session.Inv.plain (h : t.Inv) (hserve : t.srv.serve iounit m = (srv, a))
    (hplain : Plain t.srv (srv, a)) : (t.send iounit m).1.Inv := by
  obtain ⟨hkeeps, ha⟩ := hplain
  rw [send_answer hserve hkeeps.calls ha]
  exact ⟨hkeeps.sound, h.tallied.stays h.sound hkeeps.toStays a _ _ _,
    h.split.keeps h.sound h.tallied hkeeps _⟩

structure Turn (t : Session) (w : Cwrite) (rest : List Cwrite) : Prop where
  kept : (t.srv.pending w.fid).getD [] = w.data.take w.taken
  le : w.taken ≤ w.data.length
  held : t.held w.fid = []
  free : w.fid ∉ rest.map Cwrite.fid
  once : (rest.map Cwrite.fid).Nodup
  others : ∀ w', w'.fid ≠ w.fid → (w' ∈ rest ↔ w' ∈ t.going)
  idle : ∀ o, t.srv.fids w.fid = some o → o ∉ t.running.map Ran.obj

theorem Session.Inv.first (h : t.Inv) {data : List UInt8} (hpend : t.srv.pending fid = none)
    (hidle : ∀ o, t.srv.fids fid = some o → o ∉ t.running.map Ran.obj) :
    Turn t ⟨fid, data, 0⟩ t.going := by
  refine ⟨by rw [hpend]; rfl, Nat.zero_le _, held_none hpend, fun hmem => ?_, h.split.once,
    fun _ _ => Iff.rfl, hidle⟩
  obtain ⟨w, hw, hfid⟩ := List.mem_map.mp hmem
  have hkept := (h.split.whole w hw).1
  rw [show w.fid = fid from hfid] at hkept
  exact pending_none.mp hpend _ hkept

theorem Session.Inv.turn (h : t.Inv) {w : Cwrite} (hk : t.going[k]? = some w) :
    Turn t w (t.going.eraseIdx k) := by
  have hperm : (w :: t.going.eraseIdx k).Perm t.going := by
    obtain ⟨hlt, rfl⟩ := List.getElem?_eq_some_iff.mp hk
    exact List.getElem_cons_eraseIdx_perm hlt
  obtain ⟨hmem, hlt⟩ := h.split.whole w (List.mem_of_getElem? hk)
  have hpend := (pending_some h.sound.keys).mpr hmem
  have hnodup := ((hperm.map Cwrite.fid).nodup_iff).mpr h.split.once
  rw [List.map_cons, List.nodup_cons] at hnodup
  have hpart : t.partly w.fid := List.mem_map_of_mem (List.mem_of_getElem? hk)
  refine ⟨by rw [hpend]; rfl, hlt.le, if_pos hpart, hnodup.1, hnodup.2, fun w' hne => ?_,
    fun o ho => h.split.idle _ _ _ ho hmem⟩
  rw [← hperm.mem_iff, List.mem_cons]
  refine ⟨.inr, fun hw' => hw'.resolve_left ?_⟩
  rintro rfl
  exact hne rfl

theorem Turn.args {w : Cwrite} {rest : List Cwrite} (h : Turn t w rest) (n : ℕ) :
    catargs (t.srv.pending w.fid) ((w.data.drop w.taken).take n) =
      w.data.take (w.taken + ((w.data.drop w.taken).take n).length) := by
  rw [catargs, h.kept, List.take_add, List.length_take, ← List.take_eq_take_min]

variable {w : Cwrite} {rest : List Cwrite}

theorem Turn.apart (hw : Turn t w rest) : ∀ w' ∈ rest, w'.fid ≠ w.fid :=
  fun _ hw' hsame => hw.free (hsame ▸ List.mem_map_of_mem hw')

theorem Turn.called (hw : Turn t w rest) (h : t.Inv) (ho : t.srv.fids w.fid = some o) :
    t.called o = t.asked o := by
  have hcalled := h.split.called w.fid o ho
  rwa [hw.held, List.append_nil] at hcalled

theorem stays_pending (s : Server) (pend : List (ℕ × List UInt8)) :
    Stays s { s with pendingargs := pend } :=
  ⟨rfl, le_rfl, fun _ _ => .inl, fun _ _ => rfl⟩

theorem mem_keepargs {s : Server} {p : ℕ × List UInt8} (hp : p.1 ≠ fid) (b : List UInt8) :
    p ∈ ((s.takeargs fid).1.keepargs fid b).pendingargs ↔ p ∈ s.pendingargs := by
  rw [Server.keepargs, List.mem_cons, mem_takeargs]
  refine ⟨?_, fun hmem => .inr ⟨hmem, hp⟩⟩
  rintro (rfl | hmem)
  · exact absurd rfl hp
  · exact hmem.1

theorem Turn.refuse (hw : Turn t w rest) (h : t.Inv) (ho : t.srv.fids w.fid = some o)
    (hlarge : MAXARGS < w.data.length) (a : Answer) :
    Session.Inv { t with
      srv := (t.srv.takeargs w.fid).1, going := rest, refused := t.refused ++ [w.data]
      sent := t.sent + 1, answers := t.answers ++ [(t.sent, a)] } := by
  refine ⟨h.sound.takeargs _,
    h.tallied.stays h.sound (stays_pending _ (t.srv.takeargs w.fid).1.pendingargs) _ _ _ _,
    h.split.update h.sound (h.sound.takeargs _) ho rfl (fun _ _ => rfl)
      (fun o' ho' => Option.some.inj (ho'.symm.trans ho))
      (fun p hp => by rw [mem_takeargs]; exact and_iff_left hp) hw.others
      (fun w' hw' hsame => absurd hsame (hw.apart w' hw')) hw.once
      (fun b hb => absurd rfl (mem_takeargs.mp hb).2) (fun _ _ => id) (fun _ _ => rfl)
      (fun _ _ => rfl) (fun p hp => .inl hp) (fun data hdata => ?_) (fun _ => ?_)
      (fun hgone => absurd ho hgone)⟩
  · rcases List.mem_append.mp hdata with hdata | hdata
    · exact .inl hdata
    · rw [List.mem_singleton.mp hdata]
      exact .inr hlarge
  · rw [held_none pending_takeargs, List.append_nil]
    exact hw.called h ho

theorem Turn.more (hw : Turn t w rest) (h : t.Inv) (ho : t.srv.fids w.fid = some o) {n : ℕ}
    (hn : n < w.data.length) (a : Answer) :
    Session.Inv { t with
      srv := (t.srv.takeargs w.fid).1.keepargs w.fid (w.data.take n)
      going := ⟨w.fid, w.data, n⟩ :: rest
      sent := t.sent + 1, answers := t.answers ++ [(t.sent, a)] } := by
  have hkept := (h.sound.takeargs w.fid).keepargs pending_takeargs ho (w.data.take n)
  refine ⟨hkept, h.tallied.stays h.sound (stays_pending _ (_ :: _)) _ _ _ _,
    h.split.update h.sound hkept ho rfl (fun _ _ => rfl)
      (fun o' ho' => Option.some.inj (ho'.symm.trans ho)) (fun p hp => mem_keepargs hp _)
      (fun w' hne => ?_) (fun w' hw' hsame => ?_)
      (List.nodup_cons.mpr ⟨hw.free, hw.once⟩) (fun b _ => hw.idle o ho) (fun _ _ => id)
      (fun _ _ => rfl) (fun _ _ => rfl) (fun p hp => .inl hp) (fun data hdata => .inl hdata)
      (fun _ => ?_) (fun hgone => absurd ho hgone)⟩
  · rw [← hw.others w' hne, List.mem_cons]
    refine ⟨fun hw' => hw'.resolve_left ?_, .inr⟩
    rintro rfl
    exact hne rfl
  · rcases List.mem_cons.mp hw' with rfl | hw'
    · exact ⟨List.mem_cons_self, hn⟩
    · exact absurd hsame (hw.apart w' hw')
  · rw [Session.held, if_pos (by exact List.mem_cons_self), List.append_nil]
    exact hw.called h ho

theorem Turn.wait (hw : Turn t w rest) (h : t.Inv) (ho : t.srv.fids w.fid = some o)
    (hsmall : w.data.length ≤ MAXARGS) (a : Answer) :
    Session.Inv { t with
      srv := (t.srv.takeargs w.fid).1.keepargs w.fid w.data, going := rest
      written := t.written ++ [(o, w.data)]
      sent := t.sent + 1, answers := t.answers ++ [(t.sent, a)] } := by
  have hkept := (h.sound.takeargs w.fid).keepargs pending_takeargs ho w.data
  refine ⟨hkept, h.tallied.stays h.sound (stays_pending _ (_ :: _)) _ _ _ _,
    h.split.update h.sound hkept ho rfl (fun _ _ => rfl)
      (fun o' ho' => Option.some.inj (ho'.symm.trans ho)) (fun p hp => mem_keepargs hp _)
      hw.others (fun w' hw' hsame => absurd hsame (hw.apart w' hw')) hw.once
      (fun b _ => hw.idle o ho) (fun _ _ => id) (fun _ _ => rfl) (fun o' hne => ?_)
      (fun p hp => ?_) (fun data hdata => .inl hdata) (fun _ => ?_)
      (fun hgone => absurd ho hgone)⟩
  · rw [asked_append _ rfl, if_neg hne.symm, List.append_nil]
  · rcases List.mem_append.mp hp with hp | hp
    · exact .inl hp
    · rw [List.mem_singleton.mp hp]
      exact .inr ⟨rfl, hsmall⟩
  · rw [asked_append _ rfl, if_pos rfl, ← hw.called h ho]
    exact congrArg (t.called o ++ ·)
      (held_some hw.free ((pending_some hkept.keys).mpr List.mem_cons_self))

theorem Turn.call (hw : Turn t w rest) (h : t.Inv) (ho : t.srv.fids w.fid = some o)
    (hisopen : (t.srv.obj o).isopen = true) (hsmall : w.data.length ≤ MAXARGS) (tool : Str) :
    Session.Inv { t with
      srv := (t.srv.takeargs w.fid).1.begin ⟨.write, tool, some o, argstring w.data⟩
      going := rest, written := t.written ++ [(o, w.data)]
      begun := t.begun ++ [⟨o, some t.sent, argstring w.data⟩]
      running := t.running ++ [⟨o, some t.sent, argstring w.data⟩]
      sent := t.sent + 1 } := by
  have hbegun : Sound ((t.srv.takeargs w.fid).1.begin
      ⟨.write, tool, some o, argstring w.data⟩) := by
    refine (h.sound.takeargs _).begin fun o' ho' => ?_
    obtain rfl := Option.some.inj ho'
    exact ⟨h.sound.live _ _ ho, hisopen⟩
  refine ⟨hbegun,
    h.tallied.begin
      ((t.srv.takeargs w.fid).1.begin ⟨.write, tool, some o, argstring w.data⟩)
      ⟨o, some t.sent, argstring w.data⟩ rfl rfl rfl rfl (fun _ _ => id)
      (h.sound.live _ _ ho) (hw.idle o ho) (.inl ⟨rfl, rfl⟩) _ _,
    h.split.update h.sound hbegun ho rfl (fun _ _ => rfl)
      (fun o' ho' => Option.some.inj (ho'.symm.trans ho))
      (fun p hp => by
        rw [Server.begin, mem_takeargs]
        exact and_iff_left hp)
      hw.others
      (fun w' hw' hsame => absurd hsame (hw.apart w' hw')) hw.once
      (fun b hb => absurd rfl (mem_takeargs.mp hb).2) (fun o' hne hrun => ?_)
      (fun o' hne => ?_) (fun o' hne => ?_) (fun p hp => ?_) (fun data hdata => .inl hdata)
      (fun _ => ?_) (fun hgone => absurd ho hgone)⟩
  · rw [List.map_append, List.mem_append] at hrun
    exact hrun.resolve_right fun hsame => hne (List.mem_singleton.mp hsame)
  · rw [called_append rfl, on_other (by simpa using hne), List.map_nil, List.append_nil]
  · rw [asked_append _ rfl, if_neg hne.symm, List.append_nil]
  · rcases List.mem_append.mp hp with hp | hp
    · exact .inl hp
    · rw [List.mem_singleton.mp hp]
      exact .inr ⟨rfl, hsmall⟩
  · rw [called_append rfl, asked_append _ rfl, if_pos rfl, ← hw.called h ho,
      held_none pending_takeargs, List.append_nil]
    simp [on]

theorem twrite_inv (h : t.Inv) (hw : Turn t w rest)
    (hopen : Opened t.srv w.fid fun m => m = 1 ∨ m = 2) :
    (t.twrite iounit w rest).Inv := by
  obtain ⟨o, tool, ho, hisopen, hwrite⟩ := write_tool iounit hopen
  have hargs := hw.args iounit
  have hlen : ((w.data.drop w.taken).take iounit).length =
      min iounit (w.data.length - w.taken) := by rw [List.length_take, List.length_drop]
  have hle := hw.le
  have hserve := fun b => show t.srv.serve iounit (.write w.fid b) = t.srv.write iounit w.fid b by
    rw [Server.serve, h.sound.hung, if_neg (by decide)]
  rw [Session.twrite]
  generalize (w.data.drop w.taken).take iounit = part at hargs hlen ⊢
  have hserve := (hserve part).trans (hwrite part)
  dsimp only
  by_cases hlarge : (catargs (t.srv.pending w.fid) part).length > MAXARGS
  · rw [if_pos hlarge] at hserve
    rw [send_answer hserve rfl nofun]
    dsimp only
    rw [if_pos (show (Answer.error .Etoolarge).refusal = true from rfl)]
    rw [hargs, List.length_take] at hlarge
    exact hw.refuse h ho (hlarge.trans_le (min_le_right _ _)) _
  rw [if_neg hlarge] at hserve
  rw [hargs] at hserve hlarge
  by_cases hfull : part.length ≥ iounit
  · rw [if_pos hfull] at hserve
    rw [send_answer hserve rfl nofun]
    dsimp only
    rw [if_neg (by decide)]
    by_cases hmore : w.taken + part.length < w.data.length
    · rw [if_pos hmore]
      exact hw.more h ho hmore _
    · have hwhole := List.take_of_length_le (Nat.not_lt.mp hmore)
      rw [if_neg hmore, objof_eq ho]
      rw [hwhole] at hlarge ⊢
      exact hw.wait h ho (Nat.not_lt.mp hlarge) _
  · have hend : w.taken + part.length = w.data.length := by omega
    rw [hend, List.take_length] at hlarge hserve
    rw [if_neg hfull] at hserve
    rw [send_begun hserve rfl]
    dsimp only
    rw [if_neg (by decide), if_neg (by omega), if_pos rfl]
    simp only [Request.fid, objof_eq ho, reduceCtorEq, if_false]
    exact hw.call h ho hisopen (Nat.not_lt.mp hlarge) tool

theorem Session.Inv.begin (h : t.Inv) (ho : t.srv.fids fid = some o) (hpart : ¬t.partly fid)
    {b : List UInt8} (hpend : t.srv.pending fid = some b) (hsound : Sound srv) {c : Call}
    {answers : List (ℕ × Answer)} (hcalls : srv.calls = t.srv.calls ++ [c])
    (hseen : c.seen = r.seen) (hnext : srv.next = t.srv.next) (hobj : srv.obj = t.srv.obj)
    (hfids : ∀ fid' ≠ fid, srv.fids fid' = t.srv.fids fid')
    (hfid : ∀ o', srv.fids fid = some o' → o' = o)
    (hargs : ∀ p, p ∈ srv.pendingargs ↔ p ∈ t.srv.pendingargs ∧ p.1 ≠ fid)
    (hr : r.obj = o ∧ r.args = argstring b)
    (htag : r.tag = some t.sent ∧ answers = t.answers ∨
      r.tag = none ∧ (∃ a, answers = t.answers ++ [(t.sent, a)]) ∧ srv.fids fid = none) :
    Session.Inv { t with
      srv := srv, begun := t.begun ++ [r], running := t.running ++ [r]
      sent := t.sent + 1, answers := answers } := by
  obtain ⟨rfl, hrargs⟩ := hr
  have hidle := h.split.idle fid _ b ho ((pending_some h.sound.keys).mp hpend)
  have hold : ∀ fid' o', srv.fids fid' = some o' → t.srv.fids fid' = some o' := by
    intro fid' o' ho'
    by_cases hsame : fid' = fid
    · subst hsame
      rw [hfid o' ho']
      exact ho
    · exact hfids fid' hsame ▸ ho'
  have hnone : srv.pending fid = none :=
    pending_none.mpr fun b hb => ((hargs _).mp hb).2 rfl
  have hcalled := h.split.called fid _ ho
  rw [held_some hpart hpend] at hcalled
  have hown : ∀ t' : Session, t'.begun = t.begun ++ [r] → t'.written = t.written →
      t'.called r.obj = t'.asked r.obj := by
    intro t' hbegun hwritten
    rw [called_append hbegun, show t'.asked r.obj = t.asked r.obj by
      rw [Session.asked, hwritten, Session.asked], ← hcalled, ← hrargs]
    simp [on]
  refine ⟨hsound, h.tallied.begin srv r hcalls hseen hnext hobj hold (h.sound.live _ _ ho) hidle ?_ _ _,
    h.split.update h.sound hsound ho hnext hfids hfid
      (fun p hp => by rw [hargs]; exact and_iff_left hp) (fun _ _ => Iff.rfl)
      (fun w hw hsame => absurd (hsame ▸ List.mem_map_of_mem hw) hpart) h.split.once
      (fun b hb => absurd rfl ((hargs _).mp hb).2) (fun o' hne hrun => ?_) (fun o' hne => ?_)
      (fun _ _ => rfl) (fun p hp => .inl hp) (fun data hdata => .inl hdata) (fun _ => ?_)
      (fun _ => hown _ rfl rfl)⟩
  · refine htag.imp_right fun ⟨htag, ha, hgone⟩ => ⟨htag, ha, fun fid' ho' => ?_⟩
    by_cases hsame : fid' = fid
    · rw [hsame, hgone] at ho'
      exact absurd ho' nofun
    · rw [hfids fid' hsame] at ho'
      exact hsame (h.sound.inj _ _ _ ho' ho)
  · rw [List.map_append, List.mem_append] at hrun
    exact hrun.resolve_right fun hsame => hne (List.mem_singleton.mp hsame)
  · rw [called_append rfl, on_other (by simpa using hne), List.map_nil, List.append_nil]
  · rw [held_none hnone, List.append_nil]
    exact hown _ rfl rfl

theorem serve_eq (iounit : Iounit) (h : t.Inv) (m : Request) : t.srv.serve iounit m =
    match m with
    | .attach fid => t.srv.attach fid
    | .walk fid newfid names => t.srv.walk fid newfid names
    | .open fid mode => t.srv.open fid mode
    | .read fid i count => t.srv.read fid i count
    | .write fid data => t.srv.write iounit fid data
    | .stat fid => t.srv.stat fid
    | .clunk fid => t.srv.clunk fid
    | .remove fid => t.srv.remove fid
    | .done k out ok => t.srv.done k out ok := by
  unfold Server.serve
  rw [h.sound.hung, if_neg (by decide)]
  cases m with
  | attach fid => exact h.sound.nav _
  | _ => rfl

theorem sentread_inv (h : t.Inv) {i count : ℕ} (hm : Apart t (.read fid i count)) :
    (t.send iounit (.read fid i count)).1.Inv := by
  have hserve := serve_eq iounit h (.read fid i count)
  dsimp only at hserve
  rcases read_cases h.sound (fun f hf => (hm f hf).1) with
    hplain | ⟨o, tool, args, ho, hopen, hmode, hpend, hread⟩
  · exact h.plain hserve hplain
  rw [hread] at hserve
  rw [send_begun hserve rfl]
  have hpart := (hm (t.srv.obj o) (by rw [Server.fid, ho]; rfl)).2 hmode
  have hsound : Sound ((t.srv.takeargs fid).1.begin ⟨.read, tool, some o, argstring args⟩) := by
    refine (h.sound.takeargs _).begin fun o' ho' => ?_
    obtain rfl := Option.some.inj ho'
    exact ⟨h.sound.live _ _ ho, hopen⟩
  simp only [Request.fid, objof_eq ho]
  exact h.begin ho hpart hpend hsound rfl (by simp [Call.seen, Ran.seen]) rfl rfl
    (fun _ _ => rfl) (fun o' ho' => Option.some.inj (ho'.symm.trans ho)) (fun p => mem_takeargs)
    ⟨rfl, rfl⟩ (.inl ⟨rfl, rfl⟩)

theorem Session.Inv.ends (h : t.Inv) (ho : t.srv.fids fid = some o)
    (hpend : t.srv.pending fid = none) (hpart : ¬t.partly fid) (hsound : Sound srv)
    (hstays : Stays t.srv srv) (hnext : srv.next = t.srv.next)
    (hfids : srv.fids = Function.update t.srv.fids fid none)
    (hargs : ∀ p, p ∈ srv.pendingargs ↔ p ∈ t.srv.pendingargs) (a : Answer) :
    Session.Inv { t with
      srv := srv, sent := t.sent + 1, answers := t.answers ++ [(t.sent, a)] } := by
  have hgone : srv.fids fid = none := by rw [hfids, Function.update_self]
  have hcalled := h.split.called fid o ho
  rw [held_none hpend, List.append_nil] at hcalled
  refine ⟨hsound, h.tallied.stays h.sound hstays a _ _ _,
    h.split.update h.sound hsound ho hnext
      (fun fid' hne => by rw [hfids]; exact Function.update_of_ne hne _ _)
      (fun o' ho' => absurd (hgone.symm.trans ho') nofun) (fun p _ => hargs p)
      (fun _ _ => Iff.rfl) (fun w hw hsame => absurd (hsame ▸ List.mem_map_of_mem hw) hpart)
      h.split.once (fun b hb => absurd ((hargs _).mp hb) (pending_none.mp hpend b))
      (fun _ _ => id) (fun _ _ => rfl) (fun _ _ => rfl) (fun p hp => .inl hp)
      (fun data hdata => .inl hdata) (fun ho' => absurd (hgone.symm.trans ho') nofun)
      (fun _ => hcalled)⟩

theorem sentclunk_inv (h : t.Inv) (hm : Apart t (.clunk fid)) :
    (t.send iounit (.clunk fid)).1.Inv := by
  have hserve := serve_eq iounit h (.clunk fid)
  dsimp only at hserve
  obtain ⟨hpart, hact⟩ := hm
  cases ho : t.srv.fids fid with
  | none =>
    have hpend : t.srv.pending fid = none := by
      refine pending_none.mpr fun b hb => ?_
      obtain ⟨o, ho'⟩ := h.sound.owner _ hb
      exact absurd (ho.symm.trans ho') (by simp)
    have hnone : t.srv.clunk fid = ((t.srv.takeargs fid).1, .error .Ebadfid) := by
      rw [Server.clunk]
      dsimp only
      rw [show (t.srv.takeargs fid).1.fids fid = none from ho]
    exact h.plain (hserve.trans hnone) ⟨h.sound.same _ (takeargs_perm hpend), (by simp)⟩
  | some o =>
    cases hpend : t.srv.pending fid with
    | none =>
      rw [clunk_none hpend ho] at hserve
      rw [send_answer hserve rfl (by simp)]
      obtain ⟨hsound, hstays⟩ := (h.sound.takeargs fid).delfid pending_takeargs
      refine h.ends ho hpend hpart hsound ⟨rfl, le_rfl, hstays.new, hstays.obj⟩ rfl rfl
        (fun p => ?_) _
      exact (takeargs_perm hpend).mem_iff
    | some args =>
      obtain ⟨ti, hti⟩ := Option.isSome_iff_exists.mp
        (hact (by rw [hpend]; rfl) (t.srv.obj o) (by rw [Server.fid, ho]; rfl))
      rw [clunk_some hpend ho hti] at hserve
      rw [send_begun hserve rfl]
      have htaken : ((t.srv.takeargs fid).1.begin
          ⟨.none, ti.name, none, argstring args⟩).pending fid = none := pending_takeargs
      have hsound := ((h.sound.takeargs fid).begin
        (c := ⟨.none, ti.name, none, argstring args⟩) (by simp)).delfid htaken
      simp only [Request.fid, objof_eq ho]
      have hgone : (((t.srv.takeargs fid).1.begin
          ⟨.none, ti.name, none, argstring args⟩).delfid fid).fids fid = none :=
        Function.update_self ..
      refine h.begin ho hpart hpend hsound.1 rfl (by simp [Call.seen, Ran.seen]) rfl rfl
        (fun fid' hne => Function.update_of_ne hne _ _)
        (fun o' ho' => absurd (hgone.symm.trans ho') (by simp)) (fun p => mem_takeargs) ⟨rfl, rfl⟩
        (.inr ⟨rfl, ⟨.ok, rfl⟩, hgone⟩)

theorem sentremove_inv (h : t.Inv) (hpend : t.srv.pending fid = none) :
    (t.send iounit (.remove fid)).1.Inv := by
  have hserve := serve_eq iounit h (.remove fid)
  dsimp only at hserve
  rw [Server.remove] at hserve
  cases ho : t.srv.fids fid with
  | none =>
    rw [ho] at hserve
    exact h.plain hserve (h.sound.plain nofun)
  | some o =>
    rw [ho] at hserve
    rw [send_answer hserve rfl nofun]
    obtain ⟨hsound, hstays⟩ := h.sound.delfid hpend
    have hpart : ¬t.partly fid := by
      intro hmem
      obtain ⟨w, hw, hfid⟩ := List.mem_map.mp hmem
      have hkept := (h.split.whole w hw).1
      rw [hfid] at hkept
      exact pending_none.mp hpend _ hkept
    exact h.ends ho hpend hpart hsound hstays rfl rfl (fun p => Iff.rfl) _

theorem ended_inv (h : t.Inv) {out : List UInt8} {ok : Bool} (hm : Apart t (.done k out ok)) :
    (t.done iounit k out ok).Inv := by
  obtain ⟨rfl, hact⟩ := hm
  rw [Session.done]
  cases hc : t.srv.calls[k]? with
  | none => exact h
  | some c =>
    cases hr : t.running[k]? with
    | none => exact h
    | some r =>
      obtain ⟨a, reg, hdone, ha⟩ := done_some hc (hact c hc) out
      dsimp only
      rw [serve_eq iounit h (.done k out true)]
      dsimp only
      rw [hdone]
      have herase : Sound { t.srv with calls := t.srv.calls.eraseIdx k, reg := reg } :=
        ⟨h.sound.hung, h.sound.owed, h.sound.inj, h.sound.live, h.sound.closed, h.sound.keys,
          h.sound.owner, fun c' hc' => h.sound.opened c' ((List.eraseIdx_sublist _ _).mem hc')⟩
      have hidle : ∀ o, o ∉ t.running.map Ran.obj →
          o ∉ (t.running.eraseIdx k).map Ran.obj := fun o hno hmem =>
        hno (((List.eraseIdx_sublist _ _).map _).mem hmem)
      cases hfid : c.fid with
      | none =>
        refine ⟨herase, h.tallied.done hc hr rfl rfl rfl (fun o => ?_) ha,
          ⟨h.split.whole, h.split.once, fun fid o b ho hb => hidle o (h.split.idle fid o b ho hb),
            h.split.below, h.split.called, h.split.gone, h.split.small, h.split.large⟩⟩
        rw [hfid, if_neg nofun]
      | some o =>
        have hopen := (h.sound.opened c (List.mem_of_getElem? hc) o hfid).2
        refine ⟨herase.setobj (fun _ => hopen) (fun hclosed => ?_),
          h.tallied.done hc hr rfl rfl rfl (fun o' => ?_) ha,
          ⟨h.split.whole, h.split.once, fun fid o b ho hb => hidle o (h.split.idle fid o b ho hb),
            h.split.below, h.split.called, h.split.gone, h.split.small, h.split.large⟩⟩
        · exact absurd (hopen.symm.trans hclosed) nofun
        · rw [hfid]
          simp only [Server.setobj, Function.update_apply, Option.some.injEq]
          by_cases hsame : o' = o
          · rw [if_pos hsame, if_pos hsame.symm]
          · rw [if_neg hsame, if_neg (Ne.symm hsame)]

theorem step_inv (iounit : Iounit) (t : Session) (e : Event) (h : t.Inv) (he : Fits t e) :
    (t.step iounit e).Inv := by
  cases e with
  | write fid data =>
    obtain ⟨hopen, hpend, hidle⟩ := he
    exact twrite_inv h (h.first hpend hidle) hopen
  | next k =>
    rw [Session.step]
    cases hk : t.going[k]? with
    | none => exact h
    | some w => exact twrite_inv h (h.turn hk) (he w hk)
  | msg m =>
    have hserve := serve_eq iounit h m
    cases m with
    | attach fid => exact h.plain hserve (attach_plain h.sound fid)
    | walk fid newfid names => exact h.plain hserve (walk_plain h.sound fid newfid names)
    | «open» fid mode => exact h.plain hserve (open_plain h.sound he mode)
    | read fid i count => exact sentread_inv h he
    | write fid data => exact h.plain hserve (write_plain h.sound iounit data he)
    | stat fid => exact h.plain hserve (stat_plain h.sound fid)
    | clunk fid => exact sentclunk_inv h he
    | remove fid => exact sentremove_inv h he
    | done k out ok => exact (ended_inv h he : (t.done iounit k out ok).Inv)

theorem start_session_inv (loads : Str → Bool) (args : List Str) :
    (Session.start loads args).Inv := by
  refine ⟨⟨rfl, rfl, nofun, nofun, nofun, List.nodup_nil, nofun, nofun⟩,
    ⟨rfl, List.nodup_nil, nofun, fun _ => rfl, nofun, nofun, .nil, nofun⟩,
    ⟨nofun, List.nodup_nil, nofun, nofun, nofun, fun _ _ => rfl, nofun, nofun⟩⟩

theorem Session.Inv.reads (h : t.Inv) (ho : t.srv.fids fid = some o)
    (hopen : Opened t.srv fid fun m => m = 0 ∨ m = 2) (hpend : t.srv.pending fid = none)
    (hlast : t.lastresult o = some res) (i count : ℕ) :
    (t.srv.serve iounit (.read fid i count)).2 = .result res := by
  obtain ⟨f, hf, hisopen, hdir, hmode, hbase, hsub, hact⟩ := hopen
  obtain ⟨o', ho', rfl⟩ := Option.map_eq_some_iff.mp hf
  obtain rfl := Option.some.inj (ho'.symm.trans ho)
  obtain ⟨ti, hti⟩ := Option.isSome_iff_exists.mp hact
  have hdata := (h.tallied.data fid _ ho).trans hlast
  have hmode' : ¬((t.srv.obj o').mode ≠ 0 ∧ (t.srv.obj o').mode ≠ 2) := by omega
  rw [serve_eq iounit h]
  simp only [Server.read, ho]
  rw [if_neg (by rw [hisopen]; decide), if_neg hmode', if_neg (by rw [hdir]; decide),
    if_neg (Nat.not_lt.mpr hbase), hti]
  have hkind : (toolqtype (TYPE (t.srv.obj o').path)).2 ≠ Qtool_dir ∧
      (toolqtype (TYPE (t.srv.obj o').path)).2 ≠ Qtool_doc ∧
      (toolqtype (TYPE (t.srv.obj o').path)).2 ≠ Qtool_schema := by
    rcases hsub with hsub | hsub <;> rw [hsub] <;> decide
  dsimp only
  rw [Server.readtool, if_neg hkind.1, if_neg hkind.2.1, if_neg hkind.2.2,
    show t.srv.takeargs fid = ((t.srv.takeargs fid).1, none) from Prod.ext rfl hpend]
  dsimp only
  rw [show ((t.srv.takeargs fid).1.obj o').data = some res from hdata]

def reading : Session := Session.start (fun _ => true) [lit "read", lit "list"]

def opened : List Event :=
  [.msg (.attach 0), .msg (.walk 0 1 [lit "read", lit "ctl"]), .msg (.open 1 2)]

def joining : List Event :=
  opened ++ [.write 1 (List.replicate 232 97), .write 1 (bytes (lit "ls"))]

def parting : List Event :=
  opened ++ [.write 1 (List.replicate 233 97), .msg (.read 1 0 100), .next 0]

def crossing : List Event :=
  opened ++ [.write 1 (bytes (lit "a")), .write 1 (bytes (lit "b")), .msg (.done 1 [98] true),
    .msg (.done 0 [97] true)]

def calling : List Event :=
  opened ++ [.write 1 (bytes (lit "a\n")), .msg (.done 0 [98] true)]

theorem calling_fits : Always (Session.step 232) Fits reading calling := by
  refine ⟨trivial, trivial, fun f hf => ?_,
    ⟨⟨_, rfl, ?_⟩, by decide, fun o _ => List.not_mem_nil⟩, ⟨rfl, fun c hc => ?_⟩, trivial⟩
  · obtain rfl := Option.some.inj hf
    rfl
  · decide
  · obtain rfl := Option.some.inj hc
    decide

end Infernode.Tools
