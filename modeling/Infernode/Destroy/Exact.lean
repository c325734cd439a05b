import Infernode.Destroy.Heap

/-!
# Destroying exactly what dies

Each function of `heap.c` frees and queues what its references bring to zero, and no more.
The outermost `destroy` leaves nothing queued, however deep the objects are linked.
-/

namespace Infernode.Destroy

open Lib

variable {H : Heap} {objs : List ℕ} {count : ℕ → ℕ} {start : ℕ} {s s' : State} {t : Ty}
  {x n k depth : ℕ} {P l new : List ℕ} {d : State → ℕ → Option State}

def Linked (H : Heap) (objs : List ℕ) : Prop :=
  ∀ x ∈ objs, ∀ t data l, H.obj x = .list t data (some l) →
    ∃ t data tail, H.obj l = .list t data tail

theorem freecell_ran (hd : Lets H objs count start depth d) (t : Option Ty) (v : Words)
    (hs : s.ddepth = depth)
    (h : Balanced objs (refs H) count start s.ref
      ((t.elim [] fun t => pointers (H.map t) v) ++ P)) :
    ∃ s₁ s' l new, freecell H d s t v = some s' ∧ Ran H objs s s₁ [] l new ∧
      Typed H s₁ s' t.toList ∧
      Balanced objs (refs H) count start s'.ref (new.flatMap (refs H) ++ P) := by
  cases t with
  | none => exact ⟨s, s, [], [], rfl, .refl s, .refl s, h⟩
  | some t =>
    obtain ⟨s₁, l, new, hrun, hran, hbal⟩ := hd.foldlM (pointers (H.map t) v) hs h
    have htyped := typed_freeelem (H := H) s₁ t
    refine ⟨s₁, s₁.freeelem t, l, new, ?_, hran, htyped, ?_⟩
    · simp [freecell, freeptrs, hrun]
    · rwa [htyped.ref]

theorem dead_length_lt (hc : Counted objs (refs H) count start)
    (h : Balanced objs (refs H) count start s.ref (x :: P)) :
    (Lib.dead objs s.ref).length < objs.length := by
  have hx := h.mem x (List.mem_cons_self ..)
  have hpos := h.pos hc (List.mem_cons_self ..)
  refine lt_of_le_of_ne (dead_subperm objs s.ref).length_le fun heq => ?_
  have hall := List.length_filter_eq_length_iff.mp heq x hx
  simp only [decide_eq_true_eq] at hall
  omega

theorem unref_due (s : State) (x : ℕ) (t : Ty) : due H (s.unref x) t = due H s t := rfl

theorem unref_keep (h : Balanced objs (refs H) count start s.ref (x :: P))
    (hpos : 0 < s.ref x) (hleft : 0 < (s.unref x).ref x) :
    Ran H objs s (s.unref x) [] [] [] ∧
      Balanced objs (refs H) count start (s.unref x).ref P := by
  obtain ⟨hdead, hbal⟩ := h.keep hpos hleft
  exact ⟨⟨rfl, by simp [State.unref], fun y => by simp [State.unref, hdead], unref_due s x, rfl⟩,
    hbal⟩

theorem unref_die (hc : Counted objs (refs H) count start)
    (h : Balanced objs (refs H) count start s.ref (x :: P)) (hleft : (s.unref x).ref x = 0) :
    (∀ y, (Lib.dead objs (s.unref x).ref).count y = [x].count y + (Lib.dead objs s.ref).count y) ∧
      Balanced objs (refs H) count start (s.unref x).ref (refs H x ++ P) := by
  obtain ⟨hperm, hbal⟩ := h.die hc (h.pos hc (List.mem_cons_self ..)) hleft
  refine ⟨fun y => ?_, hbal⟩
  have hcount := hperm.count_eq y
  rw [List.count_cons] at hcount
  rw [List.count_singleton]
  exact hcount.trans (Nat.add_comm ..)

theorem freetail_ran (hd : Lets H objs count start depth d)
    (hc : Counted objs (refs H) count start) (hlinked : Linked H objs) {tail : Option ℕ}
    (hs : s.ddepth = depth) (hn : objs.length ≤ n + (Lib.dead objs s.ref).length)
    (hcell : ∀ c ∈ tail, ∃ t data tail', H.obj c = .list t data tail')
    (h : Balanced objs (refs H) count start s.ref (tail.toList ++ P)) :
    ∃ s' l new, freetail H d n s tail = some s' ∧ Ran H objs s s' [] l new ∧
      Balanced objs (refs H) count start s'.ref (new.flatMap (refs H) ++ P) := by
  induction n generalizing s P tail with
  | zero =>
    cases tail with
    | none => exact ⟨s, [], [], rfl, .refl s, h⟩
    | some c =>
      have hlt := dead_length_lt hc h
      omega
  | succ n ih =>
    cases tail with
    | none => exact ⟨s, [], [], rfl, .refl s, h⟩
    | some c =>
      have hmem : c ∈ objs := h.mem c (List.mem_cons_self ..)
      have hpos : 0 < s.ref c := h.pos hc (List.mem_cons_self ..)
      obtain ⟨t, data, tail, hobj⟩ := hcell c rfl
      by_cases hone : s.ref c = 1
      · have hleft : (s.unref c).ref c = 0 := by simp [State.unref, less, hone]
        obtain ⟨hdead, hbal⟩ := unref_die hc h hleft
        have hrefs : refs H c = (t.elim [] fun t => pointers (H.map t) data) ++ tail.toList := by
          simp [refs, hobj]
        have htypes : types H c = t.toList ++ [.Tlist] := by simp [types, hobj]
        rw [hrefs, List.append_assoc] at hbal
        obtain ⟨s₁, s₂, l₁, new₁, hrun, hran, htyped, hbal₂⟩ :=
          freecell_ran hd t data (s := (s.unref c).untype .Tlist) hs hbal
        have hdead₂ (y : ℕ) := hran.dead y
        have hlen := hran.length
        have hlen₀ : (Lib.dead objs (s.unref c).ref).length =
            (Lib.dead objs s.ref).length + 1 := by
          have hperm : (Lib.dead objs (s.unref c).ref).Perm ([c] ++ Lib.dead objs s.ref) :=
            List.perm_iff_count.mpr fun y => by rw [List.count_append, hdead y]
          simpa [Nat.add_comm] using hperm.length_eq
        have htail (c' : ℕ) (hc' : c' ∈ tail) : ∃ t data tail', H.obj c' = .list t data tail' := by
          obtain rfl := Option.mem_def.mp hc'
          exact hlinked c hmem t data c' hobj
        obtain ⟨s₃, l₃, new₃, hrest, hran₃, hbal₃⟩ := ih (s := s₂.poolfree c)
          (P := new₁.flatMap (refs H) ++ P)
          (htyped.ddepth.trans (hran.depth.trans hs))
          (by
            have href : (s₂.poolfree c).ref = s₁.ref := htyped.ref
            rw [href]
            simp only [untype_ref, List.length_nil] at hlen
            omega)
          htail
          (hbal₂.perm (by
            rw [← List.append_assoc, ← List.append_assoc]
            exact List.perm_append_comm.append_right P))
        refine ⟨s₃, l₁ ++ [c] ++ l₃, new₃ ++ new₁, ?_, ⟨?_, ?_, fun y => ?_, fun ty => ?_, ?_⟩, ?_⟩
        · simp only [freetail, hobj, hone, ne_eq, not_true_eq_false, if_false]
          rw [hrun]
          exact hrest
        · rw [hran₃.dq]
          change new₃ ++ s₂.dq = _
          rw [htyped.dq, hran.dq, List.append_assoc]
          rfl
        · rw [hran₃.freed]
          change s₂.freed ++ [c] ++ l₃ = _
          rw [htyped.freed, hran.freed]
          simp [State.unref]
        · have hthird := hran₃.dead y
          have hsecond := hdead₂ y
          have href : (s₂.poolfree c).ref = s₁.ref := htyped.ref
          rw [href] at hthird
          simp only [untype_ref, hdead y] at hsecond
          simp only [List.count_append, List.count_nil] at *
          omega
        · rw [hran₃.due, poolfree_due, htyped.due, hran.due, untype_due, unref_due, htypes,
            List.count_append]
          push_cast
          omega
        · exact hran₃.depth.trans (htyped.ddepth.trans hran.depth)
        · rwa [List.flatMap_append, List.append_assoc]
      · have hleft : 0 < (s.unref c).ref c := by
          simp only [State.unref, less, Function.update_self]
          omega
        obtain ⟨hran, hbal⟩ := unref_keep h hpos hleft
        refine ⟨s.unref c, [], [], ?_, hran, hbal⟩
        simp [freetail, hobj, hone]

theorem foldlM_flatMap {α β : Type} {f : State → β → Option State} {g : α → List β} (l : List α) :
    l.foldlM (fun s v => (g v).foldlM f s) s = (l.flatMap g).foldlM f s := by
  induction l generalizing s with
  | nil => rfl
  | cons v l ih =>
    rw [List.foldlM_cons, List.flatMap_cons, List.foldlM_append]
    exact congrArg _ (funext fun s => ih)

theorem Ran.given {s₁ s₂ : State} {ts : List Ty} (h : Ran H objs s s₁ [] l new)
    (htyped : Typed H s₁ s₂ ts) (hts : ∀ t, (types H x).count t = ts.count t) :
    Ran H objs s (s₂.poolfree x) [x] (l ++ [x]) new where
  dq := htyped.dq.trans h.dq
  freed := by
    change s₂.freed ++ [x] = _
    rw [htyped.freed, h.freed, List.append_assoc]
  dead y := by
    have hdead := h.dead y
    have href : (s₂.poolfree x).ref = s₁.ref := htyped.ref
    rw [href, List.count_append]
    rw [List.count_nil] at hdead
    omega
  due t := by
    rw [poolfree_due, htyped.due, h.due, hts]
    omega
  depth := htyped.ddepth.trans h.depth

theorem Typed.trans {s₁ s₂ : State} {ts ts' : List Ty} (h : Typed H s s₁ ts)
    (h' : Typed H s₁ s₂ ts') : Typed H s s₂ (ts ++ ts') where
  ref := h'.ref.trans h.ref
  dq := h'.dq.trans h.dq
  freed := h'.freed.trans h.freed
  ddepth := h'.ddepth.trans h.ddepth
  due t := by
    rw [h'.due, h.due, List.count_append]
    push_cast
    omega

theorem Ran.typed {s₁ s₂ s₃ : State} {ts : List Ty} (h : Ran H objs s s₁ [] l new)
    (htyped : Typed H s₁ s₂ ts) {l' new' : List ℕ} (h' : Ran H objs s₂ s₃ [] l' new') :
    ∃ s₄, Ran H objs s s₄ [] (l ++ l') (new' ++ new) ∧ Typed H s₄ s₃ ts := by
  refine ⟨{ s₃ with tref := fun t => s₃.tref t + ts.count t },
    ⟨?_, ?_, fun y => ?_, fun t => ?_, ?_⟩, rfl, rfl, rfl, rfl, fun t => ?_⟩
  · simp only [h'.dq, htyped.dq, h.dq, List.append_assoc]
  · simp only [h'.freed, htyped.freed, h.freed, List.append_assoc]
  · have hfirst := h.dead y
    have hsecond := h'.dead y
    rw [htyped.ref] at hsecond
    simp only [List.count_append, List.count_nil] at *
    omega
  · have hsecond := h'.due t
    have hdue := htyped.due t
    have hfirst := h.due t
    simp only [Destroy.due] at *
    omega
  · exact h'.depth.trans (htyped.ddepth.trans h.depth)
  · simp only [Destroy.due]
    omega

theorem destroyh_ran (hd : Lets H objs count start depth d)
    (hc : Counted objs (refs H) count start) (hlinked : Linked H objs) (hx : x ∈ objs)
    (hs : s.ddepth = depth) (hn : objs.length ≤ n)
    (h : Balanced objs (refs H) count start s.ref (refs H x ++ P)) :
    ∃ s' l new, destroyh H n d s x = some s' ∧ Ran H objs s s' [x] (l ++ [x]) new ∧
      Balanced objs (refs H) count start s'.ref (new.flatMap (refs H) ++ P) := by
  suffices hfree : ∃ s₁ s₂ l new, Ran H objs s s₁ [] l new ∧
      (∃ ts, Typed H s₁ s₂ ts ∧ ∀ t, (types H x).count t = ts.count t) ∧
      destroyh H n d s x = some (s₂.poolfree x) ∧
      Balanced objs (refs H) count start s₁.ref (new.flatMap (refs H) ++ P) by
    obtain ⟨s₁, s₂, l, new, hran, ⟨ts, htyped, hts⟩, hrun, hbal⟩ := hfree
    have href : (s₂.poolfree x).ref = s₁.ref := htyped.ref
    exact ⟨_, l, new, hrun, hran.given htyped hts, href ▸ hbal⟩
  cases hobj : H.obj x with
  | adt t data =>
    have hrefs : refs H x = pointers (H.map t) data := by simp [refs, hobj]
    rw [hrefs] at h
    obtain ⟨s₁, l, new, hrun, hran, hbal⟩ := hd.foldlM (pointers (H.map t) data) hs h
    refine ⟨s₁, s₁.freetype t, l, new, hran, ⟨_, typed_freetype s₁ t, by simp [types, hobj]⟩, ?_,
      hbal⟩
    simp [destroyh, hobj, freeptrs, hrun]
  | array t root data =>
    have hdata : ∃ s₁ l new, freearray H d s t root data = some (s₁.freeelem t) ∧
        Ran H objs s s₁ [] l new ∧
        Balanced objs (refs H) count start s₁.ref (new.flatMap (refs H) ++ P) := by
      cases root with
      | some r =>
        have hrefs : refs H x = [r] := by simp [refs, hobj]
        rw [hrefs] at h
        obtain ⟨s₁, l, new, hrun, hran, hbal⟩ := hd s r P hs h
        exact ⟨s₁, l, new, by simp [freearray, hrun], hran, hbal⟩
      | none =>
        have hrefs : refs H x = data.flatMap (pointers (H.map t)) := by simp [refs, hobj]
        rw [hrefs] at h
        obtain ⟨s₁, l, new, hrun, hran, hbal⟩ := hd.foldlM _ hs h
        rw [← foldlM_flatMap] at hrun
        refine ⟨s₁, l, new, ?_, hran, hbal⟩
        simp only [freearray, freeptrs, hrun]
        rfl
    obtain ⟨s₁, l, new, hrun, hran, hbal⟩ := hdata
    refine ⟨s₁, (s₁.freeelem t).freetype .Tarray, l, new, hran,
      ⟨_, (typed_freeelem s₁ t).trans (typed_freetype _ _), by simp [types, hobj]⟩, ?_, hbal⟩
    simp [destroyh, hobj, hrun]
  | list t data tail =>
    have hrefs : refs H x = (t.elim [] fun t => pointers (H.map t) data) ++ tail.toList := by
      simp [refs, hobj]
    rw [hrefs, List.append_assoc] at h
    obtain ⟨s₁, s₂, l₁, new₁, hrun, hran, htyped, hbal⟩ := freecell_ran hd t data hs h
    have htail (c' : ℕ) (hc' : c' ∈ tail) : ∃ t data tail', H.obj c' = .list t data tail' := by
      obtain rfl := Option.mem_def.mp hc'
      exact hlinked x hx t data c' hobj
    obtain ⟨s₃, l₃, new₃, hrest, hran₃, hbal₃⟩ := freetail_ran (n := n) (s := s₂)
      (P := new₁.flatMap (refs H) ++ P) hd hc hlinked (htyped.ddepth.trans (hran.depth.trans hs))
      (by omega)
      htail
      (hbal.perm (by
        rw [← List.append_assoc, ← List.append_assoc]
        exact List.perm_append_comm.append_right P))
    obtain ⟨s₄, hran₄, htyped₄⟩ := hran.typed htyped hran₃
    refine ⟨s₄, s₃.freetype .Tlist, _, _, hran₄,
      ⟨_, htyped₄.trans (typed_freetype _ _), by simp [types, hobj]⟩, ?_, ?_⟩
    · simp [destroyh, hobj, freelist, hrun, hrest]
    · rw [← htyped₄.ref, List.flatMap_append, List.append_assoc]
      exact hbal₃
  | string =>
    refine ⟨s, s.freetype .Tstring, [], [], .refl s,
      ⟨_, typed_freetype s _, by simp [types, hobj]⟩, by simp [destroyh, hobj], ?_⟩
    simpa [refs, hobj] using h
  | raw =>
    refine ⟨s, s, [], [], .refl s, ⟨_, .refl s, by simp [types, hobj]⟩,
      by simp [destroyh, hobj], ?_⟩
    simpa [refs, hobj] using h

theorem release_ran (hc : Counted objs (refs H) count start)
    (h : Balanced objs (refs H) count start s.ref (x :: P)) {free : State → Option State}
    (hfree : Balanced objs (refs H) count start (s.unref x).ref (refs H x ++ P) →
      s.ddepth < DDEPTH → ∃ s' l new, free (s.unref x) = some s' ∧
        Ran H objs (s.unref x) s' [x] l new ∧
        Balanced objs (refs H) count start s'.ref (new.flatMap (refs H) ++ P)) :
    ∃ s' l new, release free s x = some s' ∧ Ran H objs s s' [] l new ∧
      Balanced objs (refs H) count start s'.ref (new.flatMap (refs H) ++ P) := by
  have hpos : 0 < s.ref x := h.pos hc (List.mem_cons_self ..)
  by_cases hleft : 0 < (s.unref x).ref x
  · obtain ⟨hran, hbal⟩ := unref_keep h hpos hleft
    exact ⟨s.unref x, [], [], if_pos hleft, hran, hbal⟩
  · obtain ⟨hdead, hbal⟩ := unref_die hc h (Nat.eq_zero_of_not_pos hleft)
    by_cases hdeep : DDEPTH ≤ s.ddepth
    · refine ⟨{ s.unref x with dq := x :: s.dq }, [], [x], ?_, ⟨rfl, ?_, fun y => ?_, ?_, rfl⟩, ?_⟩
      · rw [release]
        simp only
        rw [if_neg hleft, if_pos (show DDEPTH ≤ (s.unref x).ddepth from hdeep)]
        rfl
      · exact (List.append_nil _).symm
      · simp only [hdead y, List.count_nil]
        omega
      · exact fun t => rfl
      · simpa using hbal
    · obtain ⟨s', l, new, hrun, hran, hbal'⟩ := hfree hbal (not_le.mp hdeep)
      refine ⟨s', l, new, ?_, ⟨hran.dq, hran.freed, fun y => ?_, hran.due, hran.depth⟩, hbal'⟩
      · rw [release]
        rw [if_neg hleft, if_neg (show ¬DDEPTH ≤ (s.unref x).ddepth from hdeep)]
        exact hrun
      · have hcount := hran.dead y
        rw [hdead y] at hcount
        rw [List.count_nil]
        omega

theorem destroy_lets (hc : Counted objs (refs H) count start) (hlinked : Linked H objs)
    (hn : objs.length ≤ n) (hdepth : 1 ≤ depth) (hk : DDEPTH ≤ k + depth) :
    Lets H objs count start depth (destroy H n k) := by
  induction k generalizing depth with
  | zero =>
    intro s x P hs h
    rw [destroy]
    exact release_ran hc h fun _ hshallow => absurd hshallow (by omega)
  | succ k ih =>
    intro s x P hs h
    rw [destroy]
    refine release_ran hc h fun hbal hshallow => ?_
    obtain ⟨s', l, new, hrun, hran, hbal'⟩ := destroyh_ran (n := n)
      (s := { s.unref x with ddepth := (s.unref x).ddepth + 1 })
      (ih (Nat.le_add_left 1 depth) (by omega)) hc hlinked
      (h.mem x (List.mem_cons_self ..)) (congrArg (· + 1) hs) hn hbal
    have hne : s'.ddepth ≠ 1 := by
      have hd : s'.ddepth = s.ddepth + 1 := hran.depth
      omega
    refine ⟨{ s' with ddepth := s'.ddepth - 1 }, l ++ [x], new, ?_,
      ⟨hran.dq, hran.freed, hran.dead, hran.due, ?_⟩, hbal'⟩
    · rw [hrun]
      simp [hne]
    · have hd : s'.ddepth = s.ddepth + 1 := hran.depth
      exact (congrArg (· - 1) hd).trans (Nat.add_sub_cancel ..)

theorem drain_ran (hd : Lets H objs count start depth d)
    (hc : Counted objs (refs H) count start) (hlinked : Linked H objs) (hs : s.ddepth = depth)
    (hn : objs.length ≤ n) {m : ℕ} (hm : objs.length ≤ m + l.length)
    (hdead : ∀ y, (Lib.dead objs s.ref).count y = l.count y + s.dq.count y)
    (h : Balanced objs (refs H) count start s.ref (s.dq.flatMap (refs H))) :
    ∃ s' l', drain (destroyh H n d) m s = some s' ∧ s'.dq = [] ∧ s'.freed = s.freed ++ l' ∧
      (∀ y, (Lib.dead objs s'.ref).count y = (l ++ l').count y) ∧ (∀ t, due H s' t = due H s t) ∧
      s'.ddepth = depth ∧ Balanced objs (refs H) count start s'.ref [] := by
  induction m generalizing s l with
  | zero =>
    have hperm : (Lib.dead objs s.ref).Perm (l ++ s.dq) :=
      List.perm_iff_count.mpr fun y => by rw [List.count_append, hdead y]
    have hle := (dead_subperm objs s.ref).length_le
    have hlen := hperm.length_eq
    rw [List.length_append] at hlen
    have hnil : s.dq = [] := List.length_eq_zero_iff.mp (by omega)
    refine ⟨s, [], if_pos hnil, hnil, (List.append_nil _).symm, fun y => ?_, fun _ => rfl, hs, ?_⟩
    · rw [List.append_nil, hdead y, hnil, List.count_nil, Nat.add_zero]
    · simpa [hnil] using h
  | succ m ih =>
    cases hdq : s.dq with
    | nil =>
      refine ⟨s, [], by simp [drain, hdq], hdq, (List.append_nil _).symm, fun y => ?_,
        fun _ => rfl, hs, ?_⟩
      · rw [List.append_nil, hdead y, hdq, List.count_nil, Nat.add_zero]
      · simpa [hdq] using h
    | cons x dq =>
      have hx : x ∈ objs := by
        have hpos : 0 < (Lib.dead objs s.ref).count x := by
          rw [hdead x, hdq, List.count_cons_self]
          omega
        exact List.mem_of_mem_filter (List.count_pos_iff.mp hpos)
      rw [hdq, List.flatMap_cons] at h
      obtain ⟨s₁, l₁, new₁, hrun, hran, hbal⟩ :=
        destroyh_ran (s := { s with dq := dq }) hd hc hlinked hx hs hn h
      have hqueue : s₁.dq = new₁ ++ dq := hran.dq
      obtain ⟨s₂, l₂, hrest, hnil, hfreed, hdead₂, hdue, hdepth, hbal₂⟩ := ih
        (s := s₁) (l := l ++ (l₁ ++ [x])) (hran.depth.trans hs)
        (by simp only [List.length_append, List.length_singleton]; omega)
        (fun y => by
          have hcount := hran.dead y
          have hbefore := hdead y
          rw [hdq, List.count_cons] at hbefore
          rw [hqueue]
          simp only [List.count_append, List.count_cons, List.count_nil] at *
          omega)
        (by rw [hqueue, List.flatMap_append]; exact hbal)
      refine ⟨s₂, l₁ ++ [x] ++ l₂, ?_, hnil, ?_, fun y => ?_, fun t => ?_, hdepth, hbal₂⟩
      · simp [drain, hdq, hrun, hrest]
      · rw [hfreed, hran.freed, List.append_assoc, List.append_assoc]
      · rw [hdead₂ y, List.append_assoc]
      · exact (hdue t).trans (hran.due t)

/-- Letting one reference go frees exactly the objects that die of it, each once; every other
has lost the references of those, each type is counted once less for each of them, and the
calls are at most `DDEPTH` deep. -/
theorem destroy_exact {v : ℕ} (hc : Counted objs (refs H) s.ref v) (hlinked : Linked H objs)
    (hdepth : s.ddepth = 0) (hdq : s.dq = []) (hn : objs.length ≤ n) :
    ∃ s' l, destroy H n DDEPTH s v = some s' ∧ s'.freed = s.freed ++ l ∧ l.Nodup ∧
      (∀ x, x ∈ l ↔ Dies (refs H) s.ref v x) ∧
      (∀ x, s'.ref x + (v :: l.flatMap (refs H)).count x = s.ref x) ∧
      (∀ t, s'.tref t + (l.flatMap (types H)).count t = s.tref t) ∧
      s'.dq = [] ∧ s'.ddepth = 0 := by
  have hstart := hc.balanced
  have hnone : Lib.dead objs s.ref = [] :=
    List.filter_eq_nil_iff.mpr fun x hx => by simp [(hc.pos x hx).ne']
  suffices hall : ∃ s' l, destroy H n DDEPTH s v = some s' ∧ s'.freed = s.freed ++ l ∧
      (∀ y, (Lib.dead objs s'.ref).count y = l.count y) ∧ (∀ t, due H s' t = due H s t) ∧
      s'.dq = [] ∧ s'.ddepth = 0 ∧ Balanced objs (refs H) s.ref v s'.ref [] by
    obtain ⟨s', l, hrun, hfreed, hdead, hdue, hnil, hzero, hbal⟩ := hall
    have hperm : (Lib.dead objs s'.ref).Perm l := List.perm_iff_count.mpr hdead
    refine ⟨s', l, hrun, hfreed, hperm.nodup_iff.mp (hc.nodup.filter _), fun x => ?_, fun x => ?_,
      fun t => ?_, hnil, hzero⟩
    · rw [← hperm.mem_iff, hbal.dead_iff hc]
    · have hcount := hbal.count_eq x
      rwa [List.count_cons, (hperm.flatMap_right (refs H)).count_eq, ← List.count_cons] at hcount
    · have htype := hdue t
      simp only [due, hfreed, List.flatMap_append, List.count_append] at htype
      omega
  have hv : v ∈ objs := hc.start_mem
  have hpos : 0 < s.ref v := hc.pos v hv
  have hlets : Lets H objs s.ref v 1 (destroy H n 63) :=
    destroy_lets hc hlinked hn (le_refl 1) (le_refl DDEPTH)
  rw [show DDEPTH = 63 + 1 from rfl, destroy]
  by_cases hleft : 0 < (s.unref v).ref v
  · obtain ⟨hran, hbal⟩ := unref_keep hstart hpos hleft
    refine ⟨s.unref v, [], if_pos hleft, hran.freed, fun y => ?_, hran.due, hdq, hdepth, hbal⟩
    simpa [hnone] using hran.dead y
  · obtain ⟨hdead, hbal⟩ := unref_die hc hstart (Nat.eq_zero_of_not_pos hleft)
    obtain ⟨s₁, l₁, new₁, hrun, hran, hbal₁⟩ := destroyh_ran (n := n)
      (s := { s.unref v with ddepth := (s.unref v).ddepth + 1 }) hlets hc hlinked hv
      (congrArg (· + 1) hdepth) hn hbal
    have hone : s₁.ddepth = 1 := hran.depth.trans (congrArg (· + 1) hdepth)
    have hqueue : s₁.dq = new₁ := by
      rw [hran.dq]
      change new₁ ++ s.dq = new₁
      rw [hdq, List.append_nil]
    obtain ⟨s₂, l₂, hdrain, hnil, hfreed, hdead₂, hdue, hdepth₂, hbal₂⟩ := drain_ran
      (s := s₁) (l := l₁ ++ [v]) (m := n) hlets hc hlinked hone hn (by omega)
      (fun y => by
        have hcount := hran.dead y
        simp only [hdead y, hnone, List.count_nil] at hcount
        rw [hqueue]
        omega)
      (by rw [hqueue]; simpa using hbal₁)
    refine ⟨{ s₂ with ddepth := s₂.ddepth - 1 }, l₁ ++ [v] ++ l₂, ?_, ?_, hdead₂, fun t => ?_,
      hnil, ?_, hbal₂⟩
    · have hshallow : ¬DDEPTH ≤ (s.unref v).ddepth := by
        have hd : (s.unref v).ddepth = 0 := hdepth
        rw [hd]
        decide
      rw [release]
      simp only
      rw [if_neg hleft, if_neg hshallow, hrun]
      simp [hone, hdrain]
    · change s₂.freed = _
      rw [hfreed, hran.freed, List.append_assoc]
      rfl
    · exact (hdue t).trans (hran.due t)
    · change s₂.ddepth - 1 = 0
      rw [hdepth₂]

def pair : Heap where
  obj x :=
    if x = 0 then .list (some (.user 0)) [some 2] (some 1)
    else if x = 1 then .list none [] none
    else .adt (.user 1) []
  map t := if t = .user 0 then [0x80] else []

def single : State := ⟨fun _ => 1, fun _ => 1, 0, [], [], []⟩

theorem destroy_exact_pair : ∃ s' l, destroy pair 3 DDEPTH single 0 = some s' ∧
    s'.freed = single.freed ++ l ∧ l.Nodup ∧ (∀ x, x ∈ l ↔ Dies (refs pair) single.ref 0 x) ∧
    (∀ x, s'.ref x + (0 :: l.flatMap (refs pair)).count x = single.ref x) ∧
    (∀ t, s'.tref t + (l.flatMap (types pair)).count t = single.tref t) ∧
    s'.dq = [] ∧ s'.ddepth = 0 := by
  have hrefs : 0 :: [0, 1, 2].flatMap (refs pair) = [0, 2, 1] := by decide
  have hcounted : Counted [0, 1, 2] (refs pair) single.ref 0 :=
    ⟨by decide, fun _ _ => Nat.one_pos, by decide, by decide, fun x => by
      rw [hrefs]
      exact List.nodup_iff_count_le_one.mp (by decide) x⟩
  have hlinked : Linked pair [0, 1, 2] := by
    intro x hx t data l hobj
    obtain rfl : l = 1 := by
      simp only [pair] at hobj
      split_ifs at hobj
      · injection hobj with _ _ htail
        exact (Option.some.inj htail).symm
      · injection hobj with _ _ htail
        cases htail
    exact ⟨none, [], none, rfl⟩
  exact destroy_exact hcounted hlinked rfl rfl (by decide)

end Infernode.Destroy
