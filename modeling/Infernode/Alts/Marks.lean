import Infernode.Alts.Alt

/-!
# Taking a Prog off its alternatives

What `altdone` does to the queues depends on which channels the alt names, and how often. It
ends exactly if no channel is named again that it has left without a queue.
-/

namespace Infernode.Alts

variable {p q : ℕ} {k k' : Side × ℕ} {l : List (Side × ℕ)} {Q Q' : Side × ℕ → Queue}
  {s t : State} {a : Alt} {sel : Option (Side × ℕ)} {x : Slot}

theorem cqdelp_idem (x : Queue) (p : ℕ) : cqdelp (cqdelp x p) p = cqdelp x p := by
  cases x with
  | none => rfl
  | some l =>
    simp only [cqdelp, Option.bind_some]
    split_ifs with h
    · rfl
    · rw [Option.bind_some, List.filter_filter]
      simp only [Bool.and_self]
      rw [if_neg]
      rintro ⟨hlen, hnil⟩
      rw [hnil] at hlen
      exact absurd hlen (by simp)

theorem not_mem_cqdelp {x : Queue} {left : List ℕ} (h : cqdelp x p = some left) : p ∉ left := by
  obtain ⟨l, -, hl⟩ := Option.bind_eq_some_iff.mp h
  simp only at hl
  split_ifs at hl
  obtain rfl := Option.some.inj hl
  simp

def visits (p : ℕ) : List (Side × ℕ) → (Side × ℕ → Queue) → Option (Side × ℕ → Queue)
  | [], Q => some Q
  | k :: l, Q => if Q k = none then none else visits p l (Function.update Q k (cqdelp (Q k) p))

theorem visits_nil : visits p [] Q = some Q := rfl

theorem visits_cons : visits p (k :: l) Q =
    if Q k = none then none else visits p l (Function.update Q k (cqdelp (Q k) p)) := rfl

/-- No queue that is looked at is nil, then or from the second time on. -/
def Ends (p : ℕ) (l : List (Side × ℕ)) (Q : Side × ℕ → Queue) : Prop :=
  ∀ k ∈ l, Q k ≠ none ∧ (2 ≤ l.count k → cqdelp (Q k) p ≠ none)

def without (p : ℕ) (l : List (Side × ℕ)) (Q : Side × ℕ → Queue) : Side × ℕ → Queue :=
  fun k => if k ∈ l then cqdelp (Q k) p else Q k

theorem without_cons :
    without p l (Function.update Q k (cqdelp (Q k) p)) = without p (k :: l) Q := by
  funext k'
  rcases eq_or_ne k' k with rfl | hne
  · simp [without, cqdelp_idem]
  · simp [without, hne]

theorem ends_cons : Ends p (k :: l) Q ↔
    Q k ≠ none ∧ Ends p l (Function.update Q k (cqdelp (Q k) p)) := by
  constructor
  · intro h
    refine ⟨(h k (List.mem_cons_self ..)).1, fun k' hk' => ?_⟩
    rcases eq_or_ne k' k with rfl | hne
    · have hcount : 2 ≤ (k' :: l).count k' := by
        rw [List.count_cons_self]
        exact Nat.succ_le_succ (List.count_pos_iff.mpr hk')
      rw [Function.update_self, cqdelp_idem]
      have hleft := (h k' (List.mem_cons_self ..)).2 hcount
      exact ⟨hleft, fun _ => hleft⟩
    · have hk := h k' (List.mem_cons_of_mem _ hk')
      rw [List.count_cons_of_ne hne.symm] at hk
      rwa [Function.update_of_ne hne]
  · rintro ⟨hk, h⟩ k' hk'
    rcases eq_or_ne k' k with rfl | hne
    · refine ⟨hk, fun hcount => ?_⟩
      rw [List.count_cons_self] at hcount
      have hmem : k' ∈ l := List.count_pos_iff.mp (by omega)
      simpa using (h k' hmem).1
    · have hmem := h k' ((List.mem_cons.mp hk').resolve_left hne)
      rw [List.count_cons_of_ne hne.symm]
      rwa [Function.update_of_ne hne] at hmem

theorem visits_iff : visits p l Q = some Q' ↔ Ends p l Q ∧ Q' = without p l Q := by
  induction l generalizing Q with
  | nil =>
    rw [visits_nil, Option.some.injEq]
    exact ⟨fun h => ⟨nofun, h.symm.trans (funext fun k => by simp [without])⟩,
      fun h => (h.2.trans (funext fun k => by simp [without])).symm⟩
  | cons k l ih =>
    rw [visits_cons, ends_cons, ← without_cons]
    split_ifs with hk
    · simp [hk]
    · rw [ih, and_iff_right hk]

def names (l : List Slot) : List (Side × ℕ) := l.filterMap fun x => x.c.map (x.side, ·)

@[simp] theorem setq_q (s : State) (k : Side × ℕ) (x : Queue) :
    (s.setq k x).q = Function.update s.q k x := by
  funext k'
  obtain ⟨side, c⟩ := k
  obtain ⟨side', c'⟩ := k'
  rcases eq_or_ne c' c with rfl | hc
  · rcases eq_or_ne side' side with rfl | hside
    · simp [State.q, State.setq]
    · simp [State.q, State.setq, hside]
  · simp [State.q, State.setq, hc]

@[simp] theorem write_q (s : State) (es : List Event) : (s.write es).q = s.q := rfl

def Event.moves : Event → Bool
  | .index .. | .word .. => false
  | _ => true

structure Records (p : ℕ) (s t : State) : Prop where
  buf : ∀ c, (t.chan c).buf = (s.chan c).buf
  size : ∀ c, (t.chan c).size = (s.chan c).size
  alt : t.alt = s.alt
  log : ∃ es, t.log = s.log ++ es ∧ ∀ e ∈ es, e.moves = false ∧ ∀ r n, e = .index r n → r = p

theorem Records.refl (p : ℕ) (s : State) : Records p s s :=
  ⟨fun _ => rfl, fun _ => rfl, rfl, [], by simp, nofun⟩

theorem Records.trans {u : State} (h : Records p s t) (h' : Records p t u) : Records p s u := by
  obtain ⟨es, hes, hrec⟩ := h.log
  obtain ⟨es', hes', hrec'⟩ := h'.log
  refine ⟨fun c => (h'.buf c).trans (h.buf c), fun c => (h'.size c).trans (h.size c),
    h'.alt.trans h.alt, es ++ es', by rw [hes', hes, List.append_assoc], fun e he => ?_⟩
  rcases List.mem_append.mp he with he | he
  · exact hrec e he
  · exact hrec' e he

theorem records_setq (p : ℕ) (s : State) (k : Side × ℕ) (x : Queue) :
    Records p s (s.setq k x) := by
  refine ⟨fun c => ?_, fun c => ?_, rfl, [], by simp [State.setq], nofun⟩
  · rcases eq_or_ne c k.2 with rfl | hc
    · simp [State.setq]
    · simp [State.setq, hc]
  · rcases eq_or_ne c k.2 with rfl | hc
    · simp [State.setq]
    · simp [State.setq, hc]

theorem mem_records {e : Event} (h : e ∈ records p x) :
    e.moves = false ∧ ∀ r n, e = .index r n → r = p := by
  rcases List.mem_cons.mp h with rfl | h
  · exact ⟨rfl, fun r n h => by cases h; rfl⟩
  · cases han : x.an with
    | none => simp [han] at h
    | some an =>
      obtain rfl : e = .word x.ptr an := by simpa [han] using h
      exact ⟨rfl, nofun⟩

theorem unmark_visits (p : ℕ) (s : State) (sel : Option (Side × ℕ)) (x : Slot) :
    match unmark p (s, sel) x with
    | none => ∃ c, x.c = some c ∧ s.q (x.side, c) = none
    | some (t, _) => Records p s t ∧
        match x.c with
        | none => t.q = s.q
        | some c => s.q (x.side, c) ≠ none ∧
            t.q = Function.update s.q (x.side, c) (cqdelp (s.q (x.side, c)) p) := by
  cases hc : x.c with
  | none =>
    simp only [unmark, hc]
    exact ⟨.refl p s, trivial⟩
  | some c =>
    cases hq : s.q (x.side, c) with
    | none => simp [unmark, hc, hq, prog]
    | some l =>
      obtain ⟨r, hr, hrec, heq⟩ : ∃ r : State, r = (if l.head?.isSome then
          s.setq (x.side, c) (cqdelp (some l) p) else s) ∧ Records p s r ∧
          r.q = Function.update s.q (x.side, c) (cqdelp (some l) p) := by
        refine ⟨_, rfl, ?_, ?_⟩
        · split_ifs
          · exact records_setq ..
          · exact .refl ..
        · split_ifs with hl
          · exact setq_q ..
          · obtain rfl : l = [] := by simpa using hl
            rw [← hq, show cqdelp (s.q (x.side, c)) p = s.q (x.side, c) by rw [hq]; rfl,
              Function.update_eq_self]
      simp only [unmark, hc, prog, hq, Option.map_some, ← hr]
      split_ifs
      · refine ⟨hrec.trans ⟨fun _ => rfl, fun _ => rfl, rfl, records p x, rfl, fun e he => ?_⟩,
          nofun, heq⟩
        exact mem_records he
      · exact ⟨hrec, nofun, heq⟩

theorem foldlM_unmark (l : List Slot) (r : State × Option (Side × ℕ)) :
    match l.foldlM (unmark p) r with
    | none => visits p (names l) r.1.q = none
    | some t => visits p (names l) r.1.q = some t.1.q ∧ Records p r.1 t.1 := by
  induction l generalizing r with
  | nil => exact ⟨rfl, .refl ..⟩
  | cons x l ih =>
    obtain ⟨s, sel⟩ := r
    have hround := unmark_visits p s sel x
    rw [List.foldlM_cons]
    cases hu : unmark p (s, sel) x with
    | none =>
      rw [hu] at hround
      obtain ⟨c, hc, hq⟩ := hround
      simp [names, hc, visits_cons, hq]
    | some t =>
      rw [hu] at hround
      obtain ⟨hrec, hround⟩ := hround
      have hvisits : visits p (names (x :: l)) s.q = visits p (names l) t.1.q := by
        cases hc : x.c with
        | none =>
          rw [hc] at hround
          simp only at hround
          simp [names, hc, hround]
        | some c =>
          rw [hc] at hround
          simp only at hround
          simp [names, hc, visits_cons, hround.1, hround.2]
      simp only [Option.bind_eq_bind, Option.bind_some]
      have hrest := ih t
      cases hf : l.foldlM (unmark p) t with
      | none =>
        rw [hf] at hrest
        exact hvisits.trans hrest
      | some u =>
        rw [hf] at hrest
        exact ⟨hvisits.trans hrest.1, hrec.trans hrest.2⟩

theorem altdone_some (h : altdone s a p sel = some t) :
    Ends p (names a.slots) s.q ∧ t.q = without p (names a.slots) s.q ∧ Records p s t := by
  obtain ⟨r, hr, rfl⟩ := Option.map_eq_some_iff.mp h
  have hfold := foldlM_unmark (p := p) a.slots (s, sel)
  rw [hr] at hfold
  obtain ⟨hends, hq⟩ := visits_iff.mp hfold.1
  exact ⟨hends, hq, hfold.2⟩

theorem altdone_ends (sel : Option (Side × ℕ)) (h : Ends p (names a.slots) s.q) :
    ∃ t, altdone s a p sel = some t := by
  have hfold := foldlM_unmark (p := p) a.slots (s, sel)
  have hvisits := visits_iff.mpr ⟨h, rfl⟩
  rw [altdone]
  cases hr : a.slots.foldlM (unmark p) (s, sel) with
  | none =>
    rw [hr] at hfold
    exact absurd (hfold.symm.trans hvisits) nofun
  | some r => exact ⟨r.1, rfl⟩

theorem not_mem_without {left : List ℕ} (hk : k ∈ l) (h : without p l Q k = some left) :
    p ∉ left := by
  rw [without, if_pos hk] at h
  exact not_mem_cqdelp h

/-!
## Counting what is ready

What `altrdy` counts, and where it leaves the Prog queued, if it finds nothing wrong.
-/

variable {p : ℕ} {k : Side × ℕ} {l l' : List (Side × ℕ)} {Q : Side × ℕ → Queue} {s s' t : State}
  {a : Alt} {x y : Slot} {malloc : Slot → Bool} {side : Side} {c : ℕ} {r r' : Rdy}

def waits (q : Queue) : Bool := q.any (· ≠ [])

def room (s : State) (x : Slot) (c : ℕ) : Bool :=
  match x.side with
  | .send => (s.chan c).canput
  | .recv => (s.chan c).canget

def able (s : State) (x : Slot) : Bool :=
  x.c.any fun c => waits (s.q (x.side.other, c)) || room s x c

def added (p : ℕ) (l : List (Side × ℕ)) (Q : Side × ℕ → Queue) : Side × ℕ → Queue :=
  fun k => (Q k).map (· ++ List.replicate (l.count k) p)

structure Alike (s t : State) : Prop where
  buf : ∀ c, (t.chan c).buf = (s.chan c).buf
  size : ∀ c, (t.chan c).size = (s.chan c).size
  alt : t.alt = s.alt
  log : t.log = s.log

theorem Alike.refl (s : State) : Alike s s := ⟨fun _ => rfl, fun _ => rfl, rfl, rfl⟩

theorem Alike.trans {u : State} (h : Alike s t) (h' : Alike t u) : Alike s u :=
  ⟨fun c => (h'.buf c).trans (h.buf c), fun c => (h'.size c).trans (h.size c),
    h'.alt.trans h.alt, h'.log.trans h.log⟩

theorem alike_setq (s : State) (k : Side × ℕ) (x : Queue) : Alike s (s.setq k x) :=
  ⟨(records_setq 0 s k x).buf, (records_setq 0 s k x).size, rfl, rfl⟩

theorem Alike.room_eq (h : Alike s t) (x : Slot) (c : ℕ) : room t x c = room s x c := by
  simp only [room, Channel.canput, Channel.canget, h.buf, h.size]

theorem Alike.able_eq (h : Alike s t)
    (hq : ∀ c, x.c = some c → t.q (x.side.other, c) = s.q (x.side.other, c)) :
    able t x = able s x := by
  cases hc : x.c with
  | none => simp [able, hc]
  | some c => simp [able, hc, h.room_eq, hq c hc]

theorem added_nil : added p [] Q = Q := by
  funext k
  simp [added]

theorem added_cons :
    added p l (Function.update Q k ((Q k).map (· ++ [p]))) = added p (k :: l) Q := by
  funext k'
  rcases eq_or_ne k' k with rfl | hne
  · simp [added, Function.comp_def, List.replicate_succ]
  · simp [added, hne, hne.symm]

theorem added_append : added p l (added p l' Q) = added p (l ++ l') Q := by
  funext k
  simp only [added, Option.map_map, List.count_append]
  congr 1
  funext x
  simp [Nat.add_comm (l.count k)]

theorem added_of_not_mem (h : k ∉ l) : added p l Q k = Q k := by
  simp [added, List.count_eq_zero_of_not_mem h]

theorem cqaddok_true {q q' : Queue} {ok : Bool} (h : cqaddok q p ok = some (q', true)) :
    q ≠ none ∧ q' = q.map (· ++ [p]) := by
  obtain ⟨l, rfl, hl⟩ := Option.map_eq_some_iff.mp h
  split_ifs at hl with hnil hok
  · obtain ⟨rfl, -⟩ := Prod.mk.inj hl
    simp [hnil]
  · obtain ⟨rfl, -⟩ := Prod.mk.inj hl
    simp
  · exact absurd (Prod.mk.inj hl).2 (by decide)

structure Marks (p : ℕ) (r : Rdy) (x : Slot) (r' : Rdy) : Prop where
  e : r.e = none
  array : x.c = none → x.an.isSome ∧ r' = r
  whole : ∀ c, x.c = some c → r.s.q (x.side, c) ≠ none ∧ r.s.q (x.side.other, c) ≠ none
  queue : ∀ c, x.c = some c →
    r'.s = r.s.setq (x.side, c) ((r.s.q (x.side, c)).map (· ++ [p]))
  rdy : r'.rdy = r.rdy ++ if able r.s x then [x] else []
  other : x.side = .send → ∀ c, x.c = some c → prog (r.s.q (.recv, c)) ≠ some (some p)

theorem prog_waits {q : Queue} {w : Option ℕ} (h : prog q = some w) :
    q ≠ none ∧ w.isSome = waits q := by
  obtain ⟨l, rfl, rfl⟩ := Option.map_eq_some_iff.mp h
  cases l <;> simp [waits]

theorem markrecv_marks (hx : x.side = .recv) (h : markrecv p malloc r x = some r')
    (he : r'.e = none) : Marks p r x r' := by
  cases hc : x.c with
  | none =>
    simp only [markrecv, hc, Option.some.injEq] at h
    split_ifs at h with han
    · subst h
      exact ⟨he, fun _ => ⟨han, rfl⟩, by simp [hc], by simp [hc], by simp [able, hc], by simp [hc]⟩
    · subst h
      cases he
  | some c =>
    simp only [markrecv, hc, Option.bind_eq_bind, Option.bind_eq_some_iff] at h
    obtain ⟨sender, hsender, ⟨q, ok⟩, hadd, hr⟩ := h
    obtain rfl := Option.some.inj hr
    simp only at he
    split_ifs at he with hok
    rw [hok] at hadd
    obtain ⟨hwhole, rfl⟩ := cqaddok_true hadd
    obtain ⟨hother, hwaits⟩ := prog_waits hsender
    refine ⟨he, by simp [hc], fun c' hc' => ?_, fun c' hc' => ?_, ?_, by simp [hx]⟩
    · obtain rfl := Option.some.inj (hc.symm.trans hc')
      rw [hx]
      exact ⟨hwhole, hother⟩
    · obtain rfl := Option.some.inj (hc.symm.trans hc')
      rw [hx]
    · simp only [able, hc, hx, Side.other, room, Option.any_some, hwaits]
      split_ifs <;> simp

theorem marksend_marks (hx : x.side = .send) (h : marksend p malloc r x = some r')
    (he : r'.e = none) : Marks p r x r' := by
  cases hc : x.c with
  | none =>
    simp only [marksend, hc, Option.some.injEq] at h
    subst h
    cases he
  | some c =>
    simp only [marksend, hc, Option.bind_eq_bind, Option.bind_eq_some_iff] at h
    obtain ⟨receiver, hreceiver, h⟩ := h
    obtain ⟨hother, hwaits⟩ := prog_waits hreceiver
    by_cases hself : (receiver.isSome || (r.s.chan c).canput) = true ∧ receiver = some p
    · rw [if_pos hself] at h
      obtain rfl := Option.some.inj h
      cases he
    · rw [if_neg hself] at h
      obtain ⟨⟨q, ok⟩, hadd, hr⟩ := Option.bind_eq_some_iff.mp h
      obtain rfl := Option.some.inj hr
      simp only at he
      split_ifs at he with hok
      rw [hok] at hadd
      obtain ⟨hwhole, rfl⟩ := cqaddok_true hadd
      refine ⟨he, by simp [hc], fun c' hc' => ?_, fun c' hc' => ?_, ?_, fun _ c' hc' hp => ?_⟩
      · obtain rfl := Option.some.inj (hc.symm.trans hc')
        rw [hx]
        exact ⟨hwhole, hother⟩
      · obtain rfl := Option.some.inj (hc.symm.trans hc')
        rw [hx]
      · simp only [able, hc, hx, Side.other, room, Option.any_some, hwaits]
        split_ifs <;> simp
      · obtain rfl := Option.some.inj (hc.symm.trans hc')
        obtain rfl := Option.some.inj (hreceiver.symm.trans hp)
        exact hself ⟨by simp, rfl⟩

structure Marked (p : ℕ) (r : Rdy) (l : List Slot) (r' : Rdy) : Prop where
  e : r.e = none
  alike : Alike r.s r'.s
  queue : r'.s.q = added p (names l) r.s.q
  rdy : r'.rdy = r.rdy ++ l.filter (able r.s)
  whole : ∀ x ∈ l, ∀ c, x.c = some c → r.s.q (x.side, c) ≠ none ∧ r.s.q (x.side.other, c) ≠ none
  array : ∀ x ∈ l, x.c = none → x.an.isSome
  other : ∀ x ∈ l, x.side = .send → ∀ c, x.c = some c → prog (r.s.q (.recv, c)) ≠ some (some p)

theorem other_ne (side : Side) : side.other ≠ side := by
  cases side <;> decide

theorem marks_alike (h : Marks p r x r') : Alike r.s r'.s := by
  cases hc : x.c with
  | none =>
    rw [(h.array hc).2]
    exact .refl _
  | some c =>
    rw [h.queue c hc]
    exact alike_setq ..


theorem Marks.names_added {l : List Slot} (h : Marks p r x r') :
    added p (names l) r'.s.q = added p (names (x :: l)) r.s.q := by
  cases hc : x.c with
  | none => simp [names, hc, (h.array hc).2]
  | some c =>
    rw [h.queue c hc, setq_q, added_cons]
    simp [names, hc]

theorem Marks.q_other (h : Marks p r x r') (c : ℕ) :
    r'.s.q (x.side.other, c) = r.s.q (x.side.other, c) := by
  cases hc : x.c with
  | none => rw [(h.array hc).2]
  | some c' =>
    rw [h.queue c' hc, setq_q, Function.update_of_ne]
    exact fun heq => other_ne x.side (Prod.mk.inj heq).1

theorem Marks.q_none (h : Marks p r x r') (k : Side × ℕ) : r'.s.q k = none ↔ r.s.q k = none := by
  cases hc : x.c with
  | none => rw [(h.array hc).2]
  | some c =>
    rw [h.queue c hc, setq_q]
    rcases eq_or_ne k (x.side, c) with rfl | hne
    · simp
    · rw [Function.update_of_ne hne]

theorem marked_run {f : Rdy → Slot → Option Rdy}
    (hf : ∀ r x r', x.side = side → f r x = some r' → r'.e = none → Marks p r x r')
    {l : List Slot} (hl : ∀ x ∈ l, x.side = side) (h : l.foldlM f r = some r') (he : r'.e = none) :
    Marked p r l r' := by
  induction l generalizing r with
  | nil =>
    obtain rfl := Option.some.inj h
    exact ⟨he, .refl _, added_nil.symm, by simp, nofun, nofun, nofun⟩
  | cons x l ih =>
    rw [List.foldlM_cons] at h
    obtain ⟨r₁, hx, h⟩ := Option.bind_eq_some_iff.mp h
    have hrest := ih (fun y hy => hl y (List.mem_cons_of_mem _ hy)) h
    have hfirst := hf r x r₁ (hl x (List.mem_cons_self ..)) hx hrest.e
    have halike := marks_alike hfirst
    have hside (y : Slot) (hy : y ∈ l) : y.side = x.side :=
      (hl y (List.mem_cons_of_mem _ hy)).trans (hl x (List.mem_cons_self ..)).symm
    have hable (y : Slot) (hy : y ∈ l) : able r₁.s y = able r.s y :=
      halike.able_eq fun c _ => by rw [hside y hy, hfirst.q_other]
    refine ⟨hfirst.e, halike.trans hrest.alike, hrest.queue.trans hfirst.names_added, ?_,
      fun y hy c hc => ?_, fun y hy hc => ?_, fun y hy hsend c hc => ?_⟩
    · rw [hrest.rdy, hfirst.rdy, List.filter_congr hable, List.append_assoc, List.filter_cons]
      split_ifs <;> rfl
    · rcases List.mem_cons.mp hy with rfl | hy
      · exact hfirst.whole c hc
      · have hwhole := hrest.whole y hy c hc
        rwa [Ne, hfirst.q_none, Ne, hfirst.q_none] at hwhole
    · rcases List.mem_cons.mp hy with rfl | hy
      · exact (hfirst.array hc).1
      · exact hrest.array y hy hc
    · rcases List.mem_cons.mp hy with rfl | hy
      · exact hfirst.other hsend c hc
      · have hother := hrest.other y hy hsend c hc
        rw [show Side.recv = x.side.other by rw [← hside y hy, hsend]; rfl] at hother ⊢
        rwa [hfirst.q_other] at hother

theorem side_sends (a : Alt) : ∀ x ∈ a.sends, x.side = .send := by
  intro x hx
  obtain ⟨i, hi, rfl⟩ := List.mem_mapIdx.mp hx
  rfl

theorem side_recvs (a : Alt) : ∀ x ∈ a.recvs, x.side = .recv := by
  intro x hx
  obtain ⟨l, hl, hx⟩ := List.mem_flatten.mp hx
  obtain ⟨i, hi, rfl⟩ := List.mem_mapIdx.mp hl
  cases hr : a.recv[i].1 with
  | chan c =>
    rw [hr] at hx
    obtain rfl := List.mem_singleton.mp hx
    rfl
  | array cs =>
    rw [hr] at hx
    obtain ⟨j, hj, rfl⟩ := List.mem_mapIdx.mp hx
    rfl

theorem not_mem_names {l : List Slot} (hl : ∀ x ∈ l, x.side = side) :
    (side.other, c) ∉ names l := by
  intro h
  obtain ⟨x, hx, hc⟩ := List.mem_filterMap.mp h
  obtain ⟨c', -, hc'⟩ := Option.map_eq_some_iff.mp hc
  exact other_ne side ((Prod.mk.inj hc').1.symm.trans (hl x hx))

structure Counted (s : State) (a : Alt) (p : ℕ) (s' : State) (rdy : List Slot) : Prop where
  alike : Alike s s'
  queue : s'.q = added p (names a.slots) s.q
  rdy : rdy = a.recvs.filter (able s) ++ a.sends.filter (able s')
  whole : ∀ x ∈ a.slots, ∀ c, x.c = some c → ∀ side, s'.q (side, c) ≠ none
  array : ∀ x ∈ a.slots, x.c = none → x.an.isSome
  other : ∀ x ∈ a.sends, ∀ c, x.c = some c → prog (s'.q (.recv, c)) ≠ some (some p)

theorem altrdy_counted {rdy : List Slot} (h : altrdy s a p malloc = some (s', .ok rdy)) :
    Counted s a p s' rdy := by
  obtain ⟨r₁, hrecvs, h⟩ := Option.bind_eq_some_iff.mp h
  obtain ⟨r₂, hsends, h⟩ := Option.bind_eq_some_iff.mp h
  cases he : r₂.e with
  | some e =>
    rw [he] at h
    obtain ⟨t, -, ht⟩ := Option.map_eq_some_iff.mp h
    cases ht
  | none =>
    rw [he] at h
    obtain ⟨rfl, hrdy⟩ := Prod.mk.inj (Option.some.inj h)
    obtain rfl := Except.ok.inj hrdy
    have hsent := marked_run (fun r x r' hx h he => marksend_marks hx h he) (side_sends a)
      hsends he
    have hreceived := marked_run (fun r x r' hx h he => markrecv_marks hx h he) (side_recvs a)
      hrecvs hsent.e
    have hqueue : r₂.s.q = added p (names a.slots) s.q := by
      rw [hsent.queue, hreceived.queue, added_append, Alt.slots, names, names, names,
        List.filterMap_append]
    have hrecvq (c : ℕ) : r₂.s.q (.recv, c) = r₁.s.q (.recv, c) := by
      rw [hsent.queue]
      exact added_of_not_mem (not_mem_names (side_sends a))
    have hnone (k : Side × ℕ) : r₂.s.q k = none ↔ s.q k = none := by simp [hqueue, added]
    have hnone₁ (k : Side × ℕ) : r₁.s.q k = none ↔ s.q k = none := by
      simp [hreceived.queue, added]
    refine ⟨hreceived.alike.trans hsent.alike, hqueue, ?_, fun x hx c hc side => ?_,
      fun x hx hc => ?_, fun x hx c hc => ?_⟩
    · rw [hsent.rdy, hreceived.rdy, List.nil_append, List.filter_congr fun x hx =>
        (hsent.alike.able_eq fun c _ => by rw [side_sends a x hx]; exact hrecvq c).symm]
    · rw [Ne, hnone]
      rcases List.mem_append.mp hx with hx | hx
      · have hwhole := hsent.whole x hx c hc
        rw [Ne, hnone₁, Ne, hnone₁, side_sends a x hx] at hwhole
        cases side with
        | send => exact hwhole.1
        | recv => exact hwhole.2
      · have hwhole := hreceived.whole x hx c hc
        rw [side_recvs a x hx] at hwhole
        cases side with
        | send => exact hwhole.2
        | recv => exact hwhole.1
    · rcases List.mem_append.mp hx with hx | hx
      · exact hsent.array x hx hc
      · exact hreceived.array x hx hc
    · rw [hrecvq]
      exact hsent.other x hx (side_sends a x hx) c hc

end Infernode.Alts
