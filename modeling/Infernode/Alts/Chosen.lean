import Infernode.Alts.Marks

/-!
# The communication

What `altcomm` does with the alternative it picks, and when this is a communication with
another Prog or with the buffer after which the Prog can be taken off its alternatives.
-/

namespace Infernode.Alts

variable {p q c : ℕ} {k : Side × ℕ} {s t u : State} {a : Alt} {x : Slot} {malloc : Bool}
  {es : List Event}

def moved (buffered : Bool) (x : Slot) (c : ℕ) : Option (ℕ × Option ℕ) → List Event
  | none =>
    match x.side with
    | .send => [.put c (some x.place)]
    | .recv => [.get c x.place]
  | some (q, ptr) =>
    match x.side with
    | .send => [.copy c (some x.place) ptr, .run q]
    | .recv =>
      if buffered then [.get c x.place, .put c ptr, .run q]
      else [.copy c ptr (some x.place), .run q]

/-- One communication: with the buffer, or with the first Prog that waits, another than the
one executing the alt. No other index is recorded for that one. -/
def Communicates (s : State) (p : ℕ) (x : Slot) (es : List Event) : Prop :=
  ∃ c, x.c = some c ∧ (∀ n, Event.index p n ∉ es) ∧
    (es.filter (·.moves) = moved (s.chan c).buf.isSome x c none ∨
      ∃ q ptr, q ≠ p ∧ prog (s.q (x.side.other, c)) = some (some q) ∧
        es.filter (·.moves) = moved (s.chan c).buf.isSome x c (some (q, ptr)))

def taken (alt : Option Alt) (Q : Side × ℕ → Queue) (k : Side × ℕ) (q : ℕ) : Side × ℕ → Queue :=
  let Q := Function.update Q k (cqdel (Q k))
  alt.elim Q fun b => without q (names b.slots) Q

def Takes (alt : Option Alt) (Q : Side × ℕ → Queue) (k : Side × ℕ) (q : ℕ) : Prop :=
  ∀ b, alt = some b → Ends q (names b.slots) (Function.update Q k (cqdel (Q k)))

theorem take_some (h : take s k q = some t) :
    Takes (s.alt q) s.q k q ∧ t.q = taken (s.alt q) s.q k q ∧ Records q s t := by
  have hrec := records_setq q s k (cqdel (s.q k))
  cases halt : s.alt q with
  | none =>
    have hsome : s.setq k (cqdel (s.q k)) = t := by simpa [take, State.setq, halt] using h
    rw [← hsome]
    exact ⟨(fun _ hb => by cases hb), setq_q .., hrec⟩
  | some b =>
    have hsome : altdone (s.setq k (cqdel (s.q k))) b q (some k) = some t := by
      simpa [take, State.setq, halt] using h
    obtain ⟨hends, hq, hdone⟩ := altdone_some hsome
    rw [setq_q] at hends hq
    exact ⟨fun b' hb' => by cases hb'; exact hends, hq, hrec.trans hdone⟩

theorem take_takes (h : Takes (s.alt q) s.q k q) : ∃ t, take s k q = some t := by
  cases halt : s.alt q with
  | none => exact ⟨s.setq k (cqdel (s.q k)), by simp [take, State.setq, halt]⟩
  | some b =>
    have hends := h b halt
    rw [← setq_q] at hends
    obtain ⟨t, ht⟩ := altdone_ends (some k) hends
    exact ⟨t, by simpa [take, State.setq, halt] using ht⟩

def finish (x : Slot) (c q : ℕ) (s : State) : State :=
  let ptr := s.ptr q
  let s := { s with ptr := Function.update s.ptr q none }
  match x.side with
  | .send => addrun (s.write [.copy c (some x.place) ptr]) q
  | .recv =>
    addrun (if (s.chan c).buf.isSome then cputb (cgetb s c x.place) c ptr
      else s.write [.copy c ptr (some x.place)]) q

theorem comm_partner (hc : x.c = some c) (hq : prog (s.q (x.side.other, c)) = some (some q)) :
    comm s p malloc x = (take (s.write (records p x)) (x.side.other, c) q).map (finish x c q) := by
  rw [← write_q s (records p x)] at hq
  rw [comm, hc, Option.elim_some]
  cases hside : x.side with
  | send =>
    rw [hside] at hq
    simp only [Side.other] at hq
    simp only [isend, hq, Side.other]
    congr 1
    funext r
    simp only [finish, hside]
  | recv =>
    rw [hside] at hq
    simp only [Side.other] at hq
    simp only [irecv, hq, Side.other]
    congr 1
    funext r
    simp only [finish, hside]

theorem cputb_q (s : State) (c : ℕ) (src : Option ℕ) : (cputb s c src).q = s.q := by
  unfold cputb
  split_ifs with h
  · funext k
    rcases eq_or_ne k.2 c with hk | hk
    · simp [State.q, State.write, Channel.put, hk]
    · simp [State.q, State.write, hk]
  · rfl

theorem cgetb_q (s : State) (c dst : ℕ) : (cgetb s c dst).q = s.q := by
  unfold cgetb
  split_ifs with h
  · funext k
    rcases eq_or_ne k.2 c with hk | hk
    · simp [State.q, State.write, Channel.get, hk]
    · simp [State.q, State.write, hk]
  · rfl

theorem finish_q (x : Slot) (c q : ℕ) (s : State) : (finish x c q s).q = s.q := by
  unfold finish
  simp only
  split
  · rfl
  · split_ifs
    · exact (cputb_q ..).trans (cgetb_q ..)
    · rfl

/-- A Prog is received from through the buffer only where there is something in it. -/
def Filled (s : State) (x : Slot) (c : ℕ) : Prop :=
  x.side = .recv → (s.chan c).buf.isSome → (s.chan c).canget

theorem finish_log (x : Slot) (c q : ℕ) (s : State) : ∃ es, (finish x c q s).log = s.log ++ es ∧
    (∀ r n, Event.index r n ∉ es) ∧ es.filter (·.moves) = es ∧ .run q ∈ es ∧
    ((∃ ptr, es = moved (s.chan c).buf.isSome x c (some (q, ptr))) ↔ Filled s x c) := by
  cases hside : x.side with
  | send =>
    refine ⟨[.copy c (some x.place) (s.ptr q), .run q],
      by simp [finish, hside, addrun, State.write], by simp, rfl, by simp, ?_⟩
    exact iff_of_true ⟨s.ptr q, by simp [moved, hside]⟩ (by simp [Filled, hside])
  | recv =>
    cases hbuf : (s.chan c).buf.isSome with
    | false =>
      refine ⟨[.copy c (s.ptr q) (some x.place), .run q],
        by simp [finish, hside, hbuf, addrun, State.write], by simp, rfl, by simp, ?_⟩
      exact iff_of_true ⟨s.ptr q, by simp [moved, hside]⟩ (by simp [Filled, hbuf])
    | true =>
      have hfits := (s.chan c).fits
      cases hget : (s.chan c).canget with
      | true =>
        have hput : (s.chan c).get.canput = true := by
          have hpos : 0 < (s.chan c).size := by simpa [Channel.canget] using hget
          have hlt : (s.chan c).size - 1 < (s.chan c).buf.getD 0 := by omega
          exact decide_eq_true hlt
        refine ⟨[.get c x.place, .put c (s.ptr q), .run q], ?_, by simp, rfl, by simp, ?_⟩
        · simp [finish, hside, hbuf, addrun, State.write, cgetb, cputb, hget, hput]
        · exact iff_of_true ⟨s.ptr q, by simp [moved, hside]⟩ fun _ _ => hget
      | false =>
        refine ⟨(if (s.chan c).canput then [.put c (s.ptr q)] else []) ++ [.run q], ?_, ?_, ?_,
          by simp, ?_⟩
        · by_cases hput : (s.chan c).canput = true
          · simp [finish, hside, hbuf, addrun, State.write, cgetb, cputb, hget, hput]
          · simp [finish, hside, hbuf, addrun, State.write, cgetb, cputb, hget, hput]
        · split_ifs <;> simp
        · split_ifs <;> rfl
        · refine iff_of_false ?_ fun hfilled => ?_
          · rintro ⟨ptr, hes⟩
            have hlen := congrArg List.length hes
            simp only [moved, hside, if_true] at hlen
            split_ifs at hlen <;> simp at hlen
          · exact absurd (hget.symm.trans (hfilled hside hbuf)) (by decide)

/-!
## The alternative chosen

`altcomm` looks at the alternatives again, with the Prog itself on their queues. It chooses
one that was counted, and `altdone` ends after it, exactly if no receive that is ready only
to the second look comes before one that was counted, and no channel is left without a queue
while an alt names it once more.
-/

variable {p q c which : ℕ} {s s' t u : State} {a : Alt} {x : Slot} {malloc : Bool}
  {es : List Event} {rdy : List Slot}

def Unqueued (s : State) (a : Alt) (p : ℕ) : Prop :=
  ∀ k ∈ names a.slots, ∀ l, s.q k = some l → p ∉ l

theorem altdone_unqueued {sel : Option (Side × ℕ)} (h : altdone s a p sel = some t) :
    Unqueued t a p := by
  intro k hk l hl
  rw [(altdone_some h).2.1] at hl
  exact not_mem_without hk hl

/-- An alternative is communicated on and recorded, and `altdone` ends and leaves the Prog
on no queue. -/
def Done (s : State) (a : Alt) (p : ℕ) (malloc : Bool) (x : Slot) : Prop :=
  ∃ t u es, comm s p malloc x = some t ∧ t.log = s.log ++ (records p x ++ es) ∧
    Communicates s p x es ∧ altdone t a p none = some u ∧ Unqueued u a p

theorem done_partner (hc : x.c = some c) (hq : prog (s.q (x.side.other, c)) = some (some q)) :
    Done s a p malloc x ↔ q ≠ p ∧ Filled s x c ∧ Takes (s.alt q) s.q (x.side.other, c) q ∧
      Ends p (names a.slots) (taken (s.alt q) s.q (x.side.other, c) q) := by
  have hfinish (r : State) (hr : Records q (s.write (records p x)) r) : ∃ es es',
      (finish x c q r).log = s.log ++ (records p x ++ (es ++ es')) ∧
      (∀ e ∈ es, e.moves = false ∧ ∀ r n, e = .index r n → r = q) ∧
      (∀ r n, Event.index r n ∉ es') ∧ (es ++ es').filter (·.moves) = es' ∧ .run q ∈ es' ∧
      ((∃ ptr, es' = moved (s.chan c).buf.isSome x c (some (q, ptr))) ↔ Filled s x c) := by
    obtain ⟨es, hes, hrec⟩ := hr.log
    obtain ⟨es', hes', hindex, hmoves, hrun, hiff⟩ := finish_log x c q r
    have hnone : es.filter (·.moves) = [] :=
      List.filter_eq_nil_iff.mpr fun e he => by simp [(hrec e he).1]
    refine ⟨es, es', by rw [hes', hes]; simp [State.write], hrec, hindex,
      by rw [List.filter_append, hnone, hmoves, List.nil_append], hrun, ?_⟩
    have hbuf : (r.chan c).buf = (s.chan c).buf := hr.buf c
    have hsize : (r.chan c).size = (s.chan c).size := hr.size c
    rw [hbuf] at hiff
    rw [hiff]
    simp only [Filled, Channel.canget, hbuf, hsize]
  rw [Done, comm_partner hc hq]
  constructor
  · rintro ⟨t, u, es, ht, hlog, ⟨c', hc', hindex, hcomm⟩, hdone, -⟩
    obtain rfl := Option.some.inj (hc.symm.trans hc')
    obtain ⟨r, hr, rfl⟩ := Option.map_eq_some_iff.mp ht
    obtain ⟨htakes, hrq, hrec⟩ := take_some hr
    obtain ⟨es₁, es₂, hlog', -, -, hfilter, hrun, hiff⟩ := hfinish r hrec
    obtain rfl := List.append_cancel_left (List.append_cancel_left (hlog.symm.trans hlog'))
    have hends := (altdone_some hdone).1
    rw [finish_q, hrq] at hends
    rw [hfilter] at hcomm
    rcases hcomm with hnone | ⟨q', ptr, hne, hq', hsome⟩
    · rw [hnone, moved] at hrun
      cases hside : x.side <;> simp [hside] at hrun
    · obtain rfl := Option.some.inj (Option.some.inj (hq.symm.trans hq'))
      exact ⟨hne, hiff.mp ⟨ptr, hsome⟩, htakes, hends⟩
  · rintro ⟨hne, hfilled, htakes, hends⟩
    obtain ⟨r, hr⟩ := take_takes (s := s.write (records p x)) htakes
    obtain ⟨-, hrq, hrec⟩ := take_some hr
    obtain ⟨es₁, es₂, hlog, hes₁, hes₂, hfilter, -, hiff⟩ := hfinish r hrec
    obtain ⟨ptr, hptr⟩ := hiff.mpr hfilled
    obtain ⟨u, hu⟩ := altdone_ends (s := finish x c q r) none (by rw [finish_q, hrq]; exact hends)
    refine ⟨finish x c q r, u, es₁ ++ es₂, by rw [hr]; rfl, hlog,
      ⟨c, hc, fun n hn => ?_, .inr ⟨q, ptr, hne, hq, hfilter.trans hptr⟩⟩, hu, altdone_unqueued hu⟩
    rcases List.mem_append.mp hn with hn | hn
    · exact hne ((hes₁ _ hn).2 p n rfl).symm
    · exact hes₂ p n hn

theorem done_buffer (hc : x.c = some c) (hq : prog (s.q (x.side.other, c)) = some none)
    (hroom : room s x c) : Done s a p malloc x ↔ Ends p (names a.slots) s.q := by
  obtain ⟨t, es, ht, hlog, htq, hindex, hmoved⟩ : ∃ t es, comm s p malloc x = some t ∧
      t.log = s.log ++ (records p x ++ es) ∧ t.q = s.q ∧ (∀ n, Event.index p n ∉ es) ∧
      es.filter (·.moves) = moved (s.chan c).buf.isSome x c none := by
    cases hside : x.side with
    | send =>
      rw [hside] at hq
      have hput : (s.chan c).canput = true := by simpa [room, hside] using hroom
      refine ⟨cputb (s.write (records p x)) c (some x.place), [.put c (some x.place)], ?_, ?_,
        (cputb_q ..).trans rfl, by simp, by simp [moved, hside, Event.moves]⟩
      · simp only [Side.other] at hq
        have hput' : ((s.write (records p x)).chan c).canput = true := hput
        simp [comm, hc, hside, isend, hq, hput']
      · simp [cputb, State.write, hput]
    | recv =>
      rw [hside] at hq
      have hget : (s.chan c).canget = true := by simpa [room, hside] using hroom
      refine ⟨cgetb (s.write (records p x)) c x.place, [.get c x.place], ?_, ?_,
        (cgetb_q ..).trans rfl, by simp, by simp [moved, hside, Event.moves]⟩
      · simp only [Side.other] at hq
        have hget' : ((s.write (records p x)).chan c).canget = true := hget
        simp [comm, hc, hside, irecv, hq, hget']
      · simp [cgetb, State.write, hget]
  constructor
  · rintro ⟨t', u, es', ht', -, -, hdone, -⟩
    obtain rfl := Option.some.inj (ht.symm.trans ht')
    rw [← htq]
    exact (altdone_some hdone).1
  · intro hends
    rw [← htq] at hends
    obtain ⟨u, hu⟩ := altdone_ends none hends
    exact ⟨t, u, es, ht, hlog, ⟨c, hc, hindex, .inl hmoved⟩, hu, altdone_unqueued hu⟩

def marked (s : State) (a : Alt) (p : ℕ) : Side × ℕ → Queue := added p (names a.slots) s.q

def later (s : State) (a : Alt) (p : ℕ) (x : Slot) : Bool :=
  x.c.any fun c => waits (marked s a p (x.side.other, c)) || room s x c

def counts (s : State) (a : Alt) (p : ℕ) (x : Slot) : Bool :=
  match x.side with
  | .send => later s a p x
  | .recv => able s x

/-- The first Prog that waits is another, with something in a buffer that is received from,
and no queue is nil that its `altdone` or the one of `xecalt` looks at. -/
def Good (s : State) (a : Alt) (p : ℕ) (x : Slot) : Prop :=
  ∀ c, x.c = some c →
    match prog (marked s a p (x.side.other, c)) with
    | none => False
    | some none => Ends p (names a.slots) (marked s a p)
    | some (some q) => q ≠ p ∧ Filled s x c ∧
        Takes (s.alt q) (marked s a p) (x.side.other, c) q ∧
        Ends p (names a.slots) (taken (s.alt q) (marked s a p) (x.side.other, c) q)

structure Clear (s : State) (a : Alt) (p : ℕ) : Prop where
  order : a.recvs.Pairwise fun x y => later s a p x → able s y → able s x
  good : ∀ x ∈ a.slots, counts s a p x → Good s a p x

theorem Counted.later_eq (h : Counted s a p s' rdy) (x : Slot) : able s' x = later s a p x := by
  cases hc : x.c with
  | none => simp [able, later, hc]
  | some c => simp [able, later, hc, h.alike.room_eq, h.queue, marked]

theorem Counted.done_iff (h : Counted s a p s' rdy) (hx : x ∈ a.slots) (hable : able s' x) :
    Done s' a p malloc x ↔ Good s a p x := by
  obtain ⟨c, hc, hopen⟩ : ∃ c, x.c = some c ∧ (waits (s'.q (x.side.other, c)) || room s' x c) := by
    simpa [able, Option.any_eq_true] using hable
  have hgood : Good s a p x ↔ match prog (s'.q (x.side.other, c)) with
      | none => False
      | some none => Ends p (names a.slots) s'.q
      | some (some q) => q ≠ p ∧ Filled s' x c ∧ Takes (s'.alt q) s'.q (x.side.other, c) q ∧
          Ends p (names a.slots) (taken (s'.alt q) s'.q (x.side.other, c) q) := by
    rw [h.queue, h.alike.alt, ← marked]
    simp only [Good, hc, Option.some.injEq, forall_eq', Filled, Channel.canget, h.alike.buf,
      h.alike.size]
  rw [hgood]
  cases hq : prog (s'.q (x.side.other, c)) with
  | none => exact absurd (Option.map_eq_none_iff.mp hq) (h.whole x hx c hc _)
  | some w =>
    cases w with
    | none =>
      have hwaits : waits (s'.q (x.side.other, c)) = false := (prog_waits hq).2.symm
      exact done_buffer hc hq (by simpa [hwaits] using hopen)
    | some q => exact done_partner hc hq

theorem pick_cons {l : List Slot} : pick s (x :: l) which =
    match ready s x with
    | none => none
    | some false => pick s l which
    | some true =>
      match which with
      | 0 => some (some x)
      | which + 1 => pick s l which := by
  cases which <;> rfl

theorem pick_eq {l : List Slot} (which : ℕ) (h : ∀ x ∈ l, ready s x = some (able s x)) :
    pick s l which = some ((l.filter (able s))[which]?) := by
  induction l generalizing which with
  | nil => rfl
  | cons x l ih =>
    have hrest (n : ℕ) := ih n fun y hy => h y (List.mem_cons_of_mem _ hy)
    rw [pick_cons, h x (List.mem_cons_self ..)]
    cases hx : able s x with
    | false => simpa [hx] using hrest which
    | true =>
      cases which with
      | zero => simp [hx]
      | succ n => simpa [hx] using hrest n

theorem Counted.ready_eq (h : Counted s a p s' rdy) (hx : x ∈ a.slots) :
    ready s' x = some (able s' x) := by
  cases hc : x.c with
  | none => simp [ready, able, hc, h.array x hx hc]
  | some c =>
    obtain ⟨l, hl⟩ := Option.ne_none_iff_exists'.mp (h.whole x hx c hc x.side.other)
    have hwaits : l.head?.isSome = waits (some l) := by cases l <;> simp [waits]
    simp only [ready, able, hc, hl, prog, Option.map_some, hwaits, Option.any_some]
    rfl

theorem filter_places {α : Type} {n t : α → Bool} {g : α → Prop} {l : List α}
    (h : ∀ x ∈ l, t x → n x) :
    (∀ i < (l.filter t).length, ∃ x, (l.filter n)[i]? = some x ∧ t x ∧ g x) ↔
      l.Pairwise (fun x y => n x → t y → t x) ∧ ∀ x ∈ l, t x → g x := by
  induction l with
  | nil => simp
  | cons x l ih =>
    have hrest := ih fun y hy => h y (List.mem_cons_of_mem _ hy)
    rw [List.pairwise_cons, List.forall_mem_cons]
    cases ht : t x with
    | true =>
      have hn := h x (List.mem_cons_self ..) ht
      simp only [List.filter_cons, ht, hn, if_true, List.length_cons]
      constructor
      · intro hall
        have hfirst := hall 0 (Nat.succ_pos _)
        obtain ⟨horder, hgood⟩ := hrest.mp fun i hi => by
          simpa using hall (i + 1) (Nat.succ_lt_succ hi)
        exact ⟨⟨fun _ _ _ _ => trivial, horder⟩, fun _ => by simpa [ht] using hfirst, hgood⟩
      · rintro ⟨⟨-, horder⟩, hfirst, hgood⟩ i hi
        cases i with
        | zero => exact ⟨x, rfl, ht, hfirst trivial⟩
        | succ i => simpa using hrest.mpr ⟨horder, hgood⟩ i (Nat.lt_of_succ_lt_succ hi)
    | false =>
      cases hn : n x with
      | false =>
        simp only [List.filter_cons, ht, hn, Bool.false_eq_true, if_false, false_implies,
          true_and, implies_true]
        exact hrest
      | true =>
        simp only [List.filter_cons, ht, hn, Bool.false_eq_true, if_false, if_true,
          false_implies, true_and, true_implies]
        constructor
        · intro hall
          have hnone (y : α) (hy : y ∈ l) : ¬ t y = true := by
            intro hty
            obtain ⟨z, hz, htz, -⟩ := hall 0
              (List.length_pos_of_mem (List.mem_filter.mpr ⟨hy, hty⟩))
            obtain rfl := Option.some.inj hz
            exact absurd (ht.symm.trans htz) (by decide)
          exact ⟨⟨hnone, List.pairwise_of_forall_mem_list fun y _ z hz _ hty =>
            absurd hty (hnone z hz)⟩, fun y hy hty => absurd hty (hnone y hy)⟩
        · rintro ⟨⟨hnone, -⟩, -⟩ i hi
          rw [List.filter_eq_nil_iff.mpr hnone] at hi
          exact absurd hi (Nat.not_lt_zero i)

/-- `altcomm` chooses an alternative that was counted, and communicates on that one. -/
def Chosen (s : State) (a : Alt) (p : ℕ) (rdy : List Slot) (malloc : Bool) (which : ℕ) : Prop :=
  ∃ x ∈ rdy, pick s a.slots which = some (some x) ∧
    ∃ t u es, altcomm s a p which malloc = some t ∧ t.log = s.log ++ (records p x ++ es) ∧
      Communicates s p x es ∧ altdone t a p none = some u ∧ Unqueued u a p

theorem Counted.chosen_iff (h : Counted s a p s' rdy) :
    Chosen s' a p rdy malloc which ↔
      ∃ x, (a.slots.filter (able s'))[which]? = some x ∧ x ∈ rdy ∧ Good s a p x := by
  have hpick : pick s' a.slots which = some ((a.slots.filter (able s'))[which]?) :=
    pick_eq which fun x hx => h.ready_eq hx
  constructor
  · rintro ⟨x, hrdy, hx, hdone⟩
    have hget := Option.some.inj (hpick.symm.trans hx)
    obtain ⟨hslot, hable⟩ := List.mem_filter.mp (List.mem_of_getElem? hget)
    simp only [altcomm, hx] at hdone
    exact ⟨x, hget, hrdy, (h.done_iff hslot hable).mp hdone⟩
  · rintro ⟨x, hget, hrdy, hgood⟩
    obtain ⟨hslot, hable⟩ := List.mem_filter.mp (List.mem_of_getElem? hget)
    have hx : pick s' a.slots which = some (some x) := hpick.trans (congrArg some hget)
    have hdone : Done s' a p malloc x := (h.done_iff hslot hable).mpr hgood
    refine ⟨x, hrdy, hx, ?_⟩
    simp only [altcomm, hx]
    exact hdone

theorem Counted.later_of_able (h : Counted s a p s' rdy) (hable : able s x) :
    able s' x := by
  obtain ⟨c, hc, hopen⟩ : ∃ c, x.c = some c ∧ (waits (s.q (x.side.other, c)) || room s x c) := by
    simpa [able, Option.any_eq_true] using hable
  simp only [able, hc, Option.any_some, h.alike.room_eq, h.queue, added]
  rcases Bool.or_eq_true_iff.mp hopen with hwaits | hroom
  · obtain ⟨l, hl, hne⟩ := (Option.any_eq_true _ _).mp hwaits
    simp only [decide_eq_true_eq] at hne
    simp [waits, hl, hne]
  · rw [hroom, Bool.or_true]

/-- Where `altrdy` finds nothing wrong, `altcomm` performs for each number below the count one
communication, on an alternative that was counted, with another Prog or the buffer, records
it, and leaves the Prog on no queue, exactly if the alternatives are clear. -/
theorem alt_chosen {malloc : Slot → Bool} (malloc' : Bool)
    (h : altrdy s a p malloc = some (s', .ok rdy)) :
    (∀ which < rdy.length, Chosen s' a p rdy malloc' which) ↔ Clear s a p := by
  have hcounted := altrdy_counted h
  have hlater : a.recvs.filter (able s') = a.recvs.filter (later s a p) :=
    List.filter_congr fun x _ => hcounted.later_eq x
  have hrecv (x : Slot) (hx : x ∈ a.recvs) : x ∈ rdy ↔ able s x := by
    rw [hcounted.rdy, List.mem_append, List.mem_filter, List.mem_filter, and_iff_right hx,
      or_iff_left]
    exact fun hsend => absurd ((side_sends a x hsend.1).symm.trans (side_recvs a x hx)) (by decide)
  have hplaces := filter_places (n := later s a p) (t := able s) (g := Good s a p) (l := a.recvs)
    fun x _ hable => (hcounted.later_eq x).symm.trans (hcounted.later_of_able hable)
  have hslots : a.slots.filter (able s') =
      a.sends.filter (able s') ++ a.recvs.filter (later s a p) := by
    rw [Alt.slots, List.filter_append, hlater]
  have hlen : rdy.length =
      (a.recvs.filter (able s)).length + (a.sends.filter (able s')).length := by
    rw [hcounted.rdy, List.length_append]
  have hclear : Clear s a p ↔ (∀ x ∈ a.sends, able s' x → Good s a p x) ∧
      ∀ i < (a.recvs.filter (able s)).length,
        ∃ x, (a.recvs.filter (later s a p))[i]? = some x ∧ able s x ∧ Good s a p x := by
    rw [hplaces]
    constructor
    · rintro ⟨horder, hgood⟩
      refine ⟨fun x hx hable => hgood x (List.mem_append_left _ hx) ?_, horder, fun x hx hable =>
        hgood x (List.mem_append_right _ hx) ?_⟩
      · rwa [counts, side_sends a x hx, ← hcounted.later_eq]
      · rwa [counts, side_recvs a x hx]
    · rintro ⟨hsend, horder, hrecv⟩
      refine ⟨horder, fun x hx hcounts => ?_⟩
      rcases List.mem_append.mp hx with hx | hx
      · rw [counts, side_sends a x hx, ← hcounted.later_eq] at hcounts
        exact hsend x hx hcounts
      · rw [counts, side_recvs a x hx] at hcounts
        exact hrecv x hx hcounts
  simp only [hcounted.chosen_iff, hslots, hclear, hlen]
  constructor
  · intro hall
    refine ⟨fun x hx hable => ?_, fun i hi => ?_⟩
    · obtain ⟨i, hi, hget⟩ := List.mem_iff_getElem.mp (List.mem_filter.mpr ⟨hx, hable⟩)
      obtain ⟨y, hy, -, hgood⟩ := hall i (by omega)
      rw [List.getElem?_append_left hi, List.getElem?_eq_getElem hi, hget] at hy
      cases hy
      exact hgood
    · obtain ⟨y, hy, hrdy, hgood⟩ := hall ((a.sends.filter (able s')).length + i) (by omega)
      rw [List.getElem?_append_right (Nat.le_add_right ..), Nat.add_sub_cancel_left] at hy
      have hmem := (List.mem_filter.mp (List.mem_of_getElem? hy)).1
      exact ⟨y, hy, (hrecv y hmem).mp hrdy, hgood⟩
  · rintro ⟨hsend, hreceive⟩ which hwhich
    by_cases hlt : which < (a.sends.filter (able s')).length
    · have hmem := List.getElem_mem hlt
      obtain ⟨hx, hable⟩ := List.mem_filter.mp hmem
      refine ⟨_, (List.getElem?_append_left hlt).trans (List.getElem?_eq_getElem hlt), ?_,
        hsend _ hx hable⟩
      rw [hcounted.rdy]
      exact List.mem_append_right _ hmem
    · obtain ⟨x, hx, hable, hgood⟩ :=
        hreceive (which - (a.sends.filter (able s')).length) (by omega)
      have hmem := (List.mem_filter.mp (List.mem_of_getElem? hx)).1
      exact ⟨x, (List.getElem?_append_right (not_lt.mp hlt)).trans hx, (hrecv x hmem).mpr hable,
        hgood⟩

def full : State where
  chan _ := { queue := fun _ => some [], buf := some 1, size := 1, fits := le_refl 1 }
  alt _ := none
  ptr _ := none
  log := []

def receives (ptrs : List ℕ) : Alt := ⟨[], ptrs.map (.chan (some 0), ·)⟩

theorem alt_chosen_once : ∃ s' rdy,
    altrdy full (receives [8]) 1 (fun _ => true) = some (s', .ok rdy) ∧
      ((∀ which < rdy.length, Chosen s' (receives [8]) 1 rdy true which) ↔
        Clear full (receives [8]) 1) := by
  have hrdy : altrdy full (receives [8]) 1 (fun _ => true) = some (_, .ok _) := rfl
  exact ⟨_, _, hrdy, alt_chosen true hrdy⟩

/-- Two receives on one channel: the first round of `altdone` leaves it without a queue. -/
theorem alt_nil : ¬∀ s' rdy,
    altrdy full (receives [8, 16]) 1 (fun _ => true) = some (s', .ok rdy) →
      ∀ which < rdy.length, Chosen s' (receives [8, 16]) 1 rdy true which := by
  intro h
  obtain ⟨x, -, -, t, u, es, ht, -, -, hu, -⟩ := h _ _ rfl 0 (by decide)
  have hnil : ((altcomm (((altrdy full (receives [8, 16]) 1 (fun _ => true)).get rfl).1)
      (receives [8, 16]) 1 0 true).bind (altdone · (receives [8, 16]) 1 none)).isSome = false := by
    decide
  rw [show altcomm (((altrdy full (receives [8, 16]) 1 (fun _ => true)).get rfl).1)
      (receives [8, 16]) 1 0 true = some t from ht, Option.bind_some, hu] at hnil
  cases hnil

end Infernode.Alts
