import Infernode.Export.Flush

/-!
# Tags

A client uses a tag again when the request that had it is answered, or a flush that
names it. With this rule the request that a flush names is the last one read with
that tag, and no other request of the tag can be answered. Once the flush is
answered, that one cannot be answered either; and the flushes of one request are
answered in the order in which they were read.
-/

namespace Infernode.Export

variable {s s' : State} {place : ℕ → Place} {n q r fq : ℕ}

structure State.Flushes (s : State) (fq q : ℕ) : Prop where
  read : fq < s.next
  names : s.names fq q = true
  earlier : q < fq
  request : s.isflush q = false
  last : ∀ r, q < r → r < fq → s.isflush r = false → s.names fq r = false

def State.tagfree (s : State) (t : ℕ) : Prop :=
  ∀ q < s.next, s.isflush q = false → (s.exqs q).inp.tag = t →
    q ∈ replies s.log ∨ ∃ fq ∈ replies s.log, q < fq ∧ s.names fq q = true

def State.obeys (s : State) : Act → Prop
  | .recv ⟨t, .request _⟩ => s.tagfree t
  | _ => True

def Obeyed : State → List Act → Prop
  | _, [] => True
  | s, a :: acts => s.obeys a ∧ ∀ s', step s a = some s' → Obeyed s' acts

theorem isflush_step (h : Core s place) (hs : Step s s')
    (hn : n ≠ s.next ∨ s'.next = s.next ∨ s'.down) :
    s'.isflush n = s.isflush n := by
  rw [State.isflush, State.isflush, inp_step h hs hn]

theorem names_step (h : Core s place) (hs : Step s s')
    (hf : fq ≠ s.next ∨ s'.next = s.next ∨ s'.down)
    (hq : q ≠ s.next ∨ s'.next = s.next ∨ s'.down) : s'.names fq q = s.names fq q := by
  rw [State.names, State.names, inp_step h hs hf, inp_step h hs hq]

theorem names_isflush (hn : s.names fq q = true) : s.isflush fq = true := by
  simp only [State.names, decide_eq_true_eq] at hn
  simp [State.isflush, hn, Body.isflush]

theorem names_names {fq' : ℕ} (h : s.names fq q = true) (h' : s.names fq' q = true) :
    s.names fq r = s.names fq' r := by
  simp only [State.names, decide_eq_true_eq] at h h'
  simp only [State.names, h, h']

theorem foldl_next (l : List ℕ) : (l.foldl State.exfreeq s).next = s.next := by
  induction l generalizing s with
  | nil => rfl
  | cons q l ih => exact ih

theorem next_step (hs : Step s s') : s'.next = s.next ∨ s'.next = s.next + 1 := by
  cases hs with
  | receive t hr | hangup hr => exact .inr rfl
  | shutexq hr => exact .inl (foldl_next _)
  | _ => exact .inl rfl

theorem readstep_next (hs : s.readstep = some s') : s'.next = s.next := by
  rw [State.readstep] at hs
  split at hs
  all_goals try split at hs
  all_goals first | obtain rfl := Option.some.inj hs | simp at hs
  all_goals try rfl
  · rw [State.flushwork]
    split_ifs <;> rfl
  · exact foldl_next _

theorem drain_next : (s.drain q).next = s.next := by
  rw [State.drain]
  split <;> rfl

theorem slavestep_next (hs : s.slavestep q = some s') : s'.next = s.next := by
  rw [State.slavestep] at hs
  split at hs
  all_goals try split_ifs at hs
  all_goals first | obtain rfl := Option.some.inj hs | simp at hs
  all_goals try rfl
  · simp only [State.returned]
    split_ifs
    · rfl
    · exact drain_next
  · exact drain_next

theorem new_act {a : Act} (ha : step s a = some s') (hn : s.next < s'.next) :
    (∃ t, a = .recv t ∧ s' = s.receive t) ∨ s'.down := by
  cases a with
  | recv t =>
    simp only [step] at ha
    split_ifs at ha
    exact .inl ⟨t, rfl, (Option.some.inj ha).symm⟩
  | hangup =>
    simp only [step] at ha
    split_ifs at ha
    obtain rfl := Option.some.inj ha
    exact .inr (.inl rfl)
  | reader => exact absurd (readstep_next ha) hn.ne'
  | take =>
    simp only [step] at ha
    split at ha
    · split_ifs at ha
      obtain rfl := Option.some.inj ha
      exact absurd hn (lt_irrefl _)
    · simp at ha
  | fcall q err =>
    simp only [step] at ha
    split_ifs at ha
    obtain rfl := Option.some.inj ha
    exact absurd hn (lt_irrefl _)
  | slave q => exact absurd (slavestep_next ha) hn.ne'

theorem down_next (hs : Step s s') (hd : s.down) : s'.next = s.next := by
  cases hs with
  | receive t hr | hangup hr => simp [State.down, hr] at hd
  | shutexq hr => exact foldl_next _
  | _ => rfl

theorem flushes_step (h : Core s place) (hs : Step s s') (hf : fq < s.next) :
    s'.Flushes fq q ↔ s.Flushes fq q := by
  have hnext : s.next ≤ s'.next := by
    rcases next_step hs with hn | hn <;> omega
  have hlt : ∀ r, r < fq → r ≠ s.next ∨ s'.next = s.next ∨ s'.down := fun r hr => .inl (by omega)
  constructor
  · rintro ⟨hread, hnames, hearlier, hrequest, hlast⟩
    refine ⟨hf, ?_, hearlier, ?_, ?_⟩
    · rwa [names_step h hs (.inl hf.ne) (hlt q hearlier)] at hnames
    · rwa [isflush_step h hs (hlt q hearlier)] at hrequest
    · intro r hqr hrf hr
      rw [← names_step h hs (.inl hf.ne) (hlt r hrf)]
      exact hlast r hqr hrf (by rwa [isflush_step h hs (hlt r hrf)])
  · rintro ⟨hread, hnames, hearlier, hrequest, hlast⟩
    refine ⟨by omega, ?_, hearlier, ?_, ?_⟩
    · rwa [names_step h hs (.inl hf.ne) (hlt q hearlier)]
    · rwa [isflush_step h hs (hlt q hearlier)]
    · intro r hqr hrf hr
      rw [names_step h hs (.inl hf.ne) (hlt r hrf)]
      exact hlast r hqr hrf (by rwa [isflush_step h hs (hlt r hrf)] at hr)

theorem exists_flushes (hf : fq < s.next) (hq : q < fq) (hr : s.isflush q = false)
    (hn : s.names fq q = true) : ∃ r, q ≤ r ∧ s.Flushes fq r := by
  let named := (Finset.range fq).filter (fun r => s.isflush r = false ∧ s.names fq r = true)
  have hmem : q ∈ named := by simp [named, hq, hr, hn]
  have hmax := named.max'_mem ⟨q, hmem⟩
  have hle := fun r hr => named.le_max' r hr
  refine ⟨named.max' ⟨q, hmem⟩, hle q hmem, hf, ?_, ?_, ?_, ?_⟩
  · exact (Finset.mem_filter.mp hmax).2.2
  · exact Finset.mem_range.mp (Finset.mem_filter.mp hmax).1
  · exact (Finset.mem_filter.mp hmax).2.1
  · intro r hlt hrf hreq
    by_contra hname
    have hmem' : r ∈ named := by simpa [named, hrf, hreq] using hname
    exact absurd (hle r hmem') (not_le.mpr hlt)

/-- Of the requests with one tag only the last can be answered; a flush answered, or
about to be, leaves nothing to answer. -/
structure Tags (s : State) : Prop where
  fresh : ∀ n, s.next ≤ n → s.isflush n = false
  older : ∀ q r, q < r → r < s.next → s.isflush q = false → s.isflush r = false →
    (s.exqs q).inp.tag = (s.exqs r).inp.tag → s.before q → s.down ∧ r + 1 = s.next
  searched : ∀ fq q, s.Flushes fq q → s.reader ≠ .searching fq → q ∉ s.exq
  discards : ∀ fq q r, s.Flushes fq q → s.reader = .discarding r fq → r = q
  queued : ∀ fq q r, s.Flushes fq q → fq ∈ (s.exqs r).flush → s.before q → r = q
  answered : ∀ fq q, s.Flushes fq q → s.before q → s.reader ≠ .replying fq ∧
    (∀ r, s.slave r ≠ some (.answering fq)) ∧ fq ∉ replies s.log

theorem tags_init (readonly : Bool) : Tags (init readonly) := by
  constructor <;> simp [init, State.isflush, noexq, Body.isflush]

theorem Tags.last (h : Tags s) (hf : s.Flushes fq r) (hq : q < fq) (hreq : s.isflush q = false)
    (hn : s.names fq q = true) (hb : s.before q) : q = r := by
  have hle : q ≤ r := by
    by_contra hlt
    simpa [hn] using hf.last q (not_le.mp hlt) hq hreq
  by_contra hne
  have hlt : q < r := Nat.lt_of_le_of_ne hle hne
  have htag : (s.exqs q).inp.tag = (s.exqs r).inp.tag := by
    have hr := hf.names
    simp only [State.names, decide_eq_true_eq] at hn hr
    simpa [hn] using hr
  have hnext := h.older q r hlt (by have := hf.earlier; have := hf.read; omega) hreq hf.request
    htag hb
  have := hf.earlier
  have := hf.read
  omega

theorem served_of_before (hf : Flags s) (hb : s.before q) (hn : q < s.next)
    (hreq : s.isflush q = false) (hq : q ∉ s.exq) (hr : q ∉ s.reader.holds) :
    ∃ p, s.slave q = some p ∧ p.before = true := by
  rcases hb with hb | hb | hb | ⟨r, hb⟩ | hb | ⟨r, hb⟩
  · omega
  · exact absurd hb hq
  · exact absurd hb.1 hr
  · simp [hf.flush r q hb] at hreq
  · exact hb
  · simp [hf.hand r q (by simp [hb, Slave.hand])] at hreq

theorem find?_max {l : List ℕ} {p : ℕ → Bool} (hl : l.Pairwise (· > ·))
    (hf : l.find? p = some q) : ∀ m ∈ l, p m = true → m ≤ q := by
  induction l with
  | nil => simp
  | cons a l ih =>
    obtain ⟨ha, hl⟩ := List.pairwise_cons.mp hl
    intro m hm hp
    rw [List.find?_cons] at hf
    split at hf
    · obtain rfl := Option.some.inj hf
      rcases List.mem_cons.mp hm with rfl | hm
      · exact le_rfl
      · exact (ha m hm).le
    · rcases List.mem_cons.mp hm with rfl | hm
      · simp_all
      · exact ih hl hf m hm hp

theorem searchwork_find (h : Core s place) (hf : Flags s) (ht : Tags s)
    (hr : s.reader = .searchwork fq) (hfq : s.Flushes fq q) (hb : s.before q) :
    s.work.find? (s.names fq) = some q ∧ (s.exqs q).finished = false := by
  have hlt := hfq.earlier
  have hqueue := ht.searched fq q hfq (by simp [hr])
  obtain ⟨p, hp, hbefore⟩ := served_of_before hf hb (hlt.trans hfq.read) hfq.request hqueue
    (by simpa [hr, Reader.holds] using hlt.ne)
  have hstage : p ≠ .unlinking ∧ p ≠ .freeing := by
    constructor <;> rintro rfl <;> simp [Slave.before] at hbefore
  have hshut : (s.exqs q).shut = false := by
    by_contra hne
    simpa [hr] using hf.shut q (by simpa using hne)
  have hwork := hf.work q p hp hstage.2 hshut
  refine ⟨?_, by simpa [hstage] using hf.finished q p hp⟩
  cases hfind : s.work.find? (s.names fq) with
  | none => simpa [hfq.names] using List.find?_eq_none.mp hfind q hwork
  | some r =>
    have hmem := List.mem_of_find?_eq_some hfind
    have hserved := (h.work_served r hmem).1
    have hreq := hf.served r ((h.served r).mpr hserved)
    have hne : r ≠ fq := by
      rintro rfl
      simp [(h.reader r).mp (by simp [hr, Reader.holds])] at hserved
    have hread : r < s.next := by
      by_contra hnot
      simp [(h.absent r).mp (not_lt.mp hnot)] at hserved
    have hlatest := h.latest fq (by simp [hr, Reader.own])
    have hle := find?_max h.work_sorted hfind q hwork hfq.names
    have hname := List.find?_some hfind
    by_contra hrq
    have hlast := hfq.last r (by grind) (by omega) hreq
    simp [hlast] at hname

theorem searching_find (h : Core s place) (hf : Flags s) (ht : Tags s)
    (hr : s.reader = .searching fq) (hfq : s.Flushes fq q)
    (hfind : s.exq.find? (s.names fq) = some r) : r = q := by
  have hmem := List.mem_of_find?_eq_some hfind
  have hqueue := (h.queue r).mp hmem
  have hread : r < s.next := by
    by_contra hnot
    simp [(h.absent r).mp (not_lt.mp hnot)] at hqueue
  have hne : r ≠ fq := by
    rintro rfl
    simp [(h.reader r).mp (by simp [hr, Reader.holds])] at hqueue
  have hlatest := h.latest fq (by simp [hr, Reader.own])
  exact ht.last hfq (by omega) (hf.queued r hmem).1 (by simpa using List.find?_some hfind)
    (.inr (.inl hmem))

theorem flushes_new (h : Core s place) (ht : Tags s) (hs : Step s s') (hf : s'.Flushes fq q) :
    s.Flushes fq q ∨ (fq = s.next ∧ s'.reader = .searching fq ∧ s.reader = .reading) := by
  by_cases hlt : fq < s.next
  · exact .inl ((flushes_step h hs hlt).mp hf)
  · refine .inr ?_
    have hread := hf.read
    have hflush := names_isflush hf.names
    cases hs with
    | receive t hr =>
      have hnext : fq = s.next := by simp only [State.receive, State.setq] at hread; omega
      subst hnext
      refine ⟨rfl, ?_, hr⟩
      simp only [State.isflush, State.receive, State.setq, Function.update_self] at hflush ⊢
      cases hbody : t.body with
      | flush oldtag => rfl
      | request mutates => simp [hbody, Body.isflush] at hflush
    | hangup hr =>
      simp [State.isflush] at hflush
      have := ht.fresh fq (not_lt.mp hlt)
      simp [State.isflush, hflush] at this
    | shutexq hr =>
      rw [h.shutexq_eq] at hread
      exact absurd hread hlt
    | _ => exact absurd hread hlt

theorem searched_step (h : Core s place) (hf : Flags s) (ht : Tags s) (hs : Step s s')
    (hfq : s'.Flushes fq q) (hr : s'.reader ≠ .searching fq) : q ∉ s'.exq := by
  obtain hold | ⟨-, hnew, -⟩ := flushes_new h ht hs hfq
  swap
  · exact absurd hnew hr
  have hsearched := ht.searched fq q hold
  have hlt := hold.earlier
  have hread := hold.read
  cases hs with
  | queue r hr' =>
    have hlatest := h.latest r (by simp [hr', Reader.own])
    simp only [List.mem_append, List.mem_singleton, not_or]
    exact ⟨hsearched (by simp [hr']), by omega⟩
  | found fq' r hr' hfind =>
    have hnodup : s.exq.Nodup := h.exq_sorted.imp (fun hab => ne_of_lt hab)
    by_cases heq : fq' = fq
    · subst heq
      obtain rfl := searching_find h hf ht hr' hold hfind
      simp [hnodup.mem_erase_iff]
    · exact fun hq => hsearched (by simpa [hr'] using heq) (List.mem_of_mem_erase hq)
  | unfound fq' hr' hfind =>
    by_cases heq : fq' = fq
    · subst heq
      intro hq
      simpa [hold.names] using List.find?_eq_none.mp hfind q hq
    · exact hsearched (by simpa [hr'] using heq)
  | take r exq hq hr' =>
    intro hmem
    exact hsearched hr (by rw [hq]; exact List.mem_cons_of_mem r hmem)
  | shutexq hr' => simp
  | receive t hr' | hangup hr' | discard r fq' hr' | finished fq' r hr' hfind hfin
  | append fq' r hr' hfind hfin | missed fq' hr' hfind | answer r hr' | free r hr' | shutwork hr'
  | ended hr' hw => exact hsearched (by simp [hr'])
  | _ => exact hsearched hr

theorem discarding_step (hs : Step s s') (hr : s'.reader = .discarding r fq) :
    s.reader = .discarding r fq ∨
      (s.reader = .searching fq ∧ s.exq.find? (s.names fq) = some r) := by
  cases hs with
  | found fq' r' hr' hfind =>
    obtain ⟨rfl, rfl⟩ : r' = r ∧ fq' = fq := by simpa using hr
    exact .inr ⟨hr', hfind⟩
  | receive t hr' =>
    simp only [State.receive, State.setq] at hr
    split at hr
    · simp at hr
    · split_ifs at hr
  | shut r' work hr' hw => simp [State.setq, hr'] at hr
  | take r' exq hq hr' => exact .inl hr
  | _ => first | exact .inl hr | simp at hr

theorem discards_step (h : Core s place) (hf : Flags s) (ht : Tags s) (hs : Step s s')
    (hfq : s'.Flushes fq q) (hr : s'.reader = .discarding r fq) : r = q := by
  obtain hold | ⟨-, hnew, -⟩ := flushes_new h ht hs hfq
  swap
  · simp [hnew] at hr
  rcases discarding_step hs hr with hr | ⟨hr, hfind⟩
  · exact ht.discards fq q r hold hr
  · exact searching_find h hf ht hr hold hfind

theorem flush_step (h : Core s place) (hs : Step s s') (hmem : fq ∈ (s'.exqs r).flush) :
    fq ∈ (s.exqs r).flush ∨ (s.reader = .searchwork fq ∧
      s.work.find? (s.names fq) = some r ∧ (s.exqs r).finished = false) := by
  cases hs with
  | receive t hr =>
    simp only [State.receive, State.setq, Function.update_apply] at hmem
    grind [noexq]
  | discard q fq' hr => exact .inl (by rwa [h.discard_eq hr] at hmem)
  | free q hr => exact .inl (by rwa [h.free_eq hr] at hmem)
  | freeflush q fq' hs => exact .inl (by rwa [h.freeflush_eq hs] at hmem)
  | shutexq hr => exact .inl (by rwa [h.shutexq_eq] at hmem)
  | _ =>
    simp only [State.exfreeq, State.setq, State.goto, State.exreply, Function.update_apply] at hmem
    grind

theorem queued_step (h : Core s place) (hf : Flags s) (ht : Tags s) (hs : Step s s')
    (hfq : s'.Flushes fq q) (hmem : fq ∈ (s'.exqs r).flush) (hb : s'.before q) : r = q := by
  have hbefore := before_step h hs hb
  obtain hold | ⟨hnext, -, hreading⟩ := flushes_new h ht hs hfq
  · rcases flush_step h hs hmem with hmem | ⟨hr, hfind, -⟩
    · exact ht.queued fq q r hold hmem hbefore
    · have hq := (searchwork_find h hf ht hr hold hbefore).1
      exact Option.some.inj (hfind.symm.trans hq)
  · rcases flush_step h hs hmem with hmem | ⟨hr, -, -⟩
    · have habsent := (h.absent fq).mp hnext.ge
      simp [(h.flush r fq).mp hmem] at habsent
    · simp [hreading] at hr

theorem replying_step (hs : Step s s') (hr : s'.reader = .replying fq)
    (hflush : s'.isflush fq = true) :
    s.reader = .replying fq ∨ (∃ q, s.reader = .discarding q fq ∧ s' =
      { s.exfreeq q with reader := .replying fq }) ∨
      (s.reader = .searchwork fq ∧ ∀ q, s.work.find? (s.names fq) = some q →
        (s.exqs q).finished = true) := by
  cases hs with
  | receive t hr' =>
    simp only [State.receive, State.setq, State.isflush] at hr hflush
    split at hr
    · simp at hr
    · split_ifs at hr
      obtain rfl := Reader.replying.inj hr
      rename_i hbody _
      simp [hbody, Body.isflush] at hflush
  | discard q fq' hr' =>
    obtain rfl : fq' = fq := by simpa using hr
    exact .inr (.inl ⟨q, hr', rfl⟩)
  | finished fq' q hr' hfind hq =>
    obtain rfl : fq' = fq := by simpa using hr
    refine .inr (.inr ⟨hr', ?_⟩)
    rintro r hr
    obtain rfl := Option.some.inj (hfind.symm.trans hr)
    exact hq
  | missed fq' hr' hfind =>
    obtain rfl : fq' = fq := by simpa using hr
    refine .inr (.inr ⟨hr', ?_⟩)
    simp [hfind]
  | shut q work hr' hw => simp [State.setq, hr'] at hr
  | take q exq hq hr' => exact .inl hr
  | _ => first | exact .inl hr | simp at hr

theorem answering_step (h : Core s place) (hs : Step s s') (hr : s'.slave r = some (.answering fq)) :
    s.slave r = some (.answering fq) ∨
      (∃ flush, (s.exqs r).flush = fq :: flush ∧ s.slave r ≠ none ∧
        ∀ n, s.slave r ≠ some (.answering n)) := by
  cases hs with
  | pop q fq' flush busy p hs hp hf hq =>
    simp only [State.goto, State.setq, Function.update_apply] at hr
    split_ifs at hr with hrq
    · obtain rfl : fq' = fq := by simpa using hr
      subst hrq
      refine .inr ⟨flush, hf, by simp [hs], ?_⟩
      rintro n hn
      rcases hp with rfl | ⟨err, rfl⟩ <;> simp [hs] at hn
    · exact .inl hr
  | receive t hr' => exact .inl hr
  | shutexq hr' => exact .inl (by rwa [h.shutexq_eq] at hr)
  | _ =>
    simp only [State.exfreeq, State.setq, State.goto, State.exreply, Function.update_apply] at hr
    grind

theorem answering_before (h : Core s place) (hs : s.slave q = some (.answering fq)) :
    ¬ s.before q := by
  have hne : s.slave q ≠ none := by simp [hs]
  rw [h.before_iff, (h.served q).mp hne]
  simp [hs, Slave.before]

theorem flushed_step {place' : ℕ → Place} (h : Core s place) (h' : Core s' place')
    (hf : Flags s) (ho' : Once s') (ht : Tags s) (hs : Step s s')
    (hfq : s'.Flushes fq q) (hb : s'.before q) :
    s'.reader ≠ .replying fq ∧ (∀ r, s'.slave r ≠ some (.answering fq)) ∧
      fq ∉ replies s'.log := by
  have hbefore := before_step h hs hb
  have hflush := names_isflush hfq.names
  obtain hold | ⟨-, hsearch, -⟩ := flushes_new h ht hs hfq
  swap
  · have hplace := (h'.reader fq).mp (by simp [hsearch, Reader.holds])
    refine ⟨by simp [hsearch], ?_, ?_⟩
    · intro r hr
      simp [(h'.hand r fq).mp (by simp [hr, Slave.hand])] at hplace
    · intro hr
      exact ho'.sent fq hr (.inr (.inr (.inl ⟨by simp [hsearch, Reader.holds], by simp [hsearch]⟩)))
  obtain ⟨hreplying, hanswering, hsent⟩ := ht.answered fq q hold hbefore
  refine ⟨?_, ?_, ?_⟩
  · intro hr
    rcases replying_step hs hr hflush with hr | ⟨r, hdiscard, rfl⟩ | ⟨hr, hfind⟩
    · exact hreplying hr
    · obtain rfl := ht.discards fq q r hold hdiscard
      rw [h'.before_iff, (h'.gone r).mp (by simp [h.discard_eq hdiscard])] at hb
      exact hb
    · obtain ⟨hq, hfin⟩ := searchwork_find h hf ht hr hold hbefore
      simp [hfind q hq] at hfin
  · intro r hr
    rcases answering_step h hs hr with hr | ⟨flush, hmem, -⟩
    · exact hanswering r hr
    · obtain rfl := ht.queued fq q r hold (by simp [hmem]) hbefore
      exact answering_before h' hr hb
  · intro hr
    rcases replies_step h hs with hlog | ⟨n, hlog, -, hn⟩
    · exact hsent (hlog ▸ hr)
    · rw [hlog, List.mem_append, List.mem_singleton] at hr
      rcases hr with hr | rfl
      · exact hsent hr
      · rcases hn with hn | hn | ⟨r, hn⟩
        · exact hreplying hn
        · have hreq := hf.served fq (by simp [hn])
          simp [names_isflush hold.names] at hreq
        · exact hanswering r hn

theorem older_step {a : Act} (h : Core s place) (ho : Once s) (ht : Tags s)
    (ha : step s a = some s') (hobey : s.obeys a) (hlt : q < r) (hread : r < s'.next)
    (hq : s'.isflush q = false) (hr : s'.isflush r = false)
    (htag : (s'.exqs q).inp.tag = (s'.exqs r).inp.tag) (hb : s'.before q) :
    s'.down ∧ r + 1 = s'.next := by
  have hs := step_step ha
  have hnext := next_step hs
  have hbefore := before_step h hs hb
  have hqn : q ≠ s.next ∨ s'.next = s.next ∨ s'.down := .inl (by omega)
  rw [isflush_step h hs hqn] at hq
  rw [inp_step h hs hqn] at htag
  by_cases hold : r < s.next
  · rw [isflush_step h hs (.inl hold.ne)] at hr
    rw [inp_step h hs (.inl hold.ne)] at htag
    obtain ⟨hdown, hlast⟩ := ht.older q r hlt hold hq hr htag hbefore
    exact ⟨down_step hs hdown, by rw [down_next hs hdown, hlast]⟩
  have hrn : r = s.next := by omega
  rcases new_act ha (by omega) with ⟨t, rfl, rfl⟩ | hdown
  swap
  · exact ⟨hdown, by omega⟩
  -- the tag of a new request is free, so `q` cannot be answered any more
  obtain ⟨tag, body⟩ := t
  subst hrn
  simp only [State.isflush, State.receive, State.setq, Function.update_self] at hr htag
  cases body with
  | flush oldtag => simp [Body.isflush] at hr
  | request mutates =>
    rcases hobey q hlt hq htag with hsent | ⟨fq, hsent, hqf, hnames⟩
    · exact absurd hbefore (ho.sent q hsent)
    · have hf : fq < s.next := by
        by_contra hnot
        exact ho.sent fq hsent (.inl (not_lt.mp hnot))
      obtain ⟨r, hqr, hfr⟩ := exists_flushes hf hqf hq hnames
      obtain rfl := ht.last hfr hqf hq hnames hbefore
      exact absurd hsent (ht.answered fq q hfr hbefore).2.2

theorem tags_step {a : Act} {place' : ℕ → Place} (h : Core s place) (h' : Core s' place')
    (hf : Flags s) (ho : Once s) (ho' : Once s') (ht : Tags s) (ha : step s a = some s')
    (hobey : s.obeys a) : Tags s' := by
  have hs := step_step ha
  refine ⟨?_, ?_, ?_, ?_, ?_, ?_⟩
  · intro n hn
    have hle : s.next ≤ s'.next := by
      rcases next_step hs with hnext | hnext <;> omega
    have hnew : n ≠ s.next ∨ s'.next = s.next ∨ s'.down := by
      by_cases heq : n = s.next
      · exact .inr (.inl (le_antisymm (heq ▸ hn) hle))
      · exact .inl heq
    rw [isflush_step h hs hnew]
    exact ht.fresh n (hle.trans hn)
  · exact fun q r hlt hr hq hreq htag hb => older_step h ho ht ha hobey hlt hr hq hreq htag hb
  · exact fun fq q hfq hr => searched_step h hf ht hs hfq hr
  · exact fun fq q r hfq hr => discards_step h hf ht hs hfq hr
  · exact fun fq q r hfq hmem hb => queued_step h hf ht hs hfq hmem hb
  · exact fun fq q hfq hb => flushed_step h h' hf ho' ht hs hfq hb

end Infernode.Export
