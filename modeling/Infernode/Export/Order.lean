import Infernode.Export.Tags

/-!
# The order of the Rflushes

A flush waits in the queue of the newest request with its tag in `fs->work`, and so
do the later flushes of the same request. While a flush is not answered no later
flush of its request is.
-/

namespace Infernode.Export

variable {s s' : State} {place : ℕ → Place} {n q r fq fq' : ℕ}

def State.waits (s : State) (fq q : ℕ) : Prop :=
  fq ∈ (s.exqs q).flush ∨ s.slave q = some (.answering fq)

def Newest (s : State) : Prop :=
  ∀ fq q, s.waits fq q →
    s.names fq q = true ∧ q < fq ∧ ∀ r ∈ s.work, s.names fq r = true → r < fq → r ≤ q

theorem newest_init (readonly : Bool) : Newest (init readonly) := by
  rintro fq q (hw | hw) <;> simp [init, noexq] at hw

theorem Core.read_lt (h : Core s place) (hn : place n ≠ .absent) : n < s.next := by
  by_contra hnot
  exact hn ((h.absent n).mp (not_lt.mp hnot))

theorem waits_place (h : Core s place) (hw : s.waits fq q) :
    place fq = .flushof q ∨ place fq = .hand q := by
  rcases hw with hw | hw
  · exact .inl ((h.flush q fq).mp hw)
  · exact .inr ((h.hand q fq).mp (by simp [hw, Slave.hand]))

theorem waits_served (h : Core s place) (hw : s.waits fq q) : place q = .served := by
  rcases hw with hw | hw
  · exact h.owner q fq ((h.flush q fq).mp hw)
  · exact (h.served q).mp (by simp [hw])

theorem waits_step (h : Core s place) (hs : Step s s') (hw : s'.waits fq q) :
    s.waits fq q ∨ (s.reader = .searchwork fq ∧ s.work.find? (s.names fq) = some q) := by
  rcases hw with hw | hw
  · rcases flush_step h hs hw with hw | ⟨hr, hfind, -⟩
    · exact .inl (.inl hw)
    · exact .inr ⟨hr, hfind⟩
  · rcases answering_step h hs hw with hw | ⟨flush, hflush, -⟩
    · exact .inl (.inr hw)
    · exact .inl (.inl (by simp [hflush]))

theorem work_step (h : Core s place) (hs : Step s s') (hr : r ∈ s'.work) :
    r ∈ s.work ∨ r ∈ s.exq := by
  cases hs with
  | take q exq hq hr' =>
    rcases List.mem_cons.mp hr with rfl | hr
    · exact .inr (by simp [hq])
    · exact .inl hr
  | shut q work hr' hw => exact .inl (by rw [hw]; exact List.mem_cons_of_mem q hr)
  | unlink q hs hr' => exact .inl (List.mem_of_mem_erase hr)
  | shutexq hr' => exact .inl (by rwa [h.shutexq_eq] at hr)
  | _ => exact .inl hr

theorem newest_step (h : Core s place) (hf : Flags s) (ht : Tags s) (hn : Newest s)
    (hs : Step s s') : Newest s' := by
  intro fq q hw
  have hread : ∀ n, place n ≠ .absent →
      n ≠ s.next ∨ s'.next = s.next ∨ s'.down := fun n hp => .inl (h.read_lt hp).ne
  have hwork : ∀ r ∈ s.work, place r ≠ .absent := fun r hr => by simp [(h.work_served r hr).1]
  have hexq : ∀ r ∈ s.exq, place r ≠ .absent := fun r hr => by simp [(h.queue r).mp hr]
  rcases waits_step h hs hw with hw | ⟨hr, hfind⟩
  · obtain ⟨hnames, hlt, hnewest⟩ := hn fq q hw
    have hplace : place fq ≠ .absent ∧ place fq ≠ .reader := by
      rcases waits_place h hw with hp | hp <;> simp [hp]
    have hserved : place q ≠ .absent := by simp [waits_served h hw]
    refine ⟨by rwa [names_step h hs (hread fq hplace.1) (hread q hserved)], hlt, ?_⟩
    intro r hr hname hrf
    rcases work_step h hs hr with hr | hr
    · rw [names_step h hs (hread fq hplace.1) (hread r (hwork r hr))] at hname
      exact hnewest r hr hname hrf
    · -- a queued request that the flush names was found when the flush searched the queue
      rw [names_step h hs (hread fq hplace.1) (hread r (hexq r hr))] at hname
      have hreq := (hf.queued r hr).1
      obtain ⟨q', -, hq'⟩ := exists_flushes (h.read_lt hplace.1) hrf hreq hname
      obtain rfl := ht.last hq' hrf hreq hname (.inr (.inl hr))
      refine absurd hr (ht.searched fq r hq' ?_)
      intro hsearch
      exact hplace.2 ((h.reader fq).mp (by simp [hsearch, Reader.holds]))
  · have hplace := (h.reader fq).mp (by simp [hr, Reader.holds])
    have hmem := List.mem_of_find?_eq_some hfind
    have hfqread := hread fq (by simp [hplace])
    have hqlt := h.read_lt (hwork q hmem)
    have hlatest := h.latest fq (by simp [hr, Reader.own])
    have hne : q ≠ fq := by
      rintro rfl
      simp [(h.work_served q hmem).1] at hplace
    refine ⟨?_, by omega, ?_⟩
    · rw [names_step h hs hfqread (hread q (hwork q hmem))]
      exact List.find?_some hfind
    · intro r hr' hname _
      rcases work_step h hs hr' with hr' | hr'
      · rw [names_step h hs hfqread (hread r (hwork r hr'))] at hname
        exact find?_max h.work_sorted hfind r hr' hname
      · rw [names_step h hs hfqread (hread r (hexq r hr'))] at hname
        have hreq := (hf.queued r hr').1
        have hrf : r < fq := by
          have := h.read_lt (hexq r hr')
          have hne : r ≠ fq := by
            rintro rfl
            simp [(h.queue r).mp hr'] at hplace
          omega
        obtain ⟨q', -, hq'⟩ := exists_flushes (h.read_lt (by simp [hplace])) hrf hreq hname
        obtain rfl := ht.last hq' hrf hreq hname (.inr (.inl hr'))
        exact absurd hr' (ht.searched fq r hq' (by simp [hr]))

def InOrder (s : State) : Prop :=
  ∀ fq fq' q, fq < fq' → s.Flushes fq q → s.Flushes fq' q → fq ∉ replies s.log →
    fq' ∉ replies s.log ∧ s.reader ≠ .replying fq' ∧ (∀ r, s.reader ≠ .discarding r fq') ∧
      (∀ r, s.slave r ≠ some (.answering fq')) ∧
      ∀ r, fq' ∈ (s.exqs r).flush → s.waits fq r

theorem inorder_init (readonly : Bool) : InOrder (init readonly) :=
  fun fq _ _ _ hf => absurd hf.read (Nat.not_lt_zero fq)

theorem searchwork_waits (h : Core s place) (hf : Flags s) (ho : Once s) (hn : Newest s)
    (hlt : fq < fq') (hfq : s.Flushes fq q) (hfq' : s.Flushes fq' q)
    (hnone : fq ∉ replies s.log) (hr : s.reader = .searchwork fq') :
    ∃ r, s.work.find? (s.names fq') = some r ∧ (s.exqs r).finished = false ∧ s.waits fq r := by
  have hflush := names_isflush hfq.names
  have hdown : ¬ s.down := by simp [State.down, hr]
  have hb : s.before fq := by
    by_contra hnot
    exact (ho.due fq hflush hnot).elim hnone hdown
  have hwaits : ∃ r, s.waits fq r := by
    rcases hb with hb | hb | hb | ⟨r, hb⟩ | ⟨p, hb, -⟩ | ⟨r, hb⟩
    · exact absurd hb (not_le.mpr hfq.read)
    · simp [(hf.queued fq hb).1] at hflush
    · exact absurd (by simpa [hr, Reader.holds] using hb.1) hlt.ne
    · exact ⟨r, .inl hb⟩
    · simp [hf.served fq (by simp [hb])] at hflush
    · exact ⟨r, .inr hb⟩
  obtain ⟨r, hwait⟩ := hwaits
  obtain ⟨hnames, hrlt, hnewest⟩ := hn fq r hwait
  have hserved := waits_served h hwait
  obtain ⟨p, hp⟩ := Option.ne_none_iff_exists'.mp ((h.served r).mpr hserved)
  have hshut : (s.exqs r).shut = false := by
    by_contra hne
    simpa [hr] using hf.shut r (by simpa using hne)
  have hfin : (s.exqs r).finished = false := by
    by_contra hne
    have hempty := hf.empty r p hp (by simpa using hne) hshut
    have hstage := (hf.finished r p hp).mp (by simpa using hne)
    rcases hwait with hwait | hwait
    · simp [hempty] at hwait
    · rw [hp] at hwait
      rcases hstage with rfl | rfl <;> simp at hwait
  have hstage : p ≠ .freeing := by
    rintro rfl
    simp [(hf.finished r _ hp).mpr (.inr rfl)] at hfin
  have hwork := hf.work r p hp hstage hshut
  have hname' : s.names fq' r = true := by rwa [← names_names hfq.names hfq'.names]
  refine ⟨r, ?_, hfin, hwait⟩
  cases hfind : s.work.find? (s.names fq') with
  | none => simpa [hname'] using List.find?_eq_none.mp hfind r hwork
  | some m =>
    have hmem := List.mem_of_find?_eq_some hfind
    have hmserved := (h.work_served m hmem).1
    have hreq := hf.served m ((h.served m).mpr hmserved)
    have hmname : s.names fq' m = true := by simpa using List.find?_some hfind
    have hmread := h.read_lt (n := m) (by simp [hmserved])
    have hne : m ≠ fq' := by
      rintro rfl
      simp [(h.reader m).mp (by simp [hr, Reader.holds])] at hmserved
    have hlatest := h.latest fq' (by simp [hr, Reader.own])
    have hge := find?_max h.work_sorted hfind r hwork hname'
    have hmq : m ≤ q := by
      by_contra hqm
      have hlast := hfq'.last m (not_le.mp hqm) (by omega) hreq
      simp [hlast] at hmname
    have hearlier := hfq.earlier
    have hle := hnewest m hmem (by rwa [names_names hfq.names hfq'.names]) (by omega)
    rw [le_antisymm hle hge]

theorem waits_keep (h : Core s place) (hs : Step s s') (hw : s.waits fq r) :
    s'.waits fq r ∨ replies s'.log = replies s.log ++ [fq] ∨ (s'.exqs r).flush = [] := by
  have hplace := waits_place h hw
  have hserved := waits_served h hw
  cases hs with
  | receive t hr =>
    have hne : r ≠ s.next := (h.read_lt (by simp [hserved])).ne
    exact .inl (by simpa [State.waits, State.receive, State.setq, hne] using hw)
  | discard q fq' hr => exact .inl (by rwa [h.discard_eq hr])
  | free q hr => exact .inl (by rwa [h.free_eq hr])
  | shutexq hr => exact .inl (by rwa [h.shutexq_eq])
  | take q exq hq hr =>
    have hne : r ≠ q := by
      rintro rfl
      simp [(h.queue r).mp (by simp [hq])] at hserved
    exact .inl (by simpa [State.waits, State.setq, State.goto, hne] using hw)
  | pop q fq' flush busy p hs hp hf hq =>
    simp only [State.waits, State.setq, State.goto, Function.update_apply] at *
    grind
  | answering q fq' hs =>
    have hlog : replies ((s.exreply fq').goto q (some (.freeingflush fq'))).log =
        replies s.log ++ [fq'] := by simp [State.exreply, State.goto]
    rw [hlog]
    simp only [State.waits, State.exreply, State.goto, Function.update_apply] at *
    grind
  | freeflush q fq' hs =>
    rw [h.freeflush_eq hs]
    simp only [State.waits, State.goto, Function.update_apply] at *
    grind
  | _ =>
    simp only [State.waits, State.exfreeq, State.setq, State.goto, State.exreply,
      Function.update_apply] at *
    grind

theorem inorder_step {place' : ℕ → Place} (h : Core s place) (h' : Core s' place') (hf : Flags s)
    (ho : Once s) (ho' : Once s') (ht : Tags s) (hn : Newest s) (hi : InOrder s)
    (hs : Step s s') : InOrder s' := by
  intro fq fq' q hlt hfq hfq' hnone
  have hflush := names_isflush hfq'.names
  obtain hold' | ⟨-, hsearch, -⟩ := flushes_new h ht hs hfq'
  swap
  · have hplace := (h'.reader fq').mp (by simp [hsearch, Reader.holds])
    refine ⟨?_, by simp [hsearch], by simp [hsearch], ?_, ?_⟩
    · intro hsent
      exact ho'.sent fq' hsent
        (.inr (.inr (.inl ⟨by simp [hsearch, Reader.holds], by simp [hsearch]⟩)))
    · intro r hr
      simp [(h'.hand r fq').mp (by simp [hr, Slave.hand])] at hplace
    · intro r hr
      simp [(h'.flush r fq').mp hr] at hplace
  have hold : s.Flushes fq q := (flushes_step h hs (hlt.trans hold'.read)).mp hfq
  have hnone' : fq ∉ replies s.log := by
    intro hsent
    rcases replies_step h hs with hlog | ⟨n, hlog, -, -⟩ <;> simp [hlog, hsent] at hnone
  obtain ⟨hsent, hreplying, hdiscarding, hanswering, hwaiting⟩ :=
    hi fq fq' q hlt hold hold' hnone'
  refine ⟨?_, ?_, ?_, ?_, ?_⟩
  · intro hsent'
    rcases replies_step h hs with hlog | ⟨n, hlog, -, hn⟩
    · exact hsent (hlog ▸ hsent')
    · rw [hlog, List.mem_append, List.mem_singleton] at hsent'
      rcases hsent' with hsent' | rfl
      · exact hsent hsent'
      · rcases hn with hn | hn | ⟨r, hn⟩
        · exact hreplying hn
        · have hreq := hf.served fq' (by simp [hn])
          simp [names_isflush hold'.names] at hreq
        · exact hanswering r hn
  · intro hr
    rcases replying_step hs hr hflush with hr | ⟨r, hr, -⟩ | ⟨hr, hfind⟩
    · exact hreplying hr
    · exact hdiscarding r hr
    · obtain ⟨r, hr, hfin, -⟩ := searchwork_waits h hf ho hn hlt hold hold' hnone' hr
      simp [hfind r hr] at hfin
  · intro r hr
    rcases discarding_step hs hr with hr | ⟨hr, hfind⟩
    · exact hdiscarding r hr
    · obtain rfl := searching_find h hf ht hr hold' hfind
      exact ht.searched fq r hold (by simpa [hr] using hlt.ne') (List.mem_of_find?_eq_some hfind)
  · intro r hr
    rcases answering_step h hs hr with hr | ⟨flush, hmem, -, hnot⟩
    · exact hanswering r hr
    · have hsort := h.flush_sorted r
      rw [hmem] at hsort
      rcases hwaiting r (by simp [hmem]) with hw | hw
      · rw [hmem, List.mem_cons] at hw
        rcases hw with rfl | hw
        · exact lt_irrefl _ hlt
        · exact absurd hlt (not_lt.mpr ((List.pairwise_cons.mp hsort).1 fq hw).le)
      · exact hnot fq hw
  · intro r hr
    have hwait : s.waits fq r := by
      rcases flush_step h hs hr with hr | ⟨hr, hfind, -⟩
      · exact hwaiting r hr
      · obtain ⟨m, hm, -, hw⟩ := searchwork_waits h hf ho hn hlt hold hold' hnone' hr
        rwa [Option.some.inj (hfind.symm.trans hm)]
    rcases waits_keep h hs hwait with hw | hlog | hnil
    · exact hw
    · simp [hlog] at hnone
    · simp [hnil] at hr

end Infernode.Export
