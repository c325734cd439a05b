import Infernode.Limbo.Utf

/-!
# The event file of `tools9p`

`evread`, `evreply`, `postevent`, `evclunk` and `evflush`, and what the serve loop does with
them. The log has what was asked of the event file and what it answered, in order.
-/

namespace Infernode.Tools.Events

open Lib Limbo

structure Read where
  tag : ℕ
  fid : ℕ
  count : ℤ
  deriving DecidableEq

structure Evfid where
  fid : ℕ
  q : List Str
  rd : Option Read
  deriving DecidableEq

inductive Entry
  | opened (fid : ℕ)
  | asked (m : Read)
  | answered (m : Read) (data : List UInt8)
  | refused (m : Read)
  | posted (w : Str)
  | clunked (fid : ℕ)
  | flushed (tag : ℕ)
  deriving DecidableEq

structure State where
  evfids : List Evfid
  log : List Entry
  deriving DecidableEq

def State.note (s : State) (e : Entry) : State := { s with log := s.log ++ [e] }

def findevfid (fid : ℕ) (l : List Evfid) : Option Evfid := l.find? (·.fid = fid)

def text (q : List Str) : List UInt8 := bytes (q.flatMap (· ++ ['\n']))

def evreply (q : List Str) (m : Read) : Option Entry :=
  let b := text q
  if m.count < b.length then
    if 0 ≤ m.count then some (.answered m (b.take m.count.toNat)) else none
  else some (.answered m b)

/-- `(hd l).rd = m`, and `e.q = nil`, of the entry that `findevfid` finds. -/
def setevfid (fid : ℕ) (f : Evfid → Evfid) : List Evfid → List Evfid
  | [] => []
  | e :: l => if e.fid = fid then f e :: l else e :: setevfid fid f l

def evread (s : State) (m : Read) : Option State :=
  match findevfid m.fid s.evfids with
  | none => some (s.note (.refused m))
  | some e =>
    if e.q = [] then
      some { s with evfids := setevfid m.fid (fun e => { e with rd := some m }) s.evfids }
    else do
      let r ← evreply e.q m
      return { s with
        evfids := setevfid m.fid (fun e => { e with q := [] }) s.evfids }.note r

def postone (w : Str) (e : Evfid) : Option (Evfid × List Entry) := do
  let e := if inlist w e.q then e else { e with q := e.q ++ [w] }
  match e.rd with
  | none => return (e, [])
  | some m =>
    let r ← evreply e.q m
    return ({ e with q := [], rd := none }, [r])

def postall (w : Str) : List Evfid → Option (List Evfid × List Entry)
  | [] => some ([], [])
  | e :: l => do
    let (e, r) ← postone w e
    let (l, rs) ← postall w l
    return (e :: l, r ++ rs)

def postevent (s : State) (w : Str) : Option State := do
  let (l, rs) ← postall w s.evfids
  return ⟨l, s.log ++ rs⟩

def evclunk (s : State) (fid : ℕ) : State :=
  { s with evfids := (s.evfids.filter (·.fid ≠ fid)).reverse }

def evflush (s : State) (tag : ℕ) : State :=
  { s with evfids := s.evfids.map fun e =>
    if e.rd.elim false (·.tag = tag) then { e with rd := none } else e }

inductive Op
  | open (fid : ℕ)
  | read (m : Read)
  | post (w : Str)
  | clunk (fid : ℕ)
  | flush (tag : ℕ)
  deriving DecidableEq

def serve (s : Option State) (op : Op) : Option State := do
  let s ← s
  match op with
  | .open fid => return { s with evfids := ⟨fid, [], none⟩ :: s.evfids }.note (.opened fid)
  | .read m => evread (s.note (.asked m)) m
  | .post w => postevent (s.note (.posted w)) w
  | .clunk fid => return (evclunk s fid).note (.clunked fid)
  | .flush tag => return (evflush s tag).note (.flushed tag)

def start : Option State := some ⟨[], []⟩

/-- What an open fid is owed: each word since it was opened that was not owed already, without
those that were answered with, as whole lines and in their order. -/
inductive Owes (fid : ℕ) : List Entry → List Str → Prop
  | opened {log : List Entry} : Owes fid (log ++ [.opened fid]) []
  | posted {log : List Entry} {q : List Str} {w : Str} (h : Owes fid log q) :
      Owes fid (log ++ [.posted w]) (if w ∈ q then q else q ++ [w])
  | answered {log : List Entry} {ws q : List Str} {m : Read} (h : Owes fid log (ws ++ q))
      (hm : m.fid = fid) : Owes fid (log ++ [.answered m (text ws)]) q
  | other {log : List Entry} {q : List Str} {e : Entry} (h : Owes fid log q)
      (hopen : e ≠ .opened fid) (hclunk : e ≠ .clunked fid) (hpost : ∀ w, e ≠ .posted w)
      (hanswer : ∀ m b, e = .answered m b → m.fid ≠ fid) : Owes fid (log ++ [e]) q

def opens (log : List Entry) : List ℕ :=
  log.foldl (fun fids e => match e with
    | .opened fid => fid :: fids
    | .clunked fid => fids.filter (· ≠ fid)
    | _ => fids) []

def waiting (log : List Entry) : List Read :=
  log.foldl (fun rs e => match e with
    | .asked m => rs ++ [m]
    | .answered m _ => rs.erase m
    | .refused m => rs.erase m
    | .clunked fid => rs.filter (·.fid ≠ fid)
    | .flushed tag => rs.filter (·.tag ≠ tag)
    | _ => rs) []

def Once (log : List Entry) : Prop :=
  ∀ before after m, (∃ b, log = before ++ .answered m b :: after) ∨
    log = before ++ .refused m :: after → m ∈ waiting before

/-- No fid is opened again while it is open, no read comes while one waits on its fid, and what
a read is answered with is no longer than its count. -/
def Allowed (s : Option State) (op : Op) : Prop :=
  ∀ s' ∈ s, match op with
    | .open fid => ∀ e ∈ s'.evfids, e.fid ≠ fid
    | .read m => ∀ e ∈ s'.evfids, e.fid = m.fid → e.rd = none ∧
      (e.q ≠ [] → (text e.q).length ≤ m.count)
    | .post w => ∀ e ∈ s'.evfids, ∀ m ∈ e.rd, (text [w]).length ≤ m.count
    | _ => True

section Log

variable {log : List Entry} {fid : ℕ} {q : List Str} {m : Read} {b : List UInt8}

theorem once_concat {e : Entry} (h : Once log)
    (he : ∀ m, ((∃ b, e = .answered m b) ∨ e = .refused m) → m ∈ waiting log) :
    Once (log ++ [e]) := by
  intro before after m hm
  rcases List.eq_nil_or_concat after with rfl | ⟨after, e', rfl⟩
  · rcases hm with ⟨b, hm⟩ | hm
    · obtain ⟨rfl, hlast⟩ := List.append_inj' hm rfl
      exact he m (.inl ⟨b, List.singleton_injective hlast⟩)
    · obtain ⟨rfl, hlast⟩ := List.append_inj' hm rfl
      exact he m (.inr (List.singleton_injective hlast))
  · refine h before after m (hm.imp (fun ⟨b, hm⟩ => ⟨b, ?_⟩) fun hm => ?_)
    · rw [List.concat_eq_append, ← List.cons_append, ← List.append_assoc] at hm
      exact (List.append_inj' hm rfl).1
    · rw [List.concat_eq_append, ← List.cons_append, ← List.append_assoc] at hm
      exact (List.append_inj' hm rfl).1

@[simp] theorem waiting_concat (log : List Entry) (e : Entry) : waiting (log ++ [e]) =
    match e with
    | .asked m => waiting log ++ [m]
    | .answered m _ => (waiting log).erase m
    | .refused m => (waiting log).erase m
    | .clunked fid => (waiting log).filter (·.fid ≠ fid)
    | .flushed tag => (waiting log).filter (·.tag ≠ tag)
    | _ => waiting log := by
  simp only [waiting, List.foldl_append, List.foldl_cons, List.foldl_nil]

@[simp] theorem opens_concat (log : List Entry) (e : Entry) : opens (log ++ [e]) =
    match e with
    | .opened fid => fid :: opens log
    | .clunked fid => (opens log).filter (· ≠ fid)
    | _ => opens log := by
  simp only [opens, List.foldl_append, List.foldl_cons, List.foldl_nil]

theorem answers {rs : List (Read × List UInt8)} {rest : List Read}
    (hw : (waiting log).Perm (rs.map Prod.fst ++ rest)) (ho : Once log) :
    (waiting (log ++ rs.map fun r => .answered r.1 r.2)).Perm rest ∧
      Once (log ++ rs.map fun r => .answered r.1 r.2) ∧
      opens (log ++ rs.map fun r => .answered r.1 r.2) = opens log := by
  induction rs generalizing log with
  | nil => simpa using ⟨hw, ho⟩
  | cons r rs ih =>
    have hmem : r.1 ∈ waiting log := hw.mem_iff.2 (by simp)
    have hw' : (waiting (log ++ [.answered r.1 r.2])).Perm (rs.map Prod.fst ++ rest) := by
      rw [waiting_concat]
      have := hw.erase r.1
      simpa using this
    have ho' : Once (log ++ [.answered r.1 r.2]) := once_concat ho fun m hm => by
      rcases hm with ⟨b, hm⟩ | hm
      · cases hm
        exact hmem
      · cases hm
    obtain ⟨h₁, h₂, h₃⟩ := ih hw' ho'
    rw [List.append_assoc, List.singleton_append] at h₁ h₂ h₃
    exact ⟨h₁, h₂, by rw [List.map_cons, h₃, opens_concat]⟩

theorem Owes.answers {rs : List (Read × List UInt8)} (h : Owes fid log q)
    (hrs : ∀ r ∈ rs, r.1.fid ≠ fid) :
    Owes fid (log ++ rs.map fun r => .answered r.1 r.2) q := by
  induction rs generalizing log with
  | nil => simpa using h
  | cons r rs ih =>
    have hr : Owes fid (log ++ [.answered r.1 r.2]) q :=
      h.other (by simp) (by simp) (by simp) fun m b he => by
        cases he
        exact hrs r (by simp)
    have := ih hr fun r hr => hrs r (by simp [hr])
    rwa [List.append_assoc, List.singleton_append] at this

end Log

structure Inv (s : State) : Prop where
  fids : (s.evfids.map (·.fid)).Nodup
  opens : (s.evfids.map (·.fid)).Perm (opens s.log)
  owes : ∀ e ∈ s.evfids, Owes e.fid s.log e.q
  rd : ∀ e ∈ s.evfids, ∀ m ∈ e.rd, m.fid = e.fid ∧ e.q = []
  waits : (waiting s.log).Perm (s.evfids.filterMap (·.rd))
  once : Once s.log

variable {s : State}

theorem find_split {fid : ℕ} {l : List Evfid} {e : Evfid} (h : findevfid fid l = some e) :
    e.fid = fid ∧ ∃ l₁ l₂, l = l₁ ++ e :: l₂ ∧ ∀ f, setevfid fid f l = l₁ ++ f e :: l₂ := by
  induction l with
  | nil => simp [findevfid] at h
  | cons e' l ih =>
    by_cases hfid : e'.fid = fid
    · obtain rfl : e' = e := by simpa [findevfid, hfid] using h
      exact ⟨hfid, [], l, rfl, fun f => by simp [setevfid, hfid]⟩
    · obtain ⟨he, l₁, l₂, rfl, hset⟩ := ih (by simpa [findevfid, hfid] using h)
      exact ⟨he, e' :: l₁, l₂, rfl, fun f => by simp [setevfid, hfid, hset]⟩

theorem evreply_whole {q : List Str} {m : Read} (h : (text q).length ≤ m.count) :
    evreply q m = some (.answered m (text q)) := by
  simp only [evreply]
  rw [if_neg (by omega)]

theorem Inv.open (h : Inv s) {fid : ℕ} (hfid : ∀ e ∈ s.evfids, e.fid ≠ fid) :
    Inv ({ s with evfids := ⟨fid, [], none⟩ :: s.evfids }.note (.opened fid)) where
  fids := List.nodup_cons.2 ⟨fun hm => by
    obtain ⟨e, he, heq⟩ := List.mem_map.1 hm
    exact hfid e he heq, h.fids⟩
  opens := by simpa [State.note] using h.opens
  owes := by
    simp only [State.note, List.mem_cons, forall_eq_or_imp]
    exact ⟨.opened, fun e he => (h.owes e he).other (by simpa using (hfid e he).symm) (by simp)
      (by simp) (by simp)⟩
  rd := by
    simp only [State.note, List.mem_cons, forall_eq_or_imp]
    exact ⟨by simp, h.rd⟩
  waits := by simpa [State.note] using h.waits
  once := once_concat h.once (by simp)

theorem Inv.clunk (h : Inv s) (fid : ℕ) : Inv ((evclunk s fid).note (.clunked fid)) where
  fids := by
    simp only [State.note, evclunk, List.map_reverse, List.nodup_reverse]
    exact h.fids.sublist (List.filter_sublist.map _)
  opens := by
    simp only [State.note, evclunk, opens_concat]
    refine List.Perm.trans ((List.reverse_perm _).map _) ?_
    have := h.opens.filter (· ≠ fid)
    rwa [List.filter_map] at this
  owes := by
    simp only [State.note, evclunk, List.mem_reverse, List.mem_filter, decide_eq_true_eq]
    exact fun e he => (h.owes e he.1).other (by simp) (by simpa using he.2.symm) (by simp) (by simp)
  rd := by
    simp only [State.note, evclunk, List.mem_reverse, List.mem_filter]
    exact fun e he => h.rd e he.1
  waits := by
    simp only [State.note, evclunk, waiting_concat]
    refine (h.waits.filter _).trans (List.Perm.trans (.of_eq ?_)
      ((List.reverse_perm _).symm.filterMap _))
    rw [List.filter_filterMap, List.filterMap_filter]
    refine List.filterMap_congr fun e he => ?_
    cases hr : e.rd with
    | none => simp
    | some m =>
      have := (h.rd e he m hr).1
      by_cases hfid : e.fid = fid <;> simp [Option.filter, this, hfid]
  once := once_concat h.once (by simp)

theorem Inv.flush (h : Inv s) (tag : ℕ) : Inv ((evflush s tag).note (.flushed tag)) where
  fids := by
    simp only [State.note, evflush, List.map_map]
    refine (List.map_congr_left fun e _ => ?_) ▸ h.fids
    simp only [Function.comp_apply]
    split_ifs <;> rfl
  opens := by
    simp only [State.note, evflush, opens_concat, List.map_map]
    refine (List.Perm.of_eq (List.map_congr_left fun e _ => ?_)).trans h.opens
    simp only [Function.comp_apply]
    split_ifs <;> rfl
  owes := by
    simp only [State.note, evflush, List.mem_map, forall_exists_index, and_imp,
      forall_apply_eq_imp_iff₂]
    intro e he
    have : Owes e.fid (s.log ++ [.flushed tag]) e.q := (h.owes e he).other (by simp) (by simp) (by simp) (by simp)
    split_ifs <;> exact this
  rd := by
    simp only [State.note, evflush, List.mem_map, forall_exists_index, and_imp,
      forall_apply_eq_imp_iff₂]
    intro e he
    split_ifs
    · simp
    · exact h.rd e he
  waits := by
    simp only [State.note, evflush, waiting_concat]
    refine (h.waits.filter _).trans (.of_eq ?_)
    rw [List.filter_filterMap, List.filterMap_map]
    refine List.filterMap_congr fun e _ => ?_
    cases hr : e.rd with
    | none => simp [hr]
    | some m => by_cases htag : m.tag = tag <;> simp [hr, htag]
  once := once_concat h.once (by simp)

theorem Inv.read (h : Inv s) {m : Read} (hm : ∀ e ∈ s.evfids, e.fid = m.fid → e.rd = none ∧
    (e.q ≠ [] → (text e.q).length ≤ m.count)) :
    ∃ s', evread (s.note (.asked m)) m = some s' ∧ Inv s' ∧
      ∀ e ∈ s.evfids, e.fid = m.fid → e.q ≠ [] →
        s'.log = s.log ++ [.asked m, .answered m (text e.q)] := by
  have howes : ∀ e ∈ s.evfids, Owes e.fid (s.log ++ [.asked m]) e.q := fun e he =>
    (h.owes e he).other (by simp) (by simp) (by simp) (by simp)
  have honce : Once (s.log ++ [.asked m]) := once_concat h.once (by simp)
  have hwaits : (waiting (s.log ++ [.asked m])).Perm (m :: s.evfids.filterMap (·.rd)) := by
    rw [waiting_concat]
    exact (List.perm_append_singleton _ _).trans (h.waits.cons m)
  cases hfind : findevfid m.fid s.evfids with
  | none =>
    have hno : ∀ e ∈ s.evfids, e.fid ≠ m.fid := by simpa [findevfid] using hfind
    refine ⟨_, by simp only [evread, State.note, hfind]; rfl, ?_, fun e he heq =>
      absurd heq (hno e he)⟩
    refine ⟨h.fids, by simpa only [opens_concat] using h.opens, fun e he => ?_, h.rd, ?_, ?_⟩
    · exact (howes e he).other (by simp) (by simp) (by simp) (by simp)
    · rw [waiting_concat]
      simpa using hwaits.erase m
    · refine once_concat honce fun m' hm' => ?_
      rcases hm' with ⟨b, hm'⟩ | hm'
      · cases hm'
      · cases hm'
        exact hwaits.mem_iff.2 (by simp)
  | some e =>
    obtain ⟨hefid, l₁, l₂, hl, hset⟩ := find_split hfind
    have hmem : e ∈ s.evfids := by simp [hl]
    obtain ⟨hrd, hlen⟩ := hm e hmem hefid
    have huniq : ∀ e' ∈ l₁ ++ l₂, e'.fid ≠ e.fid := by
      have := h.fids
      rw [hl, List.map_append, List.map_cons, List.nodup_middle, List.nodup_cons,
        ← List.map_append] at this
      exact fun e' he' heq => this.1 (heq ▸ List.mem_map_of_mem he')
    have hmem' : ∀ e' ∈ l₁ ++ l₂, e' ∈ s.evfids := fun e' he' => by
      rw [hl]
      rcases List.mem_append.1 he' with he' | he' <;> simp [he']
    by_cases hq : e.q = []
    · refine ⟨_, by simp only [evread, State.note, hfind, hq, if_true]; rfl, ?_, fun e' he' heq =>
        ?_⟩
      · simp only [hset]
        refine ⟨?_, ?_, ?_, ?_, ?_, honce⟩
        · simpa [hl] using h.fids
        · simpa [hl] using h.opens
        · intro e' he'
          rcases List.mem_append.1 he' with he' | he'
          · exact howes e' (hmem' e' (by simp [he']))
          · rcases List.mem_cons.1 he' with rfl | he'
            · exact howes e hmem
            · exact howes e' (hmem' e' (by simp [he']))
        · intro e' he'
          rcases List.mem_append.1 he' with he' | he'
          · exact h.rd e' (hmem' e' (by simp [he']))
          · rcases List.mem_cons.1 he' with rfl | he'
            · rintro m' ⟨⟩
              exact ⟨hefid.symm, hq⟩
            · exact h.rd e' (hmem' e' (by simp [he']))
        · refine hwaits.trans ?_
          rw [hl, List.filterMap_append, List.filterMap_append, List.filterMap_cons, hrd]
          simpa using List.perm_middle.symm
      · by_cases he : e' = e
        · subst he
          exact fun hne => absurd hq hne
        · refine absurd (heq.trans hefid.symm) (huniq e' ?_)
          rw [hl] at he'
          simp only [List.mem_append, List.mem_cons] at he' ⊢
          tauto
    · refine ⟨_, by
        simp only [evread, State.note, hfind, if_neg hq, evreply_whole (hlen hq)]; rfl, ?_,
        fun e' he' heq _ => ?_⟩
      · simp only [hset]
        refine ⟨?_, ?_, ?_, ?_, ?_, ?_⟩
        · simpa [hl, State.note] using h.fids
        · simp only [opens_concat]
          simpa [hl] using h.opens
        · intro e' he'
          rcases List.mem_append.1 he' with he' | he'
          · exact (howes e' (hmem' e' (by simp [he']))).other (by simp) (by simp) (by simp)
              fun m' b hm' => by
                cases hm'
                exact hefid ▸ (huniq e' (by simp [he'])).symm
          · rcases List.mem_cons.1 he' with rfl | he'
            · have := howes e hmem
              rw [← List.append_nil e.q] at this
              exact this.answered hefid.symm
            · exact (howes e' (hmem' e' (by simp [he']))).other (by simp) (by simp) (by simp)
                fun m' b hm' => by
                  cases hm'
                  exact hefid ▸ (huniq e' (by simp [he'])).symm
        · intro e' he'
          rcases List.mem_append.1 he' with he' | he'
          · exact h.rd e' (hmem' e' (by simp [he']))
          · rcases List.mem_cons.1 he' with rfl | he'
            · simp [hrd]
            · exact h.rd e' (hmem' e' (by simp [he']))
        · simp only
          rw [waiting_concat]
          refine List.Perm.trans (by simpa using hwaits.erase m) (.of_eq ?_)
          rw [hl]
          simp [hrd]
        · refine once_concat honce fun m' hm' => ?_
          rcases hm' with ⟨b, hm'⟩ | hm'
          · cases hm'
            exact hwaits.mem_iff.2 (by simp)
          · cases hm'
      · obtain rfl : e' = e := by
          by_contra he
          refine huniq e' ?_ (heq.trans hefid.symm)
          rw [hl] at he'
          simp only [List.mem_append, List.mem_cons] at he' ⊢
          tauto
        simp

def told (w : Str) (e : Evfid) : Evfid :=
  if e.rd = none then { e with q := if w ∈ e.q then e.q else e.q ++ [w] }
  else { e with q := [], rd := none }

def reply (w : Str) (e : Evfid) : List (Read × List UInt8) := (e.rd.map (·, text [w])).toList

theorem postone_eq {w : Str} {e : Evfid} (hq : ∀ m ∈ e.rd, e.q = [])
    (hw : ∀ m ∈ e.rd, (text [w]).length ≤ m.count) :
    postone w e = some (told w e, (reply w e).map fun r => .answered r.1 r.2) := by
  cases hr : e.rd with
  | none =>
    obtain ⟨fid, q, rd⟩ := e
    obtain rfl : rd = none := hr
    by_cases hmem : w ∈ q <;> simp [postone, told, reply, inlist_iff, hmem]
  | some m =>
    have hnil := hq m hr
    have hreply := evreply_whole (hw m hr)
    simp [postone, told, reply, hr, hnil, inlist, hreply]

theorem postall_eq {w : Str} {l : List Evfid} (hq : ∀ e ∈ l, ∀ m ∈ e.rd, e.q = [])
    (hw : ∀ e ∈ l, ∀ m ∈ e.rd, (text [w]).length ≤ m.count) : postall w l =
      some (l.map (told w), (l.flatMap (reply w)).map fun r => .answered r.1 r.2) := by
  induction l with
  | nil => rfl
  | cons e l ih =>
    simp [postall, postone_eq (hq e (by simp)) (hw e (by simp)),
      ih (fun e he => hq e (by simp [he])) fun e he => hw e (by simp [he])]

theorem Inv.post (h : Inv s) {w : Str}
    (hw : ∀ e ∈ s.evfids, ∀ m ∈ e.rd, (text [w]).length ≤ m.count) :
    ∃ s', postevent (s.note (.posted w)) w = some s' ∧ Inv s' := by
  have hpost := postall_eq (fun e he m hm => (h.rd e he m hm).2) hw
  have hwaits : (waiting (s.log ++ [.posted w])).Perm
      ((s.evfids.flatMap (reply w)).map Prod.fst ++ []) := by
    rw [waiting_concat, List.append_nil]
    refine h.waits.trans (.of_eq ?_)
    rw [List.map_flatMap, List.filterMap_eq_flatMap_toList]
    congr 1
    funext e
    cases hr : e.rd <;> simp [reply, hr]
  have honce : Once (s.log ++ [.posted w]) := once_concat h.once (by simp)
  obtain ⟨hwaits', honce', hopens'⟩ := answers hwaits honce
  have hfid : ∀ e, (told w e).fid = e.fid := fun e => by
    simp only [told]
    split_ifs <;> rfl
  have howes : ∀ e ∈ s.evfids, Owes e.fid (s.log ++ [.posted w] ++
      (s.evfids.flatMap (reply w)).map fun r => .answered r.1 r.2) (told w e).q := fun e hmem => by
    obtain ⟨l₁, l₂, hl⟩ := List.append_of_mem hmem
    have huniq : ∀ e' ∈ l₁ ++ l₂, ∀ r ∈ reply w e', r.1.fid ≠ e.fid := by
      have hn := h.fids
      rw [hl, List.map_append, List.map_cons, List.nodup_middle, List.nodup_cons,
        ← List.map_append] at hn
      intro e' he' r hr heq
      obtain ⟨m, hm, rfl⟩ : ∃ m, e'.rd = some m ∧ r = (m, text [w]) := by
        simpa [reply, eq_comm] using hr
      have hmem' : e' ∈ s.evfids := by
        rw [hl]
        rcases List.mem_append.1 he' with he' | he' <;> simp [he']
      exact hn.1 (((h.rd e' hmem' m hm).1.symm.trans heq) ▸ List.mem_map_of_mem he')
    rw [hl, List.flatMap_append, List.flatMap_cons, List.map_append, List.map_append,
      ← List.append_assoc, ← List.append_assoc]
    refine Owes.answers ?_ fun r hr => ?_
    · have hposted : Owes e.fid (s.log ++ [.posted w] ++ (l₁.flatMap (reply w)).map fun r =>
          .answered r.1 r.2) (if w ∈ e.q then e.q else e.q ++ [w]) :=
        ((h.owes e hmem).posted).answers fun r hr => by
          obtain ⟨e', he', hr⟩ := List.mem_flatMap.1 hr
          exact huniq e' (by simp [he']) r hr
      cases hr : e.rd with
      | none => simpa [reply, told, hr] using hposted
      | some m =>
        have hmfid := (h.rd e hmem m hr).1
        have hq := (h.rd e hmem m hr).2
        rw [hq, if_neg (List.not_mem_nil), List.nil_append] at hposted
        have : Owes e.fid (s.log ++ [.posted w] ++ ((l₁.flatMap (reply w)).map fun r =>
            .answered r.1 r.2) ++ [.answered m (text [w])]) [] :=
          Owes.answered (by simpa using hposted) hmfid
        simpa [reply, told, hr] using this
    · obtain ⟨e', he', hr⟩ := List.mem_flatMap.1 hr
      exact huniq e' (by simp [he']) r hr
  refine ⟨⟨s.evfids.map (told w), _⟩, by simp only [postevent, State.note, hpost]; rfl, ?_, ?_,
    fun e he => ?_, fun e he => ?_, ?_, honce'⟩
  · simpa [Function.comp_def, hfid] using h.fids
  · rw [hopens', opens_concat]
    simpa [Function.comp_def, hfid] using h.opens
  · obtain ⟨e, hmem, rfl⟩ := List.mem_map.1 he
    exact hfid e ▸ howes e hmem
  · obtain ⟨e, hmem, rfl⟩ := List.mem_map.1 he
    by_cases hr : e.rd = none <;> simp [told, hr]
  · refine hwaits'.trans (.of_eq ?_)
    rw [List.filterMap_map]
    refine (List.filterMap_eq_nil_iff.2 fun e _ => ?_).symm
    by_cases hr : e.rd = none <;> simp [told, hr]

/-- In every run of what is allowed, the loop goes on, and each open fid is owed just what its
queue holds; the reads that wait are those that are not answered, nothing is owed to one that
waits, and the next read of a fid that is owed something is answered with all of it. -/
theorem events_delivered (ops : List Op) (h : Always serve Allowed start ops) :
    ∃ s, ops.foldl serve start = some s ∧ (s.evfids.map (·.fid)).Perm (opens s.log) ∧
      (opens s.log).Nodup ∧ (waiting s.log).Perm (s.evfids.filterMap (·.rd)) ∧ Once s.log ∧
      ∀ e ∈ s.evfids, Owes e.fid s.log e.q ∧ (∀ m ∈ e.rd, m.fid = e.fid ∧ e.q = []) ∧
        ∀ m, Allowed (some s) (.read m) → m.fid = e.fid → e.q ≠ [] →
          ∃ s', serve (some s) (.read m) = some s' ∧
            s'.log = s.log ++ [.asked m, .answered m (text e.q)] := by
  have hinv : ∃ s, ops.foldl serve start = some s ∧ Inv s := by
    refine h.invariant (fun o => ∃ s, o = some s ∧ Inv s) ?_ ⟨⟨[], []⟩, rfl, ?_⟩
    · rintro _ op ⟨s, rfl, hs⟩ hop
      have hop := hop s rfl
      cases op with
      | «open» fid => exact ⟨_, rfl, hs.open hop⟩
      | read m =>
        obtain ⟨s', hs', hinv, -⟩ := hs.read hop
        exact ⟨s', hs', hinv⟩
      | post w => exact hs.post hop
      | clunk fid => exact ⟨_, rfl, hs.clunk fid⟩
      | flush tag => exact ⟨_, rfl, hs.flush tag⟩
    · exact ⟨by simp, .refl _, by simp, by simp, .refl _, fun before after m hm => by
        rcases hm with ⟨b, hm⟩ | hm <;> simp at hm⟩
  obtain ⟨s, hs, hinv⟩ := hinv
  refine ⟨s, hs, hinv.opens, hinv.opens.nodup_iff.1 hinv.fids, hinv.waits, hinv.once,
    fun e he => ⟨hinv.owes e he, hinv.rd e he, fun m hm hfid hq => ?_⟩⟩
  obtain ⟨s', hs', -, hlog⟩ := hinv.read (hm s rfl)
  exact ⟨s', hs', hlog e he hfid.symm hq⟩

theorem events_delivered_once : ∃ s,
    [Op.open 1, .read ⟨1, 1, 100⟩, .post "tools"].foldl serve start = some s ∧
      (s.evfids.map (·.fid)).Perm (opens s.log) ∧ (opens s.log).Nodup ∧
      (waiting s.log).Perm (s.evfids.filterMap (·.rd)) ∧ Once s.log ∧
      ∀ e ∈ s.evfids, Owes e.fid s.log e.q ∧ (∀ m ∈ e.rd, m.fid = e.fid ∧ e.q = []) ∧
        ∀ m, Allowed (some s) (.read m) → m.fid = e.fid → e.q ≠ [] →
          ∃ s', serve (some s) (.read m) = some s' ∧
            s'.log = s.log ++ [.asked m, .answered m (text e.q)] := by
  refine events_delivered _ ⟨?_, ?_, ?_, trivial⟩
  · rintro s ⟨⟩
    simp
  · rintro s ⟨⟩
    simp [State.note]
  · rintro s ⟨⟩
    simp [setevfid, State.note]
    decide

/-- A second read takes the place of the first, which is not answered; and a read of three bytes
is all that a word is answered with. -/
theorem read_replaced :
    (∃ s, [Op.open 1, .read ⟨1, 1, 100⟩, .read ⟨2, 1, 100⟩, .post "tools"].foldl serve start =
      some s ∧ waiting s.log = [⟨1, 1, 100⟩] ∧ s.evfids = [⟨1, [], none⟩]) ∧
    ∃ s, [Op.open 1, .post "tools", .read ⟨1, 1, 3⟩].foldl serve start = some s ∧
      .answered ⟨1, 1, 3⟩ (bytes "too") ∈ s.log ∧ s.evfids = [⟨1, [], none⟩] := by
  exact ⟨⟨_, rfl, by decide, by decide⟩, ⟨_, rfl, by decide, by decide⟩⟩

end Infernode.Tools.Events
