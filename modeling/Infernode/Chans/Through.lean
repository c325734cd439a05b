import Infernode.Chans.Offset

/-!
# What a union holds

What is left to read of a union at a position, and what a read takes of it. Reads that go
on until nothing is returned have returned all of it exactly if each had room for the next
entry: the rest of a directory is lost where one had not.
-/

namespace Infernode.Chans

def contents : List Mount → ℕ → List Entry
  | [], _ => []
  | m :: mounts, i => Umc.entries ⟨i, 0⟩ m.readable ++ contents mounts (i + 1)

def through (mounts : List Mount) : Pos → List ℕ → Option (List Entry)
  | _, [] => none
  | p, n :: ns =>
    let (es, p') := unionread mounts p n
    if es = [] then some [] else (through mounts p' ns).map (es ++ ·)

def Fits (mounts : List Mount) : List Entry → Pos → List ℕ → Prop
  | _, _, [] => True
  | l, p, n :: ns =>
    (∀ e ∈ l.head?, e.bytes.length ≤ n) ∧
      ((unionread mounts p n).1 ≠ [] →
        Fits mounts (l.drop (unionread mounts p n).1.length) (unionread mounts p n).2 ns)

variable {mounts rest : List Mount} {m : Mount} {p : Pos} {u : Umc} {n : ℕ} {ns : List ℕ}
  {es out : List Entry}

def Umc.remains (mounts : List Mount) (u : Umc) : List (List UInt8) :=
  (mounts[u.mount]?.elim [] fun m => m.entries.take m.bad).drop u.index

def Umc.left (mounts : List Mount) (u : Umc) : List Entry := u.entries (u.remains mounts)

def contentsfrom (mounts : List Mount) (i : ℕ) : List Entry := contents (mounts.drop i) i

def unread (mounts : List Mount) (p : Pos) : List Entry :=
  p.umc.elim (contentsfrom mounts p.uri) fun u => u.left mounts ++ contentsfrom mounts (p.uri + 1)

def Umc.advance (u : Umc) (n : ℕ) : Umc := { u with index := u.index + n }

theorem entries_append (u : Umc) (a b : List (List UInt8)) :
    u.entries (a ++ b) = u.entries a ++ (u.advance a.length).entries b := by
  simp only [Umc.entries, Umc.advance, List.mapIdx_append]
  congr 2
  funext i e
  congr 1
  omega

theorem length_entries (u : Umc) (l : List (List UInt8)) : (u.entries l).length = l.length := by
  simp [Umc.entries]

theorem umcread_spec (mounts : List Mount) (u : Umc) (n : ℕ) :
    ∃ a, a <+: u.remains mounts ∧ umcread mounts u n = u.entries a ∧
      ∀ e ∈ (u.remains mounts).head?, (a = [] ↔ n < e.length) := by
  cases hm : mounts[u.mount]? with
  | none => exact ⟨[], List.nil_prefix, by simp [umcread, hm], by simp [Umc.remains, hm]⟩
  | some m =>
    have hremains : u.remains mounts = (m.entries.take m.bad).drop u.index := by
      simp [Umc.remains, hm]
    cases hread : m.read u.index n with
    | none =>
      have hbad : m.bad ≤ u.index := by
        unfold Mount.read at hread
        split at hread
        case isTrue h => exact h.1
        case isFalse => cases hread
      have hnil : u.remains mounts = [] := by
        rw [hremains]
        exact List.drop_eq_nil_of_le ((List.length_take_le _ _).trans hbad)
      exact ⟨[], List.nil_prefix, by simp [umcread, hm, hread], by simp [hnil]⟩
    | some es =>
      have hes : es = (u.remains mounts).take (m.gives u.index n) := by
        unfold Mount.read at hread
        split at hread
        · cases hread
        · rw [hremains]
          exact (Option.some.inj hread).symm
      refine ⟨es, hes ▸ List.take_prefix _ _, by simp [umcread, hm, hread], fun e he => ?_⟩
      have hget : (m.entries.take m.bad)[u.index]? = some e := by
        rw [hremains, List.head?_drop] at he
        exact he
      obtain ⟨l, hl⟩ := List.head?_eq_some_iff.mp he
      constructor
      · intro hempty
        by_contra hle
        have hpos := m.goes u.index n e hget (not_lt.mp hle)
        rw [hempty, hl] at hes
        cases hg : m.gives u.index n with
        | zero => omega
        | succ g => simp [hg] at hes
      · intro hlt
        have hfits := m.fits u.index n
        rw [← hremains] at hfits
        cases hg : m.gives u.index n with
        | zero => rw [hes, hg, List.take_zero]
        | succ g =>
          rw [hg, hl, List.take_succ_cons] at hfits
          simp only [total, List.map_cons, List.sum_cons] at hfits
          omega

theorem left_eq (mounts : List Mount) (u : Umc) (n : ℕ) :
    u.left mounts = umcread mounts u n ++
      (u.advance (umcread mounts u n).length).left mounts := by
  obtain ⟨a, hprefix, hread, -⟩ := umcread_spec mounts u n
  have hremains : (u.advance a.length).remains mounts = (u.remains mounts).drop a.length := by
    simp [Umc.remains, Umc.advance]
  rw [hread, length_entries, Umc.left, Umc.left, hremains,
    ← entries_append, List.prefix_iff_eq_append.mp hprefix]

theorem umcread_nil_iff {e : Entry} (he : e ∈ (u.left mounts).head?) :
    umcread mounts u n = [] ↔ n < e.bytes.length := by
  obtain ⟨a, -, hread, hfirst⟩ := umcread_spec mounts u n
  have hnil : umcread mounts u n = [] ↔ a = [] := by
    rw [hread, ← List.length_eq_zero_iff, length_entries, List.length_eq_zero_iff]
  rw [hnil]
  cases hr : u.remains mounts with
  | nil => simp [Umc.left, hr, Umc.entries] at he
  | cons b l =>
    simp only [Umc.left, hr, Umc.entries, List.mapIdx_cons, List.head?_cons, Option.mem_def,
      Option.some.injEq] at he
    subst he
    exact hfirst b (by rw [hr]; rfl)

theorem contentsfrom_cons (h : mounts.drop p.uri = m :: rest) :
    contentsfrom mounts p.uri =
      Umc.entries ⟨p.uri, 0⟩ m.readable ++ contentsfrom mounts (p.uri + 1) := by
  have htail : mounts.drop (p.uri + 1) = rest := by
    rw [← List.tail_drop, h, List.tail_cons]
  rw [contentsfrom, contentsfrom, h, htail, contents]

theorem drop_getElem? (h : mounts.drop p.uri = m :: rest) : mounts[p.uri]? = some m := by
  have hhead := List.head?_drop (l := mounts) (i := p.uri)
  rw [h] at hhead
  exact hhead.symm

theorem unread_current (h : mounts.drop p.uri = m :: rest) (hu : current m p = some u) :
    unread mounts p = u.left mounts ++ contentsfrom mounts (p.uri + 1) := by
  unfold current at hu
  split at hu
  case isFalse => cases hu
  case isTrue hmounted =>
    cases humc : p.umc with
    | some x =>
      rw [humc] at hu
      cases hu
      simp [unread, humc]
    | none =>
      rw [humc, Option.none_or] at hu
      split at hu
      case isFalse => cases hu
      case isTrue hopens =>
        cases hu
        have hleft : Umc.left mounts ⟨p.uri, 0⟩ = Umc.entries ⟨p.uri, 0⟩ m.readable := by
          simp [Umc.left, Umc.remains, drop_getElem? h, Mount.readable, hmounted, hopens]
        rw [hleft, ← contentsfrom_cons h, unread, humc, Option.elim_none]

theorem unread_passed (h : mounts.drop p.uri = m :: rest) (hu : current m p = none) :
    ∃ l, unread mounts p = l ++ contentsfrom mounts (p.uri + 1) ∧ (p.umc = none → l = []) := by
  cases humc : p.umc with
  | some x => exact ⟨x.left mounts, by simp [unread, humc], nofun⟩
  | none =>
    refine ⟨[], ?_, fun _ => rfl⟩
    have hnone : m.readable = [] := by
      unfold current at hu
      rw [humc, Option.none_or] at hu
      unfold Mount.readable
      cases hm : m.mounted <;> cases ho : m.opens <;> simp_all
    rw [unread, humc, Option.elim_none, contentsfrom_cons h, hnone]
    rfl

def Current (mounts : List Mount) (p : Pos) : Prop :=
  ∀ u ∈ p.umc, ∀ m ∈ mounts[p.uri]?, m.mounted = true

theorem current_closed (h : p.umc = none) : Current mounts p := fun u hu => by
  rw [h] at hu
  cases hu

theorem inside_closed (h : p.umc = none) : p.umc ≠ none → p.uri < mounts.length :=
  fun hsome => absurd h hsome

structure Reads (mounts : List Mount) (n : ℕ) (p : Pos) (es : List Entry) (p' : Pos) : Prop where
  suffix : es ++ unread mounts p' <:+ unread mounts p
  stops : es = [] → unread mounts p' = []
  short : ∀ e ∈ (unread mounts p).head?, n < e.bytes.length →
    (es ++ unread mounts p').length < (unread mounts p).length
  whole : Current mounts p → (∀ e ∈ (unread mounts p).head?, e.bytes.length ≤ n) →
    es ++ unread mounts p' = unread mounts p
  current : Current mounts p'
  inside : p'.umc ≠ none → p'.uri < mounts.length

theorem unread_none (i : ℕ) : unread mounts ⟨i, none⟩ = contentsfrom mounts i := rfl

theorem Reads.skip {l : List Entry} {p' : Pos}
    (hl : unread mounts p = l ++ contentsfrom mounts (p.uri + 1))
    (hfirst : ∀ e ∈ l.head?, Current mounts p → n < e.bytes.length)
    (h : Reads mounts n ⟨p.uri + 1, none⟩ es p') : Reads mounts n p es p' := by
  have hsuffix := h.suffix
  rw [unread_none] at hsuffix
  have hle := hsuffix.length_le
  refine ⟨?_, h.stops, fun e he hlt => ?_, fun hcurrent hfits => ?_, h.current, h.inside⟩
  · rw [hl]
    exact hsuffix.trans (List.suffix_append _ _)
  · rw [hl] at he ⊢
    cases l with
    | nil => exact h.short e he hlt
    | cons x l =>
      simp only [List.length_append, List.length_cons] at hle ⊢
      omega
  · rw [hl] at hfits ⊢
    cases l with
    | nil => exact h.whole (fun u hu => absurd hu (by simp)) hfits
    | cons x l =>
      have hx := hfirst x rfl hcurrent
      have hx' := hfits x rfl
      omega

theorem unionloop_reads (h : mounts.drop p.uri = rest)
    (hin : p.umc ≠ none → p.uri < mounts.length) :
    Reads mounts n p (unionloop mounts n rest p).1 (unionloop mounts n rest p).2 := by
  induction rest generalizing p with
  | nil =>
    have hend : mounts.length ≤ p.uri := List.drop_eq_nil_iff.mp h
    have humc : p.umc = none := by
      by_contra hsome
      exact absurd (hin hsome) (not_lt.mpr hend)
    have hnil : unread mounts p = [] := by
      rw [unread, humc, Option.elim_none, contentsfrom, h, contents]
    refine ⟨List.suffix_refl _, fun _ => hnil, fun e he => ?_, fun _ _ => rfl,
      fun u hu => ?_, hin⟩
    · simp [hnil] at he
    · simp [unionloop, humc] at hu
  | cons m rest ih =>
    have hlt : p.uri < mounts.length := by
      by_contra hge
      rw [List.drop_eq_nil_of_le (not_lt.mp hge)] at h
      cases h
    have hnext : mounts.drop (p.uri + 1) = rest := by rw [← List.tail_drop, h, List.tail_cons]
    have hskip := ih (p := ⟨p.uri + 1, none⟩) hnext (by simp)
    have hmount := drop_getElem? h
    cases hu : current m p with
    | none =>
      simp only [unionloop, hu]
      obtain ⟨l, hl, hnone⟩ := unread_passed h hu
      refine hskip.skip hl fun e he hcurrent => ?_
      have hclosed : p.umc = none := by
        by_contra hsome
        obtain ⟨x, hx⟩ := Option.ne_none_iff_exists'.mp hsome
        have hmounted := hcurrent x hx m hmount
        simp [current, hmounted, hx] at hu
      rw [hnone hclosed] at he
      cases he
    | some u =>
      simp only [unionloop, hu]
      have hl := unread_current h hu
      split
      case isTrue hnil => exact hskip.skip hl fun e he _ => (umcread_nil_iff he).mp hnil
      case isFalse hsome =>
        have hrest : umcread mounts u n ++ unread mounts
            ⟨p.uri, some { u with index := u.index + (umcread mounts u n).length }⟩ =
              unread mounts p := by
          rw [hl, left_eq mounts u n, List.append_assoc]
          rfl
        have hmounted : m.mounted = true := by
          unfold current at hu
          split at hu
          · assumption
          · cases hu
        refine ⟨hrest ▸ List.suffix_refl _, fun hnil => absurd hnil hsome, fun e he hlong => ?_,
          fun _ _ => hrest, fun x _ m' hm' => ?_, fun _ => hlt⟩
        · have hleft : u.left mounts ≠ [] := by
            rw [left_eq mounts u n]
            simp [hsome]
          obtain ⟨x, l, hx⟩ := List.exists_cons_of_ne_nil hleft
          have hhead : x ∈ (u.left mounts).head? := by rw [hx]; rfl
          rw [hl, hx] at he
          cases he
          exact absurd ((umcread_nil_iff hhead).mpr hlong) hsome
        · simp only at hm'
          rw [hmount] at hm'
          cases hm'
          exact hmounted

theorem unionread_reads (mounts : List Mount) (n : ℕ) (hin : p.umc ≠ none → p.uri < mounts.length) :
    Reads mounts n p (unionread mounts p n).1 (unionread mounts p n).2 :=
  unionloop_reads rfl hin

theorem through_length (hin : p.umc ≠ none → p.uri < mounts.length)
    (h : through mounts p ns = some out) : out.length ≤ (unread mounts p).length := by
  induction ns generalizing p out with
  | nil => cases h
  | cons n ns ih =>
    have hread := unionread_reads mounts n hin
    simp only [through] at h
    split at h
    · cases h
      exact Nat.zero_le _
    · obtain ⟨out', hout, rfl⟩ := Option.map_eq_some_iff.mp h
      have hle := ih hread.inside hout
      have hsuffix := hread.suffix.length_le
      rw [List.length_append] at hsuffix ⊢
      omega

theorem through_ends (hin : p.umc ≠ none → p.uri < mounts.length)
    (hlen : (unread mounts p).length < ns.length) : (through mounts p ns).isSome := by
  induction ns generalizing p with
  | nil => cases hlen
  | cons n ns ih =>
    have hread := unionread_reads mounts n hin
    simp only [through]
    split
    · rfl
    case isFalse hsome =>
      rw [Option.isSome_map]
      refine ih hread.inside ?_
      have hsuffix := hread.suffix.length_le
      have hpos := List.length_pos_of_ne_nil hsome
      rw [List.length_append] at hsuffix
      rw [List.length_cons] at hlen
      omega

theorem through_iff (hin : p.umc ≠ none → p.uri < mounts.length) (hcurrent : Current mounts p)
    (h : through mounts p ns = some out) :
    out = unread mounts p ↔ Fits mounts (unread mounts p) p ns := by
  induction ns generalizing p out with
  | nil => cases h
  | cons n ns ih =>
    have hread := unionread_reads mounts n hin
    have hwhole := hread.whole hcurrent
    simp only [through] at h
    rw [Fits]
    by_cases hfits : ∀ e ∈ (unread mounts p).head?, e.bytes.length ≤ n
    · have heq := hwhole hfits
      rw [and_iff_right hfits]
      split at h
      case isTrue hnil =>
        cases h
        have hstop := hread.stops hnil
        rw [hnil, hstop] at heq
        simp [hnil, ← heq]
      case isFalse hsome =>
        obtain ⟨out', hout, rfl⟩ := Option.map_eq_some_iff.mp h
        rw [imp_iff_right hsome, ← heq, List.append_cancel_left_eq, List.drop_left]
        exact ih hread.inside hread.current hout
    · refine iff_of_false (fun hall => ?_) fun hclear => hfits hclear.1
      push Not at hfits
      obtain ⟨e, he, hlong⟩ := hfits
      have hshort := hread.short e he hlong
      split at h
      case isTrue hnil =>
        cases h
        rw [← hall] at hshort
        exact absurd hshort (Nat.not_lt_zero _)
      case isFalse hsome =>
        obtain ⟨out', hout, rfl⟩ := Option.map_eq_some_iff.mp h
        have hle := through_length hread.inside hout
        rw [← hall, List.length_append, List.length_append] at hshort
        omega

theorem unionloop_stop (h : mounts.drop p.uri = rest)
    (hin : p.umc ≠ none → p.uri < mounts.length) :
    (unionloop mounts n rest p).1 = [] ∧ (unionloop mounts n rest p).2.umc = none ∧
        mounts.length ≤ (unionloop mounts n rest p).2.uri ∨
      (unionloop mounts n rest p).1 ≠ [] ∧
        ∃ u, (unionloop mounts n rest p).2.umc = some u ∧ 0 < u.index := by
  induction rest generalizing p with
  | nil =>
    have hend : mounts.length ≤ p.uri := List.drop_eq_nil_iff.mp h
    refine .inl ⟨rfl, ?_, hend⟩
    by_contra hsome
    exact absurd (hin hsome) (not_lt.mpr hend)
  | cons m rest ih =>
    have hnext : mounts.drop (p.uri + 1) = rest := by rw [← List.tail_drop, h, List.tail_cons]
    have hskip := ih (p := ⟨p.uri + 1, none⟩) hnext nofun
    cases hu : current m p with
    | none =>
      simp only [unionloop, hu]
      exact hskip
    | some u =>
      simp only [unionloop, hu]
      split
      case isTrue => exact hskip
      case isFalse hsome =>
        refine .inr ⟨hsome, _, rfl, ?_⟩
        have hpos := List.length_pos_of_ne_nil hsome
        simp only
        omega

theorem umcread_pos {e : Entry} (he : e ∈ umcread mounts u n) : e.bytes ≠ [] := by
  obtain ⟨a, hprefix, hread, -⟩ := umcread_spec mounts u n
  rw [hread, Umc.entries, List.mem_mapIdx] at he
  obtain ⟨i, hi, rfl⟩ := he
  have hmem : a[i] ∈ u.remains mounts := hprefix.subset (List.getElem_mem hi)
  unfold Umc.remains at hmem
  cases hm : mounts[u.mount]? with
  | none => simp [hm] at hmem
  | some m =>
    rw [hm] at hmem
    exact m.entry_pos _ (List.mem_of_mem_take (List.mem_of_mem_drop hmem))

theorem unionloop_pos {e : Entry} (he : e ∈ (unionloop mounts n rest p).1) : e.bytes ≠ [] := by
  induction rest generalizing p with
  | nil => simp [unionloop] at he
  | cons m rest ih =>
    cases hu : current m p with
    | none =>
      simp only [unionloop, hu] at he
      exact ih he
    | some u =>
      simp only [unionloop, hu] at he
      split at he
      · exact ih he
      · exact umcread_pos he

theorem size_pos (h : (unionread mounts p n).1 ≠ []) : 0 < size (unionread mounts p n).1 := by
  obtain ⟨e, l, heq⟩ := List.exists_cons_of_ne_nil h
  have hmem : e ∈ (unionread mounts p n).1 := heq ▸ List.mem_cons_self ..
  have hpos := List.length_pos_of_ne_nil (unionloop_pos hmem)
  rw [heq, size, total, List.map_cons, List.map_cons, List.sum_cons]
  omega

end Infernode.Chans
