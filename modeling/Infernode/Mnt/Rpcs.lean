import Infernode.Lib.Runs
import Infernode.Mnt.Tags

/-!
# Records of 9P requests

`mntralloc` and `mntfree` of `devmnt.c` over `mntalloc`. The records that were handed out
are kept beside it, since what the tags and counters say is about them. A call comes with
whether its allocations succeed.
-/

namespace Infernode.Mnt

open Lib

/-- `p` is where the record is. `orphan` is set by other code, on records in use. -/
structure Mntrpc where
  p : ℕ
  tag : ℕ
  rpclen : ℕ
  orphan : ℕ
  deriving DecidableEq

structure State where
  tagmask : Tagmask
  rpcfree : List Mntrpc
  nrpcfree : ℤ
  nrpcused : ℤ
  used : List Mntrpc
  /-- Where the next record that is allocated will be. -/
  heap : ℕ

def mntinit : State :=
  { tagmask := inittags, rpcfree := [], nrpcfree := 0, nrpcused := 0, used := [], heap := 0 }

def uint (n : ℕ) : ℕ := n % 2 ^ 32

def State.use (s : State) (r : Mntrpc) : State :=
  { s with nrpcused := s.nrpcused + 1, used := { r with orphan := 0 } :: s.used }

def mntralloc (s : State) (msize : ℕ) (header buffer : Bool) : State :=
  match s.rpcfree with
  | [] =>
    if ¬header then s
    else if ¬buffer then s
    else
      let (tag, tagmask) := alloctag s.tagmask
      if tag = NOTAG then { s with tagmask := tagmask }
      else
        { s with tagmask := tagmask, heap := s.heap + 1 }.use ⟨s.heap, tag, uint msize, 0⟩
  | r :: rest =>
    let s := { s with rpcfree := rest, nrpcfree := s.nrpcfree - 1 }
    if r.rpclen < msize then
      if ¬buffer then { s with nrpcused := s.nrpcused - 1 }
      else s.use { r with rpclen := uint msize }
    else s.use r

def State.drop (s : State) (p : ℕ) : State := { s with used := s.used.filter (·.p ≠ p) }

def mntfree (s : State) (r : Mntrpc) : State :=
  if r.orphan = 1 then
    { s with used := s.used.map fun q => if q.p = r.p then { q with orphan := 2 } else q }
  else
    let s := s.drop r.p
    let s :=
      if s.nrpcfree ≥ 10 then { s with tagmask := freetag s.tagmask r.tag }
      else { s with rpcfree := r :: s.rpcfree, nrpcfree := s.nrpcfree + 1 }
    { s with nrpcused := s.nrpcused - 1 }

inductive Call
  | alloc (msize : ℕ) (header buffer : Bool)
  | free (p : ℕ)
  | orphan (p orphan : ℕ)

def step (s : State) : Call → State
  | .alloc msize header buffer => mntralloc s msize header buffer
  | .free p => (s.used.find? (·.p = p)).elim s (mntfree s)
  | .orphan p orphan =>
    { s with used := s.used.map fun q => if q.p = p then { q with orphan := orphan } else q }

def State.live (s : State) : List Mntrpc := s.used ++ s.rpcfree

/-- The accounts: a bit for exactly one record that carries its tag, tags handed out that
are neither reserved nor in use, and the numbers of records. -/
structure Holds (s : State) : Prop where
  tags : ∀ t < 65536, t ≠ 0 → t ≠ NOTAG →
    (s.live.map (·.tag)).count t = if held s.tagmask t then 1 else 0
  fresh : (alloctag s.tagmask).1 ≠ 0 ∧
    if (alloctag s.tagmask).1 = NOTAG then
      ∀ t < 65536, t ≠ 0 → t ≠ NOTAG → t ∈ s.live.map (·.tag)
    else (alloctag s.tagmask).1 ∉ s.live.map (·.tag)
  nused : s.nrpcused = s.used.length
  nfree : s.nrpcfree = s.rpcfree.length

def Clear (s : State) : Call → Prop
  | .alloc msize _ buffer => ∀ r ∈ s.rpcfree.head?, r.rpclen < msize → buffer = true
  | _ => True

def Meets (s : State) (c : Call) : Prop := Holds (step s c)

variable {s : State} {r : Mntrpc} {tagmask : Tagmask} {heap t p : ℕ} {l l' : List (ℕ × ℕ)}

def Mntrpc.key (r : Mntrpc) : ℕ × ℕ := (r.p, r.tag)

structure Tagged (tagmask : Tagmask) (heap : ℕ) (l : List (ℕ × ℕ)) : Prop where
  tags : ∀ t < 65536, t ≠ 0 → t ≠ NOTAG →
    (l.map (·.2)).count t = if held tagmask t then 1 else 0
  range : ∀ x ∈ l, x.2 < 65536 ∧ x.2 ≠ 0 ∧ x.2 ≠ NOTAG
  places : (l.map (·.1)).Nodup
  below : ∀ x ∈ l, x.1 < heap

theorem Tagged.perm (h : Tagged tagmask heap l) (hp : l.Perm l') : Tagged tagmask heap l' where
  tags t ht h0 hn := by rw [← (hp.map _).count_eq t]; exact h.tags t ht h0 hn
  range x hx := h.range x (hp.mem_iff.mpr hx)
  places := (hp.map _).nodup_iff.mp h.places
  below x hx := h.below x (hp.mem_iff.mpr hx)

theorem Tagged.cons (h : Tagged tagmask heap l) (ht : t < 65536) (h0 : t ≠ 0) (hn : t ≠ NOTAG)
    (hfree : held tagmask t = false) :
    Tagged (Function.update tagmask (t / 32) (tagmask (t / 32) ||| bit (t % 32))) (heap + 1)
      ((heap, t) :: l) where
  tags t' ht' h0' hn' := by
    have hheld := held_set tagmask t' ht
    rw [List.map_cons, List.count_cons, h.tags t' ht' h0' hn']
    rcases eq_or_ne t' t with rfl | hne
    · simp [hfree, hheld]
    · have hiff : held (Function.update tagmask (t / 32) (tagmask (t / 32) ||| bit (t % 32))) t' =
          held tagmask t' := Bool.eq_iff_iff.mpr (hheld.trans (or_iff_left hne))
      simp [hiff, hne.symm]
  range x hx := by
    rcases List.mem_cons.mp hx with rfl | hx
    · exact ⟨ht, h0, hn⟩
    · exact h.range x hx
  places := by
    refine List.nodup_cons.mpr ⟨fun hmem => ?_, h.places⟩
    obtain ⟨x, hx, heq⟩ := List.mem_map.mp hmem
    simp only at heq
    exact absurd (h.below x hx) (by omega)
  below x hx := by
    rcases List.mem_cons.mp hx with rfl | hx
    · exact Nat.lt_succ_self heap
    · exact (h.below x hx).trans (Nat.lt_succ_self heap)

theorem Tagged.uncons (h : Tagged tagmask heap ((p, t) :: l)) :
    Tagged (freetag tagmask t) heap l where
  tags t' ht' h0' hn' := by
    have hheld := held_freetag tagmask t t'
    have hcount := h.tags t' ht' h0' hn'
    rw [List.map_cons, List.count_cons] at hcount
    rcases eq_or_ne t' t with rfl | hne
    · have hclear : held (freetag tagmask t') t' = false := by
        rw [← Bool.not_eq_true, hheld]
        exact fun h => h.2 rfl
      rw [hclear]
      simp only [BEq.rfl, if_true] at hcount
      split at hcount <;> simp_all
    · have hiff : held (freetag tagmask t) t' = held tagmask t' :=
        Bool.eq_iff_iff.mpr (hheld.trans (and_iff_left hne))
      rw [hiff, ← hcount]
      simp [hne.symm]
  range x hx := h.range x (List.mem_cons_of_mem _ hx)
  places := (List.nodup_cons.mp h.places).2
  below x hx := h.below x (List.mem_cons_of_mem _ hx)

structure Sound (s : State) : Prop where
  tagged : Tagged s.tagmask s.heap (s.live.map Mntrpc.key)
  ext : Extends s.tagmask
  zero : held s.tagmask 0 = true
  notag : held s.tagmask NOTAG = true
  nused : s.nrpcused = s.used.length
  nfree : s.nrpcfree = s.rpcfree.length

theorem Sound.holds (h : Sound s) : Holds s := by
  have hmap : (s.live.map Mntrpc.key).map (·.2) = s.live.map (·.tag) := by
    simp [Mntrpc.key, Function.comp_def]
  have htags := hmap ▸ h.tagged.tags
  refine ⟨htags, ?_, h.nused, h.nfree⟩
  constructor
  · intro hzero
    have hfree := (alloctag_some h.ext (by rw [hzero]; decide)).1
    rw [hzero, h.zero] at hfree
    cases hfree
  · split
    case isTrue hnone =>
      intro t ht h0 hn
      have hall := (alloctag_none h.ext h.notag hnone).2 t ht
      have hcount := htags t ht h0 hn
      rw [hall, if_pos rfl] at hcount
      exact List.count_pos_iff.mp (by omega)
    case isFalse hsome =>
      intro hmem
      obtain ⟨hfree, hlt, -⟩ := alloctag_some h.ext hsome
      obtain ⟨r, hr, heq⟩ := List.mem_map.mp hmem
      obtain ⟨-, h0, hn⟩ := h.tagged.range _ (List.mem_map_of_mem (f := Mntrpc.key) hr)
      simp only [Mntrpc.key] at h0 hn
      rw [heq] at h0 hn
      have hcount := htags _ hlt h0 hn
      rw [hfree, if_neg (by simp)] at hcount
      exact List.count_eq_zero.mp hcount hmem

theorem inittags_word (i : ℕ) :
    inittags i = if i = 2047 then 0x80000000 else if i = 0 then 1 else 0 := by
  have hmask : NMASK - 1 = 2047 := rfl
  rw [inittags, hmask, Function.update_apply, Function.update_apply]

theorem inittags_get (t : ℕ) :
    held inittags t = true ↔ t = 0 ∨ t = NOTAG := by
  have hlow : ∀ k < 32, (1 : BitVec 64).getLsbD k = decide (k = 0) := by decide
  have hhigh : ∀ k < 32, (0x80000000 : BitVec 64).getLsbD k = decide (k = 31) := by decide
  have hk := Nat.mod_lt t (show 32 > 0 by norm_num)
  have hnotag : NOTAG = 65535 := rfl
  rw [held, inittags_word]
  split
  · rw [hhigh _ hk, decide_eq_true_iff]
    omega
  split
  · rw [hlow _ hk, decide_eq_true_iff]
    omega
  · simp only [BitVec.ofNat_eq_ofNat, BitVec.getLsbD_zero, Bool.false_eq_true, false_iff]
    omega

theorem inittags_extends : Extends inittags := by
  intro i k hk hclear
  rw [inittags_word] at hclear ⊢
  split at hclear
  · exact absurd hclear (by decide)
  · rw [if_neg ‹_›]
    split
    · rw [BitVec.ofNat_eq_ofNat, BitVec.getLsbD_one]
      simp only [Nat.zero_lt_succ, decide_true, Bool.true_and, decide_eq_false_iff_not]
      omega
    · exact BitVec.getLsbD_zero

theorem mntinit_sound : Sound mntinit where
  tagged :=
    { tags := fun t ht h0 hn => by
        have hclear : held inittags t = false := by
          rw [← Bool.not_eq_true, inittags_get t]
          tauto
        simp [mntinit, State.live, hclear]
      range := nofun
      places := List.nodup_nil
      below := nofun }
  ext := inittags_extends
  zero := (inittags_get 0).mpr (.inl rfl)
  notag := (inittags_get NOTAG).mpr (.inr rfl)
  nused := rfl
  nfree := rfl

theorem Sound.keys {s' : State} (h : Sound s) (htagmask : s'.tagmask = s.tagmask)
    (hheap : s'.heap = s.heap) (hkeys : (s.live.map Mntrpc.key).Perm (s'.live.map Mntrpc.key))
    (hused : s'.nrpcused = s'.used.length) (hfree : s'.nrpcfree = s'.rpcfree.length) :
    Sound s' where
  tagged := htagmask ▸ hheap ▸ h.tagged.perm hkeys
  ext := htagmask ▸ h.ext
  zero := htagmask ▸ h.zero
  notag := htagmask ▸ h.notag
  nused := hused
  nfree := hfree

theorem Sound.reuse {rest : List Mntrpc} {rpclen : ℕ} (h : Sound s)
    (hfree : s.rpcfree = r :: rest) :
    Sound ({ s with rpcfree := rest, nrpcfree := s.nrpcfree - 1 }.use
      { r with rpclen := rpclen }) := by
  have hnfree := h.nfree
  have hnused := h.nused
  refine h.keys rfl rfl ?_ ?_ ?_
  · simp only [State.live, State.use, hfree, List.map_append, List.map_cons, List.cons_append,
      Mntrpc.key]
    exact List.perm_middle
  · simp only [State.use, List.length_cons]
    omega
  · simp only [State.use]
    simp only [hfree, List.length_cons] at hnfree
    omega

theorem Sound.alloc {msize : ℕ} {header buffer : Bool} (h : Sound s)
    (hclear : Clear s (.alloc msize header buffer)) : Sound (mntralloc s msize header buffer) := by
  unfold mntralloc
  split
  case h_1 hnil =>
    split
    · exact h
    split
    · exact h
    simp only
    split
    case isTrue hnone =>
      have hsame := (alloctag_none h.ext h.notag hnone).1
      exact h.keys hsame rfl (List.Perm.refl _) h.nused h.nfree
    case isFalse hsome =>
      obtain ⟨hfree, hlt, hset⟩ := alloctag_some h.ext hsome
      have h0 : (alloctag s.tagmask).1 ≠ 0 := h.holds.fresh.1
      have hnused := h.nused
      have htagged := h.tagged.cons hlt h0 hsome hfree
      have hext := h.ext.set (t := (alloctag s.tagmask).1)
      have hzero := (held_set _ _ hlt).mpr (.inl h.zero)
      have hnotag := (held_set _ _ hlt).mpr (.inl h.notag)
      rw [← hset] at htagged hext hzero hnotag
      refine ⟨htagged, hext, hzero, hnotag, ?_, h.nfree⟩
      simp only [State.use, List.length_cons]
      omega
  case h_2 r rest hcons =>
    simp only
    split
    case isTrue hsmall =>
      have hbuffer := hclear r (by rw [hcons]; rfl) hsmall
      rw [if_neg (by simp [hbuffer])]
      exact h.reuse hcons
    case isFalse => exact h.reuse hcons

theorem drop_perm {rs : List Mntrpc} (hr : r ∈ rs) (hp : (rs.map (·.p)).Nodup) :
    rs.Perm (r :: rs.filter (·.p ≠ r.p)) := by
  induction rs with
  | nil => cases hr
  | cons q rs ih =>
    rw [List.map_cons, List.nodup_cons] at hp
    rcases List.mem_cons.mp hr with rfl | hr
    · have hstay : rs.filter (·.p ≠ r.p) = rs := by
        refine List.filter_eq_self.mpr fun q hq => decide_eq_true fun heq => hp.1 ?_
        exact heq ▸ List.mem_map_of_mem hq
      rw [List.filter_cons_of_neg (by simp), hstay]
    · have hne : q.p ≠ r.p := fun heq => hp.1 (heq ▸ List.mem_map_of_mem hr)
      rw [List.filter_cons_of_pos (by simpa using hne)]
      exact ((ih hr hp.2).cons q).trans (List.Perm.swap _ _ _)

theorem Sound.used_places (h : Sound s) : (s.used.map (·.p)).Nodup := by
  have hplaces := h.tagged.places
  rw [State.live, List.map_append, List.map_append] at hplaces
  have hused := hplaces.of_append_left
  rwa [List.map_map] at hused

theorem Sound.orphan {p : ℕ} {f : Mntrpc → Mntrpc} (h : Sound s)
    (hf : ∀ q, (f q).key = q.key) :
    Sound { s with used := s.used.map fun q => if q.p = p then f q else q } := by
  have hkeys : (s.used.map fun q => if q.p = p then f q else q).map Mntrpc.key =
      s.used.map Mntrpc.key := by
    rw [List.map_map]
    refine List.map_congr_left fun q _ => ?_
    simp only [Function.comp_apply]
    split
    · exact hf q
    · rfl
  refine h.keys rfl rfl ?_ (by simp [h.nused]) h.nfree
  simp only [State.live, List.map_append, hkeys]
  exact List.Perm.refl _

theorem Sound.mntfree (h : Sound s) (hr : r ∈ s.used) : Sound (mntfree s r) := by
  unfold Mnt.mntfree
  split
  · exact h.orphan fun q => rfl
  have hperm := drop_perm hr h.used_places
  have hlength := hperm.length_eq
  have hkeys : (s.live.map Mntrpc.key).Perm
      (r.key :: (s.drop r.p).live.map Mntrpc.key) := by
    simp only [State.live, State.drop, List.map_append]
    exact (hperm.map Mntrpc.key).append_right _
  have hnused := h.nused
  have hnfree := h.nfree
  rw [List.length_cons] at hlength
  simp only
  split
  case isTrue =>
    obtain ⟨-, h0, hn⟩ := h.tagged.range r.key (hkeys.mem_iff.mpr (List.mem_cons_self ..))
    refine ⟨(h.tagged.perm hkeys).uncons, h.ext.freetag, (held_freetag ..).mpr ⟨h.zero, h0.symm⟩,
      (held_freetag ..).mpr ⟨h.notag, hn.symm⟩, ?_, h.nfree⟩
    · simp only [State.drop]
      omega
  case isFalse =>
    refine h.keys rfl rfl (hkeys.trans ?_) ?_ ?_
    · simp only [State.live, State.drop, List.map_append, List.map_cons]
      exact List.perm_middle.symm
    · simp only [State.drop]
      omega
    · simp only [State.drop, List.length_cons]
      omega

theorem Sound.step {c : Call} (h : Sound s) (hclear : Clear s c) : Sound (step s c) := by
  cases c with
  | alloc msize header buffer => exact h.alloc hclear
  | free p =>
    cases hfind : s.used.find? (·.p = p) with
    | none => simpa [Mnt.step, hfind] using h
    | some r => simpa [Mnt.step, hfind] using h.mntfree (List.mem_of_find?_eq_some hfind)
  | orphan p orphan => exact h.orphan fun q => rfl

theorem Sound.miscounts {c : Call} (h : Sound s) (hclear : ¬Clear s c) :
    ¬Holds (Mnt.step s c) := by
  intro hholds
  cases c with
  | alloc msize header buffer =>
    simp only [Clear, not_forall] at hclear
    obtain ⟨r, hr, hsmall, hbuffer⟩ := hclear
    obtain ⟨rest, hcons⟩ : ∃ rest, s.rpcfree = r :: rest := by
      cases hfree : s.rpcfree with
      | nil => simp [hfree] at hr
      | cons q rest =>
        simp only [hfree, List.head?_cons, Option.mem_def, Option.some.injEq] at hr
        exact ⟨rest, hr ▸ rfl⟩
    have hbad := hholds.nused
    have hnused := h.nused
    simp only [Mnt.step, mntralloc, hcons, if_pos hsmall, if_pos hbuffer] at hbad
    omega
  | free p | orphan p orphan => exact hclear trivial

theorem Sound.meets_iff (h : Sound s) (c : Call) : Meets s c ↔ Clear s c :=
  ⟨fun hmeets => by_contra fun hclear => h.miscounts hclear hmeets,
    fun hclear => (h.step hclear).holds⟩

/-- In a run of calls from `mntinit` the accounts are right after every one exactly if no
free record with too small a buffer is taken while there is no memory for another. -/
theorem tags_accounted (calls : List Call) :
    Holds mntinit ∧ Always step Meets mntinit calls ↔ Always step Clear mntinit calls := by
  rw [and_iff_right mntinit_sound.holds]
  exact always_congr Sound (fun _ c h => h.meets_iff c) (fun _ _ h hclear => h.step hclear)
    mntinit_sound calls

def larger : List Call := [.alloc 8192 true true, .free 0, .alloc 16384 true false]

theorem tags_leaked : ¬(Holds mntinit ∧ Always step Meets mntinit larger) := by
  rintro ⟨-, -, -, hlast, -⟩
  exact absurd hlast.nused (by decide)

end Infernode.Mnt
