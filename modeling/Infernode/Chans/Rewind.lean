import Infernode.Chans.Moves
import Infernode.Chans.Through

/-!
# Reading a union through

`Exread` of `exportfs.c` on an open fid of a union, and the reads that go through a union
from offset 0 until nothing is returned, exported and local.
-/

namespace Infernode.Chans

structure Fid where
  offset : ℤ
  pos : Pos
  deriving DecidableEq

inductive Exerr
  | Ecount
  | Enegoff
  | Eseekdir
  deriving DecidableEq

/-- `iosize` is `fs->msize-IOHDRSZ`. `f->offset` is what is asked for once the checks are
passed, so that the loop is gone through once. -/
def Exread (mounts : List Mount) (iosize : ℤ) (f : Fid) (count offset : ℤ) :
    Except Exerr (List Entry) × Fid :=
  if count < 0 ∨ count > iosize then (.error .Ecount, f)
  else if offset < 0 then (.error .Enegoff, f)
  else if offset ≠ f.offset ∧ offset ≠ 0 then (.error .Eseekdir, f)
  else
    -- c->umc is not closed
    let p := if offset ≠ f.offset then { f.pos with uri := 0 } else f.pos
    let (es, p) := unionread mounts p count.toNat
    (.ok es, ⟨offset + size es, p⟩)

def openfid : Fid := ⟨0, ⟨0, none⟩⟩

def reached (mounts : List Mount) (iosize : ℤ) (reads : List (ℤ × ℤ)) : Fid :=
  reads.foldl (fun f r => (Exread mounts iosize f r.1 r.2).2) openfid

def exthrough (mounts : List Mount) (iosize : ℤ) : Fid → ℤ → List ℤ → Option (List Entry)
  | _, _, [] => none
  | f, offset, count :: counts =>
    match Exread mounts iosize f count offset with
    | (.error _, _) => none
    | (.ok es, f') =>
      if es = [] then some []
      else (exthrough mounts iosize f' (offset + size es) counts).map (es ++ ·)

def kdata (c : Chan) (n : Vlong) : List Entry :=
  (union c).elim [] fun mounts => (unionread mounts c.pos n.val.toNat).1

def kthrough : Chan → List Vlong → Option (List Entry)
  | _, [] => none
  | c, n :: ns =>
    match kread c true n none with
    | (.error _, _) => none
    | (.ok _, c') =>
      if kdata c n = [] then some [] else (kthrough c' ns).map (kdata c n ++ ·)

def Fid.start (f : Fid) : Pos := if f.offset ≠ 0 then ⟨0, f.pos.umc⟩ else f.pos

/-- Nothing is read of a directory that was left open: the first is not mounted, or the
read finds nothing in the open one. -/
def Idle (mounts : List Mount) (u : Umc) (n : ℕ) : Prop :=
  (mounts.head?.all (!·.mounted)) = true ∨ umcread mounts u n = []

/-- The fid was left between directories, or at its start, and each count has room for
the next entry. A directory that was left open does no harm where nothing is read of it
and there is nothing in the first. -/
def Rewound (mounts : List Mount) (f : Fid) (ns : List ℕ) : Prop :=
  (match f.pos.umc with
    | some u => (∀ n ∈ ns.head?, Idle mounts u n) ∧ ∀ m ∈ mounts.head?, m.readable = []
    | none => f.offset = 0 → f.pos.uri ≠ 0 → contents mounts 0 = []) ∧
  Fits mounts (contents mounts 0) f.start ns

variable {mounts : List Mount} {p : Pos} {ns : List ℕ} {out : List Entry} {f : Fid}
  {iosize offset : ℤ}

structure Fid.Sound (mounts : List Mount) (f : Fid) : Prop where
  inside : f.pos.umc ≠ none → f.pos.uri < mounts.length
  nonneg : 0 ≤ f.offset
  fresh : f.offset = 0 → f.pos.umc = none
  ended : f.pos.umc = none → f.pos.uri = 0 ∨ mounts.length ≤ f.pos.uri
  index : ∀ u ∈ f.pos.umc, 0 < u.index

def Fid.at (f : Fid) (offset : ℤ) : Pos :=
  if offset ≠ f.offset then ⟨0, f.pos.umc⟩ else f.pos

theorem Fid.Sound.at {f : Fid} (h : f.Sound mounts) (offset : ℤ) :
    (f.at offset).umc ≠ none → (f.at offset).uri < mounts.length := by
  unfold Fid.at
  split
  · exact fun hsome => lt_of_le_of_lt (Nat.zero_le _) (h.inside hsome)
  · exact h.inside

theorem Exread_ok {iosize count offset : ℤ} {f : Fid}
    (hcount : ¬(count < 0 ∨ count > iosize)) (hoffset : ¬offset < 0)
    (hseek : ¬(offset ≠ f.offset ∧ offset ≠ 0)) :
    Exread mounts iosize f count offset =
      (.ok (unionread mounts (f.at offset) count.toNat).1,
        ⟨offset + size (unionread mounts (f.at offset) count.toNat).1,
          (unionread mounts (f.at offset) count.toNat).2⟩) := by
  simp only [Exread, if_neg hcount, if_neg hoffset, if_neg hseek, Fid.at]

theorem Exread_cases (mounts : List Mount) (iosize count offset : ℤ) (f : Fid) :
    (∃ e, Exread mounts iosize f count offset = (.error e, f)) ∨
      0 ≤ offset ∧ Exread mounts iosize f count offset =
        (.ok (unionread mounts (f.at offset) count.toNat).1,
          ⟨offset + size (unionread mounts (f.at offset) count.toNat).1,
            (unionread mounts (f.at offset) count.toNat).2⟩) := by
  by_cases hcount : count < 0 ∨ count > iosize
  · exact .inl ⟨_, by rw [Exread, if_pos hcount]⟩
  by_cases hoffset : offset < 0
  · exact .inl ⟨_, by rw [Exread, if_neg hcount, if_pos hoffset]⟩
  by_cases hseek : offset ≠ f.offset ∧ offset ≠ 0
  · exact .inl ⟨_, by rw [Exread, if_neg hcount, if_neg hoffset, if_pos hseek]⟩
  · exact .inr ⟨not_lt.mp hoffset, Exread_ok hcount hoffset hseek⟩

theorem Exread_sound {iosize count offset : ℤ} {f : Fid} (h : f.Sound mounts) :
    (Exread mounts iosize f count offset).2.Sound mounts := by
  rcases Exread_cases mounts iosize count offset f with ⟨e, heq⟩ | ⟨hoffset, heq⟩
  · rw [heq]
    exact h
  rw [heq]
  have hread := unionread_reads mounts count.toNat (h.at offset)
  rcases unionloop_stop (n := count.toNat) rfl (h.at offset) with
    ⟨hnil, hnone, hend⟩ | ⟨hsome, u, hu, hpos⟩
  · exact ⟨hread.inside, by simp only; omega, fun _ => hnone, fun _ => .inr hend,
      fun x hx => by rw [unionread, hnone] at hx; cases hx⟩
  · have hsize := size_pos hsome
    refine ⟨hread.inside, by simp only; omega, fun hzero => ?_, fun hnone => ?_, fun x hx => ?_⟩
    · simp only at hzero
      omega
    · rw [unionread, hu] at hnone
      cases hnone
    · rw [unionread, hu] at hx
      cases hx
      exact hpos

theorem sound_of_reached (mounts : List Mount) (iosize : ℤ) (reads : List (ℤ × ℤ)) :
    (reached mounts iosize reads).Sound mounts := by
  have hopen : openfid.Sound mounts :=
    ⟨fun h => absurd rfl h, le_refl _, fun _ => rfl, fun _ => .inl rfl, nofun⟩
  exact Lib.foldl_invariant (I := fun f : Fid => f.Sound mounts) (fun f r h => Exread_sound h)
    hopen reads

/-!
## Reading a union again

A fid that was read part-way is rewound right where it was left between directories, since
`Exread` does not close the directory that is open. `kseek` does.
-/

open Lib

variable {mounts : List Mount} {u : Umc} {n : ℕ} {ns : List ℕ} {out : List Entry}
  {f : Fid} {iosize offset : ℤ} {c : Chan}

theorem exthrough_through {counts : List ℤ}
    (h : exthrough mounts iosize f offset counts = some out) :
    through mounts (f.at offset) (counts.map Int.toNat) = some out := by
  induction counts generalizing f offset out with
  | nil => cases h
  | cons count counts ih =>
    rcases Exread_cases mounts iosize count offset f with ⟨e, heq⟩ | ⟨-, heq⟩
    · simp only [exthrough, heq] at h
      cases h
    · simp only [exthrough, heq] at h
      simp only [List.map_cons, through]
      split at h
      case isTrue hnil =>
        rw [if_pos hnil]
        exact h
      case isFalse hsome =>
        rw [if_neg hsome]
        obtain ⟨out', hout, rfl⟩ := Option.map_eq_some_iff.mp h
        have hrest := ih hout
        rw [Fid.at, if_neg (by simp)] at hrest
        rw [hrest, Option.map_some]

theorem exthrough_ends {counts : List ℤ} (hcounts : ∀ c ∈ counts, 0 ≤ c ∧ c ≤ iosize)
    (hoffset : 0 ≤ offset) (hseek : offset = f.offset ∨ offset = 0)
    (h : (through mounts (f.at offset) (counts.map Int.toNat)).isSome) :
    (exthrough mounts iosize f offset counts).isSome := by
  induction counts generalizing f offset with
  | nil => cases h
  | cons count counts ih =>
    obtain ⟨hlo, hhi⟩ := hcounts count (List.mem_cons_self ..)
    have hcount : ¬(count < 0 ∨ count > iosize) := by omega
    have hseek' : ¬(offset ≠ f.offset ∧ offset ≠ 0) := by tauto
    simp only [exthrough, Exread_ok hcount (not_lt.mpr hoffset) hseek']
    simp only [List.map_cons, through] at h
    split
    · rfl
    case isFalse hsome =>
      rw [if_neg hsome, Option.isSome_map] at h
      rw [Option.isSome_map]
      refine ih (fun c hc => hcounts c (List.mem_cons_of_mem _ hc)) (by omega) (.inl rfl) ?_
      rwa [Fid.at, if_neg (by simp)]

theorem unionread_idle (hin : 0 < mounts.length) (hidle : Idle mounts u n) :
    unionread mounts ⟨0, some u⟩ n = unionread mounts ⟨1, none⟩ n := by
  unfold unionread
  cases mounts with
  | nil => cases hin
  | cons m mounts =>
    rw [List.drop_zero, List.drop_succ_cons, List.drop_zero, unionloop]
    rcases hidle with hnot | hnil
    · have hcurrent : current m ⟨0, some u⟩ = none := by
        simpa [current] using hnot
      rw [hcurrent]
    · split
      · rfl
      case h_2 x hx =>
        unfold current at hx
        split at hx
        case isFalse => cases hx
        case isTrue =>
          cases hx
          simp only [hnil, if_true]

theorem unionread_stale (hin : 0 < mounts.length) (hidle : ¬Idle mounts u n) :
    ∃ e l, (unionread mounts ⟨0, some u⟩ n).1 = e :: l ∧ e.index = u.index := by
  unfold unionread
  simp only [Idle, not_or] at hidle
  obtain ⟨hmounted, hsome⟩ := hidle
  obtain ⟨m, rest, hm⟩ := List.exists_cons_of_ne_nil (List.ne_nil_of_length_pos hin)
  have hcurrent : current m ⟨0, some u⟩ = some u := by
    rw [hm] at hmounted
    simp only [List.head?_cons, Option.all_some, Bool.not_eq_true', Bool.not_eq_false]
      at hmounted
    simp [current, hmounted]
  rw [List.drop_zero]
  nth_rewrite 2 [hm]
  rw [unionloop, hcurrent]
  simp only [if_neg hsome]
  obtain ⟨a, -, hread, -⟩ := umcread_spec mounts u n
  rw [hread] at hsome ⊢
  cases a with
  | nil => exact absurd rfl hsome
  | cons b l => exact ⟨_, _, List.mapIdx_cons, rfl⟩

theorem contents_head (mounts : List Mount) (i : ℕ) :
    ∀ e ∈ (contents mounts i).head?, e.index = 0 := by
  induction mounts generalizing i with
  | nil => exact nofun
  | cons m mounts ih =>
    intro e he
    rw [contents] at he
    cases hr : m.readable with
    | nil => exact ih (i + 1) e (by simpa [hr, Umc.entries] using he)
    | cons b l =>
      simp only [hr, Umc.entries, List.mapIdx_cons, List.cons_append, List.head?_cons,
        Option.mem_def, Option.some.injEq] at he
      subst he
      rfl

theorem stale_iff (hin : 0 < mounts.length) (hu : 0 < u.index)
    (h : through mounts ⟨0, some u⟩ ns = some out) :
    out = contents mounts 0 ↔ ((∀ n ∈ ns.head?, Idle mounts u n) ∧
      ∀ m ∈ mounts.head?, m.readable = []) ∧
        Fits mounts (contents mounts 0) ⟨0, some u⟩ ns := by
  cases ns with
  | nil => cases h
  | cons n ns =>
    by_cases hidle : Idle mounts u n
    · have hread := unionread_idle hin hidle
      have hthrough : through mounts ⟨1, none⟩ (n :: ns) = some out := by
        rwa [through, ← hread, ← through]
      have hfits : ∀ l, Fits mounts l ⟨0, some u⟩ (n :: ns) ↔ Fits mounts l ⟨1, none⟩ (n :: ns) :=
        fun l => by rw [Fits, Fits, hread]
      obtain ⟨m, rest, rfl⟩ := List.exists_cons_of_ne_nil (List.ne_nil_of_length_pos hin)
      have hcontents : contents (m :: rest) 0 =
          Umc.entries ⟨0, 0⟩ m.readable ++ unread (m :: rest) ⟨1, none⟩ := rfl
      simp only [List.head?_cons, Option.mem_def, Option.some.injEq, forall_eq', hidle, true_and]
      rw [hfits, hcontents]
      cases hr : m.readable with
      | nil =>
        rw [and_iff_right rfl]
        exact through_iff (inside_closed rfl) (current_closed rfl) hthrough
      | cons b l =>
        have hle := through_length (inside_closed rfl) hthrough
        refine iff_of_false (fun hall => ?_) fun hclear => absurd hclear.1 (List.cons_ne_nil _ _)
        rw [hall, List.length_append, length_entries, List.length_cons] at hle
        omega
    · obtain ⟨e, l, hread, hindex⟩ := unionread_stale hin hidle
      refine iff_of_false (fun hall => ?_) fun hclear => hidle (hclear.1.1 n rfl)
      have hhead : e ∈ out.head? := by
        simp only [through, hread, if_neg (List.cons_ne_nil e l)] at h
        obtain ⟨out', -, rfl⟩ := Option.map_eq_some_iff.mp h
        rfl
      rw [hall] at hhead
      have hzero := contents_head mounts 0 e hhead
      omega

theorem Fid.at_zero (f : Fid) : f.at 0 = f.start := by
  unfold Fid.at Fid.start
  exact if_congr ne_comm rfl rfl

theorem rewound_iff (h : f.Sound mounts) (hout : through mounts f.start ns = some out) :
    out = contents mounts 0 ↔ Rewound mounts f ns := by
  unfold Rewound
  cases humc : f.pos.umc with
  | some u =>
    have hnonzero : f.offset ≠ 0 := fun hzero => by
      rw [h.fresh hzero] at humc
      cases humc
    have hstart : f.start = ⟨0, some u⟩ := by
      rw [Fid.start, if_pos hnonzero, humc]
    have hin : 0 < mounts.length :=
      lt_of_le_of_lt (Nat.zero_le _) (h.inside (by rw [humc]; exact nofun))
    rw [hstart] at hout ⊢
    exact stale_iff hin (h.index u humc) hout
  | none =>
    by_cases hstart : f.start = ⟨0, none⟩
    · rw [hstart] at hout ⊢
      have hpos : f.offset = 0 → f.pos.uri ≠ 0 → contents mounts 0 = [] := by
        intro hzero huri
        rw [Fid.start, if_neg (not_not.mpr hzero)] at hstart
        exact absurd (congrArg Pos.uri hstart) huri
      rw [and_iff_right hpos]
      exact through_iff (inside_closed rfl) (current_closed rfl) hout
    · have hzero : f.offset = 0 := by
        by_contra hnonzero
        rw [Fid.start, if_pos hnonzero, humc] at hstart
        exact hstart rfl
      have heq : f.start = f.pos := by rw [Fid.start, if_neg (not_not.mpr hzero)]
      have huri : f.pos.uri ≠ 0 := fun huri => hstart (by rw [heq, ← huri, ← humc])
      have hend := (h.ended humc).resolve_left huri
      have hunread : unread mounts f.start = [] := by
        rw [heq, unread, humc, Option.elim_none, contentsfrom, List.drop_eq_nil_of_le hend, contents]
      have hclosed : f.start.umc = none := by rw [heq, humc]
      have hlen := through_length (inside_closed hclosed) hout
      have hnil : out = [] := by
        rw [hunread] at hlen
        exact List.eq_nil_of_length_eq_zero (Nat.le_zero.mp hlen)
      rw [hnil]
      constructor
      · intro hcontents
        refine ⟨fun _ _ => hcontents.symm, ?_⟩
        have hfits := (through_iff (inside_closed hclosed) (current_closed hclosed) hout).mp
          (by rw [hnil, hunread])
        rwa [hunread, hcontents] at hfits
      · intro hclear
        exact (hclear.1 hzero huri).symm

def Chan.kind (c : Chan) : Bool × Option (List Mount) × Bool := (c.qtdir, c.umh, c.pipe)

theorem devread_kind (c : Chan) (offp dev : Option Vlong) :
    (devread c offp dev).2.kind = c.kind := by
  unfold devread restart
  cases dev <;> dsimp only <;> split_ifs <;> rfl

theorem rread_kind (c : Chan) (chan : Bool) (n : Vlong) (offp dev : Option Vlong) :
    (rread c chan n offp dev).2.kind = c.kind := by
  unfold rread
  split
  · rfl
  split
  · rfl
  split
  · rfl
  · exact devread_kind c offp dev

theorem rwrite_kind (c : Chan) (chan : Bool) (n : Vlong) (offp dev : Option Vlong) :
    (rwrite c chan n offp dev).2.kind = c.kind := by
  unfold rwrite devwrite
  cases dev <;> dsimp only <;> split_ifs <;> rfl

theorem kseek_kind (c : Chan) (chan : Bool) (off : Vlong) (whence : ℤ) (stat : Option Vlong) :
    (kseek c chan off whence stat).2.kind = c.kind := by
  unfold kseek
  split
  · rfl
  split <;> rfl

theorem step_kind (c : Chan) (call : Call) : (step c call).kind = c.kind := by
  cases call with
  | kread chan n dev => exact rread_kind c chan n none dev
  | kpread chan n off dev => exact rread_kind c chan n (some off) dev
  | kwrite chan n dev => exact rwrite_kind c chan n none dev
  | kpwrite chan n off dev => exact rwrite_kind c chan n (some off) dev
  | kseek chan off whence stat => exact kseek_kind c chan off whence stat

def rewound (mounts : List Mount) (calls : List Call) (stat : Option Vlong) : Chan :=
  (kseek (calls.foldl step (opened true (some mounts) false)) true zero 0 stat).2

theorem rewound_union (mounts : List Mount) (calls : List Call) (stat : Option Vlong) :
    union (rewound mounts calls stat) = some mounts ∧
      (rewound mounts calls stat).pos = unionrewind := by
  have hkind : (calls.foldl step (opened true (some mounts) false)).kind =
      (true, some mounts, false) :=
    foldl_invariant (I := fun c : Chan => c.kind = (true, some mounts, false))
      (fun c call h => (step_kind c call).trans h) rfl calls
  unfold rewound
  generalize calls.foldl step (opened true (some mounts) false) = c at hkind
  obtain ⟨offset, dri, pos, qtdir, umh, pipe⟩ := c
  cases hkind
  exact ⟨rfl, rfl⟩

theorem kread_union {dev : Option Vlong} {n : Vlong} (hu : union c = some mounts)
    (hn : 0 ≤ n.val) :
    kread c true n dev = (.ok (.wrap (size (unionread mounts c.pos n.val.toNat).1)),
      { c with pos := (unionread mounts c.pos n.val.toNat).2 }) := by
  simp only [kread, rread, not_true_eq_false, if_false, if_neg (not_lt.mpr hn), hu]

theorem kthrough_through {ns : List Vlong} (hu : union c = some mounts)
    (h : kthrough c ns = some out) :
    through mounts c.pos (ns.map (·.val.toNat)) = some out := by
  induction ns generalizing c out with
  | nil => cases h
  | cons n ns ih =>
    by_cases hn : n.val < 0
    · simp [kthrough, kread, rread, hn] at h
    · have hdata : kdata c n = (unionread mounts c.pos n.val.toNat).1 := by
        rw [kdata, hu, Option.elim_some]
      simp only [kthrough, kread_union hu (not_lt.mp hn), hdata] at h
      simp only [List.map_cons, through]
      split at h
      case isTrue hnil =>
        rw [if_pos hnil]
        exact h
      case isFalse hsome =>
        rw [if_neg hsome]
        obtain ⟨out', hout, rfl⟩ := Option.map_eq_some_iff.mp h
        have hrest := ih (c := { c with pos := (unionread mounts c.pos n.val.toNat).2 }) hu hout
        rw [hrest, Option.map_some]

theorem kthrough_ends {ns : List Vlong} (hns : ∀ n ∈ ns, 0 ≤ n.val) (hu : union c = some mounts)
    (h : (through mounts c.pos (ns.map (·.val.toNat))).isSome) : (kthrough c ns).isSome := by
  induction ns generalizing c with
  | nil => cases h
  | cons n ns ih =>
    have hdata : kdata c n = (unionread mounts c.pos n.val.toNat).1 := by
      rw [kdata, hu, Option.elim_some]
    simp only [kthrough, kread_union hu (hns n (List.mem_cons_self ..)), hdata]
    simp only [List.map_cons, through] at h
    split
    · rfl
    case isFalse hsome =>
      rw [if_neg hsome, Option.isSome_map] at h
      rw [Option.isSome_map]
      exact ih (c := { c with pos := (unionread mounts c.pos n.val.toNat).2 })
        (fun n hn => hns n (List.mem_cons_of_mem _ hn)) hu h

/-- After any reads the reads of a fid from offset 0 come to an end, and have then returned
each entry of each directory once and in order exactly if the fid was left between
directories and each read has room for the next entry. After any calls and a seek to 0 so
do those of `kread`, for which the room is enough. -/
theorem union_rewound (mounts : List Mount) (iosize : ℤ) (reads : List (ℤ × ℤ))
    (calls : List Call) (stat : Option Vlong) :
    ((∃ k, ∀ counts : List ℤ, (∀ c ∈ counts, 0 ≤ c ∧ c ≤ iosize) → k ≤ counts.length →
        (exthrough mounts iosize (reached mounts iosize reads) 0 counts).isSome) ∧
      ∀ counts out, exthrough mounts iosize (reached mounts iosize reads) 0 counts = some out →
        (out = contents mounts 0 ↔
          Rewound mounts (reached mounts iosize reads) (counts.map Int.toNat))) ∧
    (∃ k, ∀ counts : List Vlong, (∀ c ∈ counts, 0 ≤ c.val) → k ≤ counts.length →
        (kthrough (rewound mounts calls stat) counts).isSome) ∧
      ∀ counts out, kthrough (rewound mounts calls stat) counts = some out →
        (out = contents mounts 0 ↔
          Fits mounts (contents mounts 0) unionrewind (counts.map (·.val.toNat))) := by
  have hsound := sound_of_reached mounts iosize reads
  obtain ⟨hunion, hpos⟩ := rewound_union mounts calls stat
  refine ⟨⟨⟨(unread mounts ((reached mounts iosize reads).at 0)).length + 1,
    fun counts hcounts hlen => ?_⟩, fun counts out hout => ?_⟩,
    ⟨(unread mounts (rewound mounts calls stat).pos).length + 1,
      fun counts hcounts hlen => ?_⟩, fun counts out hout => ?_⟩
  · refine exthrough_ends hcounts (le_refl 0) (.inr rfl) (through_ends (hsound.at 0) ?_)
    rw [List.length_map]
    exact Nat.lt_of_succ_le hlen
  · have hthrough := exthrough_through hout
    rw [Fid.at_zero] at hthrough
    exact rewound_iff hsound hthrough
  · refine kthrough_ends hcounts hunion (through_ends (inside_closed (by rw [hpos]; rfl)) ?_)
    rw [List.length_map]
    exact Nat.lt_of_succ_le hlen
  · have hthrough := kthrough_through hunion hout
    rw [hpos] at hthrough
    exact through_iff (inside_closed rfl) (current_closed rfl) hthrough

def oneatatime (entries : List (List UInt8)) (h : ∀ e ∈ entries, e ≠ []) : Mount where
  mounted := true
  opens := true
  entries := entries
  bad := entries.length
  gives j n := if ∀ e ∈ entries[j]?, e.length ≤ n then 1 else 0
  entry_pos := h
  fits j n := by
    rw [List.take_length]
    split
    case isTrue hfits =>
      rw [← List.head?_drop] at hfits
      cases hd : entries.drop j with
      | nil => exact Nat.zero_le n
      | cons e l => simpa [total, hd] using hfits e (by rw [hd]; rfl)
    case isFalse => exact Nat.zero_le n
  goes j n e he hle := by
    rw [List.take_length] at he
    rw [if_pos fun e' he' => by rw [he] at he'; cases he'; exact hle]
    exact Nat.one_pos

def pair : List Mount := [oneatatime [[1]] (by decide), oneatatime [[2], [3]] (by decide)]

/-- Two reads, into the second directory; then from the start. -/
theorem union_skipped : ¬∀ counts out,
    exthrough pair 8192 (reached pair 8192 [(10, 0), (10, 1)]) 0 counts = some out →
      out = contents pair 0 := by
  intro h
  exact absurd (h [10, 10, 10, 10] [⟨1, 1, [3]⟩, ⟨1, 0, [2]⟩, ⟨1, 1, [3]⟩] (by decide)) (by decide)

end Infernode.Chans
