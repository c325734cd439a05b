import Infernode.Cases.Stmt

/-!
# Tables of labels

In a table every label has the code of its own arm, and the search finds the row of the
label that the value is in. The end of a row is the value after the last of the label, cut
to the size of a word: a label that ends at the largest value gets the least as its end, and
its row is never found.
-/

namespace Infernode.Cases

open Dis (int IsInt int_eq)

section

variable {α : Type} [LinearOrder α] {o : Order α} {arms : List (Arm α)}

def Qual.first : Qual α → Option α
  | .const val => some val
  | .range start _ => some start
  | .wild => none

def Touches (labs : List (Label α)) (q : Qual α) (i : ℕ) : Prop :=
  ∃ lab v, labs[i]? = some lab ∧ q.first = some v ∧ lab.start ≤ v ∧ v ≤ lab.stop

theorem Sorted.unique {labs : List (Label α)} (h : Sorted labs) {i j : ℕ} {a b : Label α} {v : α}
    (hi : labs[i]? = some a) (hj : labs[j]? = some b) (ha : a.start ≤ v) (ha' : v ≤ a.stop)
    (hb : b.start ≤ v) (hb' : v ≤ b.stop) : i = j :=
  le_antisymm ((h.start_le_iff hj hb hb' hi).mp ha) ((h.start_le_iff hi ha ha' hj).mp hb)

theorem setqual_touches (ho : o.Lawful) {labs labs1 : List (Label α)} (hs : Sorted labs)
    (hlike : Like labs labs1) {node i : ℕ} {lab : Label α} {v : α} (hi : labs[i]? = some lab)
    (hv : lab.start ≤ v) (hv' : v ≤ lab.stop) {q : Qual α} (hq : q.first = some v) :
    setqual o nofill node labs1 q = some (setinst node i labs1) ∧
      Marked node (Touches labs q) labs1 (setinst node i labs1) := by
  obtain ⟨inst, hi1⟩ := hlike.get hi
  have hfind : findlab o v labs1 = some i := findlab_eq ho (hlike.sorted hs) hi1 hv hv'
  constructor
  · cases q with
    | const val | range start stop =>
      obtain rfl := Option.some.inj hq
      rw [setqual, hfind]
      rfl
    | wild => cases hq
  · refine (setinst_marked node i labs1).congr fun j _ => ?_
    constructor
    · rintro rfl
      exact ⟨lab, v, hi, hq, hv, hv'⟩
    · rintro ⟨b, w, hj, hw, hb, hb'⟩
      obtain rfl : v = w := Option.some.inj (hq.symm.trans hw)
      exact hs.unique hj hi hb hb' hv hv'

theorem first_within {labs : List (Label α)} (hc : Covers labs (labels 0 arms))
    (hproper : ∀ lab ∈ labels 0 arms, lab.start ≤ lab.stop) {k : ℕ} {arm : Arm α}
    (hk : arms[k]? = some arm) {q : Qual α} (hq : q ∈ arm.quals) {v : α}
    (hv : q.first = some v) :
    ∃ l ∈ labels 0 arms, l.Holds k v ∧ ∃ (i : ℕ) (lab : Label α),
      labs[i]? = some lab ∧ lab.node = k ∧ lab.start ≤ v ∧ v ≤ lab.stop ∧
        lab.start ≤ l.start ∧ l.stop ≤ lab.stop := by
  have hlabel : ∃ l, q.label k = some l ∧ l.node = k ∧ l.start = v := by
    cases q with
    | const val | range start stop =>
      obtain rfl := Option.some.inj hv
      exact ⟨_, rfl, rfl, rfl⟩
    | wild => cases hv
  obtain ⟨l, hl, hnode, rfl⟩ := hlabel
  have hmem : l ∈ labels 0 arms := mem_labels.mpr ⟨k, arm, hk, q, hq, by simpa using hl⟩
  have hstop := hproper l hmem
  obtain ⟨lab, hlab, hlnode, hstart, hend⟩ := hc.within l hmem
  obtain ⟨i, hi⟩ := List.mem_iff_getElem?.mp hlab
  exact ⟨l, hmem, ⟨hnode, le_rfl, hstop⟩, i, lab, hi, hlnode.trans hnode, hstart,
    hstop.trans hend, hstart, hend⟩

theorem setarms_table (ho : o.Lawful) {labs : List (Label α)} (hs : Sorted labs)
    (hc : Covers labs (labels 0 arms)) (hapart : Apart (labels 0 arms)) :
    setarms o nofill 0 labs arms =
      some (labs.map fun lab => { lab with inst := some lab.node }) := by
  have hset : ∀ k arm, arms[k]? = some arm → ∀ q ∈ arm.quals, ∀ labs1, Like labs labs1 →
      ∃ labs', setqual o nofill (0 + k) labs1 q = some labs' ∧
        Marked (0 + k) (Touches labs q) labs1 labs' := by
    intro k arm hk q hq labs1 hlike
    cases hv : q.first with
    | none =>
      have hwild : q = .wild := by
        cases q with
        | const val | range start stop => cases hv
        | wild => rfl
      refine ⟨labs1, by rw [hwild, setqual], rfl, fun i lab hi => ⟨lab.inst, hi, ?_, fun _ => rfl⟩⟩
      rintro ⟨_, _, -, hw, -⟩
      rw [hv] at hw
      cases hw
    | some v =>
      obtain ⟨-, -, -, i, lab, hi, -, hstart, hstop, -⟩ :=
        first_within hc hapart.proper hk hq hv
      obtain ⟨hrun, hmark⟩ := setqual_touches ho hs hlike hi hstart hstop hv
      exact ⟨_, hrun, hmark⟩
  obtain ⟨labs', hrun, hlike, hinst⟩ := setarms_like hset (Like.refl labs)
  rw [hrun, Option.some.injEq]
  refine List.ext_getElem? fun i => ?_
  rw [List.getElem?_map]
  cases hi : labs[i]? with
  | none =>
    rw [List.getElem?_eq_none_iff] at hi
    rw [Option.map_none, List.getElem?_eq_none_iff, hlike.length]
    exact hi
  | some lab =>
    obtain ⟨inst, hi', hcases⟩ := hinst i lab hi
    rw [hi', Option.map_some]
    refine congrArg (fun x => some { lab with inst := x }) ?_
    -- a label of its own arm lies in it, and that arm touches it
    have hlab := List.mem_of_getElem? hi
    obtain ⟨l, hl, hholds⟩ := hc.holds lab hlab lab.start le_rfl (hs.proper lab hlab)
    have hown : ∃ arm, arms[lab.node]? = some arm ∧ ∃ q ∈ arm.quals, Touches labs q i := by
      obtain ⟨k, arm, hk, q, hq, hlabel⟩ := mem_labels.mp hl
      rw [Nat.zero_add] at hlabel
      have hfirst : q.first = some l.start ∧ l.node = k := by
        cases q with
        | const val | range start stop =>
          obtain rfl := Option.some.inj hlabel
          exact ⟨rfl, rfl⟩
        | wild => cases hlabel
      obtain rfl : lab.node = k := hholds.1.symm.trans hfirst.2
      obtain ⟨m, hm, -, hmstart, hmstop⟩ := hc.within l hl
      obtain ⟨j, hj⟩ := List.mem_iff_getElem?.mp hm
      have hji : j = i := hs.unique hj hi (hmstart.trans hholds.2.1) (hholds.2.2.trans hmstop)
        le_rfl (hs.proper lab hlab)
      subst hji
      obtain rfl : m = lab := Option.some.inj (hj.symm.trans hi)
      exact ⟨arm, hk, q, hq, m, l.start, hj, hfirst.1, hmstart,
        (hapart.proper l hl).trans hmstop⟩
    obtain ⟨arm, hk, q, hq, htouch⟩ := hown
    rcases hcases with ⟨-, hnone⟩ | ⟨k', arm', hk', ⟨q', hq', htouch'⟩, hsome⟩
    · exact absurd htouch (hnone arm (List.mem_of_getElem? hk) q hq)
    · rw [hsome, Nat.zero_add, Option.some.injEq]
      obtain ⟨b, w, hb, hw, hbstart, hbstop⟩ := htouch'
      obtain rfl : b = lab := Option.some.inj (hb.symm.trans hi)
      obtain ⟨l', hl', hholds', -⟩ := first_within hc hapart.proper hk' hq' hw
      obtain ⟨l'', hl'', hholds''⟩ := hc.holds b hlab w hbstart hbstop
      have heq := hapart.eq hl' hl'' hholds'.2.1 hholds'.2.2 hholds''.2.1 hholds''.2.2
      rw [← hholds'.1, heq, hholds''.1]

end

section

variable {base : ℕ} {arms : List (Arm ℤ)} {labs : List (Label ℤ)} {cut : ℤ → ℤ} {pad : List ℤ}

def rowof (base : ℕ) (arms : List (Arm ℤ)) (cut : ℤ → ℤ) (lab : Label ℤ) : Row :=
  ⟨cut lab.start, cut (lab.stop + 1), int (armpc base arms lab.node)⟩

def tablewords (pad : List ℤ) (rows : List Row) (d : ℤ) : List ℤ :=
  int rows.length :: pad ++ (rows.map (Row.words pad)).flatten ++ [d]

theorem mapM_some {β γ : Type} {f : β → Option γ} {g : β → γ} {l : List β}
    (h : ∀ x ∈ l, f x = some (g x)) : l.mapM f = some (l.map g) := by
  induction l with
  | nil => rfl
  | cons x l ih =>
    rw [List.mapM_cons, h x (by simp), ih fun y hy => h y (by simp [hy])]
    rfl

theorem table_eq (base : ℕ) (arms : List (Arm ℤ)) (cut : ℤ → ℤ) (pad : List ℤ)
    (labs : List (Label ℤ)) :
    table base arms cut pad (labs.map fun lab => { lab with inst := some lab.node }) =
      some (tablewords pad (labs.map (rowof base arms cut)) (int (wildpc base arms))) := by
  have hrows := mapM_some (f := row base arms cut pad)
    (g := fun lab => [cut lab.start, cut (lab.stop + 1),
      int (armpc base arms (lab.inst.getD 0))] ++ pad)
    (l := labs.map fun lab => { lab with inst := some lab.node })
    (by
      intro lab hlab
      obtain ⟨lab, -, rfl⟩ := List.mem_map.mp hlab
      rfl)
  rw [table, hrows]
  simp [tablewords, rowof, Row.words, Function.comp_def]

theorem rowsat_flatten (pre post : List ℤ) (rows : List Row) :
    RowsAt (3 + pad.length) (pre ++ (rows.map (Row.words pad)).flatten ++ post) pre.length
      rows := by
  induction rows generalizing pre with
  | nil => intro i r hi; simp at hi
  | cons a rows ih =>
    intro i r hi
    cases i with
    | zero =>
      rw [List.getElem?_cons_zero, Option.some.injEq] at hi
      subst hi
      simp [Row.words]
    | succ i =>
      have hnext := ih (pre ++ a.words pad) i r (by simpa using hi)
      have hlen : (pre ++ a.words pad).length = pre.length + (3 + pad.length) := by
        simp [Row.words]
        omega
      rw [hlen] at hnext
      rw [show pre.length + (i + 1) * (3 + pad.length) =
        pre.length + (3 + pad.length) + i * (3 + pad.length) by ring]
      simpa using hnext

theorem flatten_length (rows : List Row) :
    (rows.map (Row.words pad)).flatten.length = rows.length * (3 + pad.length) := by
  induction rows with
  | nil => simp
  | cons a rows ih =>
    rw [List.map_cons, List.flatten_cons, List.length_append, ih, List.length_cons]
    simp only [Row.words, List.length_append, List.length_cons, List.length_nil]
    ring

theorem casecount_rows {n : ℕ} (hn : n < 2 ^ 31) : casecount (int n) = n := by
  rw [int_eq ⟨by omega, by omega⟩, casecount, if_neg (by omega), Int.toNat_natCast]

variable (pad) in
theorem search_eq {rows : List Row} (hrows : Ordered rows) (hlen : rows.length < 2 ^ 31)
    (v d : ℤ) :
    (∃ r ∈ rows, r.Has v ∧
      search (1 + pad.length) (3 + pad.length) (tablewords pad rows d) v = some r.pc) ∨
      ((∀ r ∈ rows, ¬r.Has v) ∧
        search (1 + pad.length) (3 + pad.length) (tablewords pad rows d) v = some d) := by
  have hcount := casecount_rows hlen
  have hhead : (int rows.length :: pad).length = 1 + pad.length := by
    rw [List.length_cons, Nat.add_comm]
  have hwords : tablewords pad rows d =
      (int rows.length :: pad) ++ (rows.map (Row.words pad)).flatten ++ [d] := by
    simp [tablewords]
  have hat : RowsAt (3 + pad.length) (tablewords pad rows d) (1 + pad.length) rows := by
    rw [hwords, ← hhead]
    exact rowsat_flatten _ _ _
  have hdefault : (tablewords pad rows d)[1 + pad.length + rows.length * (3 + pad.length)]? =
      some d := by
    rw [hwords, List.getElem?_append_right
      (by simp only [List.length_append, flatten_length, hhead]; omega)]
    simp only [List.length_append, flatten_length, hhead, Nat.sub_self]
    rfl
  have hfirst : (tablewords pad rows d)[0]? = some (int rows.length) := by
    rw [tablewords, List.cons_append, List.cons_append, List.getElem?_cons_zero]
  rw [search_reads hfirst (by rw [hcount]; exact hdefault), hcount]
  exact caseloop_eq hrows hat rfl

variable (base pad) in
theorem table_exact {bot top : ℤ} (hcut : ∀ n, bot ≤ n → n ≤ top → cut n = n)
    (hend : cut (top + 1) = bot) (hapart : Apart (labels 0 arms))
    (hvalues : ∀ lab ∈ labels 0 arms, bot ≤ lab.start ∧ lab.stop ≤ top)
    (hlen : labs.length < 2 ^ 31) (hsmall : armpc base arms arms.length < 2 ^ 31)
    (hs : Sorted labs) (hc : Covers labs (labels 0 arms)) :
    (∀ v, bot ≤ v → v ≤ top →
      search (1 + pad.length) (3 + pad.length)
        (tablewords pad (labs.map (rowof base arms cut)) (int (wildpc base arms))) v =
        some (dest base arms v : ℤ)) ↔
      ∀ lab ∈ labels 0 arms, lab.stop = top → wildarm 0 none arms = some lab.node := by
  have hbounds : ∀ lab ∈ labs, bot ≤ lab.start ∧ lab.stop ≤ top := by
    intro lab hlab
    have hproper := hs.proper lab hlab
    obtain ⟨l, hl, -, hstart, -⟩ := hc.holds lab hlab lab.start le_rfl hproper
    obtain ⟨l', hl', -, -, hstop⟩ := hc.holds lab hlab lab.stop hproper le_rfl
    exact ⟨(hvalues l hl).1.trans hstart, hstop.trans (hvalues l' hl').2⟩
  have hpc (k : ℕ) (hk : k ≤ arms.length) : int (armpc base arms k) = armpc base arms k := by
    have hle : armpc base arms k ≤ armpc base arms arms.length := armpc_mono hk
    exact int_eq ⟨by omega, by omega⟩
  have hwild : int (wildpc base arms) = wildpc base arms := by
    have hle := wildpc_le base arms
    exact int_eq ⟨by omega, by omega⟩
  have hordered : Ordered (labs.map (rowof base arms cut)) := by
    rw [Ordered, List.pairwise_map]
    refine hs.apart.imp_of_mem fun {a b} ha hb hab => ?_
    have hpa := hs.proper a ha
    have hpb := hs.proper b hb
    have hba := hbounds a ha
    have hbb := hbounds b hb
    simp only [rowof]
    rw [hcut a.start hba.1 (by omega), hcut b.start hbb.1 (by omega),
      hcut (a.stop + 1) (by omega) (by omega)]
    omega
  have hhas : ∀ lab ∈ labs, ∀ v, bot ≤ v → ((rowof base arms cut lab).Has v ↔
      lab.start ≤ v ∧ v ≤ lab.stop ∧ lab.stop ≠ top) := by
    intro lab hlab v hv
    have hp := hs.proper lab hlab
    have hb := hbounds lab hlab
    simp only [Row.Has, rowof]
    rw [hcut lab.start hb.1 (by omega)]
    by_cases htop : lab.stop = top
    · rw [htop, hend]
      omega
    · rw [hcut (lab.stop + 1) (by omega) (by omega)]
      omega
  constructor
  · intro h lab hlab htop
    have hp := hapart.proper lab hlab
    have hb := hvalues lab hlab
    have hgoes := h top (by omega) le_rfl
    rw [dest_arm hapart hlab ⟨rfl, by omega, by omega⟩] at hgoes
    have hfew : (labs.map (rowof base arms cut)).length < 2 ^ 31 := by simpa using hlen
    rcases search_eq pad hordered hfew top (int (wildpc base arms)) with
      ⟨r, hr, hin, -⟩ | ⟨-, hrun⟩
    · obtain ⟨l, hl, rfl⟩ := List.mem_map.mp hr
      have hin' := (hhas l hl top (by omega)).mp hin
      have hbl := hbounds l hl
      omega
    · rw [hrun, hwild, Option.some.injEq, Nat.cast_inj] at hgoes
      exact (armpc_eq_wildpc (node_lt hlab)).mp hgoes.symm
  · intro h v hv hv'
    have hfew : (labs.map (rowof base arms cut)).length < 2 ^ 31 := by simpa using hlen
    rcases search_eq pad hordered hfew v (int (wildpc base arms)) with
      ⟨r, hr, hin, hrun⟩ | ⟨hnone, hrun⟩
    · obtain ⟨lab, hlab, rfl⟩ := List.mem_map.mp hr
      obtain ⟨hstart, hstop, -⟩ := (hhas lab hlab v hv).mp hin
      obtain ⟨l, hl, hholds⟩ := hc.holds lab hlab v hstart hstop
      rw [hrun, dest_arm hapart hl hholds]
      have hlt := node_lt hl
      rw [hholds.1] at hlt
      simp only [rowof]
      rw [hpc _ hlt.le]
    · rw [hrun, hwild]
      by_cases hin : ∃ l ∈ labels 0 arms, l.Holds l.node v
      · obtain ⟨l, hl, hholds⟩ := hin
        rw [dest_arm hapart hl hholds]
        obtain ⟨lab, hlab, hnode, hstart, hstop⟩ := hc.within l hl
        have htop : lab.stop = top := by
          by_contra hne
          refine hnone _ (List.mem_map_of_mem hlab) ((hhas lab hlab v hv).mpr ?_)
          exact ⟨hstart.trans hholds.2.1, hholds.2.2.trans hstop, hne⟩
        -- the label at the end of the joined one is of the same arm
        obtain ⟨l', hl', hholds'⟩ := hc.holds lab hlab top
          (by have hb := hs.proper lab hlab; omega) htop.ge
        have htop' : l'.stop = top := le_antisymm (hvalues l' hl').2 hholds'.2.2
        have hwildarm := h l' hl' htop'
        rw [hholds'.1, hnode] at hwildarm
        rw [(armpc_eq_wildpc (node_lt hl)).mpr hwildarm]
      · push Not at hin
        rw [dest_wild hin]

end

end Infernode.Cases
