import Infernode.Jit.Compile

/-!
# Where a compile stops

What a compile that stops has left of the module, and when that is what the interpreter needs.
-/

namespace Infernode.Jit

/-- `counting` after the tables of that many instructions were counted; `relocated` after all of
them were relocated. -/
inductive Stop
  | start
  | counting (done : ℕ)
  | raised
  | relocated (relpc : ℤ → ℤ)
  | none

def stop (e : Env) (m : Module) (ml : List Link) : Stop :=
  if !(e.patch && e.tinit && e.tmp && e.preamble) then .start
  else
    match sizes (e.comp false) (some maxwords) 0 0 m.prog.length with
    | .raised => .raised
    | .large done => .counting done
    | .go offs n =>
      match sizes (e.gen false) .none 0 (n + 1) nmactab with
      | .raised => .raised
      | .large _ => .counting m.prog.length
      | .go macs _ =>
        match e.map with
        | .none => .counting m.prog.length
        | some base =>
          match phases (e.comp true) 0 0 offs with
          | .none => .raised
          | some n' =>
            match phases (e.gen true) 0 (n' + 1) macs with
            | .none => .raised
            | some _ =>
              match typecoms e 0 m.code (typesused m ml) with
              | .none => .raised
              | some (_, true) => .relocated (relpc e base (offs ++ [n]))
              | some (code, false) =>
                match typecoms e (typesused m ml).length code (typesused m ml) with
                | .none => .raised
                | some _ => .none

def counted (mp : Words) (prog : List Inst) : Words :=
  prog.foldl (fun mp inst => inst.table.elim mp (count0 mp)) mp

def moved (relpc : ℤ → ℤ) (mp : Words) (prog : List Inst) : Words :=
  prog.foldl (fun mp inst => inst.table.elim mp (count1 relpc mp)) mp

theorem sizes_large {emit : ℕ → Emit} {limit : Option ℕ} {i n k done : ℕ}
    (h : sizes emit limit i n k = .large done) : i < done ∧ done ≤ i + k := by
  induction k generalizing i n with
  | zero => simp [sizes] at h
  | succ k ih =>
    rw [sizes] at h
    cases he : emit i with
    | raise => simp [he] at h
    | words w =>
      simp only [he] at h
      split_ifs at h
      · obtain rfl := Sizes.large.inj h
        omega
      · cases hs : sizes emit limit (i + 1) (n + w) k with
        | raised | go offs n' => simp [hs, Sizes.after] at h
        | large d =>
          rw [hs] at h
          obtain rfl := Sizes.large.inj h
          have hd := ih hs
          omega

theorem sizes_length {emit : ℕ → Emit} {limit : Option ℕ} {i n k n' : ℕ} {offs : List ℕ}
    (h : sizes emit limit i n k = .go offs n') : offs.length = k := by
  induction k generalizing i n offs with
  | zero =>
    rw [sizes] at h
    rw [← (Sizes.go.inj h).1, List.length_nil]
  | succ k ih =>
    rw [sizes] at h
    cases he : emit i with
    | raise => simp [he] at h
    | words w =>
      simp only [he] at h
      split_ifs at h
      cases hs : sizes emit limit (i + 1) (n + w) k with
      | raised | large d => simp [hs, Sizes.after] at h
      | go offs' n'' =>
        rw [hs] at h
        obtain ⟨rfl, rfl⟩ := Sizes.go.inj h
        rw [List.length_cons, ih hs]

theorem pass0_sizes (e : Env) (i n : ℕ) (mp : Words) (prog : List Inst) :
    pass0 e i n mp prog =
      match sizes (e.comp false) (some maxwords) i n prog.length with
      | .raised => .raised
      | .large done => .bad (counted mp (prog.take (done - i)))
      | .go offs n' => .go (offs, n', counted mp prog) := by
  induction prog generalizing i n mp with
  | nil => rfl
  | cons inst rest ih =>
    rw [pass0, List.length_cons, sizes]
    split
    · rfl
    · next w hw =>
      by_cases hover : tmpsize ≤ w ∨ maxwords < n + w
      · rw [if_pos hover, if_pos (by simpa using hover)]
        simp only [Nat.add_sub_cancel_left, List.take_succ_cons, List.take_zero]
        rfl
      · rw [if_neg hover, if_neg (by simpa using hover), ih]
        cases hs : sizes (e.comp false) (some maxwords) (i + 1) (n + w) rest.length with
        | raised => rfl
        | large done =>
          obtain ⟨hlt, -⟩ := sizes_large hs
          obtain ⟨d, rfl⟩ : ∃ d, done = i + 1 + d := ⟨done - (i + 1), by omega⟩
          simp only [Sizes.after, show i + 1 + d - (i + 1) = d by omega,
            show i + 1 + d - i = d + 1 by omega, List.take_succ_cons]
          rfl
        | go offs n' => rfl

theorem pass1_phases (e : Env) (relpc : ℤ → ℤ) (i n : ℕ) (mp : Words) {prog : List Inst}
    {offs : List ℕ} (h : offs.length = prog.length) :
    pass1 e relpc i n mp prog offs =
      (phases (e.comp true) i n offs).map fun n' => (moved relpc mp prog, n') := by
  induction prog generalizing i n mp offs with
  | nil =>
    obtain rfl := List.length_eq_zero_iff.mp h
    rfl
  | cons inst rest ih =>
    cases offs with
    | nil => simp at h
    | cons off offs =>
      rw [pass1, phases]
      split
      · rfl
      · split_ifs
        · rfl
        · rw [ih _ _ _ (Nat.succ.inj h)]
          rfl

theorem compile_stop (e : Env) (m : Module) (ml : List Link) :
    match stop e m ml with
    | .start => compile e m ml = .bad m ml
    | .counting done =>
      compile e m ml = .bad { m with origmp := counted m.origmp (m.prog.take done) } ml
    | .raised => compile e m ml = .raised
    | .relocated relpc => ∃ code, compile e m ml =
        .bad { m with origmp := moved relpc (counted m.origmp m.prog) m.prog, code := code } ml
    | .none => ∃ m' ml' code failed, compile e m ml = .ok m' ml' ∧
        typecoms e 0 m.code (typesused m ml) = some (code, false) ∧
        typecoms e (typesused m ml).length code (typesused m ml) = some (m'.code, failed) := by
  simp only [stop, compile]
  by_cases hstart : (!(e.patch && e.tinit && e.tmp && e.preamble)) = true
  · simp only [if_pos hstart]
  simp only [if_neg hstart, pass0_sizes]
  cases hs : sizes (e.comp false) (some maxwords) 0 0 m.prog.length with
  | raised => rfl
  | large done => simp
  | go offs n =>
    have hlen := sizes_length hs
    simp only
    cases hg : sizes (e.gen false) none 0 (n + 1) nmactab with
    | raised => rfl
    | large done => simp
    | go macs n₁ =>
      simp only
      cases e.map with
      | none => simp
      | some base =>
        simp only [pass1_phases e _ 0 0 _ hlen]
        cases hp : phases (e.comp true) 0 0 offs with
        | none => rfl
        | some n' =>
          simp only [Option.map_some]
          cases hm : phases (e.gen true) 0 (n' + 1) macs with
          | none => rfl
          | some n₂ =>
            simp only
            cases ht : typecoms e 0 m.code (typesused m ml) with
            | none => rfl
            | some r =>
              obtain ⟨code, failed⟩ := r
              cases failed with
              | true => exact ⟨code, rfl⟩
              | false =>
                simp only
                cases ht' : typecoms e (typesused m ml).length code (typesused m ml) with
                | none => rfl
                | some r =>
                  obtain ⟨code', failed⟩ := r
                  exact ⟨_, _, code, failed, rfl, rfl, ht'⟩

theorem count0_le (mp : Words) (t : Table) (a : ℤ) : count0 mp t a = mp a ∨
    (0 ≤ mp a ∧ count0 mp t a < 0) := by
  have hcount : ∀ ind, (if 0 ≤ mp ind then Function.update mp ind (-mp ind - 1) else mp) a = mp a ∨
      (0 ≤ mp a ∧ (if 0 ≤ mp ind then Function.update mp ind (-mp ind - 1) else mp) a < 0) := by
    intro ind
    split_ifs with h
    · by_cases ha : a = ind
      · subst ha
        rw [Function.update_self]
        exact .inr ⟨h, by omega⟩
      · exact .inl (Function.update_of_ne ha _ _)
    · exact .inl rfl
  cases t with
  | case ind | casel ind => exact hcount ind
  | goto ind => exact .inl rfl

def Table.Counted (mp : Words) : Table → Prop
  | .case ind | .casel ind => 0 ≤ mp ind
  | .goto _ => False

theorem counted_le (mp : Words) (prog : List Inst) (a : ℤ) : counted mp prog a = mp a ∨
    (0 ≤ mp a ∧ counted mp prog a < 0) := by
  induction prog generalizing mp with
  | nil => exact .inl rfl
  | cons inst rest ih =>
    rw [counted, List.foldl_cons, ← counted]
    cases inst.table with
    | none => exact ih mp
    | some t =>
      rw [Option.elim_some]
      have h0 := count0_le mp t a
      have h1 := ih (count0 mp t)
      omega

theorem counted_eq_iff (mp : Words) (prog : List Inst) : counted mp prog = mp ↔
    ∀ inst ∈ prog, ∀ t ∈ inst.table, ¬t.Counted mp := by
  induction prog generalizing mp with
  | nil => simp [counted]
  | cons inst rest ih =>
    rw [List.forall_mem_cons, counted, List.foldl_cons, ← counted]
    cases ht : inst.table with
    | none => simp [ih]
    | some t =>
      rw [Option.elim_some]
      by_cases hc : t.Counted mp
      · refine iff_of_false (fun heq => ?_) fun h => h.1 t rfl hc
        have hneg : ∃ a, 0 ≤ mp a ∧ count0 mp t a < 0 := by
          cases t with
          | case ind | casel ind =>
            have hpos : 0 ≤ mp ind := hc
            refine ⟨ind, hpos, ?_⟩
            rw [count0, if_pos hpos, Function.update_self]
            omega
          | goto ind => exact hc.elim
        obtain ⟨a, hpos, hlt⟩ := hneg
        have hle := counted_le (count0 mp t) rest a
        rw [heq] at hle
        omega
      · have hsame : count0 mp t = mp := by
          cases t with
          | case ind | casel ind => exact if_neg hc
          | goto ind => rfl
        rw [hsame, ih]
        simp [hc]

theorem exists_cons {u t : ℕ} {ts : List ℕ} {P : ℕ → Prop} :
    (∃ j, (u :: ts)[j]? = some t ∧ P j) ↔
      (u = t ∧ P 0) ∨ ∃ j, ts[j]? = some t ∧ P (j + 1) := by
  constructor
  · rintro ⟨j, hj, hp⟩
    cases j with
    | zero => exact .inl ⟨by simpa using hj, hp⟩
    | succ j => exact .inr ⟨j, by simpa using hj, hp⟩
  · rintro (⟨rfl, hp⟩ | ⟨j, hj, hp⟩)
    · exact ⟨0, rfl, hp⟩
    · exact ⟨j + 1, by simpa using hj, hp⟩

theorem typecoms_code {e : Env} {k : ℕ} {code code' : ℕ → Bool} {ts : List ℕ} {failed : Bool}
    (h : typecoms e k code ts = some (code', failed)) (t : ℕ) :
    code' t = true ↔ code t = true ∨ ∃ j, ts[j]? = some t ∧ e.typecom (k + j) = .made := by
  induction ts generalizing k code failed with
  | nil =>
    obtain ⟨rfl, -⟩ := Prod.mk.inj (Option.some.inj h)
    simp
  | cons u ts ih =>
    have hshift : (∃ j, (u :: ts)[j]? = some t ∧ e.typecom (k + j) = .made) ↔
        (u = t ∧ e.typecom k = .made) ∨
          ∃ j, ts[j]? = some t ∧ e.typecom (k + 1 + j) = .made := by
      rw [exists_cons]
      simp only [Nat.add_zero, ← Nat.add_assoc, Nat.add_right_comm k _ 1]
    rw [hshift]
    rw [typecoms] at h
    split_ifs at h with hu
    · rw [ih h]
      constructor
      · rintro (hc | hj)
        · exact .inl hc
        · exact .inr (.inr hj)
      · rintro (hc | ⟨rfl, -⟩ | hj)
        · exact .inl hc
        · exact .inl hu
        · exact .inr hj
    · cases hk : e.typecom k with
      | raise => simp [hk] at h
      | unmapped =>
        rw [hk] at h
        rw [ih h]
        simp
      | refused =>
        rw [hk] at h
        obtain ⟨⟨c, f⟩, hr, heq⟩ := Option.map_eq_some_iff.mp h
        obtain rfl : c = code' := (Prod.mk.inj heq).1
        rw [ih hr]
        simp
      | made =>
        rw [hk] at h
        rw [ih h]
        by_cases ht : t = u
        · subst ht
          simp
        · simp [Function.update_of_ne ht, Ne.symm ht]

structure Whole (m m' : Module) : Prop where
  prog : m'.prog = m.prog
  text : m'.text = m.text
  entry : m'.entry = m.entry
  ext : m'.ext = m.ext
  htab : m'.htab = m.htab
  origmp : m'.origmp = m.origmp

def Outcome.Sound (m : Module) (ml : List Link) : Outcome → Prop
  | .raised => False
  | .bad m' ml' => Whole m m' ∧ ml' = ml
  | .ok m' _ => ∀ t ∈ typesused m ml, m'.code t = true

/-- Nothing raises an error; what stops the first pass comes before it has counted a table; a type
is refused its code only where relocation changes no table; and each type used gets its code. -/
def Spared (e : Env) (m : Module) (ml : List Link) : Prop :=
  match stop e m ml with
  | .start => True
  | .counting done => ∀ inst ∈ m.prog.take done, ∀ t ∈ inst.table, ¬t.Counted m.origmp
  | .raised => False
  | .relocated relpc => moved relpc (counted m.origmp m.prog) m.prog = m.origmp
  | .none => ∀ t ∈ typesused m ml, m.code t = true ∨
      ∃ k, (typesused m ml ++ typesused m ml)[k]? = some t ∧ e.typecom k = .made

theorem whole_origmp {m : Module} {mp : Words} {code : ℕ → Bool} :
    Whole m { m with origmp := mp, code := code } ↔ mp = m.origmp :=
  ⟨fun h => h.origmp, fun h => ⟨rfl, rfl, rfl, rfl, rfl, h⟩⟩

theorem exists_twice {ts : List ℕ} {t : ℕ} {P : ℕ → Prop} :
    (∃ k, (ts ++ ts)[k]? = some t ∧ P k) ↔
      (∃ k, ts[k]? = some t ∧ P (0 + k)) ∨ ∃ k, ts[k]? = some t ∧ P (ts.length + k) := by
  constructor
  · rintro ⟨k, hk, hp⟩
    rcases Nat.lt_or_ge k ts.length with hlt | hge
    · rw [List.getElem?_append_left hlt] at hk
      exact .inl ⟨k, hk, by rwa [Nat.zero_add]⟩
    · rw [List.getElem?_append_right hge] at hk
      exact .inr ⟨k - ts.length, hk, by rwa [Nat.add_sub_cancel' hge]⟩
  · rintro (⟨k, hk, hp⟩ | ⟨k, hk, hp⟩)
    · have hlt := (List.getElem?_eq_some_iff.mp hk).1
      exact ⟨k, by rwa [List.getElem?_append_left hlt], by rwa [Nat.zero_add] at hp⟩
    · exact ⟨ts.length + k, by
        rwa [List.getElem?_append_right (Nat.le_add_right _ _), Nat.add_sub_cancel_left], hp⟩

theorem compile_sound (e : Env) (m : Module) (ml : List Link) :
    (compile e m ml).Sound m ml ↔ Spared e m ml := by
  have hstop := compile_stop e m ml
  rw [Spared]
  cases hs : stop e m ml with
  | start =>
    rw [hs] at hstop
    simp only [hstop, Outcome.Sound, iff_true]
    exact ⟨⟨rfl, rfl, rfl, rfl, rfl, rfl⟩, trivial⟩
  | counting done =>
    rw [hs] at hstop
    simp only [hstop, Outcome.Sound, ← counted_eq_iff, and_true]
    exact whole_origmp
  | raised =>
    rw [hs] at hstop
    simp only [hstop, Outcome.Sound]
  | relocated relpc =>
    rw [hs] at hstop
    obtain ⟨code, hstop⟩ := hstop
    simp only [hstop, Outcome.Sound, and_true]
    exact whole_origmp
  | none =>
    rw [hs] at hstop
    obtain ⟨m', ml', code, failed, hstop, hfirst, hsecond⟩ := hstop
    simp only [hstop, Outcome.Sound]
    refine forall₂_congr fun t _ => ?_
    rw [typecoms_code hsecond, typecoms_code hfirst, exists_twice, or_assoc]

def Loader.load (L : Loader) (e : Env) (m : Module) : Option (List Link) → Loader × Outcome
  | none => lockedcompile e m L
  | some ml => L.compile e m ml

theorem load_outcome (L : Loader) (e : Env) (m : Module) (ml : Option (List Link)) :
    (L.load e m ml).2 = compile e m (ml.getD []) ∧
      (L.Ready → compile e m (ml.getD []) ≠ .raised → (L.load e m ml).1.Ready) := by
  cases ml with
  | some ml =>
    simp only [Loader.load, Loader.compile, Option.getD_some]
    cases compile e m ml <;> simp
  | none =>
    simp only [Loader.load, lockedcompile, Loader.compile, Option.getD_none]
    cases L.lock with
    | none | some b => cases compile e m [] <;> simp [Loader.Ready]

def casemodule : Module where
  prog := [⟨some (.case 0), some 0⟩, ⟨none, none⟩]
  text := none
  origmp a := if a = 0 then 1 else if a = 3 ∨ a = 4 then 1 else 0
  ntype := 1
  code _ := false
  ext := []
  htab := []
  entry := 0
  pctab := []

def typeless (typecode : Typecode) : Env where
  patch := true
  tinit := true
  tmp := true
  preamble := true
  comp _ _ := .words 4
  gen _ _ := .words 2
  map := some 65536
  stray _ := 0
  typecom _ := typecode

end Infernode.Jit
