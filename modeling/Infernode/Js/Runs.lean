import Infernode.Js.Lengths
import Infernode.Js.Writes

/-!
# Runs

What holds of the objects in every state that operations lead to.
-/

namespace Infernode.Js

open Ecma

variable {P : Type} {s s' s'' : State P} {h fuel : ℕ} {k : Key} {p q : Option ℕ}

theorem protoloop_reaches {ok : Bool} (hloop : protoloop s h fuel q = some ok) :
    ok = false ↔ Reaches s.abs h q := by
  induction fuel generalizing q with
  | zero =>
    cases q with
    | some q => exact nomatch hloop
    | none =>
      obtain rfl := Option.some.inj hloop
      exact ⟨nofun, nofun⟩
  | succ fuel ih =>
    cases q with
    | none =>
      obtain rfl := Option.some.inj hloop
      exact ⟨nofun, nofun⟩
    | some q =>
      rw [protoloop] at hloop
      split_ifs at hloop with hq
      · obtain rfl := Option.some.inj hloop
        exact ⟨fun _ => hq ▸ .here, fun _ => rfl⟩
      · rw [ih hloop]
        refine ⟨.next, fun hreach => ?_⟩
        cases hreach with
        | here => exact absurd rfl hq
        | next hreach => exact hreach

theorem protoloop_total (hends : Ends s.abs q) : ∃ fuel ok, protoloop s h fuel q = some ok := by
  induction hends with
  | none => exact ⟨0, true, rfl⟩
  | @some q _ ih =>
    obtain ⟨fuel, ok, hloop⟩ := ih
    by_cases hq : q = h
    · exact ⟨1, false, if_pos hq⟩
    · exact ⟨fuel + 1, ok, (if_neg hq).trans hloop⟩

theorem setproto_made {r : Bool × State P} (hs : Wf s) (hl : Lens s)
    (hset : setproto s fuel h p = some r) :
    SetsProto s.abs h p (.ret r.1) r.2.abs ∧ Wf r.2 ∧ Lens r.2 := by
  unfold setproto at hset
  dsimp only at hset
  split_ifs at hset with hsame hext
  · obtain rfl := Option.some.inj hset
    exact ⟨.same hsame, hs, hl⟩
  · obtain rfl := Option.some.inj hset
    exact ⟨.fixed hsame hext, hs, hl⟩
  · obtain ⟨ok, hloop, rfl⟩ := Option.map_eq_some_iff.mp hset
    have hreach := protoloop_reaches hloop
    have hext' : (s.abs h).ext = true := by simpa [State.abs] using hext
    cases ok with
    | false => exact ⟨.cycle hsame hext' (hreach.mp rfl), hs, hl⟩
    | true =>
      obtain ⟨hwf, hlens, habs⟩ := setfields_made (h := h) (e := (s.objs h).ext) (q := p) hs hl
      have heq : (s.setobj h { s.objs h with proto := p }).abs =
          Function.update s.abs h { s.abs h with proto := p } := habs
      refine ⟨?_, hwf, hlens⟩
      change SetsProto s.abs h p (.ret true) (s.setobj h { s.objs h with proto := p }).abs
      rw [heq]
      exact .sets hsame hext' fun hr => by cases hreach.mpr hr

variable [DecidableEq P] {len : Tolen P} {v recv : V P} {op : Op P}

theorem set_total (hends : Ends s.abs q) :
    ∀ h, q = some h → ∃ fuel r, set len s k v recv fuel h = some r := by
  induction hends with
  | none => exact nofun
  | @some q _ ih =>
    rintro h ⟨⟩
    cases hproto : (s.objs q).proto with
    | none =>
      refine ⟨1, ?_⟩
      rw [set]
      split
      · exact ⟨_, rfl⟩
      · split
        · exact ⟨_, rfl⟩
        · rw [hproto]
          exact ⟨_, rfl⟩
    | some p =>
      obtain ⟨fuel, r, hset⟩ := ih p hproto
      refine ⟨fuel + 1, ?_⟩
      rw [set]
      split
      · exact ⟨_, rfl⟩
      · split
        · exact ⟨_, rfl⟩
        · rw [hproto]
          exact ⟨r, hset⟩

def Op.Typed (s : State P) : Op P → Prop
  | .arraysetlength h _ | .arrpush h _ => (s.objs h).kind = .array
  | _ => True

/-- The operation meets none of what the elements and the shape do not have of each other, and
appends to no array that may not have one element more. -/
def Clear (len : Tolen P) (s : State P) : Op P → Prop
  | .defineown h k d => Definable len s h k d
  | .set h k v recv => Settable len s h k v recv
  | .delete h k => ¬ Buried s h k
  | .arraysetlength h d => ∀ n, Shortens len s h n d → Cuts s h n
  | .arrpush h _ => Pushable s h
  | .createdata .. | .setproto .. | .preventext _ => True

structure Sane (s : State P) : Prop where
  wf : Wf s
  lens : Lens s
  ends : ∀ q, Ends s.abs q

theorem Sane.of_matches {r : Ans P × State P} {A : Ans P × Heap P} (hs : Sane s)
    (hm : Matches r A) (hdoes : Does len s.abs op A) :
    Does len s.abs op (r.1, r.2.abs) ∧ Sane r.2 := by
  obtain ⟨hans, hwf, hlens, habs⟩ := hm
  rw [hans, habs]
  exact ⟨hdoes, hwf, hlens, habs ▸ hdoes.ends hs.ends⟩

theorem exec_does {r : Ans P × State P} (hs : Sane s) (htyped : op.Typed s)
    (hclear : Clear len s op) (hexec : exec len fuel s op = some r) :
    Does len s.abs op (r.1, r.2.abs) ∧ Sane r.2 := by
  cases op with
  | defineown h k d =>
    obtain rfl := Option.some.inj hexec
    exact hs.of_matches (defineown_made hs.wf hs.lens hclear) (.defineown h k d)
  | set h k v recv =>
    obtain ⟨p, hfinds, hmatches⟩ := set_made hs.wf hs.lens hclear hexec
    exact hs.of_matches hmatches (.set hfinds)
  | createdata h k v =>
    obtain rfl := Option.some.inj hexec
    exact hs.of_matches (createdata_made hs.wf hs.lens) (.createdata h k v)
  | delete h k =>
    obtain rfl := Option.some.inj hexec
    exact hs.of_matches (delete_made hs.wf hs.lens hclear) (.delete h k)
  | setproto h p =>
    obtain ⟨r', hset, rfl⟩ := Option.map_eq_some_iff.mp hexec
    obtain ⟨hsets, hwf, hlens⟩ := setproto_made hs.wf hs.lens hset
    exact hs.of_matches (r := ret r') ⟨rfl, hwf, hlens, rfl⟩ (.setproto hsets)
  | preventext h =>
    obtain rfl := Option.some.inj hexec
    have hmatches : Matches (ret (preventext s h))
        (.ret true, Function.update s.abs h { s.abs h with ext := false }) :=
      ⟨rfl, preventext_made hs.wf hs.lens⟩
    exact hs.of_matches hmatches (.preventext h)
  | arraysetlength h d =>
    obtain rfl := Option.some.inj hexec
    exact hs.of_matches (arraysetlength_made hs.wf hs.lens htyped hclear) (.arraysetlength h d)
  | arrpush h v =>
    obtain rfl := Option.some.inj hexec
    exact hs.of_matches (arrpush_made hs.wf hs.lens htyped hclear) (.arrpush h v)

theorem exec_total (hs : Sane s) : ∃ fuel r, exec len fuel s op = some r := by
  cases op with
  | set h k v recv => exact set_total (hs.ends (some h)) h rfl
  | setproto h p =>
    obtain ⟨fuel, ok, hloop⟩ := protoloop_total (h := h) (hs.ends p)
    refine ⟨fuel, ?_⟩
    rw [exec, setproto, hloop]
    split_ifs <;> exact ⟨_, rfl⟩
  | _ => exact ⟨0, _, rfl⟩

structure Fresh (s : State P) : Prop where
  root : s.nshape = 1 ∧ s.shapes 0 = ⟨[], false, []⟩
  objs : ∀ h, (s.objs h).shape = 0 ∧ (s.objs h).slots = [] ∧ (s.objs h).elems = [] ∧
    (s.objs h).idxprops = false
  ends : ∀ q, Ends s.abs q

omit [DecidableEq P] in
theorem Fresh.sane (hs : Fresh s) : Sane s := by
  obtain ⟨⟨hn, hroot⟩, hobjs, hends⟩ := hs
  have hlook (h : ℕ) (k : Key) : s.look h k = none := by
    rw [State.look, (hobjs h).1, (hobjs h).2.1, hroot]
    rfl
  have hprop (h : ℕ) (k : Key) : s.prop h k = none := by
    rw [State.prop_eq_none, Obj.elem, (hobjs h).2.2.1]
    refine ⟨?_, hlook h k⟩
    cases keyidx k <;> rfl
  have hshapes : Shapes s := by
    refine ⟨fun h => ?_, fun h => ?_, fun i hi => ?_, fun h h' howned => ?_,
      fun i hi k a t hmem => ?_⟩
    · rw [(hobjs h).1, hn]
      exact Nat.zero_lt_one
    · rw [(hobjs h).1, (hobjs h).2.1, hroot]
      rfl
    · obtain rfl : i = 0 := by omega
      rw [hroot]
      exact List.nodup_nil
    · rw [(hobjs h).1, hroot] at howned
      cases howned
    · obtain rfl : i = 0 := by omega
      rw [hroot] at hmem
      cases hmem
  refine ⟨⟨hshapes, fun h => ⟨fun k p hp => ?_, fun i _ => hlook h _, fun k v p _ hp => ?_,
    fun _ => hlook h _, ?_⟩⟩, fun h _ i p hp => ?_, hends⟩
  · cases (hlook h k).symm.trans hp
  · cases (hlook h k).symm.trans hp
  · rw [(hobjs h).2.2.1]
    exact Nat.zero_le _
  · cases (hprop h _).symm.trans hp

inductive Run (len : Tolen P) (s : State P) : State P → Prop
  | refl : Run len s s
  | step {s' s'' : State P} {fuel : ℕ} {op : Op P} {ans : Ans P} : Run len s s' → op.Typed s' →
    Clear len s' op → exec len fuel s' op = some (ans, s'') → Run len s s''

theorem Run.sane (hs : Sane s) (hrun : Run len s s') :
    Sane s' ∧ ∀ h, (s.abs h).Keeps (s'.abs h) := by
  induction hrun with
  | refl => exact ⟨hs, fun h => .refl _⟩
  | step _ htyped hclear hexec ih =>
    obtain ⟨hsane, hkeeps⟩ := ih
    obtain ⟨hdoes, hsane'⟩ := exec_does hsane htyped hclear hexec
    exact ⟨hsane', fun h => (hkeeps h).trans (hdoes.keeps h)⟩

/-- Prototype chains are acyclic, and an array's length exceeds every index it has. -/
structure Lawful (A : Heap P) : Prop where
  acyclic : ∀ h, ¬ Reaches A h (A h).proto
  array : ∀ h, (A h).isarray = true → ∃ l w, (A h).Array l w

omit [DecidableEq P] in
theorem Sane.array (hs : Sane s) (harray : (s.abs h).isarray = true) :
    (s.abs h).Array (s.objs h).alen (!(s.objs h).lenro) := by
  have hkind : (s.objs h).kind = .array := by simpa [State.abs] using harray
  refine ⟨abs_length hs.wf hkind, fun i p hp => ?_⟩
  have hne : Key.index i ≠ alength := by simp [alength]
  rw [hs.wf.abs_props, lengthprop_none fun _ => hne, Option.or_none] at hp
  obtain ⟨q, hq, -⟩ := Option.map_eq_some_iff.mp hp
  exact hs.lens h hkind i q hq

omit [DecidableEq P] in
theorem Sane.lawful (hs : Sane s) : Lawful s.abs := by
  refine ⟨fun h hreach => ?_, fun h harray => ⟨_, _, hs.array harray⟩⟩
  exact (hs.ends (s.abs h).proto).acyclic h hreach hreach

/-- Every operation that is clear answers and does what the language has it, and every state it is
reached in has the essential invariants. -/
theorem essential {s₀ s : State P} (hfresh : Fresh s₀) (hrun : Run len s₀ s) :
    Lawful s.abs ∧ (∀ s', Run len s s' → ∀ h, (s.abs h).Keeps (s'.abs h)) ∧
      ∀ op : Op P, op.Typed s → Clear len s op → (∃ fuel r, exec len fuel s op = some r) ∧
        ∀ fuel r, exec len fuel s op = some r → Does len s.abs op (r.1, r.2.abs) ∧
          ∀ h, (s.abs h).isarray = true →
            Cutdown len (s.abs h) (r.2.abs h) (s.abs h).length.1 (asks h op) := by
  obtain ⟨hs, -⟩ := hrun.sane hfresh.sane
  refine ⟨hs.lawful, fun s' hrun' => (hrun'.sane hs).2, fun op htyped hclear =>
    ⟨exec_total hs, fun fuel r hexec => ?_⟩⟩
  obtain ⟨hdoes, -⟩ := exec_does hs htyped hclear hexec
  refine ⟨hdoes, fun h harray => ?_⟩
  have ho := hs.array harray
  have hcut := hdoes.length ho harray
  rwa [Object.length_eq ho.length]

def wholes : Tolen Unit where
  val
    | .num x => if x < 2 ^ 32 then some x else none
    | _ => none
  lt v n h := by
    cases v with
    | num x =>
      dsimp only at h
      split_ifs at h with hlt
      obtain rfl := Option.some.inj h
      exact hlt
    | _ => exact nomatch h

def arrays : State Unit where
  shapes _ := ⟨[], false, []⟩
  nshape := 1
  objs _ := ⟨.array, true, false, false, 0, [], [], 0, none⟩

theorem arrays_fresh : Fresh arrays := by
  refine ⟨⟨rfl, rfl⟩, fun _ => ⟨rfl, rfl, rfl, rfl⟩, fun q => ?_⟩
  cases q with
  | none => exact .none
  | some q => exact .some .none

theorem essential_push : ∃ s, exec wholes 0 arrays (.arrpush 0 (.num 7)) = some (.ret true, s) ∧
    Lawful s.abs := by
  have hclear : Clear wholes arrays (.arrpush 0 (.num 7)) := fun _ _ => ⟨rfl, rfl, Nat.zero_le _⟩
  have htyped : Op.Typed arrays (.arrpush 0 (.num 7)) := rfl
  have hexec : exec wholes 0 arrays (.arrpush 0 (.num 7)) =
    some (arrpush wholes arrays 0 (.num 7)) := rfl
  exact ⟨_, hexec, (essential arrays_fresh (.step .refl htyped hclear hexec)).1⟩

/-- With index keys in the shape, an element that is made not writable may be written still. -/
theorem essential_fails : ∃ s₁ s₂ s₃,
    exec wholes 0 arrays (.arrpush 0 (.num 7)) = some (.ret true, s₁) ∧
    exec wholes 0 s₁ (.defineown 0 (.index 1000) (valuedesc (.num 8))) = some (.ret true, s₂) ∧
    exec wholes 0 s₂ (.defineown 0 (.index 0) (datadesc (.num 7) ⟨false, true, true, false⟩)) =
      some (.ret true, s₃) ∧
    ¬ Does wholes s₂.abs
      (.defineown 0 (.index 0) (datadesc (.num 7) ⟨false, true, true, false⟩))
      (.ret true, s₃.abs) := by
  refine ⟨_, _, _, rfl, rfl, rfl, fun hdoes => ?_⟩
  have heq {A : Heap Unit} {h : ℕ} {k : Key} {d : Desc Unit} {r : Ans Unit × Heap Unit}
      (hdoes : Does wholes A (.defineown h k d) r) :
      r.2 h = (defineOwn wholes (A h) k d).2 := by
    cases hdoes
    exact Function.update_self _ _ _
  have hprops := congrFun (congrArg Object.props (heq hdoes)) (.index 0)
  revert hprops
  decide

end Infernode.Js
