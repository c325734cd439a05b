import Infernode.Js.Laws

/-!
# Arrays made shorter

What the operations do to an array's length and elements.
-/

namespace Infernode.Js.Ecma

variable {P : Type} {A A' : Heap P} {o o' : Object P} {k : Key} {d : Desc P} {len : Tolen P}
  {h l m n : ℕ} {w : Bool} {op : Op P} {ans : Ans P}

theorem Object.length_eq (ho : o.props alength = some (.data (.num l) w false false)) :
    o.length = (l, w) := by
  rw [Object.length, ho]

theorem shortened_of (hlen : o'.props alength = some (.data (.num m) w false false))
    (hprops : ∀ k ≠ alength, o'.props k = cut m o.props k) (hn : n ≤ m)
    (hconf : ∀ i p, m ≤ i → o.props (.index i) = some p → p.conf = true)
    (hstop : n < m → (o.props (.index (m - 1))).any (!·.conf) = true) : o.Shortened o' n := by
  have hm : o'.length.1 = m := by rw [Object.length_eq hlen]
  refine ⟨by omega, fun hlt => ?_, fun i p hi => hconf i p (by omega), by rwa [hm]⟩
  rw [hm] at hlt ⊢
  have hany := hstop hlt
  cases hp : o.props (.index (m - 1)) with
  | none =>
    rw [hp] at hany
    exact nomatch hany
  | some p => exact ⟨p, rfl, by simpa [hp] using hany⟩

variable [DecidableEq P]

/-- Of an array, an operation shortens it as it is asked to, or leaves its length no less. -/
def Cutdown (len : Tolen P) (o o' : Object P) (l : ℕ) (v : Option (V P)) : Prop :=
  (∃ x n, v = some x ∧ len.val x = some n ∧ n < l ∧ o.Shortened o' n) ∨
    l ≤ o'.length.1 ∧ ∀ x n, v = some x → len.val x = some n → n < l → o' = o

theorem define_longer (ho : o.props alength = some (.data (.num l) w false false))
    (hd : ∀ x, d.value = some x → ∃ n, x = .num n ∧ l ≤ n) :
    l ≤ (ordinaryDefine o alength d).2.length.1 := by
  by_cases hallows : Allows l w d
  · rw [(define_length ho).1 hallows]
    dsimp only
    cases hvalue : d.value with
    | none =>
      rw [Object.length_eq (l := l) (w := d.write.getD w) (by simp)]
    | some x =>
      obtain ⟨n, rfl, hn⟩ := hd x hvalue
      rw [Object.length_eq (l := n) (w := d.write.getD w) (by simp)]
      exact hn
  · rw [(define_length ho).2 hallows, Object.length_eq ho]

theorem arraySetLength_length (ho : o.Array l w) :
    Cutdown len o (arraySetLength len o d).2 l d.value := by
  have hlen : o.length = (l, w) := Object.length_eq ho.length
  unfold arraySetLength
  cases hvalue : d.value with
  | none => exact .inr ⟨define_longer ho.length (by simp [hvalue]), (by simp)⟩
  | some v =>
    dsimp only
    cases hval : len.val v with
    | none =>
      refine .inr ⟨by rw [hlen], fun x n hx hn => ?_⟩
      obtain rfl := Option.some.inj hx
      cases hval.symm.trans hn
    | some newlen =>
      have hasked {x : V P} {n : ℕ} (hx : some v = some x) (hn : len.val x = some n) :
          n = newlen := by
        obtain rfl := Option.some.inj hx
        exact Option.some.inj (hn.symm.trans hval)
      rw [hlen]
      dsimp only
      by_cases hle : l ≤ newlen
      · rw [if_pos hle]
        refine .inr ⟨define_longer ho.length fun x hx => ?_, fun x n hx hn hlt => ?_⟩
        · exact ⟨newlen, (Option.some.inj hx).symm, hle⟩
        · have hn := hasked hx hn
          omega
      rw [if_neg hle]
      by_cases hw : w = false
      · rw [if_pos hw]
        exact .inr ⟨by rw [hlen], fun _ _ _ _ _ => rfl⟩
      rw [if_neg hw]
      have hw' : w = true := by simpa using hw
      subst hw'
      generalize hwrite : (if d.write = some false then some true else d.write) = write
      have hwrite' : write.getD true = true := by
        rw [← hwrite]
        rcases d.write with _ | _ | _ <;> rfl
      by_cases hallows : Allows l true (lendesc d newlen write)
      swap
      · rw [(define_length ho.length).2 hallows]
        exact .inr ⟨by rw [hlen], fun _ _ _ _ _ => rfl⟩
      refine .inl ⟨v, newlen, rfl, hval, by omega, ?_⟩
      have hfirst : ordinaryDefine o alength (lendesc d newlen write) = (true, { o with
          props := Function.update o.props alength
            (some (.data (.num newlen) true false false)) }) := by
        rw [(define_length ho.length).1 hallows]
        simp [lendesc, hwrite']
      rw [hfirst]
      dsimp only
      -- the length is another until the elements are deleted
      obtain ⟨m, hnm, hml, hconf, hstop⟩ := exists_stop (f := o.props) (Nat.le_of_not_le hle)
      have hindex (i : ℕ) : Function.update o.props alength
          (some (.data (.num newlen) true false false)) (.index i) = o.props (.index i) := by
        have hne : Key.index i ≠ alength := by simp [alength]
        rw [Function.update_of_ne hne]
      rw [shrink_eq hnm hml (by simpa only [hindex] using hconf)
        (by simpa only [hindex] using hstop) (by simpa only [hindex] using ho.lt), cut_update]
      have hconf' (i : ℕ) (p : Property P) (hi : m ≤ i) (hp : o.props (.index i) = some p) :
          p.conf = true := by
        have hany := hconf i hi (ho.lt i p hp)
        rw [hp] at hany
        simpa using hany
      have hdone {o' : Object P} {b : Bool} (ho' : o'.props = Function.update (cut m o.props)
          alength (some (.data (.num m) b false false))) : o.Shortened o' newlen := by
        refine shortened_of (w := b) (by rw [ho', Function.update_self]) (fun k hk => ?_) hnm hconf'
          hstop
        rw [ho', Function.update_of_ne hk]
      have hagain (n' : ℕ) (b : Option Bool) : (ordinaryDefine { o with
          props := Function.update (cut m o.props) alength
            (some (.data (.num newlen) true false false)) } alength (lendesc d n' b)).2.props =
          Function.update (cut m o.props) alength
            (some (.data (.num n') (b.getD true) false false)) := by
        have hallows' : Allows newlen true (lendesc d n' b) :=
          ⟨hallows.1, hallows.2.1, rfl, .inl rfl⟩
        rw [(define_length (n := newlen) (w := true) (by simp)).1 hallows']
        simp [lendesc]
      dsimp only
      by_cases hlt : newlen < m
      · rw [if_pos hlt]
        exact hdone (hagain m d.write)
      · obtain rfl : m = newlen := by omega
        rw [if_neg hlt]
        split_ifs
        · exact hdone (hagain m (some false))
        · exact hdone rfl

theorem define_other (hk : k ≠ alength) :
    (ordinaryDefine o k d).2.props alength = o.props alength := by
  rw [ordinaryDefine]
  split_ifs
  · exact Function.update_of_ne hk.symm _ _
  · rfl

theorem defineOwn_length (ho : o.Array l w) (harray : o.isarray = true) :
    Cutdown len o (defineOwn len o k d).2 l (if k = alength then d.value else none) := by
  have hlen : o.length = (l, w) := Object.length_eq ho.length
  unfold defineOwn
  by_cases hk : k = alength
  · rw [if_pos ⟨harray, hk⟩, if_pos hk]
    exact arraySetLength_length ho
  rw [if_neg fun h => hk h.2, if_neg hk, if_pos harray]
  have hfirst : (ordinaryDefine o k d).2.props alength = some (.data (.num l) w false false) := by
    rw [define_other hk, ho.length]
  refine .inr ⟨?_, nofun⟩
  cases keyindex k with
  | none => exact Nat.le_of_eq (by rw [Object.length_eq hfirst])
  | some i =>
    dsimp only
    by_cases hro : o.length.1 ≤ i ∧ o.length.2 = false
    · rw [if_pos hro, hlen]
    · rw [if_neg hro]
      revert hfirst
      generalize ordinaryDefine o k d = r
      obtain ⟨ok, o₁⟩ := r
      intro hfirst
      cases ok with
      | false => rw [Object.length_eq hfirst]
      | true =>
        dsimp only
        split_ifs with hlong
        · refine define_longer hfirst fun x hx => ⟨i + 1, (Option.some.inj hx).symm, ?_⟩
          rw [hlen] at hlong
          omega
        · rw [Object.length_eq hfirst]

omit [DecidableEq P] in
theorem delete_length (ho : o.Array l w) : Cutdown len o (delete o k).2 l none := by
  refine .inr ⟨?_, nofun⟩
  have hlen : o.length = (l, w) := Object.length_eq ho.length
  unfold delete
  cases hp : o.props k with
  | none => rw [hlen]
  | some p =>
    dsimp only
    split_ifs with hconf
    · have hk : alength ≠ k := by
        rintro rfl
        obtain rfl := Option.some.inj (hp.symm.trans ho.length)
        exact nomatch hconf
      rw [Object.length_eq (l := l) (w := w) (by simp [hk, ho.length])]
    · rw [hlen]

def asks (h : ℕ) : Op P → Option (V P)
  | .defineown h' k d => if h' = h ∧ k = alength then d.value else none
  | .set _ k v (.obj r) => if r = h ∧ k = alength then some v else none
  | .arraysetlength h' d => if h' = h then d.value else none
  | _ => none

omit [DecidableEq P] in
theorem after_edits {r : Ans P × Object P} (hr : (A h).Edits r.2) (i : ℕ) :
    (A i).Edits ((after A h r).2 i) := by
  by_cases hi : i = h
  · subst hi
    simpa [after] using hr
  · simpa [after, hi] using Object.Edits.refl (A i)

theorem setWith_edits {v recv : V P} {p : Option (Property P)} (i : ℕ) :
    (A i).Edits ((setWith len A k v recv p).2 i) := by
  have hrefl : (A i).Edits (A i) := .refl _
  have hreceived : (A i).Edits ((setWith len A k v recv none).2 i) := by
    cases recv with
    | obj r =>
      rw [setWith]
      rcases (A r).props k with _ | (⟨x, _ | _, e, c⟩ | ⟨g, t, e, c⟩)
      · exact after_edits defineOwn_edits i
      · exact hrefl
      · exact after_edits defineOwn_edits i
      · exact hrefl
    | _ => exact hrefl
  rcases p with _ | (⟨x, _ | _, e, c⟩ | ⟨g, _ | t, e, c⟩)
  · exact hreceived
  · exact hrefl
  · exact hreceived
  · exact hrefl
  · exact hrefl

theorem Does.edits {r : Ans P × Heap P} (hdoes : Does len A op r) :
    (∃ h p, SetsProto A h p r.1 r.2) ∨ ∀ i, (A i).Edits (r.2 i) := by
  cases hdoes with
  | defineown h k d | createdata h k v => exact .inr (after_edits defineOwn_edits)
  | set hfinds => exact .inr setWith_edits
  | delete h k => exact .inr (after_edits (r := boolret _) delete_edits)
  | @setproto h p ans A' hsets => exact .inl ⟨h, p, hsets⟩
  | preventext h =>
    refine .inr fun i => ?_
    by_cases hi : i = h
    · subst hi
      simp only [Function.update_self]
      exact ⟨⟨fun k p hp _ => ⟨p, hp, .inl rfl⟩, fun _ => ⟨rfl, rfl, fun _ hk => hk⟩⟩, rfl⟩
    · simpa [hi] using Object.Edits.refl (A i)
  | arraysetlength h d => exact .inr (after_edits arraySetLength_edits)
  | arrpush h v =>
    have hedits := after_edits (r := createData len (A h) (numkey (A h).length.1) v)
      defineOwn_edits
    revert hedits
    generalize after A h (createData len (A h) (numkey (A h).length.1) v) = r
    obtain ⟨ans, A'⟩ := r
    intro hedits
    rcases ans with (_ | _) | _ | _ | _ <;> exact .inr hedits

theorem Does.keeps {r : Ans P × Heap P} (hdoes : Does len A op r) (i : ℕ) :
    (A i).Keeps (r.2 i) := by
  rcases hdoes.edits with ⟨h, p, hsets⟩ | hedits
  swap
  · exact (hedits i).toKeeps
  obtain ⟨ans, A'⟩ := r
  cases hsets with
  | sets _ hext _ =>
    by_cases hi : i = h
    · subst hi
      simp only
      exact ⟨fun k p hp _ => ⟨p, hp, .inl rfl⟩, fun hfalse => by simp [hext] at hfalse⟩
    · simpa [hi] using Object.Keeps.refl (A i)
  | _ => exact .refl _

theorem Does.ends {r : Ans P × Heap P} (hdoes : Does len A op r) (hends : ∀ q, Ends A q)
    (q : Option ℕ) : Ends r.2 q := by
  rcases hdoes.edits with ⟨h, p, hsets⟩ | hedits
  swap
  · exact (hends q).congr fun i => (hedits i).proto
  obtain ⟨ans, A'⟩ := r
  cases hsets with
  | sets _ _ hreach => exact .setproto hreach (hends p) (hends q)
  | _ => exact hends q

omit [DecidableEq P] in
theorem cutdown_same {v : Option (V P)} (ho : o.Array l w) (hprops : o'.props = o.props) :
    Cutdown len o o' l none ∧ (o' = o → Cutdown len o o' l v) := by
  have hlen : l ≤ o'.length.1 := by
    rw [Object.length_eq (l := l) (w := w) (by rw [hprops, ho.length])]
  exact ⟨.inr ⟨hlen, nofun⟩, fun h => .inr ⟨hlen, fun _ _ _ _ _ => h⟩⟩

omit [DecidableEq P] in
theorem after_cutdown {r : Ans P × Object P} {v : Option (V P)} {i : ℕ} (ho : (A i).Array l w)
    (hself : h = i → Cutdown len (A i) r.2 l v) : Cutdown len (A i) ((after A h r).2 i) l v := by
  by_cases hi : h = i
  · subst hi
    simpa [after] using hself rfl
  · have hne : i ≠ h := fun h => hi h.symm
    simpa [after, hne] using (cutdown_same ho rfl).2 rfl

theorem arraySetLength_refused (ho : o.Array l w) (hconf : d.conf = some true) :
    (arraySetLength len o d).2 = o := by
  have hnot (d' : Desc P) (hd' : d'.conf = d.conf) : ordinaryDefine o alength d' = (false, o) :=
    (define_length ho.length).2 fun h => h.1 (hd'.trans hconf)
  unfold arraySetLength
  cases d.value with
  | none => simp [hnot d rfl]
  | some v =>
    dsimp only
    cases len.val v with
    | none => rfl
    | some n =>
      have hlendesc (b : Option Bool) : ordinaryDefine o alength (lendesc d n b) = (false, o) :=
        hnot _ rfl
      rw [Object.length_eq ho.length]
      dsimp only
      split_ifs <;> simp [hlendesc]

theorem createData_length {v : V P} (ho : o.Array l w) (harray : o.isarray = true) :
    Cutdown len o (createData len o k v).2 l none := by
  by_cases hk : k = alength
  · have hsame : (createData len o k v).2 = o := by
      rw [createData, defineOwn, if_pos ⟨harray, hk⟩]
      exact arraySetLength_refused ho rfl
    exact (cutdown_same (v := none) ho (by rw [hsame])).1
  · have hcut : Cutdown len o (defineOwn len o k (datadesc v Adefault)).2 l _ :=
      defineOwn_length ho harray
    rwa [if_neg hk] at hcut

theorem setWith_length {v recv : V P} {p : Option (Property P)} {i : ℕ} (ho : (A i).Array l w)
    (harray : (A i).isarray = true) :
    Cutdown len (A i) ((setWith len A k v recv p).2 i) l (asks i (.set h k v recv)) := by
  have hsame : Cutdown len (A i) (A i) l (asks i (.set h k v recv)) :=
    (cutdown_same ho rfl).2 rfl
  have hreceived : Cutdown len (A i) ((setWith len A k v recv none).2 i) l
      (asks i (.set h k v recv)) := by
    cases recv with
    | obj r =>
      rw [setWith]
      rcases hr : (A r).props k with _ | (⟨x, _ | _, e, c⟩ | ⟨g, t, e, c⟩)
      · refine after_cutdown ho fun hi => ?_
        subst hi
        have hk : k ≠ alength := by
          rintro rfl
          exact nomatch hr.symm.trans ho.length
        simpa [asks, hk] using createData_length ho harray
      · exact hsame
      · refine after_cutdown ho fun hi => ?_
        subst hi
        have hcut : Cutdown len (A r) (defineOwn len (A r) k (valuedesc v)).2 l _ :=
          defineOwn_length ho harray
        simpa [asks, valuedesc] using hcut
      · exact hsame
    | _ => exact hsame
  rcases p with _ | (⟨x, _ | _, e, c⟩ | ⟨g, _ | t, e, c⟩)
  · exact hreceived
  · exact hsame
  · exact hreceived
  · exact hsame
  · exact hsame

theorem Does.length {r : Ans P × Heap P} {i : ℕ} (hdoes : Does len A op r)
    (ho : (A i).Array l w) (harray : (A i).isarray = true) :
    Cutdown len (A i) (r.2 i) l (asks i op) := by
  cases hdoes with
  | defineown h k d =>
    refine after_cutdown ho fun hi => ?_
    subst hi
    have hcut : Cutdown len (A h) (defineOwn len (A h) k d).2 l _ := defineOwn_length ho harray
    simpa [asks] using hcut
  | set hfinds => exact setWith_length ho harray
  | createdata h k v =>
    refine after_cutdown ho fun hi => ?_
    subst hi
    exact createData_length ho harray
  | delete h k =>
    refine after_cutdown ho fun hi => ?_
    subst hi
    exact delete_length ho
  | @setproto h p ans A' hsets =>
    refine (cutdown_same (v := none) ho ?_).1
    cases hsets with
    | sets _ _ _ =>
      by_cases hi : i = h
      · simp [hi]
      · simp [hi]
    | _ => rfl
  | preventext h =>
    refine (cutdown_same (v := none) ho ?_).1
    by_cases hi : i = h
    · simp [hi]
    · simp [hi]
  | arraysetlength h d =>
    refine after_cutdown ho fun hi => ?_
    subst hi
    have hcut : Cutdown len (A h) (arraySetLength len (A h) d).2 l d.value :=
      arraySetLength_length ho
    simpa [asks] using hcut
  | arrpush h v =>
    have hcut : Cutdown len (A i)
        ((after A h (createData len (A h) (numkey (A h).length.1) v)).2 i) l none :=
      after_cutdown ho fun hi => by
        subst hi
        exact createData_length ho harray
    change Cutdown len (A i) _ l none
    revert hcut
    generalize after A h (createData len (A h) (numkey (A h).length.1) v) = r
    obtain ⟨ans, A'⟩ := r
    intro hcut
    rcases ans with (_ | _) | _ | _ | _ <;> exact hcut

end Infernode.Js.Ecma
