import Mathlib

/-!
# Decoding a buffer in place

A cursor splits a buffer into what is behind it and what is ahead. A decoder
moves it forward and may rewrite what it passes; it faults when it touches
bytes that are not there, and gives up when a check says that they are not.
`Reads` says what a decoder makes of bytes that are known, `Lays` that on any
bytes at all it stays inside them and where what it found lies; both are
composed along the decoder.
-/

namespace Infernode.Lib

def le : ℕ → ℕ → List UInt8
  | 0, _ => []
  | n + 1, v => UInt8.ofNat (v % 256) :: le n (v / 256)

def leval : List UInt8 → ℕ
  | [] => 0
  | b :: bs => b.toNat + 256 * leval bs

@[simp] theorem le_length (n v : ℕ) : (le n v).length = n := by
  induction n generalizing v with
  | zero => rfl
  | succ n ih => simp [le, ih]

theorem leval_le (n v : ℕ) : leval (le n v) = v % 256 ^ n := by
  induction n generalizing v with
  | zero => simp [le, leval, Nat.mod_one]
  | succ n ih =>
    have hbyte : (UInt8.ofNat (v % 256)).toNat = v % 256 := by simp
    rw [le, leval, ih, hbyte, Nat.pow_succ', Nat.mod_mul]

theorem le_mod (n v : ℕ) : le n (v % 256 ^ n) = le n v := by
  induction n generalizing v with
  | zero => rfl
  | succ n ih =>
    have hdvd : 256 ∣ 256 ^ (n + 1) := Dvd.intro_left (256 ^ n) rfl
    rw [le, le, Nat.mod_mod_of_dvd v hdvd, Nat.pow_succ', Nat.mod_mul_right_div_self, ih]

theorem leval_lt (bs : List UInt8) : leval bs < 256 ^ bs.length := by
  induction bs with
  | nil => simp [leval]
  | cons b bs ih =>
    have hb := b.toNat_lt
    rw [leval, List.length_cons, Nat.pow_succ]
    omega

structure Cursor where
  before : List UInt8
  after : List UInt8

def Cursor.move (c : Cursor) (n : ℕ) : Cursor := ⟨c.before ++ c.after.take n, c.after.drop n⟩

inductive Decoded (α : Type)
  | fault
  | bad
  | ok (a : α) (c : Cursor)

def Decoder (α : Type) := Cursor → Decoded α

def Decoded.next {α β : Type} (f : α → Decoder β) : Decoded α → Decoded β
  | .fault => .fault
  | .bad => .bad
  | .ok a c => f a c

instance : Monad Decoder where
  pure a := fun c => .ok a c
  bind x f := fun c => (x c).next f

theorem Decoder.id_map {α : Type} (x : Decoder α) : id <$> x = x := by
  funext c
  change (x c).next (fun a c => .ok a c) = x c
  cases x c <;> rfl

theorem Decoder.bind_assoc {α β γ : Type} (x : Decoder α) (f : α → Decoder β)
    (g : β → Decoder γ) : x >>= f >>= g = x >>= fun a => f a >>= g := by
  funext c
  change ((x c).next f).next g = (x c).next fun a => f a >>= g
  cases x c <;> rfl

instance : LawfulMonad Decoder :=
  LawfulMonad.mk' Decoder Decoder.id_map (fun _ _ => rfl) Decoder.bind_assoc

theorem Decoder.bind_apply {α β : Type} (x : Decoder α) (f : α → Decoder β) (c : Cursor) :
    (x >>= f) c = (x c).next f := rfl

/-- Give up unless `n` bytes are ahead. -/
def need (n : ℕ) : Decoder Unit := fun c => if c.after.length < n then .bad else .ok () c

def giveup {α : Type} : Decoder α := fun _ => .bad

/-- A number of `n` bytes. -/
def number (n : ℕ) : Decoder ℕ := fun c =>
  if c.after.length < n then .fault else .ok (leval (c.after.take n)) (c.move n)

/-- The place of the next `n` bytes, which are passed over. -/
def region (n : ℕ) : Decoder ℕ := fun c =>
  if c.after.length < n then .fault else .ok c.before.length (c.move n)

/-- A counted string is moved down over the second byte of its count, and a zero
put behind it. -/
def terminated : Decoder ℕ := fun c =>
  if c.after.length < 2 then .bad
  else
    let n := leval (c.after.take 2)
    if c.after.length < n + 2 then .bad
    else
      .ok (c.before.length + 1)
        ⟨c.before ++ (c.after.take 1 ++ (c.after.drop 2).take n ++ [0]), c.after.drop (n + 2)⟩

def many {α : Type} (x : Decoder α) : ℕ → Decoder (List α)
  | 0 => pure []
  | n + 1 => do
    let a ← x
    let l ← many x n
    pure (a :: l)

/-- The string at a place: up to the first zero. -/
def cstring (mem : List UInt8) (p : ℕ) : List UInt8 := (mem.drop p).takeWhile (· ≠ 0)

theorem cstring_append {pre s post : List UInt8} (hs : (0 : UInt8) ∉ s) {p : ℕ}
    (hp : p = pre.length) : cstring (pre ++ (s ++ 0 :: post)) p = s := by
  subst hp
  rw [cstring, List.drop_left, List.takeWhile_append_of_pos]
  · simp
  · intro b hb
    have hne : b ≠ 0 := by rintro rfl; exact hs hb
    simpa using hne

theorem cstring_le {mem pre s post : List UInt8} {p : ℕ} (hmem : mem = pre ++ (s ++ 0 :: post))
    (hp : p = pre.length) : (cstring mem p).length ≤ s.length := by
  subst hmem hp
  rw [cstring, List.drop_left]
  induction s with
  | nil => simp
  | cons b s ih =>
    rw [List.cons_append, List.takeWhile_cons]
    split
    · simpa using ih
    · simp

/-- Whatever the bytes, a result of the decoder is as `P` says. -/
def Yields {α : Type} (x : Decoder α) (P : α → Prop) : Prop := ∀ c v c', x c = .ok v c' → P v

section Yields
variable {α β : Type} {x : Decoder α} {f : α → Decoder β} {P : α → Prop} {Q : β → Prop}

theorem yields_pure {v : α} (h : P v) : Yields (pure v) P := by
  intro c v' c' hv
  obtain ⟨rfl, -⟩ : v = v' ∧ c = c' := by simpa [pure] using hv
  exact h

theorem yields_giveup : Yields (giveup : Decoder α) P := by
  intro c v c' hv
  cases hv

theorem yields_bind (hx : Yields x P) (hf : ∀ v, P v → Yields (f v) Q) : Yields (x >>= f) Q := by
  intro c v c' hv
  rw [Decoder.bind_apply] at hv
  cases hxc : x c with
  | fault | bad => rw [hxc] at hv; cases hv
  | ok a c₁ =>
    rw [hxc] at hv
    exact hf a (hx c a c₁ hxc) c₁ v c' hv

theorem yields_rest (hf : ∀ v, Yields (f v) Q) : Yields (x >>= f) Q :=
  yields_bind (fun _ _ _ _ => trivial) fun v (_ : True) => hf v

theorem need_ok {n : ℕ} {g : Unit → Decoder β} {c c' : Cursor} {v : β}
    (h : (need n >>= g) c = .ok v c') : n ≤ c.after.length ∧ g () c = .ok v c' := by
  rw [Decoder.bind_apply, need] at h
  split at h
  · cases h
  · exact ⟨by omega, h⟩

theorem number_ok {n : ℕ} {g : ℕ → Decoder β} {c c' : Cursor} {v : β}
    (h : (number n >>= g) c = .ok v c') :
    g (leval (c.after.take n)) (c.move n) = .ok v c' := by
  rw [Decoder.bind_apply, number] at h
  split at h
  · cases h
  · exact h

theorem many_length {k : ℕ} : Yields (many x k) fun l => l.length = k := by
  induction k with
  | zero => exact yields_pure rfl
  | succ k ih =>
    refine yields_rest fun a => yields_bind ih fun l hl => ?_
    exact yields_pure (by rw [List.length_cons, hl])

end Yields

/-- On the bytes `w` the decoder succeeds, passes exactly these, and its result is
as `R` says in the buffer it leaves, whatever is behind them. -/
def Reads {α : Type} (x : Decoder α) (w : List UInt8) (R : List UInt8 → α → Prop) : Prop :=
  ∀ pre rest, ∃ a w', x ⟨pre, w ++ rest⟩ = .ok a ⟨pre ++ w', rest⟩ ∧ w'.length = w.length ∧
    ∀ post, R (pre ++ w' ++ post) a

section Reads
variable {α β γ : Type} {x : Decoder α} {f : α → Decoder β} {w w₁ w₂ : List UInt8}

theorem reads_pure {a : α} {R : List UInt8 → α → Prop} (h : ∀ mem, R mem a) :
    Reads (pure a) [] R := by
  intro pre rest
  exact ⟨a, [], by simp [pure], rfl, fun post => h _⟩

theorem reads_bind {R₁ : List UInt8 → α → Prop} {R : List UInt8 → β → Prop} (hx : Reads x w₁ R₁)
    (hf : ∀ a, Reads (f a) w₂ fun mem b => R₁ mem a → R mem b) :
    Reads (x >>= f) (w₁ ++ w₂) R := by
  intro pre rest
  obtain ⟨a, w₁', hxa, hlen₁, hR₁⟩ := hx pre (w₂ ++ rest)
  obtain ⟨b, w₂', hfb, hlen₂, hR₂⟩ := hf a (pre ++ w₁') rest
  refine ⟨b, w₁' ++ w₂', ?_, ?_, ?_⟩
  · rw [Decoder.bind_apply, List.append_assoc, hxa]
    simpa [Decoded.next] using hfb
  · simp [hlen₁, hlen₂]
  · intro post
    have hafter := hR₂ post
    rw [List.append_assoc pre w₁' w₂'] at hafter
    exact hafter (by simpa using hR₁ (w₂' ++ post))

theorem Reads.mono {R R' : List UInt8 → α → Prop} (hx : Reads x w R)
    (h : ∀ mem a, R mem a → R' mem a) : Reads x w R' := by
  intro pre rest
  obtain ⟨a, w', hxa, hlen, hR⟩ := hx pre rest
  exact ⟨a, w', hxa, hlen, fun post => h _ _ (hR post)⟩

theorem Reads.yields {R : List UInt8 → α → Prop} {P : α → Prop} (hx : Reads x w R)
    (hy : Yields x P) : Reads x w fun mem a => P a ∧ R mem a := by
  intro pre rest
  obtain ⟨a, w', hxa, hlen, hR⟩ := hx pre rest
  exact ⟨a, w', hxa, hlen, fun post => ⟨hy _ a _ hxa, hR post⟩⟩

/-- A decoder with one possible result. -/
theorem reads_exact {a : α} {R : List UInt8 → β → Prop} (hx : Reads x w₁ fun _ b => b = a)
    (hf : Reads (f a) w₂ R) : Reads (x >>= f) (w₁ ++ w₂) R := by
  intro pre rest
  obtain ⟨a', w₁', hxa, hlen₁, hR₁⟩ := hx pre (w₂ ++ rest)
  obtain rfl : a' = a := hR₁ []
  obtain ⟨b, w₂', hfb, hlen₂, hR₂⟩ := hf (pre ++ w₁') rest
  refine ⟨b, w₁' ++ w₂', ?_, ?_, ?_⟩
  · rw [Decoder.bind_apply, List.append_assoc, hxa]
    simpa [Decoded.next] using hfb
  · simp [hlen₁, hlen₂]
  · intro post
    simpa using hR₂ post

/-- The last read of a decoder. -/
theorem reads_last {R₁ : List UInt8 → α → Prop} {R : List UInt8 → β → Prop} {h : α → β}
    (hx : Reads x w R₁) (hR : ∀ mem a, R₁ mem a → R mem (h a)) :
    Reads (x >>= fun a => pure (h a)) w R := by
  rw [← List.append_nil w]
  exact reads_bind hx fun a => reads_pure fun mem => hR mem a

theorem reads_need {n : ℕ} {g : Unit → Decoder β} {R : List UInt8 → β → Prop}
    (hn : n ≤ w.length) (hf : Reads (g ()) w R) : Reads (need n >>= g) w R := by
  intro pre rest
  obtain ⟨b, w', hb, hrest⟩ := hf pre rest
  refine ⟨b, w', ?_, hrest⟩
  have hlong : ¬ (w ++ rest).length < n := by
    rw [List.length_append]
    omega
  rw [Decoder.bind_apply, need, if_neg hlong]
  exact hb

theorem reads_number (n v : ℕ) (hv : v < 256 ^ n) :
    Reads (number n) (le n v) fun _ a => a = v := by
  intro pre rest
  refine ⟨v, le n v, ?_, rfl, fun _ => rfl⟩
  have hlong : ¬ (le n v ++ rest).length < n := by simp
  have htake : (le n v ++ rest).take n = le n v := List.take_left' (by simp)
  have hdrop : (le n v ++ rest).drop n = rest := List.drop_left' (by simp)
  rw [number, if_neg hlong]
  simp only [Cursor.move, htake, hdrop, leval_le, Nat.mod_eq_of_lt hv]

theorem reads_else {p : Prop} [Decidable p] {y : Decoder α} {R : List UInt8 → α → Prop} (hp : ¬p)
    (hy : Reads y w R) : Reads (if p then x else y) w R := by
  rwa [if_neg hp]

theorem reads_region (w : List UInt8) :
    Reads (region w.length) w fun mem p => (mem.drop p).take w.length = w := by
  intro pre rest
  refine ⟨pre.length, w, ?_, rfl, ?_⟩
  · simp [region, Cursor.move]
  · intro post
    rw [List.append_assoc, List.drop_left, List.take_left]

theorem reads_terminated (s : List UInt8) (hs : (0 : UInt8) ∉ s) (hlen : s.length < 256 ^ 2) :
    Reads terminated (le 2 s.length ++ s) fun mem p => cstring mem p = s := by
  intro pre rest
  refine ⟨pre.length + 1, (le 2 s.length).take 1 ++ s ++ [0], ?_, ?_, ?_⟩
  · have htake : (le 2 s.length ++ s ++ rest).take 2 = le 2 s.length := by
      rw [List.append_assoc, List.take_left' (by simp)]
    have hval : leval (le 2 s.length) = s.length := by
      rw [leval_le, Nat.mod_eq_of_lt hlen]
    have hdrop : (le 2 s.length ++ s ++ rest).drop 2 = s ++ rest := by
      rw [List.append_assoc, List.drop_left' (by simp)]
    have hdropall : (le 2 s.length ++ s ++ rest).drop (s.length + 2) = rest := by
      rw [List.drop_left' (by simp; omega)]
    have htakeone : (le 2 s.length ++ s ++ rest).take 1 = (le 2 s.length).take 1 := by
      simp [le]
    have hlong : ¬ (le 2 s.length ++ s ++ rest).length < s.length + 2 := by
      simp only [List.length_append, le_length]
      omega
    have htwo : ¬ (le 2 s.length ++ s ++ rest).length < 2 := by
      simp only [List.length_append, le_length]
      omega
    simp only [terminated, if_neg htwo, htake, hval, if_neg hlong, hdrop, hdropall, htakeone,
      List.take_left]
  · simp [le]
  · intro post
    have hassoc : pre ++ ((le 2 s.length).take 1 ++ s ++ [0]) ++ post =
        (pre ++ (le 2 s.length).take 1) ++ (s ++ 0 :: post) := by simp
    rw [hassoc]
    exact cstring_append hs (by simp [le])

theorem reads_many {enc : γ → List UInt8} {R : γ → List UInt8 → α → Prop} {us : List γ}
    (hx : ∀ u ∈ us, Reads x (enc u) (R u)) :
    Reads (many x us.length) (us.flatMap enc)
      fun mem l => List.Forall₂ (fun u a => R u mem a) us l := by
  induction us with
  | nil => exact reads_pure fun _ => .nil
  | cons u us ih =>
    rw [List.flatMap_cons]
    refine reads_bind (hx u List.mem_cons_self) fun a => ?_
    rw [← List.append_nil (us.flatMap enc)]
    refine reads_bind (ih fun u' hu' => hx u' (List.mem_cons_of_mem _ hu')) fun l => ?_
    exact reads_pure fun _ hl ha => .cons ha hl

end Reads

/-- A string, up to its terminator, or a run of bytes. -/
inductive Place
  | str (p : ℕ)
  | data (p n : ℕ)

def Place.start : Place → ℕ
  | .str p => p
  | .data p _ => p

def Place.stop (mem : List UInt8) : Place → ℕ
  | .str p => p + (cstring mem p).length + 1
  | .data p n => p + n

/-- The places lie in order between two positions, none over another. -/
def Placed (mem : List UInt8) : ℕ → List Place → ℕ → Prop
  | lo, [], hi => lo ≤ hi
  | lo, pl :: ps, hi => lo ≤ pl.start ∧ Placed mem (pl.stop mem) ps hi

theorem placed_mono {mem : List UInt8} {ps : List Place} {lo mid hi : ℕ}
    (h : Placed mem lo ps mid) (hm : mid ≤ hi) : Placed mem lo ps hi := by
  induction ps generalizing lo with
  | nil => exact le_trans h hm
  | cons pl ps ih => exact ⟨h.1, ih h.2⟩

theorem placed_append {mem : List UInt8} {ps qs : List Place} {lo mid hi : ℕ}
    (h : Placed mem lo ps mid) (hq : Placed mem mid qs hi) : Placed mem lo (ps ++ qs) hi := by
  induction ps generalizing lo with
  | nil =>
    cases qs with
    | nil => exact le_trans h hq
    | cons pl qs => exact ⟨le_trans h hq.1, hq.2⟩
  | cons pl ps ih => exact ⟨h.1, ih h.2⟩

/-- With `m` bytes ahead the decoder does not fault and passes some of the bytes;
the places found before and in it lie in order up to where it stops. -/
def Lays {α : Type} (m : ℕ) (x : Decoder α) (found : List Place) (places : α → List Place) :
    Prop :=
  ∀ b a, m ≤ a.length → x ⟨b, a⟩ ≠ .fault ∧
    ∀ v c, x ⟨b, a⟩ = .ok v c → ∃ w, c = ⟨b ++ w, a.drop w.length⟩ ∧ w.length ≤ a.length ∧
      ∀ post lo, Placed (b ++ w ++ post) lo found b.length →
        Placed (b ++ w ++ post) lo (places v) (b ++ w).length

section Lays
variable {α β : Type} {m n : ℕ} {x : Decoder α} {f : α → Decoder β} {g : ℕ → Decoder β}
  {found : List Place} {places : β → List Place}

theorem lays_pure {v : β} (h : places v = found) : Lays m (pure v) found places := by
  rintro b a -
  refine ⟨by simp [pure], ?_⟩
  intro v' c hc
  obtain ⟨rfl, rfl⟩ : v = v' ∧ ⟨b, a⟩ = c := by simpa [pure] using hc
  refine ⟨[], by simp, by simp, ?_⟩
  intro post lo hfound
  rw [h]
  simpa using hfound

theorem lays_giveup : Lays m (giveup : Decoder β) found places := by
  rintro b a -
  exact ⟨by simp [giveup], by simp [giveup]⟩

theorem lays_bind {k : ℕ} {mid : α → List Place} (hx : Lays m x found mid)
    (hrest : ∀ b a v c, m ≤ a.length → x ⟨b, a⟩ = .ok v c → k ≤ c.after.length)
    (hf : ∀ v c c', x c = .ok v c' → Lays k (f v) (mid v) places) :
    Lays m (x >>= f) found places := by
  intro b a hm
  obtain ⟨hnofault, hok⟩ := hx b a hm
  rw [Decoder.bind_apply]
  cases hxa : x ⟨b, a⟩ with
  | fault => exact absurd hxa hnofault
  | bad => exact ⟨by simp [Decoded.next], by simp [Decoded.next]⟩
  | ok v c =>
    obtain ⟨w, rfl, hw, hplaced⟩ := hok v c hxa
    have hk := hrest b a v _ hm hxa
    obtain ⟨hnofault', hok'⟩ := hf v _ _ hxa _ _ hk
    refine ⟨hnofault', ?_⟩
    intro v' c' hc'
    obtain ⟨w', rfl, hw', hplaced'⟩ := hok' v' c' hc'
    refine ⟨w ++ w', ?_, ?_, ?_⟩
    · simp [List.drop_drop]
    · simp only [List.length_append, List.length_drop] at hw' ⊢
      omega
    · intro post lo hfound
      have hmid := hplaced (w' ++ post) lo (by simpa using hfound)
      have hend := hplaced' post lo (by simpa using hmid)
      simpa using hend

theorem lays_need {g : Unit → Decoder β} (h : Lays n (g ()) found places) :
    Lays m (need n >>= g) found places := by
  rintro b a -
  rw [Decoder.bind_apply, need]
  by_cases hn : a.length < n
  · rw [if_pos hn]
    exact ⟨by simp [Decoded.next], by simp [Decoded.next]⟩
  · rw [if_neg hn]
    exact h b a (by omega)

theorem lays_number_self (hn : n ≤ m) : Lays m (number n) found fun _ => found := by
  intro b a hm
  have hlong : ¬ a.length < n := by omega
  rw [number, if_neg hlong]
  refine ⟨by simp, ?_⟩
  intro v c hc
  obtain ⟨rfl, rfl⟩ : leval (a.take n) = v ∧ Cursor.move ⟨b, a⟩ n = c := by simpa using hc
  have hlen : (a.take n).length = n := by simp; omega
  refine ⟨a.take n, by rw [Cursor.move, hlen], by simp, ?_⟩
  intro post lo hfound
  exact placed_mono hfound (by simp)

theorem lays_number (hn : n ≤ m) (h : ∀ v, Lays (m - n) (g v) found places) :
    Lays m (number n >>= g) found places := by
  refine lays_bind (lays_number_self hn) ?_ fun v _ _ _ => h v
  intro b a v c hm hc
  have hlong : ¬ a.length < n := by omega
  rw [number, if_neg hlong] at hc
  obtain ⟨-, rfl⟩ : leval (a.take n) = v ∧ Cursor.move ⟨b, a⟩ n = c := by simpa using hc
  simp only [Cursor.move, List.length_drop]
  omega

theorem lays_region_self (hn : n ≤ m) :
    Lays m (region n) found fun p => found ++ [.data p n] := by
  intro b a hm
  have hlong : ¬ a.length < n := by omega
  rw [region, if_neg hlong]
  refine ⟨by simp, ?_⟩
  intro v c hc
  obtain ⟨rfl, rfl⟩ : b.length = v ∧ Cursor.move ⟨b, a⟩ n = c := by simpa using hc
  have hlen : (a.take n).length = n := by simp; omega
  refine ⟨a.take n, by rw [Cursor.move, hlen], by simp, ?_⟩
  intro post lo hfound
  refine placed_append hfound ⟨le_rfl, ?_⟩
  simp [Placed, Place.stop, hlen]

theorem lays_region (hn : n ≤ m) (h : ∀ p, Lays 0 (g p) (found ++ [.data p n]) places) :
    Lays m (region n >>= g) found places :=
  lays_bind (lays_region_self hn) (fun _ _ _ _ _ _ => Nat.zero_le _) fun p _ _ _ => h p

theorem lays_terminated_self : Lays m terminated found fun p => found ++ [.str p] := by
  rintro b a -
  rw [terminated]
  by_cases htwo : a.length < 2
  · simp [htwo]
  by_cases hlong : a.length < leval (a.take 2) + 2
  · simp [htwo, hlong]
  rw [if_neg htwo]
  dsimp only
  rw [if_neg hlong]
  refine ⟨by simp, ?_⟩
  intro v c hc
  set n := leval (a.take 2) with hn
  set w := a.take 1 ++ (a.drop 2).take n ++ [0] with hw
  obtain ⟨rfl, rfl⟩ : b.length + 1 = v ∧ ⟨b ++ w, a.drop (n + 2)⟩ = c := by simpa using hc
  have hone : (a.take 1).length = 1 := by simp; omega
  have hstr : ((a.drop 2).take n).length = n := by simp; omega
  have hlen : w.length = n + 2 := by
    rw [hw, List.length_append, List.length_append, hone, hstr]
    simp
    omega
  refine ⟨w, by rw [hlen], by omega, ?_⟩
  intro post lo hfound
  refine placed_append hfound ⟨?_, ?_⟩
  · simp [Place.start]
  · have hassoc : b ++ w ++ post = (b ++ a.take 1) ++ ((a.drop 2).take n ++ 0 :: post) := by
      simp [hw]
    have hstart : b.length + 1 = (b ++ a.take 1).length := by rw [List.length_append, hone]
    have hcount := cstring_le hassoc hstart
    rw [hstr] at hcount
    change b.length + 1 + (cstring (b ++ w ++ post) (b.length + 1)).length + 1 ≤ (b ++ w).length
    rw [List.length_append, hlen]
    omega

theorem lays_terminated (h : ∀ p, Lays 0 (g p) (found ++ [.str p]) places) :
    Lays m (terminated >>= g) found places :=
  lays_bind lays_terminated_self (fun _ _ _ _ _ _ => Nat.zero_le _) fun p _ _ _ => h p

theorem lays_many_self {k : ℕ} {each : α → List Place}
    (hx : ∀ m found, Lays m x found fun v => found ++ each v) :
    Lays m (many x k) found fun l => found ++ l.flatMap each := by
  induction k generalizing found m with
  | zero => exact lays_pure (by simp)
  | succ k ih =>
    refine lays_bind (hx m found) (fun _ _ _ _ _ _ => Nat.zero_le _) fun v _ _ _ => ?_
    refine lays_bind ih (fun _ _ _ _ _ _ => Nat.zero_le _) fun l _ _ _ => ?_
    exact lays_pure (by simp)

theorem lays_many {k : ℕ} {each : α → List Place} {f : List α → Decoder β}
    (hx : ∀ m found, Lays m x found fun v => found ++ each v)
    (h : ∀ l : List α, l.length = k → Lays 0 (f l) (found ++ l.flatMap each) places) :
    Lays m (many x k >>= f) found places :=
  lays_bind (lays_many_self hx) (fun _ _ _ _ _ _ => Nat.zero_le _) fun l _ _ hl =>
    h l (many_length _ l _ hl)

end Lays

end Infernode.Lib
