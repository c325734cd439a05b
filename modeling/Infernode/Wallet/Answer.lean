import Infernode.Wallet.Pending

/-!
# One answer per read

Every read of pay, authorize or event is answered once, dropped by a flush or
the clunk of its fid, or still parked, and a parked read has nothing to be told
yet. The books are kept per tag: a read adds one, its answer or its dropping
takes one away, and what remains is parked.
-/

namespace Infernode.Wallet
open Infernode.Limbo Infernode.Lib

variable {K : Prop}

def Log.asks (t : ℕ) : Log → Bool
  | .asked m => m.tag = t
  | _ => false

def Log.answers (t : ℕ) : Log → Bool
  | .told _ m _ => m.tag = t
  | .event m _ => m.tag = t
  | .refused m _ => m.tag = t
  | _ => false

def Log.drops (t : ℕ) : Log → Bool
  | .dropped m => m.tag = t
  | _ => false

def Log.delta (t : ℕ) (e : Log) : ℤ :=
  (e.asks t).toNat - (e.answers t).toNat - (e.drops t).toNat

def net (t : ℕ) (log : List Log) : ℤ := (log.map (Log.delta t)).sum

@[simp] theorem net_cons (t : ℕ) (e : Log) (log : List Log) :
    net t (e :: log) = e.delta t + net t log := by
  simp [net]

@[simp] theorem net_append (t : ℕ) (l log : List Log) : net t (l ++ log) = net t l + net t log := by
  simp [net]

theorem net_counts (t : ℕ) (log : List Log) :
    net t log = log.countP (Log.asks t) - log.countP (Log.answers t) -
      log.countP (Log.drops t) := by
  induction log with
  | nil => rfl
  | cons e log ih =>
    simp only [net_cons, ih, List.countP_cons, Log.delta]
    cases e.asks t <;> cases e.answers t <;> cases e.drops t <;> simp <;> omega

def parked (t : ℕ) (reads : List (Option Tread)) : ℕ := reads.countP (·.any (·.tag = t))

@[simp] theorem parked_append (t : ℕ) (l l' : List (Option Tread)) :
    parked t (l ++ l') = parked t l + parked t l' := List.countP_append

def weight (t : ℕ) (rd : Option Tread) : ℕ := (rd.any (·.tag = t)).toNat

@[simp] theorem parked_cons (t : ℕ) (rd : Option Tread) (l : List (Option Tread)) :
    parked t (rd :: l) = weight t rd + parked t l := by
  simp only [parked, List.countP_cons, weight]
  cases rd.any (·.tag = t) <;> simp [Nat.add_comm]

@[simp] theorem weight_none (t : ℕ) : weight t none = 0 := rfl

def waits (l : List FidResult) : List (Option Tread) := l.map (·.wait)

def reads (s : Server) : List (Option Tread) :=
  waits s.paystates ++ waits s.authstates ++ s.evfids.map (·.rd)

def Adds (P : Log → Prop) (Q Q' : Queue) : Prop := ∃ es, Q'.log = es ++ Q.log ∧ ∀ e ∈ es, P e

theorem Adds.refl (P : Log → Prop) (Q : Queue) : Adds P Q Q := ⟨[], rfl, by simp⟩

theorem Adds.of_log {P : Log → Prop} {Q Q' : Queue} (h : Q'.log = Q.log) : Adds P Q Q' :=
  ⟨[], h, by simp⟩

theorem Adds.one {P : Log → Prop} {Q Q' : Queue} {e : Log} (h : Q'.log = e :: Q.log) (he : P e) :
    Adds P Q Q' :=
  ⟨[e], h, by simpa using he⟩

theorem Adds.trans {P : Log → Prop} {Q Q' Q'' : Queue} (h : Adds P Q Q') (h' : Adds P Q' Q'') :
    Adds P Q Q'' := by
  obtain ⟨es, he, hP⟩ := h
  obtain ⟨es', he', hP'⟩ := h'
  refine ⟨es' ++ es, by rw [he', he, List.append_assoc], fun e hm => ?_⟩
  rcases List.mem_append.mp hm with hm | hm
  · exact hP' e hm
  · exact hP e hm

theorem Adds.mono {P R : Log → Prop} (hPR : ∀ e, P e → R e) {Q Q' : Queue} (h : Adds P Q Q') :
    Adds R Q Q' := by
  obtain ⟨es, he, hP⟩ := h
  exact ⟨es, he, fun e hm => hPR e (hP e hm)⟩

def Log.expiry : Log → Prop
  | .resolved _ r => r = lit "expired"
  | _ => False

def Log.silent : Log → Prop
  | .posted _ => False
  | .dropped _ => False
  | _ => True

def Log.dropless : Log → Prop
  | .dropped _ => False
  | _ => True

theorem Log.silent_of_expiry (e : Log) (h : e.expiry) : e.silent := by
  cases e <;> simp_all [Log.expiry, Log.silent]

theorem Log.dropless_of_silent (e : Log) (h : e.silent) : e.dropless := by
  cases e <;> simp_all [Log.silent, Log.dropless]

theorem Log.delta_expiry {e : Log} (h : e.expiry) (t : ℕ) : e.delta t = 0 := by
  cases e <;> first | rfl | exact h.elim

theorem net_expiry {es : List Log} (h : ∀ e ∈ es, e.expiry) (t : ℕ) : net t es = 0 := by
  induction es with
  | nil => rfl
  | cons e es ih =>
    rw [net_cons, Log.delta_expiry (h e List.mem_cons_self),
      ih fun x hx => h x (List.mem_cons_of_mem _ hx), add_zero]

theorem Adds.net_eq {Q Q' : Queue} (h : Adds Log.expiry Q Q') (t : ℕ) :
    net t Q'.log = net t Q.log := by
  obtain ⟨es, he, hP⟩ := h
  rw [he, net_append, net_expiry hP, zero_add]

theorem adds_checkpendingexpiry (time : ℕ → ℤ) (Q : Queue) (id : ℤ) :
    Adds Log.expiry Q (checkpendingexpiry time Q id) := by
  simp only [checkpendingexpiry]
  split
  · exact Adds.refl _ _
  · split_ifs
    · exact Adds.refl _ _
    · exact Adds.one (e := .resolved id (lit "expired")) rfl rfl
    · exact Adds.of_log rfl

theorem expireall_log (time : ℕ → ℤ) (l : List PendingPay) (n : ℕ) (log : List Log) :
    ∃ es, (expireall time l n log).2.2 = es ++ log ∧ ∀ e ∈ es, e.expiry := by
  induction l generalizing n log with
  | nil => exact ⟨[], rfl, by simp⟩
  | cons pp l ih =>
    simp only [expireall]
    split_ifs with hr hl
    · exact ih n log
    · obtain ⟨es, he, hP⟩ := ih (n + 1) (.resolved pp.id "expired" :: log)
      refine ⟨es ++ [.resolved pp.id (lit "expired")], by rw [he, List.append_assoc]; rfl,
        fun e hm => ?_⟩
      rcases List.mem_append.mp hm with hm | hm
      · exact hP e hm
      · rw [List.mem_singleton.mp hm]
        exact rfl
    · exact ih (n + 1) log

theorem adds_expireall (time : ℕ → ℤ) (Q : Queue) : Adds Log.expiry Q (Q.expireall time) :=
  expireall_log time Q.pendingpays Q.ticks Q.log

theorem adds_resolvefidresult (time : ℕ → ℤ) {Q Q' : Queue} {result r : Str}
    (h : resolvefidresult time Q result = (Q', r)) : Adds Log.expiry Q Q' := by
  have hQ : Q' = (resolvefidresult time Q result).1 := by rw [h]
  rw [hQ]
  simp only [resolvefidresult]
  split_ifs
  · exact Adds.refl _ _
  · exact Adds.refl _ _
  · split
    · exact Adds.refl _ _
    · split
      · exact Adds.refl _ _
      · split
        · exact adds_checkpendingexpiry time Q _
        · exact adds_checkpendingexpiry time Q _

def Asked (log : List Log) (m : Tread) (P : List Log → Prop) : Prop :=
  ∃ post pre, log = post ++ .asked m :: pre ∧ P pre

theorem Asked.suffix {log log' : List Log} {m : Tread} {P : List Log → Prop}
    (h : Asked log m P) (hs : log <:+ log') : Asked log' m P := by
  obtain ⟨post, pre, rfl, hP⟩ := h
  obtain ⟨es, rfl⟩ := hs
  exact ⟨es ++ post, pre, by simp, hP⟩

theorem Adds.suffix {P : Log → Prop} {Q Q' : Queue} (h : Adds P Q Q') : Q.log <:+ Q'.log := by
  obtain ⟨es, he, -⟩ := h
  exact ⟨es, he.symm⟩

/-- A parked read is for the proposal `id`, the one its fid held when it was
asked. -/
def For (f : File) (result : Str) (m : Tread) (log : List Log) (id : ℤ) : Prop :=
  1 ≤ id ∧ result = "pending:" ++ intstr id ∧ Asked log m fun pre => current f m.fid pre = some id

def Waiting (f : File) (result : Str) (m : Tread) (log : List Log) : Prop :=
  ∃ id, For f result m log id ∧ id ∉ resolutions log

def Owed (f : File) (result : Str) (m : Tread) (log : List Log) : Prop :=
  ∃ id, For f result m log id ∧
    ∀ r, .resolved id r ∈ log → ispending (outcometext r) = false

theorem Waiting.owed {f : File} {result : Str} {m : Tread} {log : List Log}
    (h : Waiting f result m log) : Owed f result m log := by
  obtain ⟨id, hfor, hno⟩ := h
  exact ⟨id, hfor, fun r hr => absurd (mem_resolutions.mpr ⟨r, hr⟩) hno⟩

theorem For.suffix {f : File} {result : Str} {m : Tread} {log log' : List Log} {id : ℤ}
    (h : For f result m log id) (hs : log <:+ log') : For f result m log' id :=
  ⟨h.1, h.2.1, h.2.2.suffix hs⟩

theorem pending_injective {i j : ℤ} (hi : 1 ≤ i) (hj : 1 ≤ j)
    (h : ("pending:" ++ intstr i : Str) = "pending:" ++ intstr j) : i = j := by
  have hd := List.append_cancel_left h
  rw [intstr_nat hi, intstr_nat hj] at hd
  have := decimal_injective hd
  omega

theorem Adds.outcomes {Q Q' : Queue} (h : Adds Log.expiry Q Q') {id : ℤ} {r : Str}
    (hr : .resolved id r ∈ Q'.log) : .resolved id r ∈ Q.log ∨ r = lit "expired" := by
  obtain ⟨es, he, hP⟩ := h
  rw [he] at hr
  rcases List.mem_append.mp hr with hr | hr
  · exact Or.inr (hP _ hr)
  · exact Or.inl hr

theorem Owed.expiry {f : File} {result : Str} {m : Tread} {Q Q' : Queue}
    (h : Owed f result m Q.log) (ha : Adds Log.expiry Q Q') : Owed f result m Q'.log := by
  obtain ⟨id, hfor, hout⟩ := h
  refine ⟨id, hfor.suffix ha.suffix, fun r hr => ?_⟩
  rcases ha.outcomes hr with hr | rfl
  · exact hout r hr
  · decide

theorem resolutions_say {e : Log} (log : List Log) (h : ∀ i r, e ≠ .resolved i r) :
    resolutions (e :: log) = resolutions log := by
  cases e with
  | resolved i r => exact absurd rfl (h i r)
  | _ => rfl

structure Woken (f : File) (fr fr' : FidResult) (Q Q' : Queue) : Prop where
  adds : Adds Log.silent Q Q'
  settled : ∀ t, net t Q'.log + weight t fr.wait = net t Q.log + weight t fr'.wait
  waiting : ∀ m, fr'.wait = some m → Waiting f fr.result m Q'.log
  frame : ∀ id, 1 ≤ id → fr.result ≠ "pending:" ++ intstr id →
    id ∈ resolutions Q'.log → id ∈ resolutions Q.log
  outcomes : ∀ id r, .resolved id r ∈ Q'.log → .resolved id r ∈ Q.log ∨ r = lit "expired"

theorem woken_refl {f : File} {fr : FidResult} {Q : Queue} (h : fr.wait = none) :
    Woken f fr fr Q Q where
  adds := Adds.refl _ _
  settled _ := rfl
  waiting m hm := by
    rw [h] at hm
    cases hm
  frame _ _ _ h := h
  outcomes _ _ h := Or.inl h

theorem checkpendingexpiry_frame (time : ℕ → ℤ) (Q : Queue) {id i : ℤ} (hne : i ≠ id)
    (h : i ∈ resolutions (checkpendingexpiry time Q id).log) : i ∈ resolutions Q.log := by
  simp only [checkpendingexpiry] at h
  split at h
  · exact h
  · split_ifs at h
    · exact h
    · rcases List.mem_cons.mp h with rfl | h
      · exact absurd rfl hne
      · exact h
    · exact h

theorem resolvefidresult_frame (time : ℕ → ℤ) {Q : Queue} (hQ : QInv K Q) {id : ℤ} (h1 : 1 ≤ id)
    {Q' : Queue} {r : Str} (h : resolvefidresult time Q ("pending:" ++ intstr id) = (Q', r)) {i : ℤ}
    (hne : i ≠ id) (hi : i ∈ resolutions Q'.log) : i ∈ resolutions Q.log := by
  rcases resolvefidresult_cases time hQ h1 h with ⟨-, rfl, -⟩ | ⟨-, rfl, -⟩ | ⟨-, rfl, -⟩
  · exact hi
  · exact hi
  · exact checkpendingexpiry_frame time Q hne hi

theorem wakeresult_woken (time : ℕ → ℤ) {Q : Queue} (hQ : QInv K Q) {f : File} {fr : FidResult}
    (ho : ∀ m, fr.wait = some m → Owed f fr.result m Q.log) :
    Woken f fr (wakeresult time f fr Q).1 Q (wakeresult time f fr Q).2 := by
  simp only [wakeresult]
  cases hm : fr.wait with
  | none => exact woken_refl hm
  | some m =>
    obtain ⟨id, ⟨h1, hres, hask⟩, hout⟩ := ho m hm
    cases hr : resolvefidresult time Q fr.result with
    | mk Q' r =>
      have hadds := adds_resolvefidresult time hr
      have hr' := hr
      rw [hres] at hr'
      have hframe : ∀ i, 1 ≤ i → fr.result ≠ "pending:" ++ intstr i →
          i ∈ resolutions Q'.log → i ∈ resolutions Q.log := by
        intro i hi hne
        refine resolvefidresult_frame time hQ h1 hr' fun he => hne ?_
        rw [hres, he]
      simp only []
      split_ifs with hp
      · refine ⟨hadds.mono Log.silent_of_expiry, fun t => ?_, fun m' hm' => ?_, hframe,
          fun _ _ => hadds.outcomes⟩
        · rw [hadds.net_eq, hm]
        · rw [hm] at hm'
          obtain rfl := Option.some.inj hm'
          refine ⟨id, ⟨h1, hres, hask.suffix hadds.suffix⟩, ?_⟩
          rcases resolvefidresult_cases time hQ h1 hr' with
            ⟨-, -, rfl⟩ | ⟨-, -, rfl⟩ | ⟨-, -, ⟨hno, -⟩ | ⟨x, hx, rfl⟩⟩
          · exact absurd hp (by decide)
          · exact absurd hp (by decide)
          · exact hno
          · rcases hadds.outcomes hx with hx | rfl
            · rw [hout x hx] at hp
              cases hp
            · exact absurd hp (by decide)
      · refine ⟨(hadds.mono Log.silent_of_expiry).trans (Adds.one (e := .told f m _) rfl trivial),
          fun t => ?_, fun m' hm' => ?_, fun i hi hne hmem => ?_, fun i x hx => ?_⟩
        · simp only [Queue.say, net_cons, hadds.net_eq, weight_none, hm]
          simp only [Log.delta, Log.asks, Log.answers, Log.drops, weight, Option.any_some]
          cases decide (m.tag = t) <;> simp
        · cases hm'
        · exact hframe i hi hne hmem
        · refine hadds.outcomes ?_
          rcases List.mem_cons.mp hx with hx | hx
          · cases hx
          · exact hx

theorem shape_results (l : List FidResult) : (shape l).map Prod.snd = l.map (·.result) := by
  simp [shape, Function.comp_def]

structure Awake (f : File) (l l' : List FidResult) (Q Q' : Queue) : Prop where
  adds : Adds Log.silent Q Q'
  settled : ∀ t, net t Q'.log + parked t (waits l) = net t Q.log + parked t (waits l')
  waiting : ∀ fr ∈ l', ∀ m, fr.wait = some m → Waiting f fr.result m Q'.log
  frame : ∀ id, 1 ≤ id → ("pending:" ++ intstr id : Str) ∉ l.map (·.result) →
    id ∈ resolutions Q'.log → id ∈ resolutions Q.log
  outcomes : ∀ id r, .resolved id r ∈ Q'.log → .resolved id r ∈ Q.log ∨ r = lit "expired"

theorem Waiting.frame {f : File} {result : Str} {m : Tread} {Q Q' : Queue}
    (h : Waiting f result m Q.log) (hs : Q.log <:+ Q'.log)
    (hf : ∀ id, 1 ≤ id → result = "pending:" ++ intstr id → id ∈ resolutions Q'.log →
      id ∈ resolutions Q.log) : Waiting f result m Q'.log := by
  obtain ⟨id, hfor, hno⟩ := h
  exact ⟨id, hfor.suffix hs, fun hm => hno (hf id hfor.1 hfor.2.1 hm)⟩

theorem Owed.frame {f : File} {result : Str} {m : Tread} {Q Q' : Queue}
    (h : Owed f result m Q.log) (hs : Q.log <:+ Q'.log)
    (ho : ∀ id r, .resolved id r ∈ Q'.log → .resolved id r ∈ Q.log ∨ r = lit "expired") :
    Owed f result m Q'.log := by
  obtain ⟨id, hfor, hout⟩ := h
  refine ⟨id, hfor.suffix hs, fun r hr => ?_⟩
  rcases ho id r hr with hr | rfl
  · exact hout r hr
  · decide

theorem wakelist_awake (time : ℕ → ℤ) {f : File} {l : List FidResult} :
    ∀ {Q : Queue}, QInv K Q → (∀ e ∈ shape l, Held K Q f e) → Waits l →
      (l.map (·.result)).Nodup →
      (∀ fr ∈ l, ∀ m, fr.wait = some m → Owed f fr.result m Q.log) →
      Awake f l (wakelist time f l Q).1 Q (wakelist time f l Q).2 := by
  induction l with
  | nil => exact fun _ _ _ _ _ => ⟨Adds.refl _ _, fun _ => rfl, fun _ h => by simp [wakelist] at h,
      fun _ _ _ h => h, fun _ _ h => Or.inl h⟩
  | cons fr l ih =>
    intro Q hQ he hw hnd ho
    obtain ⟨hkeep, hfid, hres, -⟩ := wakeresult_spec time hQ
      (he (fr.fid, fr.result) (by simp [shape])) (hw fr (by simp))
    have h1 := wakeresult_woken time hQ (ho fr (by simp))
    obtain ⟨hnot, hnd⟩ : fr.result ∉ l.map (·.result) ∧ (l.map (·.result)).Nodup :=
      List.nodup_cons.mp hnd
    have h2 := ih (hkeep.inv hQ)
      (fun e hm => (he e (List.mem_cons_of_mem _ hm)).carries hkeep.toCarries)
      (fun x hx => hw x (List.mem_cons_of_mem _ hx)) hnd
      fun x hx m hm => (ho x (List.mem_cons_of_mem _ hx) m hm).frame h1.adds.suffix h1.outcomes
    simp only [wakelist]
    refine ⟨h1.adds.trans h2.adds, fun t => ?_, fun x hx m hm => ?_, fun id hid hno hmem => ?_,
      fun id r hr => ?_⟩
    · have e1 := h1.settled t
      have e2 := h2.settled t
      simp only [waits, List.map_cons, parked_cons, Nat.cast_add] at e2 ⊢
      omega
    · rcases List.mem_cons.mp hx with rfl | hx
      · rw [hres]
        refine (h1.waiting m hm).frame h2.adds.suffix fun id hid heq hmem => ?_
        exact h2.frame id hid (heq ▸ hnot) hmem
      · exact h2.waiting x hx m hm
    · simp only [List.map_cons, List.mem_cons, not_or] at hno
      exact h1.frame id hid (Ne.symm hno.1) (h2.frame id hid hno.2 hmem)
    · rcases h2.outcomes id r hr with hr | rfl
      · exact h1.outcomes id r hr
      · exact Or.inr rfl

theorem tellevent_told (msg : Str) (l : List EvFid) :
    ∀ Q : Queue, Adds Log.silent Q (tellevent msg l Q).2 ∧
      resolutions (tellevent msg l Q).2.log = resolutions Q.log ∧
      (∀ ef ∈ (tellevent msg l Q).1, ef.rd = none) ∧
      ∀ t, net t (tellevent msg l Q).2.log + parked t (l.map (·.rd)) =
        net t Q.log + parked t ((tellevent msg l Q).1.map (·.rd)) := by
  induction l with
  | nil => exact fun Q => ⟨Adds.refl _ _, rfl, by simp [tellevent], fun _ => rfl⟩
  | cons ef l ih =>
    intro Q
    simp only [tellevent]
    cases hm : ef.rd with
    | none =>
      obtain ⟨hadds, hres, hnone, hnet⟩ := ih Q
      refine ⟨hadds, hres, fun x hx => ?_, fun t => ?_⟩
      · rcases List.mem_cons.mp hx with rfl | hx
        · split
          · exact hm
          · rfl
        · exact hnone x hx
      · have hhead : (if inlist msg ef.q then ef else
            { ef with q := ef.q ++ [msg], rd := none }).rd = none := by
          split
          · exact hm
          · rfl
        simpa [hm, hhead] using hnet t
    | some m =>
      obtain ⟨hadds, hres, hnone, hnet⟩ := ih (Q.say (.event m msg))
      refine ⟨(Adds.one (e := .event m msg) rfl trivial).trans hadds, hres, fun x hx => ?_,
        fun t => ?_⟩
      · rcases List.mem_cons.mp hx with rfl | hx
        · rfl
        · exact hnone x hx
      · have hrest := hnet t
        simp only [Queue.say, net_cons] at hrest ⊢
        simp only [List.map_cons, parked_cons, hm, weight_none, zero_add] at hrest ⊢
        simp only [Log.delta, Log.asks, Log.answers, Log.drops, weight, Option.any_some] at hrest ⊢
        cases hd : decide (m.tag = t) <;> simp [hd] at hrest ⊢ <;> omega

def Listens (log : List Log) (ef : EvFid) (m : Tread) : Prop :=
  m.fid = ef.fid ∧ ef.q = [] ∧ ∃ post pre, log = post ++ .asked m :: pre ∧
    ∀ msg, .posted msg ∉ post

/-- What holds of parked reads, with `hand` the read being served and `W` what
those of pay and authorize wait for. -/
structure Parks (W : File → Str → Tread → List Log → Prop) (hand : Option Tread) (s : Server) :
    Prop where
  waiting : ∀ f, ∀ fr ∈ states s f, ∀ m, fr.wait = some m → W f fr.result m s.queue.log
  listens : ∀ ef ∈ s.evfids, ∀ m, ef.rd = some m → Listens s.queue.log ef m
  balanced : ∀ t, net t s.queue.log = weight t hand + parked t (reads s)

theorem Listens.adds {Q Q' : Queue} {ef : EvFid} {m : Tread} (h : Listens Q.log ef m)
    (ha : Adds Log.silent Q Q') : Listens Q'.log ef m := by
  obtain ⟨hfid, hq, post, pre, hlog, hpost⟩ := h
  obtain ⟨es, he, hP⟩ := ha
  refine ⟨hfid, hq, es ++ post, pre, by rw [he, hlog, List.append_assoc], fun msg hm => ?_⟩
  rcases List.mem_append.mp hm with hm | hm
  · exact hP _ hm
  · exact hpost msg hm

variable {W W' : File → Str → Tread → List Log → Prop} {hand hand' : Option Tread}

theorem Parks.change {s : Server} (h : Parks W hand s) {Q : Queue} (ha : Adds Log.silent s.queue Q)
    (hnet : ∀ t, net t Q.log + weight t hand = net t s.queue.log + weight t hand')
    (hw : ∀ f, ∀ fr ∈ states s f, ∀ m, fr.wait = some m → W f fr.result m s.queue.log →
      W' f fr.result m Q.log) : Parks W' hand' { s with queue := Q } where
  waiting f fr hfr m hm := by
    rw [states_queue] at hfr
    exact hw f fr hfr m hm (h.waiting f fr hfr m hm)
  listens ef hef m hm := (h.listens ef hef m hm).adds ha
  balanced t := by
    have h1 := h.balanced t
    have h2 := hnet t
    have h3 : reads { s with queue := Q } = reads s := rfl
    rw [h3]
    simp only
    omega

theorem current_proposed {f : File} {fid : ℕ} {id : ℤ} {log : List Log}
    (h : current f fid log = some id) : .proposed f fid id ∈ log := by
  induction log with
  | nil => cases h
  | cons e log ih =>
    cases e with
    | proposed g n i =>
      simp only [current] at h
      split_ifs at h with hgn
      · obtain ⟨rfl, rfl⟩ := hgn
        rw [Option.some.inj h]
        exact List.mem_cons_self
      · exact List.mem_cons_of_mem _ (ih h)
    | clunked n =>
      simp only [current] at h
      split_ifs at h
      exact List.mem_cons_of_mem _ (ih h)
    | _ => exact List.mem_cons_of_mem _ (ih h)

theorem mem_proposals {id : ℤ} {log : List Log} :
    id ∈ proposals log ↔ ∃ f fid, .proposed f fid id ∈ log := by
  induction log with
  | nil => simp [proposals]
  | cons e log ih =>
    cases e with
    | proposed g n i =>
      simp only [proposals, List.mem_cons, ih, Log.proposed.injEq]
      constructor
      · rintro (rfl | ⟨f, fid, h⟩)
        · exact ⟨g, n, Or.inl ⟨rfl, rfl, rfl⟩⟩
        · exact ⟨f, fid, Or.inr h⟩
      · rintro ⟨f, fid, ⟨rfl, rfl, rfl⟩ | h⟩
        · exact Or.inl rfl
        · exact Or.inr ⟨f, fid, h⟩
    | _ => simpa [proposals] using ih

theorem proposed_unique {log : List Log} (hnd : (proposals log).Nodup) {f g : File} {n k : ℕ}
    {id : ℤ} (h : .proposed f n id ∈ log) (h' : .proposed g k id ∈ log) : f = g ∧ n = k := by
  induction log with
  | nil => cases h
  | cons e log ih =>
    cases e with
    | proposed j i x =>
      obtain ⟨hx, hnd⟩ := List.nodup_cons.mp hnd
      simp only [List.mem_cons, Log.proposed.injEq] at h h'
      rcases h with ⟨rfl, rfl, rfl⟩ | h
      · rcases h' with ⟨rfl, rfl, -⟩ | h'
        · exact ⟨rfl, rfl⟩
        · exact absurd (mem_proposals.mpr ⟨g, k, h'⟩) hx
      · rcases h' with ⟨rfl, rfl, rfl⟩ | h'
        · exact absurd (mem_proposals.mpr ⟨f, n, h⟩) hx
        · exact ih hnd h h'
    | _ => exact ih hnd (by simpa using h) (by simpa using h')

theorem held_unique {Q : Queue} (hQ : QInv K Q) {f g : File} {e e' : ℕ × Str} (h : Held K Q f e)
    (h' : Held K Q g e') (he : e.2 = e'.2) : f = g ∧ e.1 = e'.1 := by
  obtain ⟨i, hi, hci, hi1, -, -⟩ := h
  obtain ⟨j, hj, hcj, hj1, -, -⟩ := h'
  obtain rfl : i = j := pending_injective hi1 hj1 (by rw [← hi, ← hj, he])
  exact proposed_unique hQ.distinct (current_proposed hci) (current_proposed hcj)

theorem results_nodup {s : Server} (h : SInv K s) (f : File) :
    ((states s f).map (·.result)).Nodup := by
  have hl := h.linked f
  have hfids : ((states s f).map (·.fid)).Nodup := map_fst_shape (states s f) ▸ hl.fids
  refine (List.nodup_map_iff_inj_on (List.Nodup.of_map _ hfids)).mpr fun x hx y hy he => ?_
  have := held_unique h.queue (hl.held _ (List.mem_map.mpr ⟨x, hx, rfl⟩))
    (hl.held _ (List.mem_map.mpr ⟨y, hy, rfl⟩)) he
  exact List.inj_on_of_nodup_map hfids hx hy this.2

theorem results_apart {s : Server} (h : SInv K s) {fr fr' : FidResult} (hp : fr ∈ s.paystates)
    (ha : fr' ∈ s.authstates) : fr.result ≠ fr'.result := by
  intro he
  have := held_unique h.queue ((h.linked .pay).held _ (List.mem_map.mpr ⟨fr, hp, rfl⟩))
    ((h.linked .authorize).held _ (List.mem_map.mpr ⟨fr', ha, rfl⟩)) he
  cases this.1

theorem postevent_parks (time : ℕ → ℤ) {s : Server} (hs : SInv K s) (h : Parks Owed hand s)
    (msg : Str) : Parks Waiting hand (postevent time s msg) ∧
      Adds Log.dropless s.queue (postevent time s msg).queue := by
  obtain ⟨hk1, hs1, -⟩ := wakelist_spec time hs.queue (hs.linked .pay).held (hs.waits .pay)
  have h1 := wakelist_awake time hs.queue (hs.linked .pay).held (hs.waits .pay)
    (results_nodup hs .pay) (h.waiting .pay)
  have h2 := wakelist_awake time (hk1.inv hs.queue)
    ((hs.linked .authorize).carries hk1.toCarries).held (hs.waits .authorize)
    (results_nodup hs .authorize)
    fun fr hfr m hm => (h.waiting .authorize fr hfr m hm).frame h1.adds.suffix h1.outcomes
  simp only [states] at hk1 hs1 h1 h2
  obtain ⟨hadds, hres, hnone, hnet⟩ := tellevent_told msg s.evfids
    ((wakelist time .authorize s.authstates (wakelist time .pay s.paystates s.queue).2).2.say
      (.posted msg))
  set pay := wakelist time .pay s.paystates s.queue with hpay
  set auth := wakelist time .authorize s.authstates pay.2 with hauth
  set ev := tellevent msg s.evfids (auth.2.say (.posted msg)) with hev
  have hout : postevent time s msg =
      { s with paystates := pay.1, authstates := auth.1, evfids := ev.1, queue := ev.2 } := rfl
  have hsuf : auth.2.log <:+ ev.2.log := (List.suffix_cons _ _).trans hadds.suffix
  have hlast : ∀ {f result m}, Waiting f result m auth.2.log → Waiting f result m ev.2.log :=
    fun hw => hw.frame hsuf fun id _ _ hm => by
      rw [hres] at hm
      exact hm
  rw [hout]
  refine ⟨⟨fun f fr hfr m hm => ?_, fun ef hef m hm => ?_, fun t => ?_⟩, ?_⟩
  · cases f with
    | pay =>
      refine hlast ((h1.waiting fr hfr m hm).frame h2.adds.suffix fun id hid he hmem => ?_)
      refine h2.frame id hid (fun hin => ?_) hmem
      obtain ⟨fr', hfr', hr'⟩ := List.mem_map.mp hin
      have hmemr : fr.result ∈ s.paystates.map (·.result) := by
        rw [← shape_results, ← hs1, shape_results]
        exact List.mem_map.mpr ⟨fr, hfr, rfl⟩
      obtain ⟨fr0, hfr0, hr0⟩ := List.mem_map.mp hmemr
      exact results_apart hs hfr0 hfr' (by rw [hr0, he, hr'])
    | authorize => exact hlast (h2.waiting fr hfr m hm)
  · rw [hnone ef hef] at hm
    cases hm
  · have e1 := h1.settled t
    have e2 := h2.settled t
    have e3 := hnet t
    have e0 := h.balanced t
    have hpost : net t (auth.2.say (.posted msg)).log = net t auth.2.log := by
      simp [Queue.say, Log.delta, Log.asks, Log.answers, Log.drops]
    simp only [reads, parked_append, Nat.cast_add] at e0 ⊢
    omega
  · have hone : Adds Log.dropless auth.2 (auth.2.say (.posted msg)) :=
      Adds.one (e := .posted msg) rfl trivial
    exact ((h1.adds.trans h2.adds).mono Log.dropless_of_silent).trans
      (hone.trans (hadds.mono Log.dropless_of_silent))

def awaited (s : Server) : List Str :=
  ((s.paystates ++ s.authstates).filter (·.wait.isSome)).map (·.result)

def Undisturbed (s : Server) (Q : Queue) : Prop :=
  ∀ pp ∈ Q.pendingpays, pp.result ≠ none → "pending:" ++ intstr pp.id ∉ awaited s

/-- The outcome that a result stands for does not itself read as pending. -/
def Plain (Q : Queue) (result : Str) : Prop :=
  ∀ pp ∈ Q.pendingpays, result = "pending:" ++ intstr pp.id →
    ∀ r ∈ pp.result, ispending (outcometext r) = false

def Unparked (s : Server) (f : File) (fid : ℕ) (Q : Queue) : Prop :=
  ∀ fr ∈ states s f, fr.fid = fid → fr.wait ≠ none →
    ∃ pp ∈ Q.pendingpays, fr.result = "pending:" ++ intstr pp.id ∧ pp.result ≠ none

/-- Where no read is lost: a second read is not parked over the first, records
that are waited for lapse in no other way than by an event, and no id is used
twice. -/
def Attended (time : ℕ → ℤ) (s : Server) : Request → Prop
  | .pay fid aid usdc amount recipient => Submits s (.pay fid aid usdc amount recipient) →
      Room time s fun Q => Q.nextpendingid + 1 < 2 ^ 31 ∧ Unparked s .pay fid Q
  | .authorize fid aid areq => Submits s (.authorize fid aid areq) →
      Room time s fun Q => Q.nextpendingid + 1 < 2 ^ 31 ∧ Unparked s .authorize fid Q
  | .approve id env => ∀ s' acct pp, admission time s id = (s', .ok (acct, pp)) → ∀ res,
      (execute env (getnetwork s') acct pp s'.books).2 = .ok res → ispending res = true →
        "pending:" ++ intstr id ∉ awaited s
  | .read f aid m => findacctbyid s aid ≠ none → ∀ fr ∈ states s f, fr.fid = m.fid →
      (fr.wait ≠ none → m.offset ≠ 0 ∧ Undisturbed s (resolvefidresult time s.queue fr.result).1) ∧
        (fr.told ∧ m.offset = 0 → Plain s.queue fr.result)
  | .readpending => Undisturbed s (s.queue.expireall time)
  | .readevent m => ∀ ef ∈ s.evfids.find? (·.fid = m.fid), ef.rd = none
  | _ => True

theorem Attended.spared {time : ℕ → ℤ} {s : Server} {r : Request} (h : Attended time s r) :
    Spared False time s r := by
  intro hs ht hlive
  refine ⟨?_, fun hf => hf.elim⟩
  cases r with
  | pay | authorize => exact (h hs ht hlive).1
  | _ => exact hs.elim

structure AInv (s : Server) : Prop where
  base : SInv False s
  parks : Parks Waiting none s

theorem mem_awaited {s : Server} {f : File} {fr : FidResult} (h : fr ∈ states s f) {m : Tread}
    (hm : fr.wait = some m) : fr.result ∈ awaited s := by
  refine List.mem_map.mpr ⟨fr, List.mem_filter.mpr ⟨?_, by simp [hm]⟩, rfl⟩
  cases f with
  | pay => exact List.mem_append_left _ h
  | authorize => exact List.mem_append_right _ h

theorem ids_expireall (time : ℕ → ℤ) (l : List PendingPay) (n : ℕ) (log : List Log) :
    (expireall time l n log).1.map (·.id) = l.map (·.id) := by
  induction l generalizing n log with
  | nil => rfl
  | cons pp l ih =>
    simp only [expireall]
    split_ifs <;> simp [ih]

theorem held_record {s : Server} (h : SInv K s) {f : File} {fr : FidResult} (hfr : fr ∈ states s f)
    {id : ℤ} (hid : 1 ≤ id) (hres : fr.result = "pending:" ++ intstr id)
    (hno : id ∉ resolutions s.queue.log) : id ∈ s.queue.pendingpays.map (·.id) := by
  obtain ⟨i, hi, -, hi1, hi2, -⟩ := (h.linked f).held _ (List.mem_map.mpr ⟨fr, hfr, rfl⟩)
  obtain rfl : i = id := pending_injective hi1 hid (by rw [← hres]; exact hi.symm)
  obtain ⟨pp, hpp, hid'⟩ := h.queue.kept i hi1 hi2 hno
  exact List.mem_map.mpr ⟨pp, hpp, hid'⟩

theorem Waiting.undisturbed {s : Server} (h : SInv K s) {Q : Queue} (hQ : QInv K Q)
    (hs : s.queue.log <:+ Q.log) (hids : Q.pendingpays.map (·.id) = s.queue.pendingpays.map (·.id))
    (hu : Undisturbed s Q) {f : File} {fr : FidResult} (hfr : fr ∈ states s f) {m : Tread}
    (hm : fr.wait = some m) (hw : Waiting f fr.result m s.queue.log) :
    Waiting f fr.result m Q.log := by
  obtain ⟨id, hfor, hno⟩ := hw
  refine ⟨id, hfor.suffix hs, fun hmem => ?_⟩
  have hrec := held_record h hfr hfor.1 hfor.2.1 hno
  rw [← hids] at hrec
  obtain ⟨pp, hpp, rfl⟩ := List.mem_map.mp hrec
  refine hu pp hpp (fun hnone => hQ.unresolved pp hpp hnone hmem) ?_
  rw [← hfor.2.1]
  exact mem_awaited hfr hm

theorem readpending_parks (time : ℕ → ℤ) {s : Server} (h : AInv s)
    (ha : Attended time s .readpending) :
    Parks Waiting none (readpending time s) ∧ Adds Log.silent s.queue (readpending time s).queue := by
  have hadds := adds_expireall time s.queue
  have hkeep := keeps_expireall time h.base.queue
  have hsil := hadds.mono Log.silent_of_expiry
  refine ⟨h.parks.change hsil (fun t => by rw [hadds.net_eq]) fun f fr hfr m hm hw => ?_, hsil⟩
  exact hw.undisturbed h.base (hkeep.inv h.base.queue) hadds.suffix
    (ids_expireall time s.queue.pendingpays _ _) ha hfr hm

theorem Parks.ask {s : Server} (h : Parks Waiting none s) (m : Tread) :
    Parks Waiting (some m) { s with queue := s.queue.say (.asked m) } := by
  have hadds : Adds Log.silent s.queue (s.queue.say (.asked m)) :=
    Adds.one (e := .asked m) rfl trivial
  refine h.change hadds (fun t => ?_) fun f fr _ m' _ hw => hw.frame hadds.suffix fun _ _ _ hi => hi
  simp only [Queue.say, net_cons, Log.delta, Log.asks, Log.answers, Log.drops, weight,
    Option.any_some]
  cases decide (m.tag = t) <;> simp [add_comm]

theorem Parks.answer {s : Server} {m : Tread} (h : Parks Waiting (some m) s) {e : Log}
    (he : ∀ t, e.delta t = -weight t (some m)) (hsil : e.silent) (hres : ∀ i r, e ≠ .resolved i r) :
    Parks Waiting none { s with queue := s.queue.say e } := by
  have hadds : Adds Log.silent s.queue (s.queue.say e) := Adds.one rfl hsil
  refine h.change hadds (fun t => ?_) fun f fr _ m' _ hw =>
    hw.frame hadds.suffix fun _ _ _ hi => ?_
  · simp only [Queue.say, net_cons, he, weight_none]
    omega
  · simpa only [Queue.say, resolutions_say _ hres] using hi

theorem delta_told (t : ℕ) (f : File) (m : Tread) (text : Str) :
    (Log.told f m text).delta t = -weight t (some m) := by
  simp [Log.delta, Log.asks, Log.answers, Log.drops, weight]

theorem delta_event (t : ℕ) (m : Tread) (msg : Str) :
    (Log.event m msg).delta t = -weight t (some m) := by
  simp [Log.delta, Log.asks, Log.answers, Log.drops, weight]

theorem delta_refused (t : ℕ) (m : Tread) (err : Str) :
    (Log.refused m err).delta t = -weight t (some m) := by
  simp [Log.delta, Log.asks, Log.answers, Log.drops, weight]

theorem delta_dropped (t : ℕ) (m : Tread) : (Log.dropped m).delta t = -weight t (some m) := by
  simp [Log.delta, Log.asks, Log.answers, Log.drops, weight]

theorem parked_setstates (t : ℕ) (s : Server) (f : File) (l : List FidResult) :
    parked t (reads (setstates s f l)) + parked t (waits (states s f)) =
      parked t (reads s) + parked t (waits l) := by
  cases f <;> simp [reads, setstates, states] <;> omega

theorem parked_updatefid (t : ℕ) {fid : ℕ} {g : FidResult → FidResult} {l : List FidResult}
    {fr : FidResult} (h : getfidresult l fid = some fr) :
    parked t (waits (updatefid fid g l)) + weight t fr.wait =
      parked t (waits l) + weight t (g fr).wait := by
  induction l with
  | nil => cases h
  | cons x l ih =>
    simp only [updatefid]
    by_cases hx : x.fid = fid
    · obtain rfl : x = fr := by simpa [getfidresult, hx] using h
      simp only [if_pos hx, waits, List.map_cons, parked_cons]
      omega
    · have hl : getfidresult l fid = some fr := by simpa [getfidresult, hx] using h
      have := ih hl
      simp only [if_neg hx, waits, List.map_cons, parked_cons] at this ⊢
      omega

theorem checkpendingexpiry_say (time : ℕ → ℤ) (Q : Queue) (e : Log) (id : ℤ) :
    (checkpendingexpiry time (Q.say e) id).pendingpays =
      (checkpendingexpiry time Q id).pendingpays := by
  have hfind : findpending id (Q.say e).pendingpays = findpending id Q.pendingpays := rfl
  simp only [checkpendingexpiry, hfind]
  cases findpending id Q.pendingpays with
  | none => rfl
  | some pp =>
    by_cases hr : pp.result = none
    · by_cases hl : lapsed (time Q.ticks) pp = true
      · simp [hr, hl, Queue.say, Queue.tick, Queue.resolve]
      · simp [hr, hl, Queue.say, Queue.tick]
    · simp [hr, Queue.say]

theorem resolvefidresult_say (time : ℕ → ℤ) (Q : Queue) (e : Log) (result : Str) :
    (resolvefidresult time (Q.say e) result).1.pendingpays =
      (resolvefidresult time Q result).1.pendingpays := by
  have hcheck := checkpendingexpiry_say time Q e
  simp only [resolvefidresult]
  split_ifs
  · rfl
  · rfl
  · split
    · rfl
    · rename_i id _
      have hfind : findpending (id : ℤ) (Q.say e).pendingpays = findpending id Q.pendingpays := rfl
      rw [hfind]
      split
      · rfl
      · rw [hcheck]
        split
        · exact hcheck id
        · exact hcheck id

def Clear (time : ℕ → ℤ) (s : Server) (m : Tread) (fr : FidResult) : Prop :=
  (fr.wait ≠ none → m.offset ≠ 0 ∧ Undisturbed s (resolvefidresult time s.queue fr.result).1) ∧
    (fr.told ∧ m.offset = 0 → Plain s.queue fr.result)

theorem resolve_parks (time : ℕ → ℤ) {s : Server} (hb : SInv K s) (h : Parks Waiting hand s)
    {f : File} {m : Tread} {fr : FidResult} (hfr : fr ∈ states s f) (ha : Clear time s m fr)
    {Q : Queue} {r : Str} (hr : resolvefidresult time s.queue fr.result = (Q, r)) :
    Parks Waiting hand { s with queue := Q } ∧ Adds Log.silent s.queue Q := by
  have hadds := adds_resolvefidresult time hr
  have hsil := hadds.mono Log.silent_of_expiry
  obtain ⟨id, hres, -, h1, h2, hk⟩ := (hb.linked f).held _ (List.mem_map.mpr ⟨fr, hfr, rfl⟩)
  simp only at hres
  have hr' := hr
  rw [hres] at hr'
  obtain ⟨hkeep, -⟩ := resolvefidresult_spec time hb.queue h1 h2 hk hr'
  refine ⟨h.change hsil (fun t => by rw [hadds.net_eq]) fun g x hx m' hm' hw => ?_, hsil⟩
  by_cases heq : x.result = fr.result
  · -- the fid's own read is parked: its record must not lapse here
    obtain ⟨rfl, hfid⟩ := held_unique hb.queue
      ((hb.linked g).held _ (List.mem_map.mpr ⟨x, hx, rfl⟩))
      ((hb.linked f).held _ (List.mem_map.mpr ⟨fr, hfr, rfl⟩)) heq
    have hfids : ((states s g).map (·.fid)).Nodup :=
      map_fst_shape (states s g) ▸ (hb.linked g).fids
    obtain rfl := List.inj_on_of_nodup_map hfids hx hfr hfid
    obtain ⟨-, hun⟩ := ha.1 (by rw [hm']; exact Option.some_ne_none m')
    rw [hr] at hun
    have hids : Q.pendingpays.map (·.id) = s.queue.pendingpays.map (·.id) := by
      rcases resolvefidresult_cases time hb.queue h1 hr' with ⟨-, rfl, -⟩ | ⟨-, rfl, -⟩ | ⟨-, rfl, -⟩
      · rfl
      · rfl
      · exact ids_checkpendingexpiry time s.queue id
    exact hw.undisturbed hb (hkeep.inv hb.queue) hadds.suffix hids hun hx hm'
  · refine hw.frame hadds.suffix fun i hi he hmem => ?_
    refine resolvefidresult_frame time hb.queue h1 hr' (fun hii => heq ?_) hmem
    rw [he, hres, hii]

theorem resolve_waiting (time : ℕ → ℤ) {s : Server} (hb : SInv K s) {f : File} {m : Tread}
    {log : List Log} (hlog : s.queue.log = .asked m :: log) {fr : FidResult}
    (hfr : fr ∈ states s f) (hfid : fr.fid = m.fid) (hp : Plain s.queue fr.result)
    {Q : Queue} {r : Str} (hr : resolvefidresult time s.queue fr.result = (Q, r))
    (hpend : ispending r = true) : Waiting f fr.result m Q.log := by
  have hadds := adds_resolvefidresult time hr
  obtain ⟨id, hres, hcur, h1, h2, hk⟩ := (hb.linked f).held _ (List.mem_map.mpr ⟨fr, hfr, rfl⟩)
  simp only at hres hcur
  have hask : Asked s.queue.log m fun pre => current f m.fid pre = some id := by
    refine ⟨[], log, hlog, ?_⟩
    rw [hfid, hlog] at hcur
    exact hcur
  refine ⟨id, ⟨h1, hres, hask.suffix hadds.suffix⟩, ?_⟩
  have hr' := hr
  rw [hres] at hr'
  rcases resolvefidresult_cases time hb.queue h1 hr' with
    ⟨-, -, rfl⟩ | ⟨-, -, rfl⟩ | ⟨hin, -, ⟨hno, -⟩ | ⟨x, hx, rfl⟩⟩
  · exact absurd hpend (by decide)
  · exact absurd hpend (by decide)
  · exact hno
  · rcases hadds.outcomes hx with hx | rfl
    · obtain ⟨pp, hpp, rfl⟩ := List.mem_map.mp hin
      have hmem : pp.id ∈ resolutions s.queue.log := mem_resolutions.mpr ⟨x, hx⟩
      cases hpr : pp.result with
      | none => exact absurd hmem (hb.queue.unresolved pp hpp hpr)
      | some y =>
        have hy := hb.queue.resolved pp hpp y hpr
        rw [outcome_unique hb.queue.fixed hy hx] at hpr
        rw [hp pp hpp hres x hpr] at hpend
        cases hpend
    · exact absurd hpend (by decide)

theorem Parks.tell {s : Server} {m : Tread} (h : Parks Waiting (some m) s) {e : Log}
    (he : ∀ t, e.delta t = -weight t (some m)) (hsil : e.silent) (hres : ∀ i r, e ≠ .resolved i r) :
    Parks Waiting none { s with queue := s.queue.say e } ∧
      Adds Log.silent s.queue (s.queue.say e) :=
  ⟨h.answer he hsil hres, Adds.one rfl hsil⟩

theorem Parks.flag {s : Server} (h : Parks Waiting hand s) (f : File) (fid : ℕ)
    {fr : FidResult} (hget : getfidresult (states s f) fid = some fr)
    (hnd : ((states s f).map (·.fid)).Nodup) {g : FidResult → FidResult}
    (hg : ∀ x, (g x).result = x.result)
    (hw : ∀ m, (g fr).wait = some m → Waiting f fr.result m s.queue.log) (hand' : Option Tread)
    (hbal : ∀ t, weight t hand + weight t fr.wait = weight t hand' + weight t (g fr).wait) :
    Parks Waiting hand' (setstates s f (updatefid fid g (states s f))) where
  waiting k x hx m hm := by
    rw [queue_setstates]
    rw [states_setstates] at hx
    split_ifs at hx with hk
    · subst hk
      rcases mem_updatefid hnd hx with ⟨hxs, -⟩ | ⟨y, hy, hyf, rfl⟩
      · exact h.waiting k x hxs m hm
      · have hyfr : y = fr := by
          refine List.inj_on_of_nodup_map hnd hy (List.mem_of_find?_eq_some hget) ?_
          have hfrid : fr.fid = fid := by simpa using List.find?_some hget
          rw [hyf, hfrid]
        subst hyfr
        rw [hg]
        exact hw m hm
    · exact h.waiting k x hx m hm
  listens ef hef m hm := by
    rw [queue_setstates]
    have hev : (setstates s f (updatefid fid g (states s f))).evfids = s.evfids := by
      cases f <;> rfl
    rw [hev] at hef
    exact h.listens ef hef m hm
  balanced t := by
    have h1 := h.balanced t
    have h2 := parked_setstates t s f (updatefid fid g (states s f))
    have h3 := parked_updatefid t (g := g) hget
    have h4 := hbal t
    rw [queue_setstates]
    omega

theorem readresult_parks (time : ℕ → ℤ) {s : Server} (hb : SInv K s) {m : Tread}
    (h : Parks Waiting (some m) s) {log : List Log} (hlog : s.queue.log = .asked m :: log) (f : File)
    (ha : ∀ fr ∈ states s f, fr.fid = m.fid → Clear time s m fr) :
    Parks Waiting none (readresult time s f m) ∧
      Adds Log.silent s.queue (readresult time s f m).queue := by
  have htell : ∀ {s' : Server} (text : Str), Parks Waiting (some m) s' →
      Parks Waiting none { s' with queue := s'.queue.say (.told f m text) } ∧
        Adds Log.silent s'.queue (s'.queue.say (.told f m text)) := fun text hp =>
    hp.tell (delta_told · f m text) trivial fun _ _ he => by cases he
  simp only [readresult]
  cases hget : getfidresult (states s f) m.fid with
  | none => exact htell [] h
  | some fr =>
    have hfr : fr ∈ states s f := List.mem_of_find?_eq_some hget
    have hfid : fr.fid = m.fid := by simpa using List.find?_some hget
    have hclear := ha fr hfr hfid
    simp only []
    by_cases hnil : fr.result = []
    · rw [if_pos hnil]
      exact htell [] h
    rw [if_neg hnil]
    cases hr : resolvefidresult time s.queue fr.result with
    | mk Q r =>
      obtain ⟨hp, hadds⟩ := resolve_parks time hb h hfr hclear hr
      have hnd : ((states { s with queue := Q } f).map (·.fid)).Nodup := by
        rw [states_queue]
        exact map_fst_shape (states s f) ▸ (hb.linked f).fids
      have hget' : getfidresult (states { s with queue := Q } f) m.fid = some fr := by
        rw [states_queue]
        exact hget
      simp only []
      split_ifs with hpend htold
      · -- the read is parked, in a slot that is free
        have hfree : fr.wait = none := by
          by_contra hne
          exact (hclear.1 hne).1 htold.2
        refine ⟨?_, by rw [queue_setstates]; exact hadds⟩
        refine hp.flag f m.fid hget' hnd (g := fun fr => { fr with wait := some m })
          (fun _ => rfl) (fun m' hm' => ?_) none fun t => ?_
        · rw [← Option.some.inj hm']
          exact resolve_waiting time hb hlog hfr hfid (hclear.2 htold) hr hpend
        · simp [hfree]
      · have hflag := hp.flag f m.fid hget' hnd (g := fun fr => { fr with told := true })
          (fun _ => rfl) (fun m' hm' => hp.waiting f fr (by rw [states_queue]; exact hfr) m' hm')
          (some m) fun _ => rfl
        obtain ⟨hdone, hadds'⟩ := htell (r ++ ['\n']) hflag
        rw [queue_setstates] at hdone hadds'
        exact ⟨hdone, hadds.trans hadds'⟩
      · obtain ⟨hdone, hadds'⟩ := htell (r ++ ['\n']) hp
        exact ⟨hdone, hadds.trans hadds'⟩

theorem readfile_parks (time : ℕ → ℤ) {s : Server} (h : AInv s) {f : File} {aid : ℕ} {m : Tread}
    (ha : Attended time s (.read f aid m)) :
    Parks Waiting none (readfile time s f aid m) ∧
      Adds Log.silent s.queue (readfile time s f aid m).queue := by
  have hask := h.parks.ask m
  have hadds : Adds Log.silent s.queue (s.queue.say (.asked m)) :=
    Adds.one (e := .asked m) rfl trivial
  simp only [readfile]
  have hacct : findacctbyid { s with queue := s.queue.say (.asked m) } aid = findacctbyid s aid := rfl
  rw [hacct]
  cases hf : findacctbyid s aid with
  | none =>
    obtain ⟨hdone, hadds'⟩ := hask.tell (delta_refused · m Enotfound) trivial
      fun _ _ he => by cases he
    exact ⟨hdone, hadds.trans hadds'⟩
  | some acct =>
    have hclear := ha (by rw [hf]; exact Option.some_ne_none acct)
    obtain ⟨hb, -⟩ := keeps_queue h.base (keeps_idle s.queue (e := .asked m) rfl)
    obtain ⟨hdone, hadds'⟩ := readresult_parks time hb hask rfl f fun fr hfr hfid => by
      rw [states_queue] at hfr
      obtain ⟨h1, h2⟩ := hclear fr hfr hfid
      refine ⟨fun hne => ⟨(h1 hne).1, ?_⟩, h2⟩
      intro pp hpp
      rw [resolvefidresult_say] at hpp
      exact (h1 hne).2 pp hpp
    exact ⟨hdone, hadds.trans hadds'⟩

theorem parked_updateev (t : ℕ) {fid : ℕ} {g : EvFid → EvFid} {l : List EvFid} {ef : EvFid}
    (h : l.find? (·.fid = fid) = some ef) :
    parked t ((updateev fid g l).map (·.rd)) + weight t ef.rd =
      parked t (l.map (·.rd)) + weight t (g ef).rd := by
  induction l with
  | nil => cases h
  | cons x l ih =>
    simp only [updateev]
    by_cases hx : x.fid = fid
    · obtain rfl : x = ef := by simpa [hx] using h
      simp only [if_pos hx, List.map_cons, parked_cons]
      omega
    · have hl : l.find? (·.fid = fid) = some ef := by simpa [hx] using h
      have := ih hl
      simp only [if_neg hx, List.map_cons, parked_cons] at this ⊢
      omega

theorem mem_updateev {fid : ℕ} {g : EvFid → EvFid} {l : List EvFid} {ef x : EvFid}
    (h : l.find? (·.fid = fid) = some ef) (hx : x ∈ updateev fid g l) : x ∈ l ∨ x = g ef := by
  induction l with
  | nil => cases h
  | cons y l ih =>
    simp only [updateev] at hx
    by_cases hy : y.fid = fid
    · obtain rfl : y = ef := by simpa [hy] using h
      rw [if_pos hy] at hx
      rcases List.mem_cons.mp hx with rfl | hx
      · exact Or.inr rfl
      · exact Or.inl (List.mem_cons_of_mem _ hx)
    · have hl : l.find? (·.fid = fid) = some ef := by simpa [hy] using h
      rw [if_neg hy] at hx
      rcases List.mem_cons.mp hx with rfl | hx
      · exact Or.inl List.mem_cons_self
      · exact (ih hl hx).imp_left (List.mem_cons_of_mem _)

theorem Parks.evfid {s : Server} (h : Parks W hand s) {fid : ℕ} {ef : EvFid}
    (hget : s.evfids.find? (·.fid = fid) = some ef) {g : EvFid → EvFid}
    (hg : ∀ m, (g ef).rd = some m → Listens s.queue.log (g ef) m) (hand' : Option Tread)
    (hbal : ∀ t, weight t hand + weight t ef.rd = weight t hand' + weight t (g ef).rd) :
    Parks W hand' { s with evfids := updateev fid g s.evfids } where
  waiting f fr hfr m hm := by
    have hst : states { s with evfids := updateev fid g s.evfids } f = states s f := by
      cases f <;> rfl
    rw [hst] at hfr
    exact h.waiting f fr hfr m hm
  listens x hx m hm := by
    rcases mem_updateev hget hx with hx | rfl
    · exact h.listens x hx m hm
    · exact hg m hm
  balanced t := by
    have h1 := h.balanced t
    have h2 := parked_updateev t (g := g) hget
    have h3 := hbal t
    simp only [reads, parked_append, Nat.cast_add] at h1 ⊢
    omega

theorem readevent_parks {time : ℕ → ℤ} {s : Server} (h : AInv s) {m : Tread}
    (ha : Attended time s (.readevent m)) :
    Parks Waiting none (readevent s m) ∧ Adds Log.silent s.queue (readevent s m).queue := by
  have hask := h.parks.ask m
  have hadds : Adds Log.silent s.queue (s.queue.say (.asked m)) :=
    Adds.one (e := .asked m) rfl trivial
  simp only [readevent]
  cases hget : s.evfids.find? (·.fid = m.fid) with
  | none =>
    obtain ⟨hdone, hadds'⟩ := hask.tell (delta_refused · m _) trivial fun _ _ he => by cases he
    exact ⟨hdone, hadds.trans hadds'⟩
  | some ef =>
    have hfree : ef.rd = none := ha ef hget
    have hfid : ef.fid = m.fid := by simpa using List.find?_some hget
    simp only []
    cases hq : ef.q with
    | nil =>
      refine ⟨hask.evfid (g := fun ef => { ef with rd := some m }) hget (fun m' hm' => ?_) none
        fun t => by simp [hfree], hadds⟩
      obtain rfl := Option.some.inj hm'
      exact ⟨hfid.symm, hq, [], s.queue.log, rfl, fun _ hm => by cases hm⟩
    | cons msg q =>
      have hnext := hask.evfid (g := fun ef => { ef with q := ef.q.tail }) hget (fun m' hm' => by
        rw [hfree] at hm'
        cases hm') (some m) fun _ => rfl
      obtain ⟨hdone, hadds'⟩ := hnext.tell (delta_event · m msg) trivial fun _ _ he => by cases he
      exact ⟨hdone, hadds.trans hadds'⟩

theorem net_drops (t : ℕ) (P : Tread → Bool) (l : List (Option Tread)) :
    net t (drops P l) + parked t l = parked t (l.map (Option.filter fun m => !P m)) := by
  induction l with
  | nil => rfl
  | cons rd l ih =>
    cases rd with
    | none => simpa [drops] using ih
    | some m =>
      cases hP : P m with
      | true =>
        have hcons : drops P (some m :: l) = .dropped m :: drops P l := by simp [drops, hP]
        rw [hcons, net_cons, delta_dropped]
        simp only [List.map_cons, parked_cons, Option.filter, hP, Bool.not_true, weight_none,
          Bool.false_eq_true, if_false, zero_add]
        push_cast
        omega
      | false =>
        have hcons : drops P (some m :: l) = drops P l := by simp [drops, hP]
        rw [hcons]
        simp only [List.map_cons, parked_cons, Option.filter, hP, Bool.not_false, if_true]
        push_cast
        omega

def DropsOnly (P : Tread → Prop) : Log → Prop
  | .dropped m => P m
  | .posted _ => False
  | .resolved _ _ => False
  | _ => True

theorem mem_drops {P : Tread → Bool} {l : List (Option Tread)} {e : Log} (h : e ∈ drops P l) :
    ∃ m, some m ∈ l ∧ P m = true ∧ e = .dropped m := by
  obtain ⟨rd, hrd, he⟩ := List.mem_filterMap.mp h
  obtain ⟨m, hm, rfl⟩ := Option.map_eq_some_iff.mp he
  obtain ⟨rfl, hP⟩ := Option.filter_eq_some_iff.mp hm
  exact ⟨m, hrd, hP, rfl⟩

theorem Waiting.drops {P : Tread → Prop} {f : File} {result : Str} {m : Tread} {Q Q' : Queue}
    (h : Waiting f result m Q.log) (ha : Adds (DropsOnly P) Q Q') : Waiting f result m Q'.log := by
  refine h.frame ha.suffix fun id _ _ hmem => ?_
  obtain ⟨es, he, hP⟩ := ha
  obtain ⟨r, hr⟩ := mem_resolutions.mp hmem
  rw [he] at hr
  rcases List.mem_append.mp hr with hr | hr
  · exact (hP _ hr).elim
  · exact mem_resolutions.mpr ⟨r, hr⟩

theorem Listens.drops {P : Tread → Prop} {Q Q' : Queue} {ef : EvFid} {m : Tread}
    (h : Listens Q.log ef m) (ha : Adds (DropsOnly P) Q Q') : Listens Q'.log ef m := by
  obtain ⟨hfid, hq, post, pre, hlog, hpost⟩ := h
  obtain ⟨es, he, hP⟩ := ha
  refine ⟨hfid, hq, es ++ post, pre, by rw [he, hlog, List.append_assoc], fun msg hm => ?_⟩
  rcases List.mem_append.mp hm with hm | hm
  · exact (hP _ hm).elim
  · exact hpost msg hm

theorem flush_parks {s : Server} (h : AInv s) (oldtag : ℕ) :
    Parks Waiting none (flush s oldtag) ∧
      Adds (DropsOnly (·.tag = oldtag)) s.queue (flush s oldtag).queue := by
  have hadds : Adds (DropsOnly (·.tag = oldtag)) s.queue (flush s oldtag).queue := by
    refine ⟨_, rfl, fun e he => ?_⟩
    obtain ⟨m, -, hP, rfl⟩ := mem_drops he
    have hP : m.tag = oldtag := of_decide_eq_true hP
    exact hP
  refine ⟨⟨fun f fr hfr m hm => ?_, fun ef hef m hm => ?_, fun t => ?_⟩, hadds⟩
  · have hst : states (flush s oldtag) f = (states s f).map fun fr => { fr with
        wait := fr.wait.filter fun m => !decide (m.tag = oldtag) } := by
      cases f <;> rfl
    rw [hst] at hfr
    obtain ⟨x, hx, rfl⟩ := List.mem_map.mp hfr
    exact (h.parks.waiting f x hx m (Option.filter_eq_some_iff.mp hm).1).drops hadds
  · obtain ⟨x, hx, rfl⟩ := List.mem_map.mp hef
    exact (h.parks.listens x hx m (Option.filter_eq_some_iff.mp hm).1).drops hadds
  · have hreads : reads (flush s oldtag) =
        (reads s).map (Option.filter fun m => !decide (m.tag = oldtag)) := by
      simp [reads, waits, flush, Function.comp_def]
    have hlog : (flush s oldtag).queue.log =
        drops (fun m => decide (m.tag = oldtag)) (reads s) ++ s.queue.log := rfl
    have h1 := h.parks.balanced t
    have h2 := net_drops t (fun m => decide (m.tag = oldtag)) (reads s)
    rw [hreads, hlog, net_append]
    omega

theorem net_drops_all (t : ℕ) (l : List (Option Tread)) :
    net t (drops (fun _ => true) l) + parked t l = 0 := by
  have hnone : parked t (l.map (Option.filter fun _ => !true)) = 0 := by
    induction l with
    | nil => rfl
    | cons rd l ih =>
      have hrd : rd.filter (fun _ => !true) = none := by cases rd <;> rfl
      rw [List.map_cons, parked_cons, hrd, ih, weight_none]
  rw [net_drops, hnone, Nat.cast_zero]

theorem parked_split {α : Type} (t fid : ℕ) (num : α → ℕ) (rd : α → Option Tread) (l : List α) :
    parked t ((l.filter (num · ≠ fid)).reverse.map rd) +
      parked t ((l.filter (num · = fid)).map rd) = parked t (l.map rd) := by
  have hrev : parked t ((l.filter (num · ≠ fid)).reverse.map rd) =
      parked t ((l.filter (num · ≠ fid)).map rd) := by
    simp only [parked, List.map_reverse, List.countP_reverse]
  rw [hrev]
  induction l with
  | nil => rfl
  | cons x l ih =>
    by_cases hx : num x = fid
    · simp only [hx, ne_eq, decide_not, decide_true, Bool.not_true, List.filter_cons,
        Bool.false_eq_true, if_false, if_true, List.map_cons, parked_cons] at ih ⊢
      have := ih (by simp only [parked, List.map_reverse, List.countP_reverse])
      omega
    · simp only [hx, ne_eq, decide_not, decide_false, Bool.not_false, List.filter_cons,
        Bool.false_eq_true, if_false, if_true, List.map_cons, parked_cons] at ih ⊢
      have := ih (by simp only [parked, List.map_reverse, List.countP_reverse])
      omega

theorem clunk_parks {s : Server} (h : AInv s) (fid : ℕ) :
    Parks Waiting none (clunk s fid) ∧
      Adds (DropsOnly (·.fid = fid)) s.queue (clunk s fid).queue := by
  set mine : List (Option Tread) := (s.paystates.filter (·.fid = fid)).map (·.wait) ++
    (s.authstates.filter (·.fid = fid)).map (·.wait) ++
    (s.evfids.filter (·.fid = fid)).map (·.rd) with hmine
  have hlog : (clunk s fid).queue.log =
      (.clunked fid :: drops (fun _ => true) mine) ++ s.queue.log := rfl
  have hfid : ∀ m, some m ∈ mine → m.fid = fid := by
    intro m hm
    have hstates : ∀ f, ∀ fr ∈ (states s f).filter (·.fid = fid), fr.wait = some m → m.fid = fid := by
      intro f fr hfr hw
      obtain ⟨hfr, he⟩ := List.mem_filter.mp hfr
      rw [h.base.waits f fr hfr m hw]
      exact of_decide_eq_true he
    simp only [hmine, List.mem_append, List.mem_map] at hm
    rcases hm with (⟨fr, hfr, hw⟩ | ⟨fr, hfr, hw⟩) | ⟨ef, hef, hw⟩
    · exact hstates .pay fr hfr hw
    · exact hstates .authorize fr hfr hw
    · obtain ⟨hef, he⟩ := List.mem_filter.mp hef
      rw [(h.parks.listens ef hef m hw).1]
      exact of_decide_eq_true he
  have hadds : Adds (DropsOnly (·.fid = fid)) s.queue (clunk s fid).queue := by
    refine ⟨_, hlog, fun e he => ?_⟩
    rcases List.mem_cons.mp he with rfl | he
    · trivial
    · obtain ⟨m, hm, -, rfl⟩ := mem_drops he
      exact hfid m hm
  refine ⟨⟨fun f fr hfr m hm => ?_, fun ef hef m hm => ?_, fun t => ?_⟩, hadds⟩
  · exact (h.parks.waiting f fr (mem_states_clunk.mp hfr).1 m hm).drops hadds
  · have hef : ef ∈ s.evfids := List.mem_of_mem_filter (List.mem_reverse.mp hef)
    exact (h.parks.listens ef hef m hm).drops hadds
  · have h1 := h.parks.balanced t
    have h2 := net_drops_all t mine
    have hp := parked_split t fid (·.fid) (·.wait) s.paystates
    have ha := parked_split t fid (·.fid) (·.wait) s.authstates
    have he := parked_split t fid (·.fid) (·.rd) s.evfids
    have hclunk : (Log.clunked fid).delta t = 0 := rfl
    rw [hlog, net_append, net_cons, hclunk]
    simp only [reads, waits, clunk, hmine, parked_append, Nat.cast_add] at h1 h2 ⊢
    omega

theorem postevent_answers (time : ℕ → ℤ) {s : Server} (hs : SInv False s)
    (h : Parks Owed none s) (msg : Str) :
    AInv (postevent time s msg) ∧ Adds Log.dropless s.queue (postevent time s msg).queue := by
  obtain ⟨hp, hadds⟩ := postevent_parks time hs h msg
  exact ⟨⟨hs.carried (postevent_spec time hs msg).1, hp⟩, hadds⟩

theorem Parks.owed {s : Server} (h : Parks Waiting hand s) : Parks Owed hand s :=
  ⟨fun f fr hfr m hm => (h.waiting f fr hfr m hm).owed, h.listens, h.balanced⟩

theorem Parks.lapse {s : Server} (h : Parks Owed hand s) {Q : Queue}
    (ha : Adds Log.expiry s.queue Q) : Parks Owed hand { s with queue := Q } :=
  h.change (ha.mono Log.silent_of_expiry) (fun t => by rw [ha.net_eq])
    fun _ _ _ _ _ ho => ho.expiry ha

theorem Parks.resolve {s : Server} (h : Parks Owed hand s) {id : ℤ} {r : Str} {Q : Queue}
    (es : List Log) (hQ : Q.log = .resolved id r :: es ++ s.queue.log)
    (hes : ∀ e ∈ es, e = .executed id)
    (hr : ispending (outcometext r) = true → "pending:" ++ intstr id ∉ awaited s) :
    Parks Owed hand { s with queue := Q } := by
  have hP : ∀ e ∈ Log.resolved id r :: es, e.silent ∧ ∀ t, e.delta t = 0 := by
    intro e he
    rcases List.mem_cons.mp he with rfl | he
    · exact ⟨trivial, fun _ => rfl⟩
    · rw [hes e he]
      exact ⟨trivial, fun _ => rfl⟩
  have hnet : ∀ t, net t (Log.resolved id r :: es) = 0 := by
    intro t
    refine List.sum_eq_zero fun x hx => ?_
    obtain ⟨e, he, rfl⟩ := List.mem_map.mp hx
    exact (hP e he).2 t
  have hadds : Adds Log.silent s.queue Q := ⟨_, hQ, fun e he => (hP e he).1⟩
  refine h.change hadds (fun t => by rw [hQ, net_append, hnet, zero_add]) ?_
  intro f fr hfr m hm ⟨i, hfor, hout⟩
  refine ⟨i, hfor.suffix hadds.suffix, fun x hx => ?_⟩
  rw [hQ] at hx
  rcases List.mem_append.mp hx with hx | hx
  · rcases List.mem_cons.mp hx with he | hx
    · obtain ⟨rfl, rfl⟩ := Log.resolved.inj he
      cases hp : ispending (outcometext x) with
      | false => rfl
      | true =>
        refine absurd ?_ (hr hp)
        rw [← hfor.2.1]
        exact mem_awaited hfr hm
    · cases hes _ hx
  · exact hout x hx

theorem expire_answers (time : ℕ → ℤ) {s : Server} (h : AInv s) (id : ℤ) :
    AInv (expire time s id) ∧ Adds Log.dropless s.queue (expire time s id).queue := by
  simp only [expire]
  cases (findpending id s.queue.pendingpays).filter (·.result = none) with
  | none => exact ⟨h, Adds.refl _ _⟩
  | some pp =>
    have hadds := adds_checkpendingexpiry time s.queue id
    obtain ⟨hs', -⟩ := keeps_queue h.base (keeps_checkpendingexpiry time s.queue id)
    have hp : Parks Owed none _ := h.parks.owed.lapse hadds
    have hless := hadds.mono fun e he => Log.dropless_of_silent e (Log.silent_of_expiry e he)
    simp only []
    split_ifs with hres
    · obtain ⟨hdone, hadds'⟩ := postevent_answers time hs' hp "pending"
      exact ⟨hdone, hless.trans hadds'⟩
    · -- nothing lapsed, and the clock alone has moved
      refine ⟨⟨hs', ?_⟩, hless⟩
      have hlog : (checkpendingexpiry time s.queue id).log = s.queue.log := by
        simp only [checkpendingexpiry] at hres ⊢
        cases hf : findpending id s.queue.pendingpays with
        | none => rfl
        | some pp =>
          simp only [hf] at hres ⊢
          split_ifs at hres ⊢ with h1 h2
          · rfl
          · exact absurd (by simp [Queue.resolve, Queue.tick, findpending_setresult hf]) hres
          · rfl
      exact h.parks.change (Adds.of_log hlog) (fun t => by rw [hlog]) fun _ _ _ _ _ hw => by
        rw [hlog]
        exact hw

theorem denypending_answers (time : ℕ → ℤ) {s : Server} (h : AInv s) (id : ℤ) :
    AInv (denypending time s id).1 ∧
      Adds Log.dropless s.queue (denypending time s id).1.queue := by
  simp only [denypending]
  cases hf : (findpending id s.queue.pendingpays).filter (·.result = none) with
  | none => exact ⟨h, Adds.refl _ _⟩
  | some pp =>
    obtain ⟨hpp, hr⟩ := Option.filter_eq_some_iff.mp hf
    obtain ⟨hmem, rfl⟩ := findpending_some hpp
    obtain ⟨hs', -⟩ := keeps_queue h.base
      (keeps_resolve s.queue hmem (by simpa using hr) "denied")
    have hp : Parks Owed none { s with queue := s.queue.resolve pp.id "denied" } :=
      h.parks.owed.resolve [] rfl (by simp) fun hp => absurd hp (by decide)
    obtain ⟨hdone, hadds⟩ := postevent_answers time hs' hp "pending"
    exact ⟨hdone, (Adds.one (e := .resolved pp.id (lit "denied")) rfl trivial).trans hadds⟩

theorem plain_error (err : Str) : ispending (outcometext ("error:" ++ err)) = false := by
  have hhead : ∀ p : Str, p.head? = some 'a' ∨ p.head? = some 'p' →
      prefixed ("error:" ++ err) p = false := by
    intro p hp
    cases hpre : prefixed ("error:" ++ err) p with
    | false => rfl
    | true =>
      obtain ⟨t, ht⟩ := (prefixed_iff _ _).mp hpre
      cases p with
      | nil => simp at hp
      | cons c p =>
        have hc : 'e' = c := (List.cons.inj ht).1
        subst hc
        simp at hp
  rw [outcometext, hhead (lit "approved:") (Or.inl rfl)]
  simp [ispending, hhead (lit "pending:") (Or.inr rfl)]

theorem pending_approved {res : Str} (h : ispending (outcometext ("approved:" ++ res)) = true) :
    ispending res = true := by
  have hpre : prefixed ("approved:" ++ res) "approved:" = true := (prefixed_iff _ _).mpr ⟨res, rfl⟩
  rw [outcometext, hpre] at h
  split_ifs at h with hlen
  · exact h
  · have hnil : res = [] := by
      have hcount : ("approved:" ++ res : Str).length = 9 + res.length := by
        simp [show (lit "approved:").length = 9 by decide]
      refine List.length_eq_zero_iff.mp ?_
      simp only [and_true, not_lt] at hlen
      omega
    subst hnil
    exact absurd h (by decide)

theorem admission_parks (time : ℕ → ℤ) {s : Server} (h : Parks Owed none s) (id : ℤ) :
    Parks Owed none (admission time s id).1 ∧ Adds Log.silent s.queue (admission time s id).1.queue ∧
      awaited (admission time s id).1 = awaited s := by
  have hstay : Parks Owed none s ∧ Adds Log.silent s.queue s.queue ∧ awaited s = awaited s :=
    ⟨h, Adds.refl _ _, rfl⟩
  have hadds := adds_checkpendingexpiry time s.queue id
  have hsil := hadds.mono Log.silent_of_expiry
  have hcheck := h.lapse hadds
  simp only [admission]
  cases findpending id s.queue.pendingpays with
  | none => exact hstay
  | some pp =>
    simp only []
    by_cases hres : pp.result = none
    swap
    · rw [if_pos hres]
      exact hstay
    rw [if_neg (not_not.mpr hres)]
    by_cases hexp : (findpending id (checkpendingexpiry time s.queue id).pendingpays).bind
        (·.result) ≠ none
    · rw [if_pos hexp]
      exact ⟨hcheck, hsil, rfl⟩
    rw [if_neg hexp]
    cases findacct { s with queue := checkpendingexpiry time s.queue id } pp.acct with
    | none => exact ⟨hcheck, hsil, rfl⟩
    | some acct =>
      simp only []
      split_ifs
      · refine ⟨hcheck.resolve [] rfl (by simp) fun hp => ?_,
          hsil.trans (Adds.one (e := .resolved id _) rfl trivial), rfl⟩
        have hplain := plain_error (lit "network changed since proposal")
        rw [show lit "error:" ++ lit "network changed since proposal" =
          lit "error:network changed since proposal" by decide] at hplain
        rw [hplain] at hp
        cases hp
      · exact ⟨hcheck, hsil, rfl⟩

theorem approvepending_answers (time : ℕ → ℤ) {s : Server} (h : AInv s) {id : ℤ} {env : Env}
    (ha : Attended time s (.approve id env)) :
    AInv (approvepending time env s id).1 ∧
      Adds Log.dropless s.queue (approvepending time env s id).1.queue := by
  obtain ⟨hp, hadds, hawait⟩ := admission_parks time h.parks.owed id
  have hless := hadds.mono Log.dropless_of_silent
  simp only [approvepending, approvepending0]
  cases hadm : admission time s id with
  | mk s' r =>
    obtain ⟨hs', -, hok⟩ := admission_spec time h.base hadm
    rw [hadm] at hp hless hawait
    simp only at hp hless hawait
    cases r with
    | error err =>
      obtain ⟨hdone, hadds'⟩ := postevent_answers time hs' hp "pending"
      exact ⟨hdone, hless.trans hadds'⟩
    | ok p =>
      obtain ⟨acct, pp⟩ := p
      obtain ⟨-, hmem, rfl, hnone⟩ := hok acct pp rfl
      have hdone : ∀ (B : Books) (x : Str),
          (ispending (outcometext x) = true → "pending:" ++ intstr pp.id ∉ awaited s) →
          ∀ s'', s'' = postevent time { s' with
            books := B, queue := (s'.queue.say (.executed pp.id)).resolve pp.id x } "pending" →
          AInv s'' ∧ Adds Log.dropless s.queue s''.queue := by
        rintro B x hx s'' rfl
        have hcar : Carried False s' { s' with
            books := B, queue := (s'.queue.say (.executed pp.id)).resolve pp.id x } :=
          ⟨carries_conclude s'.queue hmem hnone x, fun f => by cases f <;> rfl,
            fun f hw => by cases f <;> exact hw⟩
        have hpx : Parks Owed none { s' with
            queue := (s'.queue.say (.executed pp.id)).resolve pp.id x } :=
          hp.resolve [.executed pp.id] rfl (by simp) (by rw [hawait]; exact hx)
        have hpx : Parks Owed none { s' with
            books := B, queue := (s'.queue.say (.executed pp.id)).resolve pp.id x } :=
          ⟨fun f => by cases f <;> [exact hpx.waiting .pay; exact hpx.waiting .authorize],
            hpx.listens, hpx.balanced⟩
        obtain ⟨hd, hadds'⟩ := postevent_answers time (hs'.carried hcar) hpx "pending"
        refine ⟨hd, hless.trans (Adds.trans ?_ hadds')⟩
        exact (Adds.one (e := .executed pp.id) rfl trivial : Adds Log.dropless s'.queue
          (s'.queue.say (.executed pp.id))).trans (Adds.one (e := .resolved pp.id x) rfl trivial)
      simp only []
      cases hexec : execute env (getnetwork s') acct pp s'.books with
      | mk B res =>
        cases res with
        | error err =>
          refine hdone B ("error:" ++ err) (fun hx => ?_) _ rfl
          rw [plain_error] at hx
          cases hx
        | ok res =>
          refine hdone B ("approved:" ++ res) (fun hx => ?_) _ rfl
          exact ha s' acct pp hadm res (by rw [hexec]) (pending_approved hx)

theorem expireall_live (time : ℕ → ℤ) (l : List PendingPay) (n : ℕ) (log : List Log) :
    live (expireall time l n log).1 ≤ live l ∧
      ((expireall time l n log).2.2 = log ∨ live (expireall time l n log).1 < live l) := by
  induction l generalizing n log with
  | nil => exact ⟨le_refl _, Or.inl rfl⟩
  | cons pp l ih =>
    simp only [expireall]
    split_ifs with hr hl
    · obtain ⟨hle, hcase⟩ := ih n log
      simp only [live, List.countP_cons] at hle hcase ⊢
      exact ⟨by omega, hcase.imp_right fun h => by omega⟩
    · obtain ⟨hle, -⟩ := ih (n + 1) (.resolved pp.id "expired" :: log)
      have hnone : pp.result = none := not_not.mp hr
      simp only [live, List.countP_cons, hnone] at hle ⊢
      simp only [decide_true, if_true, reduceCtorEq, decide_false, Bool.false_eq_true, if_false]
      exact ⟨by omega, Or.inr (by omega)⟩
    · obtain ⟨hle, hcase⟩ := ih (n + 1) log
      simp only [live, List.countP_cons] at hle hcase ⊢
      exact ⟨by omega, hcase.imp_right fun h => by omega⟩

theorem Parks.sameLog {s : Server} (h : Parks W hand s) {Q : Queue} (hQ : Q.log = s.queue.log) :
    Parks W hand { s with queue := Q } :=
  h.change (Adds.of_log hQ) (fun t => by rw [hQ]) fun _ _ _ _ _ hw => by
    rw [hQ]
    exact hw

theorem newpending_answers {time : ℕ → ℤ} {s s' : Server} (h : AInv s)
    (hroom : Room time s (Spacious False s)) {kind : Kind} {acct amount recipient token : Str}
    {r : Except Str ℤ} (hn : newpending time s kind acct amount recipient token = (s', r)) :
    AInv s' ∧ Adds Log.dropless s.queue s'.queue := by
  have hs' := (newpending_spec h.base hroom hn).1
  have hadds : Adds Log.expiry s.queue (s.queue.tick.expireall time) := adds_expireall time _
  have hless := hadds.mono fun e he => Log.dropless_of_silent e (Log.silent_of_expiry e he)
  have hQ : SInv False { s with queue := s.queue.tick.expireall time } :=
    (keeps_queue h.base ((keeps_tick s.queue).trans
      (keeps_expireall time ((keeps_tick s.queue).inv h.base.queue)))).1
  simp only [newpending] at hn
  split_ifs at hn with ht hlive
  · obtain ⟨rfl, rfl⟩ := Prod.mk.inj hn
    exact ⟨⟨hs', h.parks.sameLog rfl⟩, Adds.of_log rfl⟩
  · obtain ⟨rfl, rfl⟩ := Prod.mk.inj hn
    have hlog : (s.queue.tick.expireall time).log = s.queue.log := by
      rcases (expireall_live time s.queue.pendingpays s.queue.tick.ticks s.queue.log).2 with he | hlt
      · exact he
      · have hb := h.base.queue.bounded
        exact absurd (lt_of_lt_of_le hlt hb) (not_lt.mpr hlive)
    exact ⟨⟨hs', h.parks.sameLog hlog⟩, Adds.of_log hlog⟩
  · obtain ⟨rfl, rfl⟩ := Prod.mk.inj hn
    obtain ⟨hint, -⟩ := hroom (not_le.mp ht) (not_le.mp hlive)
    set Q := s.queue.tick.expireall time
    set np : PendingPay := ⟨Q.nextpendingid, kind, acct, amount, recipient, token, "agent",
      time s.queue.ticks, [], [], [], 0, [], none⟩
    have hins : SInv False { s with queue := Q.insert np } :=
      hQ.insert rfl rfl (not_le.mp hlive) hint fun hf => hf.elim
    have hp : Parks Owed none { s with queue := Q.insert np } :=
      (h.parks.owed.lapse hadds).sameLog (Q := Q.insert np) rfl
    obtain ⟨hdone, hadds'⟩ := postevent_answers time hins hp "pending"
    exact ⟨hdone, hless.trans hadds'⟩

theorem wakelist_wait (time : ℕ → ℤ) (f : File) (l : List FidResult) :
    ∀ Q : Queue, ∀ x ∈ (wakelist time f l Q).1, ∃ fr ∈ l, x.fid = fr.fid ∧ x.result = fr.result ∧
      (x.wait = none ∨ x.wait = fr.wait) := by
  induction l with
  | nil => exact fun Q x hx => by simp [wakelist] at hx
  | cons fr l ih =>
    intro Q x hx
    simp only [wakelist] at hx
    rcases List.mem_cons.mp hx with rfl | hx
    · refine ⟨fr, List.mem_cons_self, ?_⟩
      simp only [wakeresult]
      split
      · exact ⟨rfl, rfl, Or.inr rfl⟩
      · split
        · exact ⟨rfl, rfl, Or.inr rfl⟩
        · exact ⟨rfl, rfl, Or.inl rfl⟩
    · obtain ⟨y, hy, he⟩ := ih _ x hx
      exact ⟨y, List.mem_cons_of_mem _ hy, he⟩

theorem postevent_wait (time : ℕ → ℤ) (s : Server) (msg : Str) (f : File) :
    ∀ x ∈ states (postevent time s msg) f, ∃ fr ∈ states s f, x.fid = fr.fid ∧
      x.result = fr.result ∧ (x.wait = none ∨ x.wait = fr.wait) := by
  cases f with
  | pay => exact wakelist_wait time .pay s.paystates s.queue
  | authorize => exact wakelist_wait time .authorize s.authstates _

theorem newpending_unparked {time : ℕ → ℤ} {s s' : Server} (h : AInv s) {f : File} {fid : ℕ}
    (hroom : Room time s fun Q => Q.nextpendingid + 1 < 2 ^ 31 ∧ Unparked s f fid Q)
    {kind : Kind} {acct amount recipient token : Str} {id : ℤ}
    (hn : newpending time s kind acct amount recipient token = (s', .ok id)) :
    ∀ fr ∈ states s' f, fr.fid = fid → fr.wait = none := by
  have hans := (newpending_answers h (fun ht hl => ⟨(hroom ht hl).1, fun hf => hf.elim⟩) hn).1
  have hQ : SInv False { s with queue := s.queue.tick.expireall time } :=
    (keeps_queue h.base ((keeps_tick s.queue).trans
      (keeps_expireall time ((keeps_tick s.queue).inv h.base.queue)))).1
  simp only [newpending] at hn
  split_ifs at hn with ht hlive
  · cases (Prod.mk.inj hn).2
  · cases (Prod.mk.inj hn).2
  · obtain ⟨rfl, -⟩ := Prod.mk.inj hn
    obtain ⟨hint, hun⟩ := hroom (not_le.mp ht) (not_le.mp hlive)
    set Q := s.queue.tick.expireall time
    set np : PendingPay := ⟨Q.nextpendingid, kind, acct, amount, recipient, token, "agent",
      time s.queue.ticks, [], [], [], 0, [], none⟩
    intro x hx hfid
    by_contra hne
    obtain ⟨m, hm⟩ := Option.ne_none_iff_exists'.mp hne
    obtain ⟨fr, hfr, hf, hres, hw⟩ := postevent_wait time _ "pending" f x hx
    rw [states_queue] at hfr
    have hfrw : fr.wait ≠ none := by
      rcases hw with hw | hw
      · exact absurd hw hne
      · rw [← hw]
        exact hne
    obtain ⟨pp, hpp, hppres, hppr⟩ := hun fr hfr (hf.symm.trans hfid) hfrw
    obtain ⟨i, hfor, hno⟩ := hans.parks.waiting f x hx m hm
    obtain ⟨res, hr⟩ := Option.ne_none_iff_exists'.mp hppr
    have hi : i = pp.id := pending_injective hfor.1 (hQ.queue.range pp hpp).1 (by
      rw [← hfor.2.1, hres, hppres])
    refine hno (mem_resolutions.mpr ⟨res, ?_⟩)
    rw [hi]
    have hins : SInv False { s with queue := Q.insert np } :=
      hQ.insert rfl rfl (not_le.mp hlive) hint fun hf => hf.elim
    exact (postevent_spec time hins "pending").2.grows.subset (hQ.queue.resolved pp hpp res hr)

theorem parked_setfidresult (t : ℕ) (s : Server) (f : File) (fid : ℕ) (result : Str) :
    parked t (reads (setfidresult s f fid result)) = parked t (reads s) := by
  simp only [setfidresult]
  cases hget : getfidresult (states s f) fid with
  | none =>
    have h := parked_setstates t s f (⟨fid, result, false, none⟩ :: states s f)
    have hcons : parked t (waits (⟨fid, result, false, none⟩ :: states s f)) =
        parked t (waits (states s f)) := by
      simp [waits]
    simp only []
    omega
  | some fr =>
    have h := parked_setstates t s f
      (updatefid fid (fun fr => { fr with result := result, told := false }) (states s f))
    have hup := parked_updatefid t (g := fun fr => { fr with result := result, told := false }) hget
    simp only at hup ⊢
    omega

theorem propose_parks {s : Server} (h : AInv s) {f : File} {fid : ℕ} (id : ℤ)
    (hfree : ∀ fr ∈ states s f, fr.fid = fid → fr.wait = none) :
    Parks Waiting none (propose s f fid id) ∧
      Adds Log.silent s.queue (propose s f fid id).queue := by
  have hfids : ((states s f).map (·.fid)).Nodup :=
    map_fst_shape (states s f) ▸ (h.base.linked f).fids
  obtain ⟨l, hset, -, -, hl⟩ := setfidresult_spec hfids fid ("pending:" ++ intstr id)
  have hq : (propose s f fid id).queue = s.queue.say (.proposed f fid id) := by
    simp only [propose, hset, queue_setstates]
  have hadds : Adds Log.silent s.queue (propose s f fid id).queue := by
    rw [hq]
    exact Adds.one (e := .proposed f fid id) rfl trivial
  have hst : ∀ g, states (propose s f fid id) g = if g = f then l else states s g := by
    intro g
    simp only [propose, hset, states_queue, states_setstates]
  have hkeep : ∀ {g result m}, Waiting g result m s.queue.log →
      Waiting g result m (propose s f fid id).queue.log := fun hw =>
    hw.frame hadds.suffix fun _ _ _ hi => by
      rw [hq] at hi
      exact hi
  refine ⟨⟨fun g x hx m hm => ?_, fun ef hef m hm => ?_, fun t => ?_⟩, hadds⟩
  · rw [hst] at hx
    split_ifs at hx with hg
    · subst hg
      rcases hl x hx with ⟨hxs, -⟩ | ⟨-, -, hw | ⟨fr, hfr, hfrid, hw⟩⟩
      · exact hkeep (h.parks.waiting g x hxs m hm)
      · rw [hw] at hm
        cases hm
      · rw [hw, hfree fr hfr hfrid] at hm
        cases hm
    · exact hkeep (h.parks.waiting g x hx m hm)
  · have hev : (propose s f fid id).evfids = s.evfids := by
      simp only [propose, hset]
      cases f <;> rfl
    rw [hev] at hef
    exact (h.parks.listens ef hef m hm).adds hadds
  · have hreads : parked t (reads (propose s f fid id)) = parked t (reads s) :=
      parked_setfidresult t s f fid _
    have h1 := h.parks.balanced t
    have hsay : net t (s.queue.say (.proposed f fid id)).log = net t s.queue.log := by
      simp [Queue.say, Log.delta, Log.asks, Log.answers, Log.drops]
    rw [hreads, hq, hsay]
    exact h1

theorem submit_answers {time : ℕ → ℤ} {s s' : Server} (h : AInv s) {f : File} {fid : ℕ}
    (hroom : Room time s fun Q => Q.nextpendingid + 1 < 2 ^ 31 ∧ Unparked s f fid Q)
    {kind : Kind} {acct amount recipient token : Str} {id : ℤ}
    (hn : newpending time s kind acct amount recipient token = (s', .ok id))
    {g : PendingPay → PendingPay} (hg : ∀ pp, record (g pp) = record pp) :
    Parks Waiting none (propose (fillpending s' g) f fid id) ∧
      Adds Log.dropless s.queue (propose (fillpending s' g) f fid id).queue := by
  have hsp : Room time s (Spacious False s) := fun ht hl => ⟨(hroom ht hl).1, fun hf => hf.elim⟩
  obtain ⟨hs', hadds⟩ := newpending_answers h hsp hn
  have hfill : Adds Log.dropless s'.queue (fillpending s' g).queue := Adds.of_log rfl
  have hinv : AInv (fillpending s' g) :=
    ⟨(keeps_queue hs'.base (fillpending_spec hg)).1, hs'.parks.sameLog rfl⟩
  obtain ⟨hp, hadds'⟩ := propose_parks (f := f) hinv id fun fr hfr => by
    refine newpending_unparked h hroom hn fr ?_
    rwa [fillpending, states_queue] at hfr
  exact ⟨hp, (hadds.trans hfill).trans (hadds'.mono Log.dropless_of_silent)⟩

theorem writepay_answers {time : ℕ → ℤ} {s : Server} (h : AInv s) {fid aid : ℕ} {usdc : Bool}
    {amount recipient : Str} (ha : Attended time s (.pay fid aid usdc amount recipient)) :
    Parks Waiting none (writepay time s fid aid usdc amount recipient).1 ∧
      Adds Log.dropless s.queue (writepay time s fid aid usdc amount recipient).1.queue := by
  have hstay : Parks Waiting none s ∧ Adds Log.dropless s.queue s.queue := ⟨h.parks, Adds.refl _ _⟩
  simp only [writepay]
  cases hacct : findacctbyid s aid with
  | none => exact hstay
  | some acct =>
    simp only []
    split_ifs with hs
    · exact hstay
    · cases hv : validatepay s acct (paytoken acct usdc) amount recipient with
      | error err => exact hstay
      | ok u =>
        have hroom := ha ⟨acct, hacct, hs, hv⟩
        simp only []
        cases hn : newpending time s .pay acct.name amount recipient (paytoken acct usdc) with
        | mk s' r =>
          cases r with
          | error err =>
            obtain ⟨hs', hadds⟩ := newpending_answers h
              (fun ht hl => ⟨(hroom ht hl).1, fun hf => hf.elim⟩) hn
            exact ⟨hs'.parks, hadds⟩
          | ok id => exact submit_answers h hroom hn fun _ => rfl

theorem writeauthorize_answers {time : ℕ → ℤ} {s : Server} (h : AInv s) {fid aid : ℕ}
    {areq : AuthReq} (ha : Attended time s (.authorize fid aid areq)) :
    Parks Waiting none (writeauthorize time s fid aid areq).1 ∧
      Adds Log.dropless s.queue (writeauthorize time s fid aid areq).1.queue := by
  have hstay : Parks Waiting none s ∧ Adds Log.dropless s.queue s.queue := ⟨h.parks, Adds.refl _ _⟩
  simp only [writeauthorize]
  cases hacct : findacctbyid s aid with
  | none => exact hstay
  | some acct =>
    simp only []
    cases hv : validateauth (getnetwork s) acct areq s.books.budgets with
    | error err => exact hstay
    | ok u =>
      have hroom := ha ⟨acct, hacct, hv⟩
      simp only []
      cases hn : newpending time s .x402 acct.name areq.amount areq.payto areq.asset with
      | mk s' r =>
        cases r with
        | error err =>
          obtain ⟨hs', hadds⟩ := newpending_answers h
            (fun ht hl => ⟨(hroom ht hl).1, fun hf => hf.elim⟩) hn
          exact ⟨hs'.parks, hadds⟩
        | ok id => exact submit_answers h hroom hn fun _ => rfl

/-- A read leaves without an answer by a flush of its tag or the clunk of its
fid only. -/
def Excused (r : Request) (m : Tread) : Prop := r = .flush m.tag ∨ r = .clunk m.fid

def Excuses (r : Request) : Log → Prop
  | .dropped m => Excused r m
  | _ => True

theorem step_answers (time : ℕ → ℤ) {s : Server} (h : AInv s) {r : Request}
    (ha : Attended time s r) :
    AInv (step time s r) ∧ Adds (Excuses r) s.queue (step time s r).queue := by
  have hbase := (step_spec time h.base ha.spared).1
  have hless : Parks Waiting none (step time s r) ∧
      Adds Log.dropless s.queue (step time s r).queue →
      AInv (step time s r) ∧ Adds (Excuses r) s.queue (step time s r).queue := by
    rintro ⟨hp, hadds⟩
    refine ⟨⟨hbase, hp⟩, hadds.mono fun e he => ?_⟩
    cases e with
    | dropped m => exact he.elim
    | _ => trivial
  have hsil : ∀ {s' : Server}, Parks Waiting none s' ∧ Adds Log.silent s.queue s'.queue →
      Parks Waiting none s' ∧ Adds Log.dropless s.queue s'.queue := fun hp =>
    ⟨hp.1, hp.2.mono Log.dropless_of_silent⟩
  have hans : ∀ {s' : Server}, AInv s' ∧ Adds Log.dropless s.queue s'.queue →
      Parks Waiting none s' ∧ Adds Log.dropless s.queue s'.queue := fun hp => ⟨hp.1.parks, hp.2⟩
  have hsame : ∀ {s' : Server}, s'.queue = s.queue → (∀ f, states s' f = states s f) →
      s'.evfids = s.evfids → Parks Waiting none s' ∧ Adds Log.dropless s.queue s'.queue := by
    intro s' hq hst hev
    have hreads : reads s' = reads s := by
      have hpay := hst .pay
      have hauth := hst .authorize
      simp only [states] at hpay hauth
      simp only [reads, hpay, hauth, hev]
    refine ⟨⟨fun f => ?_, ?_, ?_⟩, by rw [hq]; exact Adds.refl _ _⟩
    · rw [hst, hq]
      exact h.parks.waiting f
    · rw [hev, hq]
      exact h.parks.listens
    · rw [hreads, hq]
      exact h.parks.balanced
  have hstay : Parks Waiting none s ∧ Adds Log.dropless s.queue s.queue := ⟨h.parks, Adds.refl _ _⟩
  cases r with
  | account acct =>
    refine hless ?_
    simp only [step, serve, addaccount]
    split_ifs
    · exact hstay
    · exact hsame rfl (fun f => by cases f <;> rfl) rfl
  | network name =>
    refine hless ?_
    simp only [step, serve, setnetwork]
    split
    · exact hsame rfl (fun f => by cases f <;> rfl) rfl
    · exact hstay
  | budget aid maxpertx maxpersess currency =>
    refine hless ?_
    simp only [step, serve, writebudget]
    split
    · exact hstay
    · split_ifs
      · exact hstay
      · exact hsame rfl (fun f => by cases f <;> rfl) rfl
  | gasbudget aid maxpertx maxpersess =>
    refine hless ?_
    simp only [step, serve, writegasbudget]
    split
    · exact hstay
    · split_ifs
      · exact hstay
      · exact hsame rfl (fun f => by cases f <;> rfl) rfl
  | pay fid aid usdc amount recipient => exact hless (writepay_answers h ha)
  | authorize fid aid areq => exact hless (writeauthorize_answers h ha)
  | approve id env =>
    refine hless ?_
    simp only [step, serve]
    split_ifs
    · exact hstay
    · exact hans (approvepending_answers time h ha)
  | deny id =>
    refine hless ?_
    simp only [step, serve]
    split_ifs
    · exact hstay
    · exact hans (denypending_answers time h id)
  | read f aid m => exact hless (hsil (readfile_parks time h ha))
  | readpending => exact hless (hsil (readpending_parks time h ha))
  | openevent fid =>
    refine hless ⟨⟨fun f => ?_, fun ef hef m hm => ?_, fun t => ?_⟩, Adds.refl _ _⟩
    · cases f
      · exact h.parks.waiting .pay
      · exact h.parks.waiting .authorize
    · rcases List.mem_cons.mp hef with rfl | hef
      · cases hm
      · exact h.parks.listens ef hef m hm
    · have h1 := h.parks.balanced t
      simpa [reads, step, serve] using h1
  | readevent m => exact hless (hsil (readevent_parks h ha))
  | flush oldtag =>
    obtain ⟨hp, hadds⟩ := flush_parks h oldtag
    refine ⟨⟨hbase, hp⟩, hadds.mono fun e he => ?_⟩
    cases e with
    | dropped m =>
      have he : m.tag = oldtag := he
      exact Or.inl (by rw [he])
    | _ => trivial
  | clunk fid =>
    obtain ⟨hp, hadds⟩ := clunk_parks h fid
    refine ⟨⟨hbase, hp⟩, hadds.mono fun e he => ?_⟩
    cases e with
    | dropped m =>
      have he : m.fid = fid := he
      exact Or.inr (by rw [he])
    | _ => trivial
  | expire id => exact hless (hans (expire_answers time h id))
  | call c => exact hless (hsame rfl (fun f => by cases f <;> rfl) rfl)

theorem init_ainv (accts : List Account) : AInv (Server.init accts) where
  base := init_sinv accts
  parks :=
    { waiting := fun f fr hfr => by cases f <;> exact absurd hfr List.not_mem_nil
      listens := fun ef hef => absurd hef List.not_mem_nil
      balanced := fun _ => rfl }

/-- The reads of a run: every one is answered once, dropped, or parked with
nothing to be told yet. -/
structure Served (time : ℕ → ℤ) (s : Server) (rs : List Request) : Prop where
  once : ∀ t, (run time s rs).queue.log.countP (Log.asks t) =
    (run time s rs).queue.log.countP (Log.answers t) +
      (run time s rs).queue.log.countP (Log.drops t) + parked t (reads (run time s rs))
  excused : ∀ before r after, rs = before ++ r :: after →
    Adds (Excuses r) (run time s before).queue (run time s (before ++ [r])).queue
  waiting : ∀ f, ∀ fr ∈ states (run time s rs) f, ∀ m, fr.wait = some m →
    Waiting f fr.result m (run time s rs).queue.log
  listening : ∀ ef ∈ (run time s rs).evfids, ∀ m, ef.rd = some m →
    Listens (run time s rs).queue.log ef m

theorem run_served (time : ℕ → ℤ) (accts : List Account) (rs : List Request)
    (ha : Always (step time) (Attended time) (Server.init accts) rs) :
    Served time (Server.init accts) rs := by
  have hinv : ∀ rs, Always (step time) (Attended time) (Server.init accts) rs →
      AInv (run time (Server.init accts) rs) := fun rs ha =>
    ha.invariant AInv (fun _ _ hs hr => (step_answers time hs hr).1) (init_ainv accts)
  have hrun := hinv rs ha
  refine ⟨fun t => ?_, ?_, hrun.parks.waiting, hrun.parks.listens⟩
  · have h := hrun.parks.balanced t
    rw [net_counts] at h
    simp only [weight_none, Nat.cast_zero, zero_add] at h
    omega
  · rintro before r after rfl
    rw [always_append] at ha
    rw [run_append]
    exact (step_answers time (hinv before ha.1) ha.2.1).2

instance (s : Server) (Q : Queue) : Decidable (Undisturbed s Q) :=
  inferInstanceAs (Decidable (∀ pp ∈ Q.pendingpays, pp.result ≠ none →
    "pending:" ++ intstr pp.id ∉ awaited s))

instance (Q : Queue) (result : Str) : Decidable (Plain Q result) :=
  inferInstanceAs (Decidable (∀ pp ∈ Q.pendingpays, result = "pending:" ++ intstr pp.id →
    ∀ r ∈ pp.result, ispending (outcometext r) = false))

instance (s : Server) (f : File) (fid : ℕ) (Q : Queue) : Decidable (Unparked s f fid Q) :=
  inferInstanceAs (Decidable (∀ fr ∈ states s f, fr.fid = fid → fr.wait ≠ none →
    ∃ pp ∈ Q.pendingpays, fr.result = "pending:" ++ intstr pp.id ∧ pp.result ≠ none))

instance (time : ℕ → ℤ) (s : Server) (f : File) (aid : ℕ) (m : Tread) :
    Decidable (Attended time s (.read f aid m)) :=
  inferInstanceAs (Decidable (findacctbyid s aid ≠ none → ∀ fr ∈ states s f, fr.fid = m.fid →
    (fr.wait ≠ none → m.offset ≠ 0 ∧ Undisturbed s (resolvefidresult time s.queue fr.result).1) ∧
      (fr.told ∧ m.offset = 0 → Plain s.queue fr.result)))

instance (time : ℕ → ℤ) (s : Server) (m : Tread) : Decidable (Attended time s (.readevent m)) :=
  inferInstanceAs (Decidable (∀ ef ∈ s.evfids.find? (·.fid = m.fid), ef.rd = none))

def servedrun : List Request :=
  [.openevent 3, .readevent ⟨1, 3, 0, 10⟩, bobpay 1, .read .pay 0 ⟨2, 1, 0, 100⟩,
    .read .pay 0 ⟨3, 1, 0, 100⟩, .deny 1]

theorem servedrun_served : Served (fun _ => 1000) (Server.init [mainacct]) servedrun :=
  run_served (fun _ => 1000) [mainacct] servedrun
    ⟨trivial, by decide, fun _ => by decide, by decide, by decide,
      trivial, trivial⟩

def lostrun : List Request :=
  [bobpay 1, .read .pay 0 ⟨2, 1, 0, 100⟩, .read .pay 0 ⟨3, 1, 0, 100⟩, .read .pay 0 ⟨4, 1, 0, 100⟩,
    .deny 1]

theorem lostrun_log :
    let s := run (fun _ => 1000) (Server.init [mainacct]) lostrun
    s.queue.log.countP (Log.asks 3) = 1 ∧ s.queue.log.countP (Log.answers 3) = 0 ∧
      s.queue.log.countP (Log.drops 3) = 0 ∧ parked 3 (reads s) = 0 := by
  decide

theorem parked_read_lost :
    ¬∀ (time : ℕ → ℤ) (accts : List Account) (rs : List Request),
      Served time (Server.init accts) rs := by
  intro hall
  have honce := (hall (fun _ => 1000) [mainacct] lostrun).once 3
  obtain ⟨hasks, hanswers, hdrops, hparked⟩ := lostrun_log
  rw [hasks, hanswers, hdrops, hparked] at honce
  cases honce

end Infernode.Wallet
