import Infernode.Ninep.Fcall

/-!
# Marshalling round trips

Every message that fits its wire fields is measured, written and read back
alike. Whatever bytes arrive, the decoder stays inside them, and the strings
and data it finds lie in order inside the message. A request that does not fit
the connection is written as no bytes at all, and `mountio` waits for an answer
to it.
-/

namespace Infernode.Ninep

open Lib Ftype

def text : Option CStr → List UInt8
  | none => []
  | some s => s.bytes

def strings (f : Message) : Ftype → List (Option CStr)
  | Tversion | Rversion => [f.version]
  | Tauth | Tattach => [f.uname, f.aname]
  | Twalk => (List.range f.nwname.toNat).map f.wname
  | Tcreate => [f.name]
  | Rerror => [f.ename]
  | _ => []

def qids (f : Message) : Ftype → List Qid
  | Rauth => [f.aqid]
  | Rattach | Ropen | Rcreate => [f.qid]
  | Rwalk => (List.range f.nwqid.toNat).map f.wqid
  | _ => []

def carried (f : Message) : Ftype → Option (ℕ × List UInt8)
  | Twrite | Rread => some (f.count.toNat, f.data)
  | Twstat | Rstat => some (f.nstat.toNat, f.stat)
  | _ => none

structure Fits (f : Message) (t : Ftype) : Prop where
  type : ftype f.type = some t
  strings : ∀ s ∈ strings f t, (text s).length < 2 ^ 16
  carried : ∀ c ∈ carried f t, c.1 ≤ c.2.length
  nwname : t = Twalk → f.nwname.toNat ≤ MAXWELEM
  nwqid : t = Rwalk → f.nwqid.toNat ≤ MAXWELEM

def encoding (f : Message) (t : Ftype) : List UInt8 :=
  let b := (body f t).getD []
  le BIT32SZ (BIT32SZ + BIT8SZ + BIT16SZ + b.length) ++ PBIT8 f.type ++ PBIT16 f.tag ++ b

def Same (f : Message) (g : Received) (mem : List UInt8) : Ftype → Prop
  | Tversion | Rversion => g.msize = f.msize ∧ cstring mem g.version = text f.version
  | Tauth =>
    g.afid = f.afid ∧ cstring mem g.uname = text f.uname ∧ cstring mem g.aname = text f.aname
  | Rauth => g.aqid = f.aqid
  | Tattach =>
    g.fid = f.fid ∧ g.afid = f.afid ∧ cstring mem g.uname = text f.uname ∧
      cstring mem g.aname = text f.aname
  | Rattach => g.qid = f.qid
  | Rerror => cstring mem g.ename = text f.ename
  | Tflush => g.oldtag = f.oldtag
  | Rflush | Rclunk | Rremove | Rwstat => True
  | Twalk =>
    g.fid = f.fid ∧ g.newfid = f.newfid ∧ g.nwname = f.nwname ∧
      ∀ i < f.nwname.toNat, cstring mem (g.wname i) = text (f.wname i)
  | Rwalk => g.nwqid = f.nwqid ∧ ∀ i < f.nwqid.toNat, g.wqid i = f.wqid i
  | Topen => g.fid = f.fid ∧ g.mode = f.mode
  | Ropen | Rcreate => g.qid = f.qid ∧ g.iounit = f.iounit
  | Tcreate =>
    g.fid = f.fid ∧ cstring mem g.name = text f.name ∧ g.perm = f.perm ∧ g.mode = f.mode
  | Tread => g.fid = f.fid ∧ g.offset = f.offset ∧ g.count = f.count
  | Rread =>
    g.count = f.count ∧ (mem.drop g.data).take g.count.toNat = f.data.take f.count.toNat
  | Twrite =>
    g.fid = f.fid ∧ g.offset = f.offset ∧ g.count = f.count ∧
      (mem.drop g.data).take g.count.toNat = f.data.take f.count.toNat
  | Rwrite => g.count = f.count
  | Tclunk | Tremove | Tstat => g.fid = f.fid
  | Rstat =>
    g.nstat = f.nstat ∧ (mem.drop g.stat).take g.nstat.toNat = f.stat.take f.nstat.toNat
  | Twstat =>
    g.fid = f.fid ∧ g.nstat = f.nstat ∧
      (mem.drop g.stat).take g.nstat.toNat = f.stat.take f.nstat.toNat

def places (g : Received) : Ftype → List Place
  | Tversion | Rversion => [.str g.version]
  | Tauth | Tattach => [.str g.uname, .str g.aname]
  | Twalk => (List.range g.nwname.toNat).map fun i => .str (g.wname i)
  | Tcreate => [.str g.name]
  | Rerror => [.str g.ename]
  | Twrite | Rread => [.data g.data g.count.toNat]
  | Twstat | Rstat => [.data g.stat g.nstat.toNat]
  | _ => []

@[simp] theorem PBIT8_length (v : UInt8) : (PBIT8 v).length = BIT8SZ := le_length _ _
@[simp] theorem PBIT16_length (v : UInt16) : (PBIT16 v).length = BIT16SZ := le_length _ _
@[simp] theorem PBIT32_length (v : UInt32) : (PBIT32 v).length = BIT32SZ := le_length _ _
@[simp] theorem PBIT64_length (v : UInt64) : (PBIT64 v).length = BIT64SZ := le_length _ _

@[simp] theorem pstring_length (s : Option CStr) : (pstring s).length = stringsz s := by
  cases s <;> simp [pstring, stringsz]

@[simp] theorem pqid_length (q : Qid) : (pqid q).length = QIDSZ := by
  simp [pqid, QIDSZ]
  omega

theorem Fits.body_some {f : Message} {t : Ftype} (hf : Fits f t) : ∃ b, body f t = some b := by
  cases t with
  | Twalk => simp [body, hf.nwname rfl]
  | Rwalk => simp [body, hf.nwqid rfl]
  | _ => exact ⟨_, rfl⟩

theorem Fits.body_walk {f : Message} (hf : Fits f Twalk) :
    body f Twalk = some (PBIT32 f.fid ++ PBIT32 f.newfid ++ PBIT16 f.nwname ++
      (List.range f.nwname.toNat).flatMap fun i => pstring (f.wname i)) :=
  if_neg (not_lt.mpr (hf.nwname rfl))

theorem Fits.body_rwalk {f : Message} (hf : Fits f Rwalk) :
    body f Rwalk =
      some (PBIT16 f.nwqid ++ (List.range f.nwqid.toNat).flatMap fun i => pqid (f.wqid i)) :=
  if_neg (not_lt.mpr (hf.nwqid rfl))

theorem Fits.sizeS2M_eq {f : Message} {t : Ftype} (hf : Fits f t) :
    sizeS2M f = (encoding f t).length % 2 ^ 32 := by
  cases t with
  | Twalk =>
    simp [sizeS2M, hf.type, encoding, hf.body_walk, List.length_flatMap]
    omega
  | Rwalk =>
    simp [sizeS2M, hf.type, encoding, hf.body_rwalk, List.length_flatMap]
    omega
  | Twrite | Rread | Twstat | Rstat =>
    have hlen := hf.carried _ rfl
    simp [sizeS2M, hf.type, encoding, body, Nat.min_eq_left hlen]
    omega
  | _ =>
    simp [sizeS2M, hf.type, encoding, body]
    try omega

def Qid.sent (q : Qid) : Qid := ⟨q.path, q.vers.toUInt32.toUInt64, q.type⟩

def Fcall.sent (f : Message) : Message :=
  { f with qid := f.qid.sent, aqid := f.aqid.sent, wqid := fun i => (f.wqid i).sent }

theorem reads_GBIT8 (v : UInt8) : Reads GBIT8 (PBIT8 v) fun _ a => a = v := by
  refine reads_last (reads_number BIT8SZ v.toNat v.toNat_lt) fun _ n hn => ?_
  rw [hn, UInt8.ofNat_toNat]

theorem reads_GBIT16 (v : UInt16) : Reads GBIT16 (PBIT16 v) fun _ a => a = v := by
  refine reads_last (reads_number BIT16SZ v.toNat v.toNat_lt) fun _ n hn => ?_
  rw [hn, UInt16.ofNat_toNat]

theorem reads_GBIT32 (v : UInt32) : Reads GBIT32 (PBIT32 v) fun _ a => a = v := by
  refine reads_last (reads_number BIT32SZ v.toNat v.toNat_lt) fun _ n hn => ?_
  rw [hn, UInt32.ofNat_toNat]

theorem reads_GBIT64 (v : UInt64) : Reads GBIT64 (PBIT64 v) fun _ a => a = v := by
  refine reads_last (reads_number BIT64SZ v.toNat v.toNat_lt) fun _ n hn => ?_
  rw [hn, UInt64.ofNat_toNat]

theorem reads_gstring {s : Option CStr} (hs : (text s).length < 2 ^ 16) :
    Reads gstring (pstring s) fun mem p => cstring mem p = text s := by
  cases s with
  | none => exact reads_terminated [] (by simp) (by simp)
  | some s => exact reads_terminated s.bytes s.nonzero hs

theorem low_vers (v : UInt64) : le BIT32SZ v.toNat = PBIT32 v.toUInt32 := by
  rw [PBIT32, UInt64.toNat_toUInt32, ← le_mod]
  rfl

theorem reads_gqid (q : Qid) : Reads gqid (pqid q) fun _ a => a = q.sent := by
  rw [pqid, low_vers]
  refine reads_need (by simp [QIDSZ]; omega) ?_
  refine reads_exact (reads_GBIT8 q.type) ?_
  refine reads_exact (reads_GBIT32 q.vers.toUInt32) ?_
  refine reads_last (reads_GBIT64 q.path) fun _ path hpath => ?_
  rw [hpath]
  rfl

theorem reads_data {n : ℕ} {l : List UInt8} (hn : n ≤ l.length) :
    Reads (region n) (l.take n) fun mem p => (mem.drop p).take n = l.take n := by
  have hlen : (l.take n).length = n := List.length_take_of_le hn
  have h := reads_region (l.take n)
  rwa [hlen] at h

theorem stored_lt {α : Type} {w : ℕ → α} {l : List α} {i : ℕ} (hi : i < l.length) :
    stored w l i = l[i] := by
  simp [stored, hi]

theorem reads_elems {α : Type} {x : Decoder α} {n : ℕ} {enc : ℕ → List UInt8}
    {R : ℕ → List UInt8 → α → Prop} {w : ℕ → α} (hx : ∀ i < n, Reads x (enc i) (R i)) :
    Reads (many x n) ((List.range n).flatMap enc)
      fun mem l => ∀ i < n, R i mem (stored w l i) := by
  have hmany : Reads (many x (List.range n).length) ((List.range n).flatMap enc) _ :=
    reads_many fun i hi => hx i (List.mem_range.mp hi)
  rw [List.length_range] at hmany
  refine hmany.mono fun mem l hl i hi => ?_
  have hlen := hl.length_eq
  rw [List.length_range] at hlen
  have hget := hl.get (by rwa [List.length_range]) (by omega : i < l.length)
  rw [stored_lt (by omega)]
  simpa only [List.get_eq_getElem, List.getElem_range] using hget

theorem reads_decode {f : Message} {t : Ftype} {b : List UInt8} (hf : Fits f t)
    (hb : body f t = some b) (g : Received) :
    Reads (decode g t) b fun mem g' => Same f.sent g' mem t := by
  have hstr := hf.strings
  cases t with
  | Tversion | Rversion =>
    cases hb
    refine reads_need (by simp) ?_
    refine reads_exact (reads_GBIT32 f.msize) ?_
    exact reads_last (reads_gstring (hstr f.version (by simp [strings]))) fun _ _ h => ⟨rfl, h⟩
  | Tflush =>
    cases hb
    refine reads_need (by simp) ?_
    exact reads_last (reads_GBIT16 f.oldtag) fun _ _ h => h
  | Tauth =>
    cases hb
    rw [List.append_assoc]
    refine reads_need (by simp) ?_
    refine reads_exact (reads_GBIT32 f.afid) ?_
    refine reads_bind (reads_gstring (hstr f.uname (by simp [strings]))) fun _ => ?_
    exact reads_last (reads_gstring (hstr f.aname (by simp [strings])))
      fun _ _ ha hu => ⟨rfl, hu, ha⟩
  | Tattach =>
    cases hb
    rw [List.append_assoc, List.append_assoc]
    refine reads_need (by simp) ?_
    refine reads_exact (reads_GBIT32 f.fid) ?_
    refine reads_need (by simp) ?_
    refine reads_exact (reads_GBIT32 f.afid) ?_
    refine reads_bind (reads_gstring (hstr f.uname (by simp [strings]))) fun _ => ?_
    exact reads_last (reads_gstring (hstr f.aname (by simp [strings])))
      fun _ _ ha hu => ⟨rfl, rfl, hu, ha⟩
  | Twalk =>
    rw [hf.body_walk] at hb
    cases hb
    rw [List.append_assoc, List.append_assoc]
    refine reads_need (by simp; omega) ?_
    refine reads_exact (reads_GBIT32 f.fid) ?_
    refine reads_exact (reads_GBIT32 f.newfid) ?_
    refine reads_exact (reads_GBIT16 f.nwname) ?_
    refine reads_else (not_lt.mpr (hf.nwname rfl)) ?_
    have hwname : ∀ i < f.nwname.toNat, Reads gstring (pstring (f.wname i)) _ := fun i hi =>
      reads_gstring (hstr _ (List.mem_map_of_mem (List.mem_range.mpr hi)))
    exact reads_last (reads_elems hwname) fun _ _ h => ⟨rfl, rfl, rfl, h⟩
  | Topen =>
    cases hb
    refine reads_need (by simp) ?_
    refine reads_exact (reads_GBIT32 f.fid) ?_
    exact reads_last (reads_GBIT8 f.mode) fun _ _ h => ⟨rfl, h⟩
  | Tcreate =>
    cases hb
    rw [List.append_assoc, List.append_assoc]
    refine reads_need (by simp) ?_
    refine reads_exact (reads_GBIT32 f.fid) ?_
    refine reads_bind (reads_gstring (hstr f.name (by simp [strings]))) fun _ => ?_
    refine reads_need (by simp) ?_
    refine reads_exact (reads_GBIT32 f.perm) ?_
    exact reads_last (reads_GBIT8 f.mode) fun _ _ hm hn => ⟨rfl, hn, rfl, hm⟩
  | Tread =>
    cases hb
    rw [List.append_assoc]
    refine reads_need (by simp; omega) ?_
    refine reads_exact (reads_GBIT32 f.fid) ?_
    refine reads_exact (reads_GBIT64 f.offset.toUInt64) ?_
    exact reads_last (reads_GBIT32 f.count) fun _ _ h => ⟨rfl, rfl, h⟩
  | Twrite =>
    cases hb
    rw [List.append_assoc, List.append_assoc]
    refine reads_need (by simp; omega) ?_
    refine reads_exact (reads_GBIT32 f.fid) ?_
    refine reads_exact (reads_GBIT64 f.offset.toUInt64) ?_
    refine reads_exact (reads_GBIT32 f.count) ?_
    have hdata := hf.carried _ rfl
    refine reads_need (by simpa using hdata) ?_
    exact reads_last (reads_data hdata) fun _ _ h => ⟨rfl, rfl, rfl, h⟩
  | Tclunk | Tremove | Tstat =>
    cases hb
    refine reads_need (by simp) ?_
    exact reads_last (reads_GBIT32 f.fid) fun _ _ h => h
  | Twstat =>
    cases hb
    rw [List.append_assoc]
    refine reads_need (by simp) ?_
    refine reads_exact (reads_GBIT32 f.fid) ?_
    refine reads_exact (reads_GBIT16 f.nstat) ?_
    have hstat := hf.carried _ rfl
    refine reads_need (by simpa using hstat) ?_
    exact reads_last (reads_data hstat) fun _ _ h => ⟨rfl, rfl, h⟩
  | Rerror =>
    cases hb
    exact reads_last (reads_gstring (hstr f.ename (by simp [strings]))) fun _ _ h => h
  | Rflush | Rclunk | Rremove | Rwstat =>
    cases hb
    exact reads_pure fun _ => trivial
  | Rauth =>
    cases hb
    exact reads_last (reads_gqid f.aqid) fun _ _ h => h
  | Rattach =>
    cases hb
    exact reads_last (reads_gqid f.qid) fun _ _ h => h
  | Rwalk =>
    rw [hf.body_rwalk] at hb
    cases hb
    refine reads_need (by simp) ?_
    refine reads_exact (reads_GBIT16 f.nwqid) ?_
    refine reads_else (not_lt.mpr (hf.nwqid rfl)) ?_
    exact reads_last (reads_elems fun i _ => reads_gqid (f.wqid i)) fun _ _ h => ⟨rfl, h⟩
  | Ropen | Rcreate =>
    cases hb
    refine reads_exact (reads_gqid f.qid) ?_
    refine reads_need (by simp) ?_
    exact reads_last (reads_GBIT32 f.iounit) fun _ _ h => ⟨rfl, h⟩
  | Rread =>
    cases hb
    refine reads_need (by simp) ?_
    refine reads_exact (reads_GBIT32 f.count) ?_
    have hdata := hf.carried _ rfl
    refine reads_need (by simpa using hdata) ?_
    exact reads_last (reads_data hdata) fun _ _ h => ⟨rfl, h⟩
  | Rwrite =>
    cases hb
    refine reads_need (by simp) ?_
    exact reads_last (reads_GBIT32 f.count) fun _ _ h => h
  | Rstat =>
    cases hb
    refine reads_need (by simp) ?_
    refine reads_exact (reads_GBIT16 f.nstat) ?_
    have hstat := hf.carried _ rfl
    refine reads_need (by simpa using hstat) ?_
    exact reads_last (reads_data hstat) fun _ _ h => ⟨rfl, h⟩

theorem decode_head (g : Received) (t : Ftype) :
    Yields (decode g t) fun g' => g'.type = g.type ∧ g'.tag = g.tag := by
  cases t with
  | Twalk | Rwalk =>
    repeat refine yields_rest fun _ => ?_
    split
    · exact yields_giveup
    · exact yields_rest fun _ => yields_pure ⟨rfl, rfl⟩
  | _ =>
    repeat refine yields_rest fun _ => ?_
    exact yields_pure ⟨rfl, rfl⟩

theorem Fits.encoding_eq {f : Message} {t : Ftype} (hf : Fits f t) :
    ∃ b, body f t = some b ∧ (encoding f t).length = BIT32SZ + BIT8SZ + BIT16SZ + b.length ∧
      encoding f t =
        le BIT32SZ (encoding f t).length ++ PBIT8 f.type ++ PBIT16 f.tag ++ b := by
  obtain ⟨b, hb⟩ := hf.body_some
  have hlen : (encoding f t).length = BIT32SZ + BIT8SZ + BIT16SZ + b.length := by
    simp [encoding, hb]
    omega
  refine ⟨b, hb, hlen, ?_⟩
  rw [hlen, encoding, hb]
  rfl

theorem reads_message {f : Message} {t : Ftype} (hf : Fits f t)
    (hlen : (encoding f t).length < 2 ^ 32) (g : Received) :
    Reads (message g) (encoding f t) fun mem r =>
      r.1 = (encoding f t).length ∧ (r.2.type = f.type ∧ r.2.tag = f.tag) ∧
        Same f.sent r.2 mem t := by
  obtain ⟨b, hb, hlong, henc⟩ := hf.encoding_eq
  have hnat : (UInt32.ofNat (encoding f t).length).toNat = (encoding f t).length := by
    rw [UInt32.toNat_ofNat', Nat.mod_eq_of_lt hlen]
  rw [← hnat, ← PBIT32] at henc
  generalize encoding f t = w at *
  rw [henc, List.append_assoc, List.append_assoc]
  refine reads_need (by simp; omega) ?_
  refine reads_exact (reads_GBIT32 _) ?_
  refine reads_else (by omega) ?_
  refine reads_exact (reads_GBIT8 f.type) ?_
  refine reads_exact (reads_GBIT16 f.tag) ?_
  rw [hf.type]
  refine reads_last ((reads_decode hf hb _).yields (decode_head _ t)) fun mem g' hg' => ⟨?_, hg'⟩
  change (UInt32.ofNat w.length).toNat = _
  rw [hnat, hlong]
  simp [add_assoc]

section
variable {m : ℕ} {found : List Place} {β : Type} {places : β → List Place}

theorem lays_GBIT8 {g : UInt8 → Decoder β} (hm : BIT8SZ ≤ m)
    (h : ∀ v, Lays (m - BIT8SZ) (g v) found places) : Lays m (GBIT8 >>= g) found places := by
  simp only [GBIT8, bind_assoc, pure_bind]
  exact lays_number hm fun v => h _

theorem lays_GBIT16 {g : UInt16 → Decoder β} (hm : BIT16SZ ≤ m)
    (h : ∀ v, Lays (m - BIT16SZ) (g v) found places) : Lays m (GBIT16 >>= g) found places := by
  simp only [GBIT16, bind_assoc, pure_bind]
  exact lays_number hm fun v => h _

theorem lays_GBIT32 {g : UInt32 → Decoder β} (hm : BIT32SZ ≤ m)
    (h : ∀ v, Lays (m - BIT32SZ) (g v) found places) : Lays m (GBIT32 >>= g) found places := by
  simp only [GBIT32, bind_assoc, pure_bind]
  exact lays_number hm fun v => h _

theorem lays_GBIT64 {g : UInt64 → Decoder β} (hm : BIT64SZ ≤ m)
    (h : ∀ v, Lays (m - BIT64SZ) (g v) found places) : Lays m (GBIT64 >>= g) found places := by
  simp only [GBIT64, bind_assoc, pure_bind]
  exact lays_number hm fun v => h _

theorem lays_gstring {g : ℕ → Decoder β}
    (h : ∀ p, Lays 0 (g p) (found ++ [.str p]) places) : Lays m (gstring >>= g) found places :=
  lays_terminated h

theorem lays_gqid_self : Lays m gqid found fun _ => found := by
  refine lays_need ?_
  refine lays_GBIT8 (by decide) fun type => ?_
  refine lays_GBIT32 (by decide) fun vers => ?_
  exact lays_GBIT64 (by decide) fun path => lays_pure rfl

theorem lays_gqid {g : Qid → Decoder β} (h : ∀ q, Lays 0 (g q) found places) :
    Lays m (gqid >>= g) found places :=
  lays_bind lays_gqid_self (fun _ _ _ _ _ _ => Nat.zero_le _) fun q _ _ _ => h q

end

theorem stored_places {w : ℕ → ℕ} {l : List ℕ} {n : ℕ} (hl : l.length = n) :
    ((List.range n).map fun i => Place.str (stored w l i)) = [] ++ l.flatMap fun p => [.str p] := by
  rw [List.nil_append, ← List.map_eq_flatMap]
  refine List.ext_getElem (by simp [hl]) fun i hi hi' => ?_
  rw [List.length_map] at hi'
  rw [List.getElem_map, List.getElem_map, List.getElem_range, stored_lt hi']

theorem lays_decode (g : Received) (t : Ftype) :
    Lays 0 (decode g t) [] fun g' => places g' t := by
  cases t with
  | Tversion | Rversion =>
    refine lays_need ?_
    refine lays_GBIT32 (by decide) fun msize => ?_
    exact lays_gstring fun version => lays_pure rfl
  | Tflush =>
    refine lays_need ?_
    exact lays_GBIT16 (by decide) fun oldtag => lays_pure rfl
  | Tauth =>
    refine lays_need ?_
    refine lays_GBIT32 (by decide) fun afid => ?_
    refine lays_gstring fun uname => ?_
    exact lays_gstring fun aname => lays_pure rfl
  | Tattach =>
    refine lays_need ?_
    refine lays_GBIT32 (by decide) fun fid => ?_
    refine lays_need ?_
    refine lays_GBIT32 (by decide) fun afid => ?_
    refine lays_gstring fun uname => ?_
    exact lays_gstring fun aname => lays_pure rfl
  | Twalk =>
    refine lays_need ?_
    refine lays_GBIT32 (by decide) fun fid => ?_
    refine lays_GBIT32 (by decide) fun newfid => ?_
    refine lays_GBIT16 (by decide) fun nwname => ?_
    split
    · exact lays_giveup
    refine lays_many (fun _ _ => lays_terminated_self) fun l hl => lays_pure ?_
    exact stored_places hl
  | Topen =>
    refine lays_need ?_
    refine lays_GBIT32 (by decide) fun fid => ?_
    exact lays_GBIT8 (by decide) fun mode => lays_pure rfl
  | Tcreate =>
    refine lays_need ?_
    refine lays_GBIT32 (by decide) fun fid => ?_
    refine lays_gstring fun name => ?_
    refine lays_need ?_
    refine lays_GBIT32 (by decide) fun perm => ?_
    exact lays_GBIT8 (by decide) fun mode => lays_pure rfl
  | Tread =>
    refine lays_need ?_
    refine lays_GBIT32 (by decide) fun fid => ?_
    refine lays_GBIT64 (by decide) fun offset => ?_
    exact lays_GBIT32 (by decide) fun count => lays_pure rfl
  | Twrite =>
    refine lays_need ?_
    refine lays_GBIT32 (by decide) fun fid => ?_
    refine lays_GBIT64 (by decide) fun offset => ?_
    refine lays_GBIT32 (by decide) fun count => ?_
    refine lays_need ?_
    exact lays_region le_rfl fun data => lays_pure rfl
  | Tclunk | Tremove | Tstat =>
    refine lays_need ?_
    exact lays_GBIT32 (by decide) fun fid => lays_pure rfl
  | Twstat =>
    refine lays_need ?_
    refine lays_GBIT32 (by decide) fun fid => ?_
    refine lays_GBIT16 (by decide) fun nstat => ?_
    refine lays_need ?_
    exact lays_region le_rfl fun stat => lays_pure rfl
  | Rerror => exact lays_gstring fun ename => lays_pure rfl
  | Rflush | Rclunk | Rremove | Rwstat => exact lays_pure rfl
  | Rauth => exact lays_gqid fun aqid => lays_pure rfl
  | Rattach => exact lays_gqid fun qid => lays_pure rfl
  | Rwalk =>
    refine lays_need ?_
    refine lays_GBIT16 (by decide) fun nwqid => ?_
    split
    · exact lays_giveup
    have hqid : ∀ m found, Lays m gqid found fun _ => found ++ [] := by
      intro m found
      simpa using lays_gqid_self
    exact lays_many hqid fun l hl => lays_pure (by simp [places])
  | Ropen | Rcreate =>
    refine lays_gqid fun qid => ?_
    refine lays_need ?_
    exact lays_GBIT32 (by decide) fun iounit => lays_pure rfl
  | Rread =>
    refine lays_need ?_
    refine lays_GBIT32 (by decide) fun count => ?_
    refine lays_need ?_
    exact lays_region le_rfl fun data => lays_pure rfl
  | Rwrite =>
    refine lays_need ?_
    exact lays_GBIT32 (by decide) fun count => lays_pure rfl
  | Rstat =>
    refine lays_need ?_
    refine lays_GBIT16 (by decide) fun nstat => ?_
    refine lays_need ?_
    exact lays_region le_rfl fun stat => lays_pure rfl

def found (g : Received) : List Place :=
  match ftype g.type with
  | none => []
  | some t => places g t

theorem lays_message (g : Received) : Lays 0 (message g) [] fun r => found r.2 := by
  refine lays_need ?_
  refine lays_GBIT32 (by decide) fun size => ?_
  split
  · exact lays_giveup
  refine lays_GBIT8 (by decide) fun type => ?_
  refine lays_GBIT16 (by decide) fun tag => ?_
  cases htype : ftype type with
  | none => exact lays_giveup
  | some t =>
    refine lays_bind (lays_decode _ t) (fun _ _ _ _ _ _ => Nat.zero_le _) fun g' c c' hg' => ?_
    have htype' : ftype g'.type = some t := by rw [(decode_head _ t c g' c' hg').1, htype]
    exact lays_pure (by simp only [found, htype'])

theorem message_size {g : Received} {buf : List UInt8} {r : ℕ × Received} {c : Cursor}
    (h : message g ⟨[], buf⟩ = .ok r c) : r.1 = leval (buf.take BIT32SZ) := by
  have hafter := (need_ok h).2
  rw [GBIT32, bind_assoc] at hafter
  have hrest := number_ok hafter
  have hlt : leval (buf.take BIT32SZ) < 2 ^ 32 := by
    have hfour : (buf.take BIT32SZ).length ≤ 4 := by simp [BIT32SZ]
    have hpow := Nat.pow_le_pow_right (by omega : 0 < 256) hfour
    have hval := leval_lt (buf.take BIT32SZ)
    omega
  have hsize : (UInt32.ofNat (leval (buf.take BIT32SZ))).toNat = leval (buf.take BIT32SZ) := by
    rw [UInt32.toNat_ofNat', Nat.mod_eq_of_lt hlt]
  rw [pure_bind] at hrest
  split at hrest
  · cases hrest
  refine (?_ : Yields _ fun r => r.1 = leval (buf.take BIT32SZ)) _ r c hrest
  refine yields_rest fun type => yields_rest fun tag => ?_
  split
  · exact yields_giveup
  · exact yields_rest fun g' => yields_pure hsize

/-- Measured, written and read back alike, whatever the room and whatever the
receiving `Fcall` held. -/
def RoundTrip (f : Message) (t : Ftype) : Prop :=
  ∀ nap g, sizeS2M f ≤ nap → (convS2M f nap).1 = sizeS2M f ∧
    (convS2M f nap).2.length = sizeS2M f ∧
    ∃ g' mem, convM2S (convS2M f nap).2 g = .size (sizeS2M f) g' mem ∧
      g'.type = f.type ∧ g'.tag = f.tag ∧ Same f g' mem t

/-- On any bytes: no touch outside them, and either no message or one of the size
its first field says, with the strings and data in order inside it. -/
def Inside (buf : List UInt8) (g : Received) : Prop :=
  match convM2S buf g with
  | .fault => False
  | .zero => True
  | .size n g' mem =>
    n = leval (buf.take BIT32SZ) ∧ n ≤ buf.length ∧ mem.length = buf.length ∧
      mem.drop n = buf.drop n ∧ Placed mem 0 (found g') n

def Sound (f : Message) (t : Ftype) (m : Mnt) : Prop :=
  RoundTrip f t ∧ (∀ buf g, Inside buf g) ∧
    ((encoding f t).length > m.msize → mountio m f ≠ .waits)

theorem inside (buf : List UInt8) (g : Received) : Inside buf g := by
  obtain ⟨hnofault, hok⟩ := lays_message g [] buf (Nat.zero_le _)
  rw [Inside, convM2S]
  cases hmsg : message g ⟨[], buf⟩ with
  | fault => exact absurd hmsg hnofault
  | bad => trivial
  | ok r c =>
    obtain ⟨n, g'⟩ := r
    obtain ⟨w, rfl, hw, hplaced⟩ := hok _ c hmsg
    dsimp only
    by_cases hn : n = ([] ++ w).length
    · rw [if_pos hn]
      rw [List.nil_append] at hn
      have hlaid := hplaced (buf.drop w.length) 0 (by simp [Placed])
      refine ⟨message_size hmsg, by omega, ?_, by simp [hn], by simpa [hn] using hlaid⟩
      simp
      omega
    · rw [if_neg hn]
      trivial

theorem Fits.convS2M_fits {f : Message} {t : Ftype} (hf : Fits f t)
    (hlen : (encoding f t).length < 2 ^ 32) {nap : ℕ} (hnap : (encoding f t).length ≤ nap) :
    convS2M f nap = ((encoding f t).length, encoding f t) := by
  obtain ⟨b, hb, hlong, henc⟩ := hf.encoding_eq
  have hsize : sizeS2M f = (encoding f t).length := by rw [hf.sizeS2M_eq, Nat.mod_eq_of_lt hlen]
  have hpos : (encoding f t).length ≠ 0 := by rw [hlong]; simp [BIT32SZ]
  simp only [convS2M, hsize, hf.type, hb, if_neg hpos, if_neg (not_lt.mpr hnap), ← henc,
    ne_eq, not_true_eq_false, if_false]

theorem Fits.convS2M_short {f : Message} {t : Ftype} (hf : Fits f t)
    (hlen : (encoding f t).length < 2 ^ 32) {nap : ℕ} (hnap : nap < (encoding f t).length) :
    convS2M f nap = (0, []) := by
  have hsize : sizeS2M f = (encoding f t).length := by rw [hf.sizeS2M_eq, Nat.mod_eq_of_lt hlen]
  simp only [convS2M, hsize, if_pos hnap, ite_self]

theorem Qid.sent_eq {q : Qid} : q.sent = q ↔ q.vers.toNat < 2 ^ 32 := by
  obtain ⟨path, vers, type⟩ := q
  simp only [sent, mk.injEq, true_and, and_true, ← UInt64.toNat_inj, UInt32.toNat_toUInt64,
    UInt64.toNat_toUInt32]
  omega

theorem same_of_sent {f : Message} {g : Received} {mem : List UInt8} {t : Ftype}
    (hvers : ∀ q ∈ qids f t, q.sent = q) (h : Same f.sent g mem t) : Same f g mem t := by
  cases t with
  | Rauth =>
    have hq := hvers f.aqid (by simp [qids])
    exact h.trans hq
  | Rattach =>
    have hq := hvers f.qid (by simp [qids])
    exact h.trans hq
  | Ropen | Rcreate =>
    have hq := hvers f.qid (by simp [qids])
    exact ⟨h.1.trans hq, h.2⟩
  | Rwalk =>
    refine ⟨h.1, fun i hi => ?_⟩
    have hq := hvers (f.wqid i) (List.mem_map_of_mem (List.mem_range.mpr hi))
    exact (h.2 i hi).trans hq
  | _ => exact h

theorem sent_of_same {f : Message} {g : Received} {mem : List UInt8} {t : Ftype}
    (hsent : Same f.sent g mem t) (h : Same f g mem t) : ∀ q ∈ qids f t, q.sent = q := by
  intro q hq
  cases t with
  | Rauth =>
    obtain rfl : q = f.aqid := by simpa [qids] using hq
    exact hsent.symm.trans h
  | Rattach =>
    obtain rfl : q = f.qid := by simpa [qids] using hq
    exact hsent.symm.trans h
  | Ropen | Rcreate =>
    obtain rfl : q = f.qid := by simpa [qids] using hq
    exact hsent.1.symm.trans h.1
  | Rwalk =>
    obtain ⟨i, hi, rfl⟩ := List.mem_map.mp hq
    exact (hsent.2 i (List.mem_range.mp hi)).symm.trans (h.2 i (List.mem_range.mp hi))
  | _ => simp [qids] at hq

theorem Fits.convM2S_encoding {f : Message} {t : Ftype} (hf : Fits f t)
    (hlen : (encoding f t).length < 2 ^ 32) (g : Received) :
    ∃ g' mem, convM2S (encoding f t) g = .size (encoding f t).length g' mem ∧
      g'.type = f.type ∧ g'.tag = f.tag ∧ Same f.sent g' mem t := by
  obtain ⟨⟨n, g'⟩, w, hmsg, hw, hR⟩ := reads_message hf hlen g [] []
  obtain ⟨hn, ⟨htype, htag⟩, hsame⟩ := hR []
  dsimp only at hn htype htag hsame
  rw [List.append_nil] at hmsg
  refine ⟨g', w, ?_, htype, htag, by simpa using hsame⟩
  simp [convM2S, hmsg, hn, hw]

theorem Fits.roundtrip {f : Message} {t : Ftype} (hf : Fits f t)
    (hlen : (encoding f t).length < 2 ^ 32) (hvers : ∀ q ∈ qids f t, q.vers.toNat < 2 ^ 32) :
    RoundTrip f t := by
  intro nap g hnap
  have hsize : sizeS2M f = (encoding f t).length := by rw [hf.sizeS2M_eq, Nat.mod_eq_of_lt hlen]
  rw [hsize] at hnap ⊢
  rw [hf.convS2M_fits hlen hnap]
  obtain ⟨g', mem, hconv, htype, htag, hsame⟩ := hf.convM2S_encoding hlen g
  have hsent : ∀ q ∈ qids f t, q.sent = q := fun q hq => Qid.sent_eq.mpr (hvers q hq)
  exact ⟨rfl, rfl, g', mem, hconv, htype, htag, same_of_sent hsent hsame⟩

theorem convM2S_nil (g : Received) : convM2S [] g = .zero := rfl

theorem Fits.lt_of_written {f : Message} {t : Ftype} (hf : Fits f t) (hzero : sizeS2M f ≠ 0)
    (hret : (convS2M f (sizeS2M f)).1 = sizeS2M f) : (encoding f t).length < 2 ^ 32 := by
  obtain ⟨b, hb, hlong, -⟩ := hf.encoding_eq
  have hlt : sizeS2M f < 2 ^ 32 := by
    rw [hf.sizeS2M_eq]
    exact Nat.mod_lt _ (by norm_num)
  simp only [convS2M, if_neg hzero, gt_iff_lt, lt_self_iff_false, if_false, hf.type, hb] at hret
  split at hret
  · exact absurd hret.symm hzero
  next hsame =>
    rw [ne_eq, not_not] at hsame
    have hall : (le BIT32SZ (sizeS2M f) ++ PBIT8 f.type ++ PBIT16 f.tag ++ b).length =
        (encoding f t).length := by
      rw [hlong]
      simp [add_assoc]
    omega

theorem Fits.of_roundtrip {f : Message} {t : Ftype} (hf : Fits f t) (h : RoundTrip f t)
    (g : Received) : (encoding f t).length < 2 ^ 32 ∧ ∀ q ∈ qids f t, q.vers.toNat < 2 ^ 32 := by
  obtain ⟨hret, -, g', mem, hconv, -, -, hsame⟩ := h _ g le_rfl
  have hzero : sizeS2M f ≠ 0 := by
    intro hzero
    rw [hzero, show convS2M f 0 = (0, []) by simp [convS2M, hzero], convM2S_nil] at hconv
    cases hconv
  have hlen := hf.lt_of_written hzero hret
  have hsize : sizeS2M f = (encoding f t).length := by rw [hf.sizeS2M_eq, Nat.mod_eq_of_lt hlen]
  obtain ⟨g'', mem', hconv', -, -, hsent⟩ := hf.convM2S_encoding hlen g
  rw [hsize, hf.convS2M_fits hlen le_rfl, hconv'] at hconv
  injection hconv with hn hg hmem
  subst hg hmem
  exact ⟨hlen, fun q hq => Qid.sent_eq.mp (sent_of_same hsent hsame q hq)⟩

theorem mountio_short {f : Message} {m : Mnt} (h : convS2M f m.msize = (0, []))
    (hwrite : m.write [] = some 0) : mountio m f = .waits := by
  simp [mountio, h, hwrite]

/-- Marshalling is sound for the messages that fit the connection and whose versions
fit the wire; a request too long for it is waited for though nothing was sent. -/
theorem marshal_iff (f : Message) (t : Ftype) (hf : Fits f t) (m : Mnt)
    (hwrite : m.write [] = some 0) :
    Sound f t m ↔
      (encoding f t).length ≤ m.msize ∧ ∀ q ∈ qids f t, q.vers.toNat < 2 ^ 32 := by
  constructor
  · rintro ⟨hround, -, hfail⟩
    have g : Received := default
    obtain ⟨hlen, hvers⟩ := hf.of_roundtrip hround g
    refine ⟨?_, hvers⟩
    by_contra hlong
    rw [not_le] at hlong
    exact hfail hlong (mountio_short (hf.convS2M_short hlen hlong) hwrite)
  · rintro ⟨hlen, hvers⟩
    have hmsize := m.sense.2
    have hlt : (encoding f t).length < 2 ^ 32 := by omega
    exact ⟨hf.roundtrip hlt hvers, inside, fun hlong => absurd hlen (not_le.mpr hlong)⟩

def narrow : Mnt := ⟨256, by decide, fun l => some l.length⟩

def versionrequest : Message :=
  { (default : Message) with
    type := 100, tag := 65535, msize := 8192, version := some ⟨[57, 80, 50, 48, 48, 48], by decide⟩ }

theorem marshal_version : Sound versionrequest Tversion narrow :=
  (marshal_iff versionrequest Tversion
    ⟨rfl, by decide, by simp [carried], by simp, by simp⟩ narrow rfl).mpr
    ⟨by decide, by simp [qids]⟩

def longname : CStr := ⟨List.replicate 300 97, by decide⟩

theorem longname_length : longname.bytes.length = 300 := List.length_replicate

def longwalk : Message :=
  { (default : Message) with
    type := 110, tag := 1, fid := 1, newfid := 2, nwname := 1,
    wname := fun _ => some longname }

theorem longwalk_fits : Fits longwalk Twalk := by
  refine ⟨rfl, ?_, by simp [carried], by decide, by simp⟩
  simp [strings, longwalk, text, longname_length]

theorem longwalk_length : (encoding longwalk Twalk).length = 319 := by
  obtain ⟨b, hb, hlen, -⟩ := longwalk_fits.encoding_eq
  rw [longwalk_fits.body_walk] at hb
  cases hb
  rw [hlen]
  simp [longwalk, List.range_succ, stringsz, longname_length, BIT8SZ, BIT16SZ, BIT32SZ]

theorem longwalk_waits :
    Fits longwalk Twalk ∧ narrow.write [] = some 0 ∧ ¬Sound longwalk Twalk narrow := by
  refine ⟨longwalk_fits, rfl, ?_⟩
  rintro ⟨-, -, hfail⟩
  have hlong : narrow.msize < (encoding longwalk Twalk).length := by
    rw [longwalk_length]
    decide
  have hshort := longwalk_fits.convS2M_short (by rw [longwalk_length]; norm_num) hlong
  exact hfail hlong (mountio_short hshort rfl)

end Infernode.Ninep
