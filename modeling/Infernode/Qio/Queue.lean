import Mathlib

/-!
# Queues of blocks

The queues of `qio.c`: what each operation does while it holds the queue's lock.
A block has its address, the room in front of its data, the data from `rp` to `wp`
and the room behind. `blast` is an address, and a block is linked behind the block
it names. Allocation is a choice of the caller where the source handles its
failure, and succeeds elsewhere. Kick routines and wakeups leave the queue alone
and are left out.
-/

namespace Infernode.Qio

variable {α : Type*}

def Maxatomic : ℕ := 32 * 1024

def Ehungup : String := "i/o on hungup channel"

structure Block (α : Type*) where
  id : ℕ
  pre : ℕ
  data : List α
  post : ℕ
  deriving DecidableEq

def Block.BLEN (b : Block α) : ℕ := b.data.length

def Block.BALLOC (b : Block α) : ℕ := b.pre + b.data.length + b.post

def Block.advance (b : Block α) (n : ℕ) : Block α :=
  { b with pre := b.pre + n, data := b.data.drop n }

def Block.cut (b : Block α) (n : ℕ) : Block α :=
  { b with data := b.data.take n, post := b.post + (b.data.length - n) }

def Block.extend (b : Block α) (data : List α) : Block α :=
  { b with data := b.data ++ data, post := b.post - data.length }

def allocb (id : ℕ) (data : List α) : Block α :=
  ⟨id, 0, data, 0⟩

def blocklen (bs : List (Block α)) : ℕ :=
  (bs.map Block.BLEN).sum

def blockalloclen (bs : List (Block α)) : ℕ :=
  (bs.map Block.BALLOC).sum

structure Queue (α : Type*) where
  bfirst : List (Block α)
  blast : ℕ
  len : ℤ
  dlen : ℤ
  limit : ℤ
  inilim : ℤ
  starve : Bool
  msg : Bool
  closed : Bool
  flow : Bool
  coalesce : Bool
  noblock : Bool
  bypass : Bool
  eof : ℕ
  err : String

def qopen (limit : ℤ) (msg coalesce : Bool) : Queue α where
  bfirst := []
  blast := 0
  len := 0
  dlen := 0
  limit := limit
  inilim := limit
  starve := true
  msg := msg
  closed := false
  flow := false
  coalesce := coalesce
  noblock := false
  bypass := false
  eof := 0
  err := ""

def qbypass : Queue α :=
  { qopen 0 false false with starve := false, bypass := true }

def link (blast : ℕ) (new : List (Block α)) : List (Block α) → List (Block α)
  | [] => []
  | b :: bs => if b.id = blast then b :: new else b :: link blast new bs

def lastid (blast : ℕ) (bs : List (Block α)) : ℕ :=
  (bs.getLast?.map Block.id).getD blast

def Queue.qaddlist (q : Queue α) (bs : List (Block α)) : Queue α :=
  { q with
    bfirst := match q.bfirst with
      | [] => bs
      | _ :: _ => link q.blast bs q.bfirst
    blast := lastid q.blast bs
    len := q.len + blockalloclen bs
    dlen := q.dlen + blocklen bs }

def Queue.qremove (q : Queue α) (b : Block α) (bs : List (Block α)) : Queue α :=
  { q with bfirst := bs, len := q.len - b.BALLOC, dlen := q.dlen - b.BLEN }

def Queue.qputback (q : Queue α) (b : Block α) : Queue α :=
  { q with
    bfirst := b :: q.bfirst
    blast := match q.bfirst with
      | [] => b.id
      | _ :: _ => q.blast
    len := q.len + b.BALLOC
    dlen := q.dlen + b.BLEN }

def Queue.restart (q : Queue α) (limit : ℤ) : Queue α :=
  { q with flow := q.flow && !decide (q.len < limit) }

def Queue.qwakeup (q : Queue α) : Queue α :=
  q.restart (q.limit.tdiv 2)

inductive Ready
  | data
  | closed
  | failed
  | sleep
  deriving DecidableEq

def Queue.qwait (q : Queue α) : Ready × Queue α :=
  match q.bfirst with
  | _ :: _ => (.data, q)
  | [] =>
    if q.closed then
      if 3 < q.eof + 1 ∨ q.err ≠ "" ∧ q.err ≠ Ehungup then
        (.failed, { q with eof := q.eof + 1 })
      else (.closed, { q with eof := q.eof + 1 })
    else (.sleep, { q with starve := true })

def Queue.qget (q : Queue α) : Option (Block α) × Queue α :=
  match q.bfirst with
  | [] => (none, { q with starve := true })
  | b :: bs => (some b, (q.qremove b bs).qwakeup)

def discardloop : List (Block α) → ℕ → Queue α → Queue α
  | [], _, q => q
  | b :: bs, left, q =>
    if left = 0 then q
    else if b.BLEN ≤ left then discardloop bs (left - b.BLEN) (q.qremove b bs)
    else { q with bfirst := b.advance left :: bs, dlen := q.dlen - left }

def Queue.qdiscard (q : Queue α) (len : ℕ) : Queue α :=
  let q' := discardloop q.bfirst len q
  q'.restart q'.limit

def shed : List (Block α) → Queue α → Queue α
  | [], q => q
  | b :: bs, q => if b.BLEN = 0 then shed bs (q.qremove b bs) else q

def consume (q : Queue α) (len : ℕ) : Option (ℕ × List α) × Queue α :=
  match q.bfirst with
  | [] => (none, { q with starve := true })
  | b :: bs =>
    if q.msg ∨ b.BLEN ≤ len then
      (some (b.id, b.data.take len), (q.qremove b bs).qwakeup)
    else
      (some (b.id, b.data.take len),
        { q with bfirst := b.advance len :: bs, dlen := q.dlen - len }.qwakeup)

def Queue.qconsume (q : Queue α) (len : ℕ) : Option (ℕ × List α) × Queue α :=
  consume (shed q.bfirst q) len

def Queue.qbread (q : Queue α) (len id : ℕ) : Option (Block α) × Queue α :=
  match q.bfirst with
  | [] => (none, q)
  | b :: bs =>
    if len < b.BLEN then
      (some (b.cut len),
        (if q.msg then q.qremove b bs
          else (q.qremove b bs).qputback (allocb id (b.data.drop len))).qwakeup)
    else (some b, (q.qremove b bs).qwakeup)

def grab (len : ℕ) : List (Block α) → ℕ → Queue α → List (Block α) × ℕ × Queue α
  | [], n, q => ([], n, q)
  | b :: bs, n, q =>
    if len < n + b.BLEN then ([], n, q)
    else
      let (first, n', q') := grab len bs (n + b.BLEN) (q.qremove b bs)
      (b :: first, n', q')

def Queue.take (q : Queue α) (len : ℕ) : List (Block α) × ℕ × Queue α :=
  match q.bfirst with
  | [] => ([], 0, q)
  | b :: bs =>
    if q.coalesce then
      let (first, n, q') := grab len bs b.BLEN (q.qremove b bs)
      (b :: first, n, q')
    else ([b], b.BLEN, q.qremove b bs)

def bl2mem : ℕ → List (Block α) → List α × List (Block α)
  | _, [] => ([], [])
  | n, b :: bs =>
    if n < b.BLEN then (b.data.take n, b.advance n :: bs)
    else
      let (p, rest) := bl2mem (n - b.BLEN) bs
      (b.data ++ p, rest)

/-- `qread` once it has copied: what is left of a block goes back, or away from a
queue of messages. The length is the one returned. -/
def Queue.copied (q : Queue α) (n : ℕ) (rest : List (Block α)) : ℕ × Queue α :=
  match rest with
  | [] => (n, q.qwakeup)
  | b :: _ => (n - b.BLEN, (if q.msg then q else q.qputback b).qwakeup)

def pulluploop (bp : Block α) (n : ℕ) : List (Block α) → List (Block α)
  | [] => []
  | nbp :: bs =>
    if n < nbp.BLEN then bp.extend (nbp.data.take n) :: nbp.advance n :: bs
    else if n = nbp.BLEN then bp.extend nbp.data :: bs
    else pulluploop (bp.extend nbp.data) (n - nbp.BLEN) bs

def pullupblock (id : ℕ) (bp : Block α) (bs : List (Block α)) (n : ℕ) : List (Block α) :=
  if n ≤ bp.BLEN then bp :: bs
  else if bp.BLEN + bp.post < n then pulluploop ⟨id, 0, [], n⟩ n (bp :: bs)
  else pulluploop bp (n - bp.BLEN) bs

def Queue.pullupqueue (q : Queue α) (id : ℕ) (bp : Block α) (bs : List (Block α)) (n : ℕ) :
    Queue α :=
  if n ≤ bp.BLEN then q
  else
    { q with
      bfirst := pullupblock id bp bs n
      blast := lastid 0 (pullupblock id bp bs n) }

def Queue.qnotfull (q : Queue α) : Bool :=
  decide (q.len < q.limit) || q.closed

inductive Queued
  | queued
  | freed
  | failed
  deriving DecidableEq

def Queue.qbwrite (q : Queue α) (b : Block α) : Queued × Queue α :=
  if q.bypass then (.freed, q)
  else if q.closed then (.failed, q)
  else if q.limit ≤ q.len ∧ q.noblock then (.freed, q)
  else (.queued, { q.qaddlist [b] with starve := false })

def Queue.qiwrite (q : Queue α) (b : Block α) : Queued × Queue α :=
  if q.bypass then (.freed, q)
  else (.queued, { q.qaddlist [b] with starve := false })

def Queue.qproduce (q : Queue α) (b : Block α) : Queued × Queue α :=
  if q.closed then (.failed, q)
  else if q.limit ≤ q.len then (.failed, { q with flow := true })
  else
    let q' := q.qaddlist [b]
    (.queued, { q' with starve := false, flow := q'.flow || decide (q'.limit ≤ q'.len) })

def Queue.qpass (q : Queue α) (bs : List (Block α)) : Queued × Queue α :=
  if q.limit ≤ q.len then (.failed, q)
  else if q.closed then (.freed, q)
  else
    let q' := q.qaddlist bs
    (.queued,
      { q' with flow := q'.flow || decide (q'.limit.tdiv 2 ≤ q'.len), starve := false })

def Queue.qhangup (q : Queue α) (msg : String) : Queue α :=
  { q with closed := true, err := if msg = "" then Ehungup else msg }

def Queue.qclose (q : Queue α) : Queue α :=
  { q with
    closed := true
    flow := false
    starve := false
    err := Ehungup
    bfirst := []
    len := 0
    dlen := 0
    noblock := false }

def Queue.qflush (q : Queue α) : Queue α :=
  { q with bfirst := [], len := 0, dlen := 0 }

def Queue.qreopen (q : Queue α) : Queue α :=
  { q with closed := false, starve := true, eof := 0, limit := q.inilim }

end Infernode.Qio
