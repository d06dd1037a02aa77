/-!
A bounded first-in-first-out queue that threads share. A put sleeps while the queue is full, a get
while it is empty. One sleeping getter is woken by each put. Sleeping putters are woken together,
and only by a get that leaves fewer than `wakeThreshold` items, so that not every removal wakes
them. A turn is what one thread does under the lock, up to leaving it or going to sleep.
-/

namespace Spool

/-- How far a put or a get has come. -/
inductive Phase
  /-- Has not had the lock yet. -/
  | arriving
  | asleep
  /-- Was woken, rightly or not, and wants the lock again. -/
  | notified
  deriving DecidableEq, Repr

structure Putter (ι α : Type) where
  thread : ι
  item : α
  phase : Phase
  deriving DecidableEq, Repr

structure Getter (ι : Type) where
  thread : ι
  phase : Phase
  deriving DecidableEq, Repr

structure QueueCounts where
  enqueued : Nat := 0
  dequeued : Nat := 0
  /-- Puts that found the queue full when they arrived. -/
  backpressure : Nat := 0
  /-- The greatest length so far. -/
  peak : Nat := 0
  deriving DecidableEq, Repr

structure Queue (ι α : Type) where
  capacity : Nat
  /-- The next item to be removed comes first. -/
  items : List α := []
  counts : QueueCounts := {}
  putters : List (Putter ι α) := []
  getters : List (Getter ι) := []
  deriving DecidableEq, Repr

namespace Queue

variable {ι α : Type} [DecidableEq ι]

/-- Sleeping putters are woken when fewer items than this are left. -/
def wakeThreshold (q : Queue ι α) : Nat :=
  q.capacity / 2 + 1

def isFull (q : Queue ι α) : Bool :=
  q.capacity ≤ q.items.length

def putter? (q : Queue ι α) (i : ι) : Option (Putter ι α) :=
  q.putters.find? fun p => p.thread = i

def getter? (q : Queue ι α) (i : ι) : Option (Getter ι) :=
  q.getters.find? fun g => g.thread = i

def isBusy (q : Queue ι α) (i : ι) : Bool :=
  (q.putter? i).isSome || (q.getter? i).isSome

def beginPut (q : Queue ι α) (i : ι) (item : α) : Queue ι α :=
  { q with putters := q.putters ++ [⟨i, item, .arriving⟩] }

def beginGet (q : Queue ι α) (i : ι) : Queue ι α :=
  { q with getters := q.getters ++ [⟨i, .arriving⟩] }

def setPutter (q : Queue ι α) (i : ι) (phase : Phase) : Queue ι α :=
  { q with putters := q.putters.map fun p => if p.thread = i then { p with phase } else p }

def setGetter (q : Queue ι α) (i : ι) (phase : Phase) : Queue ι α :=
  { q with getters := q.getters.map fun g => if g.thread = i then { g with phase } else g }

def wakePutters (q : Queue ι α) : Queue ι α :=
  { q with putters := q.putters.map fun p =>
      if p.phase = .asleep then { p with phase := .notified } else p }

/-- A put may wake the given getter: it is asleep, or nobody is and none is given. -/
def mayWake (q : Queue ι α) : Option ι → Bool
  | none => q.getters.all fun g => g.phase ≠ .asleep
  | some i => q.getters.any fun g => g.thread = i && g.phase = .asleep

def wakeGetter (q : Queue ι α) : Option ι → Queue ι α
  | none => q
  | some i => q.setGetter i .notified

def append (q : Queue ι α) (p : Putter ι α) : Queue ι α :=
  { q with
    items := q.items ++ [p.item]
    counts := { q.counts with
      enqueued := q.counts.enqueued + 1
      peak := max q.counts.peak (q.items.length + 1) }
    putters := q.putters.filter fun r => r.thread ≠ p.thread }

/-- The putter goes to sleep. It counts as held back when it has just arrived. -/
def holdBack (q : Queue ι α) (p : Putter ι α) : Queue ι α :=
  let q := q.setPutter p.thread .asleep
  if p.phase = .arriving then
    { q with counts := { q.counts with backpressure := q.counts.backpressure + 1 } }
  else q

/-- A putter's turn, and whether its put returns. The one to wake is chosen by `woken`; `none` when
the thread has no turn, or a wrong one was chosen. -/
def putTurn? (q : Queue ι α) (i : ι) (woken : Option ι) : Option (Queue ι α × Bool) :=
  match q.putter? i with
  | none => none
  | some p =>
    if p.phase = .asleep then none
    else if q.isFull then
      if woken.isSome then none else some (q.holdBack p, false)
    else if q.mayWake woken then some ((q.append p).wakeGetter woken, true)
    else none

def remove (q : Queue ι α) (i : ι) (rest : List α) : Queue ι α :=
  let left := { q with
    items := rest
    counts := { q.counts with dequeued := q.counts.dequeued + 1 }
    getters := q.getters.filter fun g => g.thread ≠ i }
  if rest.length < left.wakeThreshold then left.wakePutters else left

/-- A getter's turn, and the item when its get returns; `none` when the thread has no turn. -/
def getTurn? (q : Queue ι α) (i : ι) : Option (Queue ι α × Option α) :=
  match q.getter? i with
  | none => none
  | some g =>
    if g.phase = .asleep then none
    else
      match q.items with
      | [] => some (q.setGetter i .asleep, none)
      | a :: rest => some (q.remove i rest, some a)

/-- A sleeping thread wakes although nobody woke it. -/
def rouse? (q : Queue ι α) (i : ι) : Option (Queue ι α) :=
  match q.putter? i, q.getter? i with
  | some ⟨_, _, .asleep⟩, _ => some (q.setPutter i .notified)
  | none, some ⟨_, .asleep⟩ => some (q.setGetter i .notified)
  | _, _ => none

/-- The getter that has slept longest, as one that a put may wake. -/
def firstAsleep (q : Queue ι α) : Option ι :=
  (q.getters.find? fun g => g.phase = .asleep).map (·.thread)

end Queue

end Spool
