import Spool.Proofs.Queue.Puts

/-!
However its callers are interleaved, a queue behaves like a bounded one that makes every addition
and every removal at once: nothing is lost, doubled or overtaken, and there is never more in it than
it may hold. Its counters say what happened.
-/

namespace Spool.Queue

variable {ι α : Type}

namespace Event

def appended? : Event ι α → Option α
  | appended _ a => some a
  | heldBack _ | removed _ _ => none

def removed? : Event ι α → Option α
  | removed _ a => some a
  | heldBack _ | appended _ _ => none

end Event

/-- Items in the order in which they were added. -/
def appendedItems (events : List (Event ι α)) : List α :=
  events.filterMap Event.appended?

def removedItems (events : List (Event ι α)) : List α :=
  events.filterMap Event.removed?

@[simp] theorem appendedItems_append (events more : List (Event ι α)) :
    appendedItems (events ++ more) = appendedItems events ++ appendedItems more :=
  List.filterMap_append

@[simp] theorem removedItems_append (events more : List (Event ι α)) :
    removedItems (events ++ more) = removedItems events ++ removedItems more :=
  List.filterMap_append

@[simp] theorem appendedItems_singleton (event : Event ι α) :
    appendedItems [event] = event.appended?.toList := by
  cases event <;> rfl

@[simp] theorem removedItems_singleton (event : Event ι α) :
    removedItems [event] = event.removed?.toList := by
  cases event <;> rfl

/-- An atomic bounded queue: what can happen to it, and what is in it then. Who is held back has
found it full. -/
inductive Fifo (capacity : Nat) : List (Event ι α) → List α → Prop
  | empty : Fifo capacity [] []
  | appended {events : List (Event ι α)} {items : List α} {i : ι} {a : α} :
      Fifo capacity events items → items.length < capacity →
        Fifo capacity (events ++ [.appended i a]) (items ++ [a])
  | removed {events : List (Event ι α)} {items : List α} {i : ι} {a : α} :
      Fifo capacity events (a :: items) → Fifo capacity (events ++ [.removed i a]) items
  | heldBack {events : List (Event ι α)} {items : List α} {i : ι} :
      Fifo capacity events items → items.length = capacity →
        Fifo capacity (events ++ [.heldBack i]) items

namespace Fifo

variable {capacity : Nat} {events : List (Event ι α)} {items : List α}

theorem order (fifo : Fifo capacity events items) :
    removedItems events ++ items = appendedItems events := by
  induction fifo with
  | empty => rfl
  | appended _ _ ih => simp [← ih, Event.removed?, Event.appended?]
  | removed _ ih => simp [← ih, Event.removed?, Event.appended?]
  | heldBack _ _ ih => simp [← ih, Event.removed?, Event.appended?]

theorem length_le (fifo : Fifo capacity events items) : items.length ≤ capacity := by
  induction fifo with
  | empty => exact Nat.zero_le capacity
  | appended _ room =>
    rw [List.length_append, List.length_singleton]
    exact room
  | removed _ ih =>
    rw [List.length_cons] at ih
    omega
  | heldBack _ _ ih => exact ih

end Fifo

/-- Every state of a run, the last one included. -/
def states (steps : List (Step ι α)) (q : Queue ι α) : List (Queue ι α) :=
  steps.map Prod.fst ++ [q]

@[simp] theorem states_concat (steps : List (Step ι α)) (q r : Queue ι α) (move : Move ι α) :
    states (steps ++ [(q, move)]) r = states steps q ++ [r] := by
  simp [states]

variable [DecidableEq ι] {q r : Queue ι α} {move : Move ι α} {steps : List (Step ι α)}
  {events more : List (Event ι α)} {capacity : Nat}

theorem Course.of_mem_states {start : Queue ι α} (course : Course start steps events q)
    (member : r ∈ states steps q) : ∃ earlier heard, Course start earlier heard r := by
  induction course with
  | start =>
    cases List.mem_singleton.mp member
    exact ⟨_, _, .start⟩
  | next before made ih =>
    rw [states_concat] at member
    rcases List.mem_append.mp member with old | new
    · exact ih old
    · cases List.mem_singleton.mp new
      exact ⟨_, _, before.next made⟩

theorem fifo_turn (fifo : Fifo q.capacity events q.items) (turn : q.Turn move more r) :
    Fifo r.capacity (events ++ more) r.items := by
  rw [capacity_turn turn]
  cases turn with
  | putBegun | getBegun | dozed | rousedPutter | rousedGetter =>
    rw [List.append_nil]
    exact fifo
  | appended _ room =>
    rw [wakeGetter_items, append_items]
    apply fifo.appended
    simpa [isFull] using room
  | heldBack _ _ full =>
    rw [holdBack_items]
    split
    · exact fifo.heldBack (Nat.le_antisymm fifo.length_le (of_decide_eq_true full))
    · rw [List.append_nil]
      exact fifo
  | removed _ items =>
    rw [items] at fifo
    rw [remove_items]
    exact fifo.removed

theorem Course.fifo (course : Course { capacity } steps events q) :
    Fifo capacity events q.items := by
  have all := course.induct (motive := fun _ events q => Fifo q.capacity events q.items) .empty
    fifo_turn
  rwa [course.capacity_eq] at all

theorem counts_turn (turn : q.Turn move more r) :
    r.counts.enqueued = q.counts.enqueued + (appendedItems more).length ∧
      r.counts.dequeued = q.counts.dequeued + (removedItems more).length := by
  cases turn with
  | heldBack =>
    rw [holdBack_counts]
    split <;> exact ⟨rfl, rfl⟩
  | appended | removed => simp [Event.appended?, Event.removed?]
  | _ => exact ⟨rfl, rfl⟩

theorem Course.counts_eq (course : Course { capacity } steps events q) :
    q.counts.enqueued = (appendedItems events).length ∧
      q.counts.dequeued = (removedItems events).length := by
  refine course.induct (motive := fun _ events q =>
    q.counts.enqueued = (appendedItems events).length ∧
      q.counts.dequeued = (removedItems events).length) ⟨rfl, rfl⟩ ?_
  intro steps events q r move more before turn
  have step := counts_turn turn
  simp only [appendedItems_append, removedItems_append, List.length_append]
  omega

theorem peak_turn (high : q.items.length ≤ q.counts.peak) (turn : q.Turn move more r) :
    r.counts.peak = max q.counts.peak r.items.length := by
  cases turn with
  | appended => simp
  | removed _ items =>
    rw [items, List.length_cons] at high
    simp only [remove_counts, remove_items]
    omega
  | _ =>
    simp
    omega

/-- The peak was reached and never passed. -/
theorem Course.peak_eq (course : Course { capacity } steps events q) :
    (∀ r ∈ states steps q, r.items.length ≤ q.counts.peak) ∧
      ∃ r ∈ states steps q, r.items.length = q.counts.peak := by
  refine course.induct (motive := fun steps _ q =>
    (∀ r ∈ states steps q, r.items.length ≤ q.counts.peak) ∧
      ∃ r ∈ states steps q, r.items.length = q.counts.peak) ?_ ?_
  · simp [states]
  · intro steps events q r move more before turn
    have here : q ∈ states steps q := List.mem_append_right _ (List.mem_singleton_self q)
    rw [states_concat, peak_turn (before.1 q here) turn]
    constructor
    · intro s member
      rcases List.mem_append.mp member with old | new
      · exact Nat.le_trans (before.1 s old) (Nat.le_max_left ..)
      · rw [List.mem_singleton.mp new]
        exact Nat.le_max_right ..
    · rcases Nat.le_total r.items.length q.counts.peak with low | high
      · obtain ⟨s, member, reached⟩ := before.2
        exact ⟨s, List.mem_append_left _ member, by omega⟩
      · exact ⟨r, List.mem_append_right _ (List.mem_singleton_self r), by omega⟩

/-- What an atomic bounded queue would show. -/
structure RefinesFifo (capacity : Nat) (steps : List (Step ι α)) (events : List (Event ι α))
    (q : Queue ι α) : Prop where
  atomic : Fifo capacity events q.items
  order : removedItems events ++ q.items = appendedItems events
  own : ∀ i, putBy i steps = appendedBy i events ++ q.outstanding i
  room : q.items.length ≤ capacity
  balance : q.counts.enqueued = q.counts.dequeued + q.items.length
  enqueued : q.counts.enqueued = (appendedItems events).length
  dequeued : q.counts.dequeued = (removedItems events).length
  below : ∀ r ∈ states steps q, r.items.length ≤ q.counts.peak
  reached : ∃ r ∈ states steps q, r.items.length = q.counts.peak
  limit : q.counts.peak ≤ capacity
  backpressure : q.counts.backpressure = heldBackPuts steps

theorem Course.refines_fifo (course : Course { capacity } steps events q) :
    RefinesFifo capacity steps events q := by
  have fifo := course.fifo
  have counts := course.counts_eq
  have peak := course.peak_eq
  have lengths := congrArg List.length fifo.order
  rw [List.length_append] at lengths
  exact {
    atomic := fifo
    order := fifo.order
    own := course.putBy_eq
    room := fifo.length_le
    balance := by omega
    enqueued := counts.1
    dequeued := counts.2
    below := peak.1
    reached := peak.2
    limit := by
      obtain ⟨r, member, same⟩ := peak.2
      obtain ⟨_, _, earlier⟩ := course.of_mem_states member
      exact same ▸ earlier.fifo.length_le
    backpressure := course.backpressure_eq }

/-- Two threads put into a queue for one item. The second is held back, wakes for nothing, goes back
to sleep, and adds its item when a third has taken the first. -/
def crowd : List (Move Nat Nat) :=
  [.beginPut 0 7, .beginPut 1 8, .put 0 none, .put 1 none, .rouse 1, .put 1 none, .beginGet 2,
    .get 2, .put 1 none]

theorem refines_fifo_of_crowd : ∃ steps events q,
    Course { capacity := 1 } steps events q ∧ steps.map Prod.snd = crowd ∧ q.items = [8] ∧
      q.counts = ⟨2, 1, 1, 1⟩ ∧ RefinesFifo 1 steps events q := by
  have course := (Course.start (q := ({ capacity := 1 } : Queue Nat Nat))).follow crowd
  refine ⟨_, _, _, course, ?_, ?_, ?_, course.refines_fifo⟩
  · rfl
  · rfl
  · rfl

end Spool.Queue
