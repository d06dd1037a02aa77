import Spool.Proofs.Queue.Wakeups
import Spool.Queue.Machine

/-!
Runs of a queue with all their moves, each with the state it is made in. What a move can do is
opened here once.
-/

namespace Spool.Queue

variable {ι α : Type} [DecidableEq ι]

abbrev Step (ι α : Type) := Queue ι α × Move ι α

inductive Course (q : Queue ι α) : List (Step ι α) → List (Event ι α) → Queue ι α → Prop
  | start : Course q [] [] q
  | next {steps : List (Step ι α)} {events : List (Event ι α)} {r s : Queue ι α}
      {move : Move ι α} {more : List (Event ι α)} :
      Course q steps events r → r.step? move = some (s, more) →
        Course q (steps ++ [(r, move)]) (events ++ more) s

/-- A move that was made, by what it did. -/
inductive Turn (q : Queue ι α) : Move ι α → List (Event ι α) → Queue ι α → Prop
  | putBegun {i : ι} {a : α} : q.putter? i = none → q.getter? i = none →
      Turn q (.beginPut i a) [] (q.beginPut i a)
  | getBegun {i : ι} : q.putter? i = none → q.getter? i = none →
      Turn q (.beginGet i) [] (q.beginGet i)
  | appended {i : ι} {woken : Option ι} {p : Putter ι α} : q.putter? i = some p →
      q.isFull = false → q.mayWake woken = true →
      Turn q (.put i woken) [.appended i p.item] ((q.append p).wakeGetter woken)
  | heldBack {i : ι} {p : Putter ι α} : q.putter? i = some p → p.phase ≠ .asleep →
      q.isFull = true →
      Turn q (.put i none) (if p.phase = .arriving then [.heldBack i] else []) (q.holdBack p)
  | removed {i : ι} {g : Getter ι} {a : α} {rest : List α} : q.getter? i = some g →
      q.items = a :: rest → Turn q (.get i) [.removed i a] (q.remove i rest)
  | dozed {i : ι} {g : Getter ι} : q.getter? i = some g → q.items = [] →
      Turn q (.get i) [] (q.setGetter i .asleep)
  | rousedPutter {i : ι} {p : Putter ι α} : q.putter? i = some p → p.phase = .asleep →
      Turn q (.rouse i) [] (q.setPutter i .notified)
  | rousedGetter {i : ι} {g : Getter ι} : q.getter? i = some g → g.phase = .asleep →
      Turn q (.rouse i) [] (q.setGetter i .notified)

theorem not_isBusy {q : Queue ι α} {i : ι} :
    ¬ q.isBusy i = true ↔ q.putter? i = none ∧ q.getter? i = none := by
  simp [isBusy]

theorem turn_of_put {q r : Queue ι α} {i : ι} {woken : Option ι} {events : List (Event ι α)}
    (made : q.step? (.put i woken) = some (r, events)) : q.Turn (.put i woken) events r := by
  simp only [step?] at made
  split at made
  · cases made
  · next p found =>
    split at made
    · cases made
    · next next turn =>
      cases made
      obtain ⟨_, same, awake, ⟨impossible, _⟩ | ⟨_, room, may, rfl⟩⟩ := putTurn?_eq_some turn
      · cases impossible
      · cases found.symm.trans same
        exact .appended found room may
    · next next turn =>
      cases made
      obtain ⟨_, same, awake, ⟨_, full, rfl, rfl⟩ | ⟨impossible, _⟩⟩ := putTurn?_eq_some turn
      · cases found.symm.trans same
        exact .heldBack found awake full
      · cases impossible

theorem turn_of_get {q r : Queue ι α} {i : ι} {events : List (Event ι α)}
    (made : q.step? (.get i) = some (r, events)) : q.Turn (.get i) events r := by
  simp only [step?] at made
  split at made
  · cases made
  · next next a turn =>
    cases made
    obtain ⟨g, found, _, ⟨impossible, _⟩ | ⟨_, rest, same, items, rfl⟩⟩ := getTurn?_eq_some turn
    · cases impossible
    · cases same
      exact .removed found items
  · next next turn =>
    cases made
    obtain ⟨g, found, _, ⟨_, items, rfl⟩ | ⟨_, _, impossible, _⟩⟩ := getTurn?_eq_some turn
    · exact .dozed found items
    · cases impossible

theorem turn_of_step? {q r : Queue ι α} {move : Move ι α} {events : List (Event ι α)}
    (made : q.step? move = some (r, events)) : q.Turn move events r := by
  cases move with
  | beginPut i a =>
    simp only [step?] at made
    split at made
    · cases made
    · next free =>
      cases made
      exact .putBegun (not_isBusy.mp free).1 (not_isBusy.mp free).2
  | beginGet i =>
    simp only [step?] at made
    split at made
    · cases made
    · next free =>
      cases made
      exact .getBegun (not_isBusy.mp free).1 (not_isBusy.mp free).2
  | put => exact turn_of_put made
  | get => exact turn_of_get made
  | rouse i =>
    obtain ⟨next, turn, same⟩ := Option.map_eq_some_iff.mp made
    cases same
    rcases rouse?_eq_some turn with ⟨p, found, asleep, rfl⟩ | ⟨g, found, asleep, rfl⟩
    · exact .rousedPutter found asleep
    · exact .rousedGetter found asleep

/-- What holds at the start and after every turn holds all along. -/
theorem Course.induct {q : Queue ι α}
    {motive : List (Step ι α) → List (Event ι α) → Queue ι α → Prop}
    (start : motive [] [] q)
    (turn : ∀ {steps : List (Step ι α)} {events : List (Event ι α)} {r s : Queue ι α}
      {move : Move ι α} {more : List (Event ι α)}, motive steps events r → r.Turn move more s →
        motive (steps ++ [(r, move)]) (events ++ more) s)
    {steps : List (Step ι α)} {events : List (Event ι α)} {r : Queue ι α}
    (course : Course q steps events r) : motive steps events r := by
  induction course with
  | start => exact start
  | next _ made ih => exact turn ih (turn_of_step? made)

/-- Makes the moves one after the other, up to the first that cannot be made. -/
def follow (q : Queue ι α) : List (Move ι α) → List (Step ι α) × List (Event ι α) × Queue ι α
  | [] => ([], [], q)
  | move :: moves =>
    match q.step? move with
    | none => ([], [], q)
    | some (r, events) =>
      let (steps, more, s) := r.follow moves
      ((q, move) :: steps, events ++ more, s)

theorem Course.follow {q r : Queue ι α} {steps : List (Step ι α)} {events : List (Event ι α)}
    (course : Course q steps events r) (moves : List (Move ι α)) :
    Course q (steps ++ (r.follow moves).1) (events ++ (r.follow moves).2.1)
      (r.follow moves).2.2 := by
  induction moves generalizing r steps events with
  | nil => simpa [Queue.follow] using course
  | cons move moves ih =>
    unfold Queue.follow
    split
    · simpa using course
    · next next more made =>
      have goes := ih (course.next made)
      simpa [List.append_assoc] using goes

theorem capacity_turn {q r : Queue ι α} {move : Move ι α} {events : List (Event ι α)}
    (turn : q.Turn move events r) : r.capacity = q.capacity := by
  cases turn <;> simp

theorem Course.capacity_eq {q r : Queue ι α} {steps : List (Step ι α)} {events : List (Event ι α)}
    (course : Course q steps events r) : r.capacity = q.capacity :=
  course.induct (motive := fun _ _ r => r.capacity = q.capacity) rfl
    fun same turn => (capacity_turn turn).trans same

section Tables

variable (q : Queue ι α) (i j : ι)

/-- A change that leaves everybody's name finds the same putter, changed. -/
theorem find?_map_of_key {β : Type} {key : β → ι} {f : β → β} (kept : ∀ b, key (f b) = key b)
    (xs : List β) : (xs.map f).find? (fun b => key b = i) =
      (xs.find? fun b => key b = i).map f := by
  simp only [List.find?_map, Function.comp_def, kept]

theorem putter?_beginPut (a : α) : (q.beginPut i a).putter? j =
    (q.putter? j).or (if j = i then some ⟨i, a, .arriving⟩ else none) := by
  simp only [putter?, beginPut_putters, List.find?_append, List.find?_singleton,
    decide_eq_true_eq, eq_comm (a := j)]

theorem putter?_setPutter (phase : Phase) : (q.setPutter i phase).putter? j =
    (q.putter? j).map fun p => if p.thread = i then { p with phase } else p := by
  apply find?_map_of_key
  intro p
  split <;> rfl

theorem putter?_wakePutters : q.wakePutters.putter? j = (q.putter? j).map fun p =>
    if p.phase = .asleep then { p with phase := .notified } else p := by
  apply find?_map_of_key
  intro p
  split <;> rfl

theorem putter?_append (p : Putter ι α) : (q.append p).putter? j =
    if j = p.thread then none else q.putter? j := by
  simp only [putter?, append_putters, List.find?_filter]
  split
  · next same =>
    simp [List.find?_eq_none, same]
  · next other =>
    congr 1
    funext r
    by_cases here : r.thread = j
    · simp [here, other]
    · simp [here]

end Tables

end Spool.Queue
