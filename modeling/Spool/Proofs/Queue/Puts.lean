import Spool.Proofs.Queue.Courses

/-!
The puts of a run. A thread's puts add their items in the order in which they began, and the queue
counts those that found it full when they arrived, however often they went back to sleep.
-/

namespace Spool.Queue

variable {ι α : Type}

section Tests

/-- The number of puts of which the test holds, given who puts and the steps since the put began. -/
def countPuts (test : ι → List (Step ι α) → Bool) : List (Step ι α) → Nat
  | [] => 0
  | (_, .beginPut i _) :: rest => countPuts test rest + (test i rest).toNat
  | (_, .beginGet _) :: rest | (_, .put _ _) :: rest | (_, .get _) :: rest
  | (_, .rouse _) :: rest => countPuts test rest

theorem countPuts_append (test : ι → List (Step ι α) → Bool) (steps more : List (Step ι α)) :
    countPuts test (steps ++ more) =
      countPuts (fun i rest => test i (rest ++ more)) steps + countPuts test more := by
  induction steps with
  | nil => simp [countPuts]
  | cons step steps ih =>
    obtain ⟨state, move⟩ := step
    cases move with
    | beginPut i a =>
      simp only [List.cons_append, countPuts, ih]
      omega
    | _ => simp only [List.cons_append, countPuts, ih]

theorem countPuts_add {test one other : ι → List (Step ι α) → Bool}
    (split : ∀ i rest, (test i rest).toNat = (one i rest).toNat + (other i rest).toNat)
    (steps : List (Step ι α)) :
    countPuts test steps = countPuts one steps + countPuts other steps := by
  induction steps with
  | nil => rfl
  | cons step steps ih =>
    obtain ⟨state, move⟩ := step
    cases move with
    | beginPut i a =>
      simp only [countPuts, ih, split]
      omega
    | _ => simp only [countPuts, ih]

theorem countPuts_none (steps : List (Step ι α)) : countPuts (fun _ _ => false) steps = 0 := by
  induction steps with
  | nil => rfl
  | cons step steps ih =>
    obtain ⟨state, move⟩ := step
    cases move <;> simp [countPuts, ih]

end Tests

variable [DecidableEq ι] {q r : Queue ι α} {move : Move ι α} {more : List (Event ι α)}

namespace Event

def appendedBy? (i : ι) : Event ι α → Option α
  | appended j a => if j = i then some a else none
  | heldBack _ | removed _ _ => none

end Event

namespace Move

/-- What the thread begins to put with this move. -/
def putBy? (i : ι) : Move ι α → Option α
  | beginPut j a => if j = i then some a else none
  | beginGet _ | put _ _ | get _ | rouse _ => none

/-- The thread takes a turn in a put. -/
def isTurnOf (i : ι) : Move ι α → Bool
  | put j _ => j = i
  | beginPut _ _ | beginGet _ | get _ | rouse _ => false

/-- What a thread's put is after the move: its item, and whether it has had no turn yet. -/
def putAfter (full : Bool) (i : ι) (before : Option (α × Bool)) : Move ι α → Option (α × Bool)
  | beginPut j a => if j = i then some (a, true) else before
  | put j _ =>
    if j = i then if full then before.map fun put => (put.1, false) else none else before
  | beginGet _ | get _ | rouse _ => before

/-- How many puts of a thread have had no turn after the move. -/
def newAfter (i : ι) (before : Nat) : Move ι α → Nat
  | beginPut j _ => before + (decide (j = i)).toNat
  | put j _ => if j = i then 0 else before
  | beginGet _ | get _ | rouse _ => before

/-- How many puts have their first turn with this move and find the queue full. -/
def foundFull (full : Bool) (new : ι → Nat) : Move ι α → Nat
  | put i _ => if full then new i else 0
  | beginPut _ _ | beginGet _ | get _ | rouse _ => 0

end Move

def appendedBy (i : ι) (events : List (Event ι α)) : List α :=
  events.filterMap (Event.appendedBy? i)

/-- What the thread has begun to put, in this order. -/
def putBy (i : ι) (steps : List (Step ι α)) : List α :=
  steps.filterMap fun step => step.2.putBy? i

/-- The first of the thread's turns in these steps finds the queue full. -/
def findsFull (i : ι) (steps : List (Step ι α)) : Bool :=
  (steps.find? fun step => step.2.isTurnOf i).any fun step => step.1.isFull

/-- Puts that found the queue full when they arrived. -/
def heldBackPuts (steps : List (Step ι α)) : Nat :=
  countPuts findsFull steps

/-- The thread's puts that have had no turn among these steps. -/
def newPuts (i : ι) (steps : List (Step ι α)) : Nat :=
  countPuts (fun j rest => j = i && rest.all fun step => !step.2.isTurnOf i) steps

section Steps

variable (i : ι) (steps : List (Step ι α)) (q : Queue ι α) (move : Move ι α)

theorem newPuts_concat :
    newPuts i (steps ++ [(q, move)]) = move.newAfter i (newPuts i steps) := by
  simp only [newPuts, countPuts_append]
  cases move with
  | put j woken =>
    by_cases same : j = i
    · simp [Move.newAfter, Move.isTurnOf, countPuts, same, countPuts_none]
    · simp [Move.newAfter, Move.isTurnOf, countPuts, same]
  | _ => simp [Move.newAfter, Move.isTurnOf, countPuts]

theorem findsFull_concat : (findsFull i (steps ++ [(q, move)])).toNat =
    (findsFull i steps).toNat +
      (q.isFull && (move.isTurnOf i && steps.all fun step => !step.2.isTurnOf i)).toNat := by
  simp only [findsFull, List.find?_append, List.find?_singleton]
  cases first : steps.find? fun step => step.2.isTurnOf i with
  | none =>
    have all : (steps.all fun step => !step.2.isTurnOf i) = true := by
      simpa using first
    cases own : move.isTurnOf i <;> simp [all]
  | some step =>
    have some : (steps.all fun step => !step.2.isTurnOf i) = false := by
      rw [List.all_eq_false]
      exact ⟨step, List.mem_of_find?_eq_some first, by simpa using List.find?_some first⟩
    simp [some]

theorem heldBackPuts_concat : heldBackPuts (steps ++ [(q, move)]) =
    heldBackPuts steps + move.foundFull q.isFull fun i => newPuts i steps := by
  have last : countPuts findsFull [(q, move)] = 0 := by
    cases move <;> rfl
  rw [heldBackPuts, countPuts_append, last, Nat.add_zero,
    countPuts_add fun i rest => findsFull_concat i rest q move]
  apply congrArg (heldBackPuts steps + ·)
  cases move with
  | put j woken =>
    cases full : q.isFull with
    | false => simp [Move.foundFull, countPuts_none]
    | true =>
      apply congrArg (countPuts · steps)
      funext i rest
      by_cases same : j = i
      · simp [Move.isTurnOf, same]
      · simp [Move.isTurnOf, same, Ne.symm same]
  | _ => simp [Move.foundFull, Move.isTurnOf, countPuts_none]

end Steps

/-- The item of the thread's put that has not returned, and whether it has had no turn yet. -/
def putOf? (q : Queue ι α) (i : ι) : Option (α × Bool) :=
  (q.putter? i).map fun p => (p.item, p.phase = .arriving)

theorem putOf?_of_same (same : r.putters = q.putters) (i : ι) : r.putOf? i = q.putOf? i := by
  simp only [putOf?, putter?, same]

theorem putOf?_map {i : ι} {f : Putter ι α → Putter ι α}
    (known : r.putter? i = (q.putter? i).map f)
    (kept : ∀ p ∈ q.putter? i, (f p).item = p.item ∧
      ((f p).phase = .arriving ↔ p.phase = .arriving)) : r.putOf? i = q.putOf? i := by
  simp only [putOf?, known, Option.map_map]
  apply Option.map_congr
  intro p there
  simp [kept p there]

/-- Whose phase is changed has had a turn, or is another. -/
theorem putOf?_setPutter {i j : ι} {phase : Phase} (later : phase ≠ .arriving)
    (had : ∀ p ∈ q.putter? j, i = j → p.phase ≠ .arriving) :
    (q.setPutter i phase).putOf? j = q.putOf? j := by
  apply putOf?_map (putter?_setPutter ..)
  intro p there
  have thread := (mem_of_putter? there).2
  split
  · next same =>
    have before := had p there (same.symm.trans thread)
    simp [later, before]
  · exact ⟨rfl, Iff.rfl⟩

theorem putOf?_remove (q : Queue ι α) (i j : ι) (rest : List α) :
    (q.remove i rest).putOf? j = q.putOf? j := by
  unfold remove
  dsimp only
  split
  · apply putOf?_map (putter?_wakePutters ..)
    intro p _
    split
    · next asleep => simp [asleep]
    · exact ⟨rfl, Iff.rfl⟩
  · rfl

theorem putOf?_turn (turn : q.Turn move more r) (i : ι) :
    r.putOf? i = move.putAfter q.isFull i (q.putOf? i) := by
  cases turn with
  | @putBegun j a free =>
    simp only [putOf?, putter?_beginPut, Move.putAfter]
    by_cases same : j = i
    · simp [← same, free]
    · simp [same, Ne.symm same]
  | @appended j _ p found room =>
    have thread := (mem_of_putter? found).2
    rw [putOf?_of_same (wakeGetter_putters ..)]
    simp only [putOf?, putter?_append, thread, room, Move.putAfter]
    by_cases same : j = i
    · simp [same]
    · simp [same, Ne.symm same]
  | @heldBack j p found awake full =>
    have thread := (mem_of_putter? found).2
    rw [putOf?_of_same (holdBack_putters ..)]
    by_cases same : j = i
    · subst same
      simp [putOf?, putter?_setPutter, found, full, thread, Move.putAfter]
    · simp only [Move.putAfter, same, if_false]
      apply putOf?_setPutter (by decide)
      intro r _ here
      exact absurd (thread.symm.trans here) same
  | removed => exact putOf?_remove ..
  | rousedPutter found asleep =>
    apply putOf?_setPutter (by decide)
    intro r there here
    subst here
    cases found.symm.trans there
    simp [asleep]
  | getBegun | dozed | rousedGetter => rfl

/-- The items of the thread's put that has not returned, so one at most. -/
def outstanding (q : Queue ι α) (i : ι) : List α :=
  ((q.putOf? i).map (·.1)).toList

theorem outstanding_turn (turn : q.Turn move more r) (i : ι) :
    q.outstanding i ++ (move.putBy? i).toList = appendedBy i more ++ r.outstanding i := by
  have known := putOf?_turn turn i
  cases turn with
  | @putBegun j a free =>
    simp only [outstanding, known, Move.putAfter, Move.putBy?, appendedBy, List.filterMap_nil]
    by_cases same : j = i
    · subst same
      simp [putOf?, free]
    · simp [same]
  | @appended j _ p found room =>
    simp only [outstanding, known, Move.putAfter, Move.putBy?, appendedBy, room]
    by_cases same : j = i
    · subst same
      simp [putOf?, found, Event.appendedBy?]
    · simp [same, Event.appendedBy?]
  | @heldBack j p found _ full =>
    have silent : appendedBy i (if p.phase = .arriving then [.heldBack j] else [] :
        List (Event ι α)) = [] := by
      split <;> rfl
    simp only [outstanding, known, Move.putAfter, Move.putBy?, silent, full]
    by_cases same : j = i
    · simp [same, Function.comp_def]
    · simp [same]
  | removed | getBegun | dozed | rousedPutter | rousedGetter =>
    simp [outstanding, known, Move.putAfter, Move.putBy?, appendedBy, Event.appendedBy?]

/-- What a thread began to put it has added, or it is still putting it. -/
theorem Course.putBy_eq {capacity : Nat} {steps : List (Step ι α)} {events : List (Event ι α)}
    (course : Course { capacity } steps events q) (i : ι) :
    putBy i steps = appendedBy i events ++ q.outstanding i := by
  refine course.induct (motive := fun steps events q =>
    putBy i steps = appendedBy i events ++ q.outstanding i) rfl ?_
  intro steps events q r move more before turn
  have step := outstanding_turn turn i
  calc putBy i (steps ++ [(q, move)])
      = putBy i steps ++ (move.putBy? i).toList := by
        cases given : move.putBy? i <;> simp [putBy, given]
    _ = appendedBy i events ++ (appendedBy i more ++ r.outstanding i) := by
        rw [before, List.append_assoc, step]
    _ = appendedBy i (events ++ more) ++ r.outstanding i := by
        simp only [appendedBy, List.filterMap_append, List.append_assoc]

/-- The thread's put has had no turn yet. -/
def isNew (q : Queue ι α) (i : ι) : Bool :=
  (q.putOf? i).any (·.2)

theorem isNew_turn (turn : q.Turn move more r) (i : ι) :
    (r.isNew i).toNat = move.newAfter i (q.isNew i).toNat := by
  have known := putOf?_turn turn i
  cases turn with
  | @putBegun j a free =>
    simp only [isNew, known, Move.putAfter, Move.newAfter]
    by_cases same : j = i
    · subst same
      simp [putOf?, free]
    · simp [same]
  | @appended j _ _ _ room | @heldBack j _ _ _ full =>
    simp only [isNew, known, Move.putAfter, Move.newAfter]
    by_cases same : j = i
    · simp [*, Option.any_map]
    · simp [same]
  | _ => simp only [isNew, known, Move.putAfter, Move.newAfter]

theorem backpressure_turn (turn : q.Turn move more r) : r.counts.backpressure =
    q.counts.backpressure + move.foundFull q.isFull fun i => (q.isNew i).toNat := by
  cases turn with
  | appended _ room => simp [Move.foundFull, room]
  | heldBack found _ full =>
    simp only [holdBack_counts, Move.foundFull, full, if_true, isNew, putOf?, found,
      Option.map_some, Option.any_some]
    split <;> simp [*]
  | _ => simp [Move.foundFull]

theorem Course.backpressure_eq {capacity : Nat} {steps : List (Step ι α)}
    {events : List (Event ι α)} (course : Course { capacity } steps events q) :
    q.counts.backpressure = heldBackPuts steps := by
  have both := course.induct (motive := fun steps _ q =>
    (∀ i, newPuts i steps = (q.isNew i).toNat) ∧ q.counts.backpressure = heldBackPuts steps)
    ⟨fun _ => rfl, rfl⟩ ?_
  · exact both.2
  · intro steps events q r move more before turn
    constructor
    · intro i
      rw [newPuts_concat, before.1, isNew_turn turn]
    · rw [heldBackPuts_concat, backpressure_turn turn, before.2]
      simp only [before.1]

end Spool.Queue
