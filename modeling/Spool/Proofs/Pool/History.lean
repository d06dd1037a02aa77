import Spool.Proofs.Pool.Turns

/-!
What can be read off a history: which jobs went through which gate, what happened to one job, who is
inside a submission, and which callback is in place.
-/

namespace Spool

variable {κ : Type}

namespace Event

def counted? : Event κ → Option Ticket
  | counted _ ticket => some ticket
  | _ => none

def appended? : Event κ → Option Ticket
  | appended _ ticket => some ticket
  | _ => none

def removed? : Event κ → Option Ticket
  | removed _ ticket => some ticket
  | _ => none

def removedBy? (w : Nat) : Event κ → Option Ticket
  | removed v ticket => if v = w then some ticket else none
  | _ => none

def released? : Event κ → Option Ticket
  | released _ ticket => some ticket
  | _ => none

/-- The number of the job that the event is about. -/
def serial? : Event κ → Option Nat
  | counted _ ticket | appended _ ticket | removed _ ticket | began _ _ ticket
  | pushed _ ticket _ | handed _ ticket | looked _ ticket _ | notified _ ticket _ _
  | answered _ ticket _ | released _ ticket => some ticket.serial
  | _ => none

end Event

namespace Pool

def countedTickets (events : List (Event κ)) : List Ticket :=
  events.filterMap Event.counted?

/-- Jobs in the order in which they entered the queue. -/
def appendedTickets (events : List (Event κ)) : List Ticket :=
  events.filterMap Event.appended?

/-- Jobs in the order in which workers took them. -/
def removedTickets (events : List (Event κ)) : List Ticket :=
  events.filterMap Event.removed?

def removedBy (w : Nat) (events : List (Event κ)) : List Ticket :=
  events.filterMap (Event.removedBy? w)

def releasedTickets (events : List (Event κ)) : List Ticket :=
  events.filterMap Event.released?

/-- All that happened to the job with this number. -/
def about (serial : Nat) (events : List (Event κ)) : List (Event κ) :=
  events.filter fun event => event.serial? = some serial

/-- Who is inside a submission after the event. -/
def submitters (now : List Nat) : Event κ → List Nat
  | .called c (.submit _) => c :: now
  | .ended c _ => now.filter (· ≠ c)
  | _ => now

/-- The callers that are inside a submission. -/
def submitting (events : List (Event κ)) : List Nat :=
  events.foldl submitters []

/-- Which callback is in place after the event. -/
def callbackAfter (now : Option κ) : Event κ → Option κ
  | .registered _ callback => some callback
  | .cleared _ => none
  | _ => now

/-- The callback in place. -/
def registration (events : List (Event κ)) : Option κ :=
  events.foldl callbackAfter none

section Cons

variable (event : Event κ) (events : List (Event κ))

theorem filterMap_cons_toList {α β : Type} (f : α → Option β) (a : α) (xs : List α) :
    (a :: xs).filterMap f = (f a).toList ++ xs.filterMap f := by
  cases found : f a <;> simp [found]

@[simp] theorem countedTickets_cons : countedTickets (event :: events) =
    event.counted?.toList ++ countedTickets events := filterMap_cons_toList ..

@[simp] theorem appendedTickets_cons : appendedTickets (event :: events) =
    event.appended?.toList ++ appendedTickets events := filterMap_cons_toList ..

@[simp] theorem removedTickets_cons : removedTickets (event :: events) =
    event.removed?.toList ++ removedTickets events := filterMap_cons_toList ..

@[simp] theorem removedBy_cons (w : Nat) : removedBy w (event :: events) =
    (event.removedBy? w).toList ++ removedBy w events := filterMap_cons_toList ..

@[simp] theorem releasedTickets_cons : releasedTickets (event :: events) =
    event.released?.toList ++ releasedTickets events := filterMap_cons_toList ..

theorem about_cons (serial : Nat) : about serial (event :: events) =
    if event.serial? = some serial then event :: about serial events else about serial events := by
  simp [about, List.filter_cons]

@[simp] theorem about_nil (serial : Nat) : about serial ([] : List (Event κ)) = [] := rfl
@[simp] theorem countedTickets_nil : countedTickets ([] : List (Event κ)) = [] := rfl
@[simp] theorem appendedTickets_nil : appendedTickets ([] : List (Event κ)) = [] := rfl
@[simp] theorem removedTickets_nil : removedTickets ([] : List (Event κ)) = [] := rfl
@[simp] theorem removedBy_nil (w : Nat) : removedBy w ([] : List (Event κ)) = [] := rfl
@[simp] theorem releasedTickets_nil : releasedTickets ([] : List (Event κ)) = [] := rfl

end Cons

section Append

variable (events more : List (Event κ))

@[simp] theorem countedTickets_append :
    countedTickets (events ++ more) = countedTickets events ++ countedTickets more :=
  List.filterMap_append

@[simp] theorem appendedTickets_append :
    appendedTickets (events ++ more) = appendedTickets events ++ appendedTickets more :=
  List.filterMap_append

@[simp] theorem removedTickets_append :
    removedTickets (events ++ more) = removedTickets events ++ removedTickets more :=
  List.filterMap_append

@[simp] theorem removedBy_append (w : Nat) :
    removedBy w (events ++ more) = removedBy w events ++ removedBy w more :=
  List.filterMap_append

@[simp] theorem releasedTickets_append :
    releasedTickets (events ++ more) = releasedTickets events ++ releasedTickets more :=
  List.filterMap_append

@[simp] theorem about_append (serial : Nat) :
    about serial (events ++ more) = about serial events ++ about serial more :=
  List.filter_append ..

end Append

theorem heard_cases (goal : Goal) (c more : Nat) :
    goal.heard (κ := κ) c more = [] ∨ goal.heard (κ := κ) c more = [.ended c .returned] := by
  cases more with
  | zero => cases goal <;> first | exact .inl rfl | exact .inr rfl
  | succ more => exact .inl rfl

theorem not_heard {goal : Goal} {c more : Nat} {event : Event κ}
    (other : event ≠ .ended c .returned) : event ∉ goal.heard c more := by
  rcases heard_cases (κ := κ) goal c more with same | same <;> simp [same, other]

/-- Where an event of a longer history stands: in what was there, or in what was added. -/
theorem split_append {events more before after : List (Event κ)} {event : Event κ}
    (split : events ++ more = before ++ event :: after) :
    (∃ rest, events = before ++ event :: rest ∧ after = rest ++ more) ∨
      ∃ first, before = events ++ first ∧ more = first ++ event :: after := by
  rcases List.append_eq_append_iff.mp split with ⟨first, old, new⟩ | ⟨rest, old, new⟩
  · exact .inr ⟨first, old, new⟩
  · cases rest with
    | nil =>
      rw [List.append_nil] at old
      exact .inr ⟨[], by rw [old, List.append_nil], new.symm⟩
    | cons head rest =>
      rw [List.cons_append] at new
      cases new
      exact .inl ⟨rest, old, rfl⟩

theorem Run.cut_step {p₀ p : Pool κ} {events before after : List (Event κ)} {event : Event κ}
    (run : Run p₀ events p) (split : events = before ++ event :: after) :
    ∃ earlier mid first rest move next later, Run p₀ earlier mid ∧
      mid.step? move = some (next, first ++ event :: rest) ∧ Run next later p ∧
        before = earlier ++ first ∧ after = rest ++ later := by
  induction run generalizing after with
  | start =>
    have length := congrArg List.length split
    simp at length
  | @next events mid last move more run made ih =>
    rcases split_append split with ⟨rest, old, rfl⟩ | ⟨first, rfl, rfl⟩
    · obtain ⟨earlier, mid, first, tail, step, next, later, begins, turn, goes, same, rfl⟩ := ih old
      exact ⟨earlier, mid, first, tail, step, next, later ++ more, begins, turn, goes.next made,
        same, List.append_assoc ..⟩
    · exact ⟨events, mid, first, after, move, last, [], run, made, .start, rfl,
        (List.append_nil after).symm⟩

theorem Run.cut {p₀ p : Pool κ} {events before after : List (Event κ)} {event : Event κ}
    (run : Run p₀ events p) (split : events = before ++ event :: after) :
    ∃ earlier mid first rest next later, Run p₀ earlier mid ∧
      mid.Turn (first ++ event :: rest) next ∧ Run next later p ∧ before = earlier ++ first ∧
        after = rest ++ later := by
  obtain ⟨earlier, mid, first, rest, move, next, later, begins, made, goes, same, tail⟩ :=
    run.cut_step split
  exact ⟨earlier, mid, first, rest, next, later, begins, turn_of_step? made, goes, same, tail⟩

/-- Makes the moves one after the other. -/
def follow (p : Pool κ) : List (Move κ) → Option (Change κ)
  | [] => some (p, [])
  | move :: moves =>
    match p.step? move with
    | none => none
    | some (q, events) => (q.follow moves).map fun (r, more) => (r, events ++ more)

theorem Run.of_follow {p₀ p q : Pool κ} {events more : List (Event κ)} {moves : List (Move κ)}
    (run : Run p₀ events p) (follows : p.follow moves = some (q, more)) :
    Run p₀ (events ++ more) q := by
  induction moves generalizing p events more with
  | nil =>
    cases follows
    rwa [List.append_nil]
  | cons move moves ih =>
    unfold follow at follows
    split at follows
    · cases follows
    · next mid heard made =>
      obtain ⟨⟨last, rest⟩, goes, same⟩ := Option.map_eq_some_iff.mp follows
      cases same
      rw [← List.append_assoc]
      exact ih (run.next made) goes

end Pool

end Spool
