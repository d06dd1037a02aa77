import Spool.Proofs.Pool.Invariant

/-!
Which callback a worker finds. It is the one in place when the worker looks, and no other is called.
A callback is taken out only when none of its calls is running.
-/

namespace Spool

variable {κ : Type}

namespace Pool

variable {p q : Pool κ} {events more : List (Event κ)}

theorem callbackAfter_heard (now : Option κ) (goal : Goal) (c left : Nat) :
    (goal.heard (κ := κ) c left).foldl callbackAfter now = now := by
  rcases heard_cases (κ := κ) goal c left with same | same <;> rw [same] <;> rfl

theorem callback_turn (turn : p.Turn more q) :
    more.foldl callbackAfter p.callback = q.callback := by
  cases turn with
  | called | dropped | dozed => rfl
  | caller _ made =>
    rw [goOn_callback]
    cases made with
    | abandoned | put | closed => exact callbackAfter_heard _ _ _ _
    | _ => rfl
  | @worker _ worker _ _ _ _ made =>
    rw [setWorker_callback]
    generalize worker.phase = phase at made
    cases made <;> rfl

theorem Run.registration_eq {size : PoolSize} (run : Run (.new size) events p) :
    registration events = p.callback := by
  refine run.induct_sound (motive := fun events p => registration events = p.callback) rfl ?_
  intro events p q more _ before turn
  rw [registration, List.foldl_append, show events.foldl callbackAfter none = _ from before,
    callback_turn turn]

/-- What a worker finds, and calls, is the callback in place. -/
theorem looked_of_turn (turn : p.Turn more q) {first rest : List (Event κ)} {w : Nat}
    {ticket : Ticket} {found : Option κ} (split : more = first ++ .looked w ticket found :: rest) :
    first = [] ∧ found = p.callback := by
  have member : Event.looked w ticket found ∈ more :=
    split ▸ List.mem_append_right _ List.mem_cons_self
  cases turn with
  | called | dropped => cases List.mem_singleton.mp member
  | dozed => cases member
  | @caller c _ _ _ _ _ made =>
    cases made <;> simp [not_heard] at member
  | @worker _ worker _ _ _ _ made =>
    generalize worker.phase = phase at made
    cases made with
    | notified _ told =>
      cases first with
      | nil => cases split; exact ⟨rfl, rfl⟩
      | cons head first =>
        cases first with
        | nil => cases split
        | cons second first => simp at split
    | unheard =>
      cases first with
      | nil => cases split; exact ⟨rfl, rfl⟩
      | cons head first => simp at split
    | _ => simp at member

theorem Run.found_eq {size : PoolSize} (run : Run (.new size) events p)
    {before after : List (Event κ)} {w : Nat} {ticket : Ticket} {found : Option κ}
    (split : events = before ++ .looked w ticket found :: after) :
    found = registration before := by
  obtain ⟨earlier, mid, first, rest, next, later, begins, turn, _, rfl, _⟩ := run.cut split
  obtain ⟨rfl, same⟩ := looked_of_turn turn rfl
  rw [List.append_nil, begins.registration_eq, same]

theorem notified_of_turn (turn : p.Turn more q) {first rest : List (Event κ)} {w : Nat}
    {ticket : Ticket} {callback : κ} {notice : Notice}
    (split : more = first ++ .notified w ticket callback notice :: rest) :
    first = [.looked w ticket p.callback] ∧ p.callback = some callback := by
  have member : Event.notified w ticket callback notice ∈ more :=
    split ▸ List.mem_append_right _ List.mem_cons_self
  cases turn with
  | called | dropped => cases List.mem_singleton.mp member
  | dozed => cases member
  | @caller c _ _ _ _ _ made =>
    cases made <;> simp [not_heard] at member
  | @worker _ worker _ _ _ _ made =>
    generalize worker.phase = phase at made
    cases made with
    | notified found =>
      cases first with
      | nil => cases split
      | cons head first =>
        cases first with
        | nil => cases split; exact ⟨rfl, found⟩
        | cons second first => simp at split
    | _ => simp at member

theorem Run.notified_eq {size : PoolSize} (run : Run (.new size) events p)
    {before after : List (Event κ)} {w : Nat} {ticket : Ticket} {callback : κ} {notice : Notice}
    (split : events = before ++ .notified w ticket callback notice :: after) :
    registration before = some callback := by
  obtain ⟨earlier, mid, first, rest, next, later, begins, turn, _, rfl, _⟩ := run.cut split
  obtain ⟨rfl, found⟩ := notified_of_turn turn rfl
  rw [registration, List.foldl_append]
  exact begins.registration_eq.trans found

theorem registered_of_foldl {callback : κ} {now : Option κ}
    (there : events.foldl callbackAfter now = some callback) :
    now = some callback ∨ ∃ c, .registered c callback ∈ events := by
  induction events generalizing now with
  | nil => exact .inl there
  | cons event events ih =>
    rcases ih there with kept | ⟨c, member⟩
    · cases event with
      | registered c other =>
        cases kept
        exact .inr ⟨c, List.mem_cons_self⟩
      | cleared => cases kept
      | _ => exact .inl kept
    · exact .inr ⟨c, List.mem_cons_of_mem _ member⟩

end Pool

end Spool
