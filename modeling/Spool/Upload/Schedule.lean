import Spool.Upload.Machine

/-!
One schedule of an upload: the main thread goes on as long as it can, then the workers, which take
turns. A turn ends after so many steps, wherever its worker is. The upload becomes a single program,
to be carried out on a disk or on a machine.
-/

namespace Spool.Upload

/-- The getter that a put of the main thread would wake. -/
def firstWoken (u : Upload) : Option Thread :=
  match u.pool.call? mainThread with
  | some (.putting ..) => if u.pool.queue.isFull then none else u.pool.queue.firstAsleep
  | _ => none

def turnLength : Nat := 1000

/-- Moves in the order in which they are tried when so many steps are left. -/
def moves (u : Upload) (left : Nat) : List Move :=
  let count := u.pool.workers.length
  .main u.firstWoken ::
    (List.range count).map fun w => .worker ((left / turnLength + w) % count)

def nextStep? (u : Upload) (left : Nat) : Option (Program Upload) :=
  (u.moves left).findSome? u.step?

/-- More steps than any upload takes. -/
def patience : Nat := 1000000000000

def runFor : (fuel : Nat) → Upload → Program Upload
  | 0, u => .done u
  | fuel + 1, u =>
    match u.nextStep? fuel with
    | none => .done u
    | some (.done u) => runFor fuel u
    | some step => step.bind (runFor fuel)

def program (plan : Plan) (listed : List Listed) : Program Upload :=
  runFor patience (begin plan listed)

theorem exists_move_of_nextStep {u : Upload} {left : Nat} {step : Program Upload}
    (h : u.nextStep? left = some step) : ∃ move, u.step? move = some step := by
  obtain ⟨move, _, moved⟩ := List.exists_of_findSome?_eq_some h
  exact ⟨move, moved⟩

theorem run_runFor {σ : Type} (store : KeyStore σ) (start : World σ × Upload) (fuel : Nat)
    {w : World σ} {u : Upload} (reached : Run store start (w, u)) :
    Run store start ((runFor fuel u).run store w) := by
  induction fuel generalizing w u with
  | zero => exact reached
  | succ fuel ih =>
    simp only [runFor]
    split
    · exact reached
    · next u' found =>
      obtain ⟨move, moved⟩ := exists_move_of_nextStep found
      exact ih (reached.next moved)
    · next step _ found =>
      obtain ⟨move, moved⟩ := exists_move_of_nextStep found
      rw [Program.run_bind]
      exact ih (reached.next moved)

end Spool.Upload
