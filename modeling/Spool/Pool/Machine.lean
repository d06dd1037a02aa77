import Spool.Pool.Calling
import Spool.Pool.Working

/-!
The pool as a machine. A move is one step of one thread; whatever is not the pool's to decide (who
calls, how a store or a callback ends, who is woken) is part of the move. Every interleaving of the
threads is a run.
-/

namespace Spool.Pool

variable {κ : Type}

inductive Move (κ : Type)
  | begin (caller : Nat) (call : Call κ)
  | start (caller : Nat) (reply : Except WorkerError Unit)
  | caller (caller : Nat) (woken : Option Thread)
  | worker (worker : Nat)
  | pushed (worker : Nat) (outcome : Outcome)
  | notified (worker : Nat) (answer : Answer)
  | rouse (thread : Thread)

def step? (p : Pool κ) : Move κ → Option (Change κ)
  | .begin c call => p.begin? c call
  | .start c reply => p.startReply? c reply
  | .caller c woken => p.callerStep? c woken
  | .worker w => p.workerStep? w
  | .pushed w outcome => p.pushed? w outcome
  | .notified w answer => p.notified? w answer
  | .rouse thread => p.rouse? thread

/-- What can happen from `p` on, with all that happened in order. -/
inductive Run (p : Pool κ) : List (Event κ) → Pool κ → Prop
  | start : Run p [] p
  | next {events : List (Event κ)} {q r : Pool κ} {move : Move κ} {more : List (Event κ)} :
      Run p events q → q.step? move = some (r, more) → Run p (events ++ more) r

end Spool.Pool
