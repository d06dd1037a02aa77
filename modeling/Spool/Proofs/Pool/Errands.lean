import Spool.Proofs.Pool.Submissions

/-!
What a call is made for. A call keeps its errand from its first phase to its last, and one that is
to submit a job counts it before it ends, as long as jobs are accepted. Both are stated for a pool
that is called by one thread only.
-/

namespace Spool

variable {κ : Type}

inductive Errand
  | build
  | submit
  | close
  | drop
  | wait
  | register
  | clear
  | switch
  deriving DecidableEq, Repr

def Goal.errand : Goal → Errand
  | .submit => .submit
  | .close => .close
  | .drop => .drop
  | .abandon _ => .build

def Call.errand : Call κ → Errand
  | .submit _ => .submit
  | .endTransaction => .close
  | .waitForUpload => .wait
  | .setCallback _ => .register
  | .unsetCallback => .clear
  | .setMoveMode _ => .switch
  | .drop => .drop

def CallPhase.errand : CallPhase κ → Errand
  | .starting _ => .build
  | .opening _ | .making _ => .submit
  | .counting _ _ goal | .putting _ goal | .closing goal | .joining _ goal => goal.errand
  | .locking | .checking | .dozing | .asleep => .wait
  | .registering _ => .register
  | .clearing => .clear
  | .switching _ => .switch

theorem Call.errand_phase (call : Call κ) : call.phase.errand = call.errand := by
  cases call <;> rfl

theorem Goal.errand_of_next {goal : Goal} {more : Nat} {phase : CallPhase κ}
    (next : goal.next more = some phase) : phase.errand = goal.errand := by
  cases more with
  | zero =>
    cases goal with
    | submit | close => cases next
    | drop | abandon error => cases next; rfl
  | succ more => cases next; rfl

/-- What was submitted, if it is a job with work in it. -/
def Job.submission? : Job → Option Submission
  | .transfer job => some (.transfer job.source job.remote)
  | .transform job => some (.transform job.source job.dir job.suffix)
  | .termination => none

theorem Submission.submission?_job (submission : Submission) (move : Bool) :
    (submission.job move).submission? = some submission := by
  cases submission <;> rfl

theorem Job.eq_of_submission? {job : Job} {submission : Submission} (fresh : job.IsFresh)
    (known : job.submission? = some submission) : ∃ move, job = submission.job move := by
  cases job with
  | transfer job =>
    obtain ⟨source, remote, move, verdict⟩ := job
    cases known
    cases fresh
    exact ⟨move, rfl⟩
  | transform job =>
    obtain ⟨source, dir, suffix, move, verdict, hash⟩ := job
    cases known
    obtain ⟨none, empty⟩ := fresh
    cases none
    cases empty
    exact ⟨move, rfl⟩
  | termination => cases known

theorem Job.isTermination_of_submission? {job : Job} {submission : Submission}
    (known : job.submission? = some submission) : job.isTermination = false := by
  cases job <;> first | rfl | cases known

/-- The submission whose job the call is yet to count. -/
def CallPhase.submission? : CallPhase κ → Option Submission
  | .opening submission | .making submission => some submission
  | .counting job _ _ => job.submission?
  | _ => none

theorem CallPhase.errand_of_submission? {phase : CallPhase κ} {submission : Submission}
    (proper : phase.Proper) (due : phase.submission? = some submission) :
    phase.errand = .submit := by
  cases phase with
  | opening | making => rfl
  | counting job more goal =>
    have work := proper.2.1
    rw [Job.isTermination_of_submission? due] at work
    cases goal with
    | submit => rfl
    | close | drop | abandon error => cases work
  | _ => cases due

namespace Pool

variable {p q : Pool κ} {events more : List (Event κ)} {thread : Thread} {c : Nat}

/-- The jobs that were counted, terminations left out, as they were submitted. -/
def submissions (events : List (Event κ)) : List Submission :=
  (countedTickets events).filterMap (·.job.submission?)

theorem submissions_append :
    submissions (events ++ more) = submissions events ++ submissions more := by
  simp only [submissions, countedTickets_append, List.filterMap_append]

/-- What the thread's call is yet to count. -/
def due? (p : Pool κ) (c : Nat) : Option Submission :=
  (p.call? c).bind CallPhase.submission?

/-- Nobody else calls the pool. -/
def Sole (p : Pool κ) (c : Nat) : Prop :=
  ∀ d phase, p.call? d = some phase → d = c

theorem errand_caller {phase later : CallPhase κ} (turn : CallerTurn p c phase (some later) q more) :
    later.errand = phase.errand := by
  generalize known : some later = next at turn
  cases turn with
  | abandoned => exact Goal.errand_of_next known.symm
  | put | closed => exact Goal.errand_of_next known.symm
  | _ => cases known <;> rfl

theorem errand_woken (phase : CallPhase κ) : (CallPhase.woken phase).errand = phase.errand := by
  cases phase <;> rfl

theorem submission?_woken (phase : CallPhase κ) :
    (CallPhase.woken phase).submission? = phase.submission? := by
  cases phase <;> rfl

theorem submission?_of_next {goal : Goal} {left : Nat} :
    (goal.next (κ := κ) left).bind CallPhase.submission? = none := by
  cases left with
  | zero => cases goal <;> rfl
  | succ left => rfl

/-- A thread that is inside makes nobody else call. -/
theorem Inner.sole (inner : p.Inner thread more q) (sole : p.Sole c) : q.Sole c := by
  intro d phase there
  cases inner with
  | caller found made =>
    rw [call?_caller found made] at there
    split at there
    · next same => exact same ▸ sole _ _ found
    · exact sole d phase there
  | worker _ made =>
    rcases call?_worker made d with same | woken
    · exact sole d phase (same ▸ there)
    · rw [woken] at there
      obtain ⟨old, known, _⟩ := Option.map_eq_some_iff.mp there
      exact sole d old known
  | dozed => exact sole d phase there

theorem Inner.errand (inner : p.Inner thread more q) (sole : p.Sole c) {later : CallPhase κ}
    (there : q.call? c = some later) :
    ∃ phase, p.call? c = some phase ∧ later.errand = phase.errand := by
  cases inner with
  | @caller d phase next r _ found made =>
    cases sole d _ found
    rw [call?_caller found made, if_pos rfl] at there
    rw [there] at made
    exact ⟨phase, found, errand_caller made⟩
  | worker _ made =>
    rcases call?_worker made c with same | woken
    · exact ⟨later, same ▸ there, rfl⟩
    · rw [woken] at there
      obtain ⟨old, known, rfl⟩ := Option.map_eq_some_iff.mp there
      exact ⟨old, known, errand_woken old⟩
  | dozed => exact ⟨later, there, rfl⟩

/-- A submission that is due stays due until its job is counted. -/
theorem Inner.due (inner : p.Inner thread more q) (sole : p.Sole c)
    (accepts : p.due? c = none ∨ p.lifecycle.acceptsJobs = true) :
    submissions more ++ (q.due? c).toList = (p.due? c).toList := by
  cases inner with
  | @caller d phase next r _ found made =>
    cases sole d _ found
    rw [due?, call?_caller found made, if_pos rfl, due?, found]
    rw [due?, found] at accepts
    cases made with
    | refused shut =>
      rw [shut] at accepts
      rcases accepts with impossible | impossible <;> cases impossible
    | abandoned | put | closed =>
      rw [submission?_of_next]
      simp [submissions, CallPhase.submission?, Event.counted?]
    | made =>
      simp [submissions, CallPhase.submission?, Submission.submission?_job]
    | @counted job =>
      cases known : job.submission? <;>
        simp [submissions, CallPhase.submission?, Event.counted?, known]
    | _ => rfl
  | @worker w worker _ _ _ _ made =>
    have silent : submissions more = [] := by
      generalize worker.phase = phase at made
      cases made <;> rfl
    rw [silent, List.nil_append, due?, due?]
    rcases call?_worker made c with same | woken
    · rw [same]
    · rw [woken]
      cases p.call? c with
      | none => rfl
      | some phase => exact congrArg Option.toList (submission?_woken phase)
  | dozed => rfl

theorem Inner.pending_le (inner : p.Inner thread more q) (idle : ∀ d, p.call? d = none) :
    q.pending ≤ p.pending := by
  cases inner with
  | @caller d _ _ _ _ found => rw [idle d] at found; cases found
  | @worker w worker _ _ _ _ made =>
    generalize worker.phase = phase at made
    cases made <;> first | exact Nat.le_refl _ | exact Nat.sub_le _ _
  | dozed => exact Nat.le_refl _

theorem Inner.idle_of_waited (inner : p.Inner thread more q) (sole : p.Sole c) {phase : CallPhase κ}
    (there : p.call? c = some phase) (waits : phase.errand = .wait) (gone : q.call? c = none) :
    q.pending = 0 := by
  cases inner with
  | @caller d other next r _ found made =>
    cases sole d _ found
    rw [there] at found
    cases found
    rw [call?_caller there made, if_pos rfl] at gone
    cases gone
    cases phase with
    | locking | dozing | asleep => cases made
    | checking =>
      cases made with
      | drained none => exact none
    | counting _ _ goal | putting _ goal | closing goal | joining _ goal => cases goal <;> cases waits
    | _ => cases waits
  | worker _ made =>
    rcases call?_worker made c with same | woken
    · rw [same, there] at gone
      cases gone
    · rw [woken, there] at gone
      cases gone
  | dozed => cases there.symm.trans gone

theorem frame_of_called {call : Call κ} (turn : p.Turn [.called c call] q) :
    q.workers = p.workers ∧ q.lifecycle = p.lifecycle ∧ p.call? c = none ∧
      ∀ d phase, q.call? d = some phase → d = c ∨ p.call? d = some phase := by
  generalize heard : [Event.called c call] = more at turn
  cases turn with
  | called _ _ free =>
    cases heard
    refine ⟨rfl, rfl, free, fun d phase there => ?_⟩
    rw [call?_called p _ free] at there
    split at there
    · next same => exact .inl same
    · exact .inr there
  | dropped _ _ empty =>
    cases heard
    refine ⟨rfl, rfl, by simp [call?, empty], fun d phase there => .inl ?_⟩
    cases List.mem_singleton.mp (mem_of_call? there)
    rfl
  | caller _ made => cases made <;> cases heard
  | @worker _ worker _ _ _ _ made =>
    generalize worker.phase = phase at made
    cases made <;> cases heard
  | dozed => cases heard

theorem Inner.not_called (inner : p.Inner thread more q) (d : Nat) (call : Call κ) :
    .called d call ∉ more := by
  cases inner with
  | caller _ made => cases made <;> simp [not_heard]
  | @worker _ worker _ _ _ _ made =>
    generalize worker.phase = phase at made
    cases made <;> simp
  | dozed => exact List.not_mem_nil

end Pool

end Spool
