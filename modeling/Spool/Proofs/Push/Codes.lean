import Spool.Proofs.Disk.Codes
import Spool.Push.Store

/-!
What pushes end in, whatever happens to the disk and the store between their calls. A push that
fails reports a code that says so.
-/

namespace Spool

variable {ρ σ : Type} {store : KeyStore σ}

/-- Whatever the disk and the store are like at each call, the program's result is of this kind. -/
def Program.Ends (store : KeyStore σ) (good : ρ → Prop) : Program ρ → Prop
  | .done r => good r
  | .read path next => ∀ d : Disk, (next (d.read path)).Ends store good
  | .size path next => ∀ d : Disk, (next (d.size? path)).Ends store good
  | .act action next => ∀ d : Disk, (next (d.act action).2).Ends store good
  | .put key value next => ∀ state, (next (store.put state key value).2).Ends store good

theorem Program.Ends.step {good : ρ → Prop} {p : Program ρ} (ends : p.Ends store good)
    (w : World σ) : (p.step store w).2.Ends store good := by
  cases p with
  | done r => exact ends
  | read path next => exact ends w.disk
  | size path next => exact ends w.disk
  | act action next => exact ends w.disk
  | put key value next => exact ends w.keys

theorem Program.Ends.run {good : ρ → Prop} {p : Program ρ} (ends : p.Ends store good)
    (w : World σ) : good (p.run store w).2 := by
  induction p generalizing w with
  | done r => exact ends
  | read path next ih => exact ih _ (ends w.disk) w
  | size path next ih => exact ih _ (ends w.disk) w
  | act action next ih => exact ih _ (ends w.disk) _
  | put key value next ih => exact ih _ (ends w.keys) _

/-- A value that is not taken is refused with a code that is not zero. -/
def KeyStore.Coded (store : KeyStore σ) : Prop :=
  ∀ state key value e, (store.put state key value).2 = .error e → e.code ≠ 0

/-- Statuses are never zero, so a refusal is told from success by its status. -/
theorem Remote.coded_keyStore {network : Network σ} {base : String}
    (statuses : ∀ state message status, (network state message).2 = .ok status → status ≠ 0) :
    (Remote.keyStore network base).Coded := by
  intro state key value e refused
  have code := statuses state ⟨.put, ObjectKey.url base key, value⟩
  unfold Remote.keyStore at refused
  dsimp only at refused
  split at refused
  · cases refused
    exact Int.neg_ne_zero.mpr Int.one_ne_zero
  · next status answered =>
    dsimp only at refused
    split at refused
    · cases refused
    · cases refused
      exact Int.natCast_ne_zero.mpr (code status (congrArg Prod.snd answered))

namespace Push

structure Coded (store : KeyStore σ) (push : Push) : Prop where
  ends : push.Ends store fun result => ∀ e, result = .error e → e.code ≠ 0

theorem coded_ok (hash : String) : Coded store (.done (.ok hash)) := by
  refine ⟨fun e same => ?_⟩
  cases same

theorem coded_failIo {cause : IoError} (coded : cause.Coded) (path : String) :
    Coded store (failIo path cause) := by
  refine ⟨fun e same => ?_⟩
  cases same
  exact PushError.code_io coded path

theorem coded_act {action : Action} {next : Disk.Reply Unit → Push}
    (fine : Coded store (next (.ok ())))
    (failed : ∀ cause : IoError, cause.Coded → Coded store (next (.error cause))) :
    Coded store (.act action next) := by
  refine ⟨fun d => ?_⟩
  cases reply : (d.act action).2 with
  | ok done => exact fine.ends
  | error cause => exact (failed cause (Disk.act_coded reply)).ends

theorem coded_read {path : String} {next : Disk.Reply ByteArray → Push}
    (fine : ∀ content, Coded store (next (.ok content)))
    (failed : ∀ cause : IoError, cause.Coded → Coded store (next (.error cause))) :
    Coded store (.read path next) := by
  refine ⟨fun d => ?_⟩
  cases reply : d.read path with
  | ok content => exact (fine content).ends
  | error cause => exact (failed cause (Disk.read_coded reply)).ends

theorem Coded.step {push : Push} (coded : Coded store push) (w : World σ) :
    Coded store (push.step store w).2 :=
  ⟨coded.ends.step w⟩

theorem Coded.code_ne_zero {result : Except PushError String} (coded : Coded store (.done result))
    {e : PushError} (failed : Outcome.ofResult result = .failed e) : e.code ≠ 0 := by
  cases result with
  | ok hash => cases failed
  | error cause =>
    cases failed
    exact coded.ends e rfl

theorem coded_finish (move : Bool) (source result : String) :
    Coded store (finish move source result) := by
  unfold finish
  split
  · exact coded_act (coded_ok result) fun cause coded => coded_failIo coded source
  · exact coded_ok result

end Push

open Push

namespace Directory

theorem coded_withParent (path : String) {next : Push} (fine : Push.Coded store next) :
    Push.Coded store (withParent path next) := by
  unfold withParent
  split
  · exact fine
  · next parent _ => exact coded_act fine fun cause coded => coded_failIo coded parent

theorem coded_moveFile (source dest : String) : Push.Coded store (moveFile source dest) := by
  refine coded_act (coded_ok "") fun cause coded => ?_
  dsimp only
  split
  · exact coded_act (coded_finish true source "") fun cause coded => coded_failIo coded dest
  · exact coded_failIo coded source

theorem coded_copyFile (source dest : String) : Push.Coded store (copyFile source dest) :=
  coded_act (coded_ok "") fun _ coded => coded_failIo coded source

theorem coded_transfer (base : String) (job : Transfer) : Push.Coded store (transfer base job) := by
  refine coded_withParent _ ?_
  split
  · exact coded_moveFile job.source _
  · exact coded_copyFile job.source _

theorem coded_discard {cause : IoError} (coded : cause.Coded) (beside path : String) :
    Push.Coded store (discard beside path cause) :=
  coded_act (coded_failIo coded path) fun _ _ => coded_failIo coded path

theorem coded_transform (base : String) (job : Transform) :
    Push.Coded store (transform base job) := by
  unfold transform
  refine coded_read (fun content => ?_) fun cause coded => coded_failIo coded job.source
  refine coded_withParent _ ?_
  refine coded_act ?_ fun cause coded => coded_discard coded _ _
  refine coded_act ?_ fun cause coded => coded_discard coded _ _
  exact coded_finish job.move job.source _

end Directory

namespace KeyValue

variable (codes : store.Coded)

include codes

theorem coded_store (key : String) (value : ByteArray) (move : Bool) (source result : String) :
    Push.Coded store (KeyValue.store key value move source result) := by
  refine ⟨fun state => ?_⟩
  cases reply : (store.put state key value).2 with
  | ok done => exact (coded_finish move source result).ends
  | error refusal =>
    intro e same
    cases same
    exact codes state key value refusal reply

theorem coded_transfer (job : Transfer) : Push.Coded store (transfer job) :=
  coded_read (fun content => coded_store codes job.remote content job.move job.source "")
    fun _ coded => coded_failIo coded job.source

theorem coded_transform (job : Transform) : Push.Coded store (transform job) :=
  coded_read (fun _ => coded_store codes _ _ job.move job.source _)
    fun _ coded => coded_failIo coded job.source

end KeyValue

/-- A push of either store fails with a code only that is not zero. -/
theorem Store.coded_push (codes : store.Coded) (s : Store) (job : Job) :
    Push.Coded store (s.push job) := by
  cases job with
  | transfer job =>
    cases s with
    | directory base => exact Directory.coded_transfer base job
    | keyValue => exact KeyValue.coded_transfer codes job
  | transform job =>
    cases s with
    | directory base => exact Directory.coded_transform base job
    | keyValue => exact KeyValue.coded_transform codes job
  | termination => exact coded_ok ""

end Spool
