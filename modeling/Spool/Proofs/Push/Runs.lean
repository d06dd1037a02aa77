import Spool.Proofs.Disk.Codes
import Spool.Proofs.Disk.Prepared
import Spool.Push.Directory

/-!
What the parts of a directory's pushes come to when nothing happens between their calls. Each is told
in terms of the disk alone.
-/

namespace Spool

variable {σ : Type} {w : World σ} {source path : String}

theorem Push.run_finish {own loc : Loc} (keys : KeyStore σ) (move : Bool) (result : String)
    (found : w.disk.Source source own loc) : (finish move source result).run keys w =
      ({ w with disk := if move then w.disk.remove own else w.disk }, .ok result) := by
  unfold finish
  cases move with
  | false => rfl
  | true => simp only [if_true, Program.run, Disk.act, found.unlink_eq]

namespace Directory

theorem run_withParent (keys : KeyStore σ) (w : World σ) (path : String) (next : Push) :
    (withParent path next).run keys w =
      match w.disk.makeAround path with
      | (d, .ok ()) => next.run keys { w with disk := d }
      | (d, .error cause) =>
        ({ w with disk := d }, .error (.io ((Path.parent? path).getD "") cause)) := by
  unfold withParent Disk.makeAround
  cases Path.parent? path with
  | none => rfl
  | some parent =>
    simp only [Program.run, Disk.act, Option.getD_some]
    generalize w.disk.makeDirs parent = made
    obtain ⟨d, reply⟩ := made
    cases reply <;> rfl

def placing (beside dest : String) (data : ByteArray) (next : Push) : Push :=
  .act (.write beside data) fun
    | .error cause => discard beside beside cause
    | .ok () =>
      .act (.rename beside dest) fun
        | .error cause => discard beside dest cause
        | .ok () => next

theorem run_discard (keys : KeyStore σ) (w : World σ) (beside path : String) (cause : IoError) :
    (discard beside path cause).run keys w =
      ({ w with disk := (w.disk.unlink beside).1 }, .error (.io path cause)) := by
  simp only [discard, Program.run, Disk.act, Push.failIo]

def answered (w : World σ) (source : String) (called : Disk × Disk.Reply Unit) :
    World σ × Except PushError String :=
  ({ w with disk := called.1 }, (called.2.map fun _ => "").mapError (.io source))

theorem run_copyFile (keys : KeyStore σ) (w : World σ) (source dest : String) :
    (copyFile source dest).run keys w = answered w source (w.disk.copy source dest) := by
  simp only [copyFile, Program.run, Disk.act, answered]
  cases (w.disk.copy source dest).2 <;> rfl

/-- Within one file system a file is never copied to move it. -/
theorem run_moveFile (keys : KeyStore σ) (w : World σ) (source dest : String) :
    (moveFile source dest).run keys w = answered w source (w.disk.rename source dest) := by
  have within : (w.disk.rename source dest).2 ≠ .error (.system crossDevice) :=
    Disk.rename_ne (by decide) source dest
  simp only [moveFile, Program.run, Disk.act, answered]
  generalize (w.disk.rename source dest).2 = reply at within ⊢
  cases reply with
  | ok => rfl
  | error cause =>
    have other : cause ≠ .system crossDevice := fun same => within (congrArg Except.error same)
    simp only [if_neg other]
    rfl

theorem run_transfer (keys : KeyStore σ) (w : World σ) (base : String) (job : Transfer) :
    (transfer base job).run keys w =
      match w.disk.makeAround (destination base job.remote) with
      | (d, .ok ()) =>
        answered w job.source
          (if job.move then d.rename job.source (destination base job.remote)
            else d.copy job.source (destination base job.remote))
      | (d, .error cause) => ({ w with disk := d },
        .error (.io ((Path.parent? (destination base job.remote)).getD "") cause)) := by
  simp only [transfer, run_withParent]
  generalize w.disk.makeAround (destination base job.remote) = made
  obtain ⟨d, reply⟩ := made
  cases reply with
  | error cause => rfl
  | ok =>
    dsimp only
    cases job.move with
    | false => exact run_copyFile keys _ _ _
    | true => exact run_moveFile keys _ _ _

end Directory

end Spool
