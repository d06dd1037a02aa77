import Spool.Proofs.Disk.Arrivals
import Spool.Push.Directory

/-!
Transfers, call by call. A file lies at its origin until its own transfer moves it, and once the
transfer has succeeded it lies where it was to go. The calls of other transfers change neither.
-/

namespace Spool

/-- A file that is to be transferred: the path it is found under, the path it is stored under, where
it lies, what it holds, and the names that lead from the base to where it is to go. -/
structure Freight where
  source : String
  remote : String
  origin : Loc
  bytes : ByteArray
  outer : List String
  name : String

namespace Freight

open Directory

variable {σ : Type} {base : String} {top : Loc} {d e : Disk} {f : Freight} {move : Bool} {left : Push}
  {touched : Loc → Prop}

def job (f : Freight) (move : Bool) : Transfer where
  source := f.source
  remote := f.remote
  move

def goal (top : Loc) (f : Freight) : Loc := Disk.under top (f.outer ++ [f.name])

def Own (top : Loc) (f : Freight) (loc : Loc) : Prop := loc = f.goal top ∨ loc = f.origin

/-- The names are those of the remote path, and the file comes from outside the base. -/
structure Fits (base : String) (top : Loc) (f : Freight) : Prop where
  leads : Route.Leads (Route.ofText base.toList) (destination base f.remote).toList f.outer
    f.name
  away : ∀ names, f.origin ≠ Disk.under top names

structure Waits (f : Freight) (d : Disk) : Prop where
  source : d.Source f.source f.origin f.origin
  there : ∃ executable, d.at? f.origin = some (.file f.bytes executable)

def Stored (base : String) (top : Loc) (f : Freight) (d : Disk) : Prop :=
  ∃ executable, d.locate .existing (destination base f.remote) =
    .ok (f.goal top, some (.file f.bytes executable))

theorem Waits.spared (waits : f.Waits d) (spares : d.Spares e touched)
    (off : ¬ touched f.origin) : f.Waits e := by
  obtain ⟨executable, there⟩ := waits.there
  have after := spares.files _ off _ _ there
  exact ⟨waits.source.keep (spares.steady.keeps fun _ => False) (fun _ => False.elim)
    (after.trans there.symm), executable, after⟩

theorem Stored.spared (stored : f.Stored base top d) (spares : d.Spares e touched)
    (off : ¬ touched (f.goal top)) : f.Stored base top e := by
  obtain ⟨executable, found⟩ := stored
  have there := (Disk.found_of_locate found).resolve_left fun impossible => by cases impossible
  refine ⟨executable, Disk.Source.locate_of_keeps (spares.steady.keeps fun _ => False)
    (fun _ => False.elim) found ?_⟩
  rw [spares.files _ off _ _ there.symm, there]

theorem Stored.read (stored : f.Stored base top d) :
    d.read (destination base f.remote) = .ok f.bytes := by
  obtain ⟨executable, found⟩ := stored
  simp only [Disk.read, found]

theorem Waits.read (waits : f.Waits d) : d.read f.source = .ok f.bytes := by
  obtain ⟨executable, there⟩ := waits.there
  exact waits.source.read_eq there

/-- What is left once the directory around the goal is there. -/
def bringing (source dest : String) (move : Bool) : Push :=
  if move then moveFile source dest else copyFile source dest

/-- What is left when the file could not be renamed across file systems. -/
def crossing (source dest : String) : Push :=
  .act (.copy source dest) fun
    | .ok () => Push.finish true source ""
    | .error cause => Push.failIo dest cause

/-- What is left of a transfer, with where the file lies by then. -/
inductive Standing (base : String) (top : Loc) (f : Freight) (move : Bool) (d : Disk) : Push → Prop
  | begun : f.Waits d → Standing base top f move d (transfer base (f.job move))
  | bringing : f.Waits d →
      Standing base top f move d (bringing f.source (destination base f.remote) move)
  | crossing : f.Waits d →
      Standing base top f move d (crossing f.source (destination base f.remote))
  | clearing : f.Waits d → f.Stored base top d →
      Standing base top f move d (Push.finish true f.source "")
  | stored {hash : String} : f.Stored base top d → Standing base top f move d (.done (.ok hash))
  | failed {error : PushError} : Standing base top f move d (.done (.error error))

/-- The calls of others change nothing about a transfer. -/
theorem Standing.spared (standing : f.Standing base top move d left) (spares : d.Spares e touched)
    (origin : ¬ touched f.origin) (goal : ¬ touched (f.goal top)) : f.Standing base top move e left := by
  cases standing with
  | begun waits => exact .begun (waits.spared spares origin)
  | bringing waits => exact .bringing (waits.spared spares origin)
  | crossing waits => exact .crossing (waits.spared spares origin)
  | clearing waits stored =>
    exact .clearing (waits.spared spares origin) (stored.spared spares goal)
  | stored stored => exact .stored (stored.spared spares goal)
  | failed => exact .failed

theorem origin_ne_goal (fits : f.Fits base top) : f.origin ≠ f.goal top := fits.away _

section Step

variable (store : KeyStore σ) {w : World σ}

/-- After its next call a transfer stands where it should, and it touched nothing but its own. -/
def Goes (store : KeyStore σ) (base : String) (top : Loc) (f : Freight) (move : Bool) (w : World σ)
    (left : Push) : Prop :=
  f.Standing base top move (left.step store w).1.disk (left.step store w).2 ∧
    w.disk.Spares (left.step store w).1.disk (f.Own top)

theorem goes_done {result : Except PushError String}
    (standing : f.Standing base top move w.disk (.done result)) :
    f.Goes store base top move w (.done result) := ⟨standing, .refl _ _⟩

theorem step_copy (fits : f.Fits base top) (based : w.disk.Based (Route.ofText base.toList) top)
    (waits : f.Waits w.disk) {next : Disk.Reply Unit → Push}
    (fine : ∀ e, f.Waits e → f.Stored base top e → f.Standing base top move e (next (.ok ())))
    (fails : ∀ cause, f.Standing base top move w.disk (next (.error cause))) :
    f.Goes store base top move w
      (.act (.copy f.source (destination base f.remote)) next) := by
  obtain ⟨executable, there⟩ := waits.there
  simp only [Goes, Program.step, Disk.act]
  cases copied : w.disk.copy f.source (destination base f.remote) with
  | mk e reply =>
    cases reply with
    | error cause =>
      rw [Disk.copy_failed copied]
      exact ⟨fails cause, .refl _ _⟩
    | ok =>
      obtain ⟨arrives, spares⟩ :=
        based.copy_arrives fits.leads waits.source there (origin_ne_goal fits) copied
      exact ⟨fine e (waits.spared spares (origin_ne_goal fits)) arrives.found, arrives.spares⟩

theorem step_bringing (fits : f.Fits base top) (formed : w.disk.Formed)
    (based : w.disk.Based (Route.ofText base.toList) top) (waits : f.Waits w.disk) :
    f.Goes store base top move w
      (bringing f.source (destination base f.remote) move) := by
  unfold Freight.bringing
  split
  · obtain ⟨executable, there⟩ := waits.there
    simp only [Goes, moveFile, Program.step, Disk.act]
    cases renamed : w.disk.rename f.source (destination base f.remote) with
    | mk e reply =>
      cases reply with
      | error cause =>
        rw [Disk.rename_failed renamed]
        dsimp only
        split
        · exact ⟨.crossing waits, .refl _ _⟩
        · exact ⟨.failed, .refl _ _⟩
      | ok =>
        have arrives := based.rename_arrives formed fits.leads waits.source there
          (origin_ne_goal fits) renamed
        exact ⟨.stored arrives.found, arrives.spares⟩
  · exact step_copy store fits based waits (fun _ _ stored => .stored stored)
      fun _ => .failed

theorem step_begun (fits : f.Fits base top) (formed : w.disk.Formed)
    (based : w.disk.Based (Route.ofText base.toList) top) (waits : f.Waits w.disk) :
    f.Goes store base top move w (transfer base (f.job move)) := by
  unfold transfer withParent
  dsimp only
  split
  · exact step_bringing store fits formed based waits
  · next parent _ =>
    have spares := Disk.makeDirs_spares formed parent (f.Own top)
    have nothing := Disk.makeDirs_spares formed parent fun _ => False
    simp only [Goes, Program.step, Disk.act]
    generalize w.disk.makeDirs parent = made at spares nothing
    obtain ⟨e, reply⟩ := made
    cases reply with
    | error cause => exact ⟨.failed, spares⟩
    | ok => exact ⟨.bringing (waits.spared nothing not_false), spares⟩

theorem step_clearing (fits : f.Fits base top) (waits : f.Waits w.disk) (stored : f.Stored base top w.disk) :
    f.Goes store base top move w (Push.finish true f.source "") := by
  obtain ⟨executable, there⟩ := waits.there
  obtain ⟨n, dir, _, split⟩ := waits.source.place
  have spares : w.disk.Spares (w.disk.remove f.origin) (· = f.origin) := by
    refine .of_swaps ?_ fun loc off => Disk.at?_remove_of_ne _ off
    rw [split] at there ⊢
    exact Disk.swaps_remove (there ▸ Disk.isLeaf_file _ _)
  simp only [Goes, Push.finish, if_true, Program.step, Disk.act, waits.source.unlink_eq]
  exact ⟨.stored (stored.spared spares (origin_ne_goal fits).symm), spares.mono fun _ => .inr⟩

theorem Standing.step (fits : f.Fits base top) (formed : w.disk.Formed)
    (based : w.disk.Based (Route.ofText base.toList) top)
    (standing : f.Standing base top move w.disk left) : f.Goes store base top move w left := by
  cases standing with
  | begun waits => exact step_begun store fits formed based waits
  | bringing waits => exact step_bringing store fits formed based waits
  | crossing waits =>
    exact step_copy store fits based waits (fun _ waits stored => .clearing waits stored)
      fun _ => .failed
  | clearing waits stored => exact step_clearing store fits waits stored
  | stored stored => exact goes_done store (.stored stored)
  | failed => exact goes_done store .failed

end Step

theorem transfer_ne_done (base : String) (job : Transfer) (result : Except PushError String) :
    transfer base job ≠ .done result := by
  unfold transfer withParent moveFile copyFile
  dsimp only
  split
  · split <;> exact fun impossible => by cases impossible
  · exact fun impossible => by cases impossible

theorem bringing_ne_done (source dest : String) (move : Bool) (result : Except PushError String) :
    bringing source dest move ≠ .done result := by
  unfold bringing moveFile copyFile
  split <;> exact fun impossible => by cases impossible

theorem Standing.of_done {hash : String} (standing : f.Standing base top move d (.done (.ok hash))) :
    f.Stored base top d := by
  generalize ended : (.done (.ok hash) : Push) = left at standing
  cases standing with
  | begun => exact absurd ended.symm (transfer_ne_done _ _ _)
  | bringing => exact absurd ended.symm (bringing_ne_done _ _ _ _)
  | crossing | clearing => cases ended
  | stored stored => exact stored
  | failed => cases ended

end Freight

end Spool
