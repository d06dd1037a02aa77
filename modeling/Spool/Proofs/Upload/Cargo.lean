import Spool.Proofs.Pool.Pushes
import Spool.Proofs.Push.Freight
import Spool.Upload.Machine

/-!
The files of an upload as freight: where each lies, what it holds, and where in the store's directory
it is to go.
-/

namespace Spool

open Directory Route

namespace Plan

def base (plan : Plan) : String := plan.definition.description

def dest (plan : Plan) (file : String) : String :=
  destination plan.base (plan.remotePath file)

def freight (plan : Plan) (d : Disk) (file : String) : Freight where
  source := file
  remote := plan.remotePath file
  origin :=
    match d.locate .existing file with
    | .ok (loc, _) => loc
    | .error _ => []
  bytes :=
    match d.read file with
    | .ok bytes => bytes
    | .error _ => .empty
  outer := names (ofText plan.remoteDir.toList).steps
  name := (Path.fileName? file).getD ""

/-- Different files that can be read, outside of the directory that they are copied or moved into. -/
structure Sends (plan : Plan) (d : Disk) (files : List String) : Prop where
  driver : plan.definition.driver = .directory
  copies : plan.process = false
  plain : ['.', '.'] ∉ plan.remoteDir.toList.splitOn '/'
  formed : d.Formed
  found : ∀ file ∈ files, ∃ loc, d.Source file loc loc
  named : ∀ file ∈ files, Path.fileName? file ≠ none
  distinct : files.Pairwise fun f g => ∀ loc, d.Source f loc loc → ¬ d.Source g loc loc
  outside : ∀ top, (d.makeDirs plan.base).1.LeadsTo plan.base top →
    ∀ file ∈ files, ∀ names, ¬ d.Source file (Disk.under top names) (Disk.under top names)

/-- None of the files gets in the way of another one: they go to different places, and no links are in
the directory. -/
structure Ships (plan : Plan) (d : Disk) (files : List String) : Prop extends Sends plan d files where
  remotes : (files.map plan.remotePath).Nodup
  linkless : ∀ top, (d.makeDirs plan.base).1.LeadsTo plan.base top → d.Linkless top

variable {plan : Plan} {d : Disk} {file other : String} {files : List String} {loc top : Loc}

theorem origin_freight (source : d.Source file loc loc) : (plan.freight d file).origin = loc := by
  obtain ⟨bytes, executable, found⟩ := source.file
  simp only [freight, found]

theorem waits_freight (source : d.Source file loc loc) : (plan.freight d file).Waits d := by
  obtain ⟨bytes, executable, there⟩ := source.denotes.at?
  have same : (plan.freight d file).origin = loc := origin_freight source
  refine ⟨same.symm ▸ source, executable, ?_⟩
  simp only [freight, source.read_eq there] at same ⊢
  rw [same, there]

/-- The text of a remote path steps through the remote directory to the file's name. -/
theorem steps_remotePath {n : String} (named : Path.fileName? file = some n) :
    (ofText (plan.remotePath file).toList).steps =
      (ofText plan.remoteDir.toList).steps ++ [.name n] := by
  unfold remotePath
  rw [named, ← steps_dropEndSlashes plan.remoteDir.toList]
  cases Text.dropEndSlashes plan.remoteDir.toList with
  | nil => exact steps_fileName? named
  | cons c rest =>
    dsimp only
    rw [String.toList_ofList, steps_append]
    exact congrArg _ (steps_fileName? named)

theorem leads_dest (plain : ['.', '.'] ∉ plan.remoteDir.toList.splitOn '/') {n : String}
    (named : Path.fileName? file = some n) :
    Leads (ofText plan.base.toList) (plan.dest file).toList
      (names (ofText plan.remoteDir.toList).steps) n := by
  have below := head_dropSlashes (plan.remotePath file).toList
  unfold dest destination
  rw [String.toList_ofList]
  refine ⟨absolute_join below, _, ?_, spells_names (up_not_mem_steps plain)⟩
  rw [steps_join below, steps_dropSlashes, steps_remotePath named, List.append_assoc]

theorem submission_inj (copies : plan.process = false)
    (same : plan.submission file = plan.submission other) : file = other := by
  simp only [submission, copies] at same
  cases same
  rfl

namespace Ships

variable (ships : plan.Ships d files)

include ships

theorem waits (member : file ∈ files) : (plan.freight d file).Waits d := by
  obtain ⟨loc, source⟩ := ships.found file member
  exact waits_freight source

theorem fits (leads : (d.makeDirs plan.base).1.LeadsTo plan.base top) (member : file ∈ files) :
    (plan.freight d file).Fits plan.base top := by
  refine ⟨?_, fun names same => ?_⟩
  · obtain ⟨n, named⟩ := Option.ne_none_iff_exists'.mp (ships.named file member)
    have leads := leads_dest ships.plain named
    simpa only [freight, named, Option.getD_some, dest] using leads
  · have waits := ships.waits member
    exact ships.outside top leads file member names (same ▸ waits.source)

theorem own_apart (leads : (d.makeDirs plan.base).1.LeadsTo plan.base top) (first : file ∈ files)
    (second : other ∈ files) (apart : file ≠ other) :
    ¬ (plan.freight d file).Own top (plan.freight d other).origin ∧
      ¬ (plan.freight d file).Own top ((plan.freight d other).goal top) := by
  have origins : (plan.freight d file).origin ≠ (plan.freight d other).origin := by
    intro same
    have here := (ships.waits first).source
    have there := (ships.waits second).source
    rw [← same] at there
    rcases rel_or_of_pairwise ships.distinct first second apart with different | different
    · exact different _ here there
    · exact different _ there here
  have goals : (plan.freight d file).goal top ≠ (plan.freight d other).goal top := by
    intro same
    have names := (List.append_inj' (Disk.under_inj.mp same) rfl).2
    have remotes : plan.remotePath file = plan.remotePath other := by
      simp only [remotePath]
      rw [show (Path.fileName? file).getD "" = (Path.fileName? other).getD "" from
        List.head_eq_of_cons_eq names]
    rcases rel_or_of_pairwise (List.pairwise_map.mp ships.remotes) first second apart with
      different | different
    · exact different remotes
    · exact different remotes.symm
  refine ⟨fun own => own.elim ?_ fun same => origins same.symm, fun own => own.elim ?_ ?_⟩
  · exact (ships.fits leads second).away _
  · exact fun same => goals same.symm
  · exact fun same => (ships.fits leads first).away _ same.symm

theorem nodup : files.Nodup :=
  (List.pairwise_map.mp ships.remotes).imp fun apart same => apart (congrArg _ same)

theorem push_eq (file : String) (move : Bool) :
    (Store.ofDefinition plan.definition).push ((plan.submission file).job move) =
      transfer plan.base ((plan.freight d file).job move) := by
  simp only [Store.ofDefinition, ships.driver, submission, ships.copies]
  rfl

end Ships

end Plan

end Spool
