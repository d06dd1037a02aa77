import Spool.Proofs.Disk.Beneath
import Spool.Proofs.Disk.Places
import Spool.Proofs.Push.Destination
import Spool.Proofs.Push.Footprint
import Spool.Proofs.Push.Parcels
import Spool.Proofs.Push.Runs
import Spool.Push.Memory
import Spool.Push.Store

/-!
Pushes into a directory touch nothing outside of the base but the source, as long as no component of
the key steps up. That is so of each of their calls, also of those that a failed push has made.
-/

namespace Spool

/-- No component of the key that a job asks for steps up. The suffix of a transform goes on with the
name of the object, so that components are only what follows a slash in it. -/
def Job.Descends : Job → Prop
  | .transfer job => ['.', '.'] ∉ job.remote.toList.splitOn '/'
  | .transform job => ['.', '.'] ∉ job.dir.toList.splitOn '/' ∧
      ['.', '.'] ∉ (job.suffix.toList.splitOn '/').tail
  | .termination => True

variable {σ : Type} {keys : KeyStore σ} {w : World σ} {base source key : String} {top loc own : Loc}

namespace Disk

open Directory

variable {d e : Disk} {action : Action}

theorem Lies.keep (steady : d.Steady e) {path : String} (lies : d.Lies path loc) :
    e.Lies path loc := by
  obtain ⟨n, dir, slash, place, split⟩ := lies
  have still := Source.place_of_keeps (steady.keeps fun _ => False) (fun _ => False.elim) place
  exact ⟨n, dir, slash, still, split⟩

theorem slash_of_place {path : String} {place : Place} (there : d.place path = .ok place) :
    path.toList ≠ [] ∧ place.slash = (Route.ofText path.toList).slash := by
  obtain ⟨r, read, slash, -, -⟩ := way_of_place there
  cases read_eq_ofText read
  refine ⟨fun none => ?_, slash.symm⟩
  simp [Route.read, none, Route.isUnpassable] at read

/-- The base is a directory, and no links lie below it. -/
structure Hosts (d : Disk) (base : String) (top : Loc) : Prop where
  formed : d.Formed
  leads : d.LeadsTo base top
  linkless : d.Linkless top

/-- What the call affects lies at or below the base, or is the source with what is below it. The
calls before it have left the source where it was. -/
structure Confines (d : Disk) (source : String) (top : Loc) (e : Disk) (action : Action) : Prop where
  source_eq : ∀ own, d.Lies source own → e.Lies source own
  within : ∀ loc, e.Affects action loc → top <:+ loc ∨ ∃ own, e.Lies source own ∧ own <:+ loc

theorem Confines.of_steady (steady : d.Steady e)
    (within : ∀ loc, e.Affects action loc → top <:+ loc ∨ ∃ own, e.Lies source own ∧ own <:+ loc) :
    d.Confines source top e action :=
  ⟨fun _ lies => lies.keep steady, within⟩

namespace Hosts

theorem keep (steady : d.Steady e) (hosts : d.Hosts base top) : e.Hosts base top :=
  ⟨steady.formed hosts.formed, hosts.leads.keep steady, steady.linkless hosts.linkless⟩

variable (hosts : d.Hosts base top) (plain : ['.', '.'] ∉ key.toList.splitOn '/')
include hosts plain

theorem descends : d.Descends top (destination base key) (Route.ofText key.toList).steps := by
  refine ⟨Route.up_not_mem_steps plain, _, steps_destination base key, ?_⟩
  rw [start_eq (absolute_destination base key)]
  exact hosts.leads

theorem makeDirs_within {parent : String}
    (known : Path.parent? (destination base key) = some parent)
    (affected : d.Affects (.makeDirs parent) loc) : top <:+ loc := by
  refine Classical.byContradiction fun off => affected ?_
  have anchored : d.Anchored top (destination base key) := .inl ⟨_, hosts.descends plain⟩
  exact makeDirs_beneath hosts.formed hosts.linkless off (anchored.around known)

theorem created_within {found : Option Entry}
    (way : d.locate .creating (destination base key) = .ok (loc, found)) : top <:+ loc := by
  have descends := hosts.descends plain
  by_cases idle : (Route.ofText key.toList).steps = []
  · rw [idle] at descends
    exact absurd way (descends.leadsTo.not_created hosts.formed)
  · exact descends.locate hosts.linkless idle way

theorem lies_within (steps : (Route.ofText key.toList).steps ≠ [])
    (lies : d.Lies (destination base key) loc) : top <:+ loc := by
  obtain ⟨n, dir, slash, place, rfl⟩ := lies
  exact ((hosts.descends plain).place hosts.linkless steps place).trans (List.suffix_cons n dir)

/-- What is renamed comes to lie at the base or below it, even if the path of the base with a slash
behind it is that of a link to the base: such a path is refused. -/
theorem renamed_within {old : String} (done : (d.rename old (destination base key)).2 = .ok ())
    (lies : d.Lies (destination base key) loc) : top <:+ loc := by
  by_cases idle : (Route.ofText key.toList).steps = []
  · have descends := hosts.descends plain
    rw [idle] at descends
    rcases rename_cases d old (destination base key) with
      ⟨_, failed⟩ | ⟨origin, goal, m, k, entry, renamed, -⟩
    · rw [failed] at done
      cases done
    · obtain ⟨n, dir, slash, place, rfl⟩ := lies
      cases renamed.aimed.symm.trans place
      cases renamed.newName
      rcases descends.leadsTo.taken place with ⟨same, -⟩ | ⟨target, link⟩
      · exact same ▸ List.suffix_rfl
      · have slash' : slash = true := by
          obtain ⟨some, ended⟩ := slash_of_place place
          exact ended.trans ((slash_destination base idle).resolve_left some)
        exact absurd link (renamed.ne_link slash' target)
  · exact hosts.lies_within plain idle lies

end Hosts

theorem write_steady (formed : d.Formed) (path : String) (bytes : ByteArray) :
    d.Steady (d.write path bytes).1 := by
  cases written : d.write path bytes with
  | mk e reply =>
    cases reply with
    | error cause => rw [write_failed written]; exact .refl d
    | ok =>
      obtain ⟨_, _, -, set⟩ := write_cases formed written
      exact set.swaps.steady

theorem file_of_write {n : String} {dir : Loc} {slash : Bool} {path : String} {bytes : ByteArray}
    (formed : d.Formed) (written : d.write path bytes = (e, .ok ()))
    (place : e.place path = .ok ⟨dir, some n, slash⟩)
    (plain : ∀ target, d.at? (n :: dir) ≠ some (.link target)) :
    ∃ executable, e.at? (n :: dir) = some (.file bytes executable) := by
  obtain ⟨loc, found, way, set⟩ := write_cases formed written
  obtain ⟨m, outer, creates⟩ := creates_of_locate formed way
  have still := Source.place_of_keeps (set.swaps.steady.keeps fun _ => False) (fun _ => False.elim)
    creates.place
  cases still.symm.trans place
  rcases creates.own_eq with same | ⟨target, link⟩
  · rw [same]
    exact set.there
  · exact absurd link (plain target)

theorem rename_steady {f : Disk} {part : String} {data : ByteArray} (hosts : d.Hosts base top)
    (hosts' : e.Hosts base top) (plain : ['.', '.'] ∉ key.toList.splitOn '/')
    (plain' : ['.', '.'] ∉ part.toList.splitOn '/')
    (steps : (Route.ofText part.toList).steps ≠ [])
    (written : d.write (destination base part) data = (e, .ok ()))
    (renamed : e.rename (destination base part) (destination base key) = (f, .ok ())) :
    e.Steady f := by
  have done : (e.rename (destination base part) (destination base key)).2 = .ok () := by rw [renamed]
  rcases rename_cases e (destination base part) (destination base key) with
    ⟨_, failed⟩ | ⟨⟨old, name, slash⟩, ⟨new, name', slash'⟩, m, n, entry, allowed, -⟩
  · rw [failed] at done
    cases done
  · cases allowed.oldName
    cases allowed.newName
    have origin := hosts'.lies_within plain' steps ⟨m, old, slash, allowed.found, rfl⟩
    have goal := hosts'.renamed_within plain done ⟨n, new, slash', allowed.aimed, rfl⟩
    obtain ⟨executable, file⟩ := file_of_write hosts.formed written allowed.found
      (hosts.linkless.of_suffix origin)
    cases allowed.there.symm.trans file
    obtain ⟨receives, -⟩ := allowed.moved hosts'.formed (hosts'.linkless.of_suffix goal)
    rw [renamed] at receives
    exact receives.swaps.steady

end Disk

namespace Directory

open Disk

theorem mem_calls_withParent {path : String} {next : Push} {call : Disk × Action}
    (member : call ∈ (withParent path next).calls keys w) :
    (∃ parent, Path.parent? path = some parent ∧ call = (w.disk, .makeDirs parent)) ∨
      call ∈ next.calls keys { w with disk := (w.disk.makeAround path).1 } := by
  unfold withParent at member
  unfold makeAround
  cases known : Path.parent? path with
  | none =>
    rw [known] at member
    exact .inr member
  | some parent =>
    rw [known] at member
    simp only [Program.calls, Disk.act] at member
    rcases List.mem_cons.mp member with same | later
    · exact .inl ⟨parent, rfl, same⟩
    · dsimp only
      generalize w.disk.makeDirs parent = made at later ⊢
      obtain ⟨d, reply⟩ := made
      cases reply with
      | ok => exact .inr later
      | error cause => cases later

theorem mem_calls_copyFile {dest : String} {call : Disk × Action}
    (member : call ∈ (copyFile source dest).calls keys w) : call = (w.disk, .copy source dest) := by
  simp only [copyFile, Program.calls, Disk.act] at member
  rcases List.mem_cons.mp member with same | later
  · exact same
  · split at later <;> cases later

theorem mem_calls_moveFile {dest : String} {call : Disk × Action}
    (member : call ∈ (moveFile source dest).calls keys w) : call = (w.disk, .rename source dest) := by
  have within : (w.disk.rename source dest).2 ≠ .error (.system crossDevice) :=
    Disk.rename_ne (by decide) source dest
  simp only [moveFile, Program.calls, Disk.act] at member
  rcases List.mem_cons.mp member with same | later
  · exact same
  · split at later
    · cases later
    · next cause failed =>
      have other : cause ≠ .system crossDevice := fun same => within (by rw [failed, same])
      rw [if_neg other] at later
      cases later

theorem mem_calls_discard {beside path : String} {cause : IoError} {call : Disk × Action}
    (member : call ∈ (discard beside path cause).calls keys w) :
    call = (w.disk, .unlink beside) := by
  simp only [discard, Program.calls, Disk.act] at member
  exact List.mem_singleton.mp member

theorem mem_calls_finish {move : Bool} {result : String} {call : Disk × Action}
    (member : call ∈ (Push.finish move source result).calls keys w) :
    call = (w.disk, .unlink source) := by
  unfold Push.finish at member
  split at member
  · simp only [Program.calls, Disk.act] at member
    rcases List.mem_cons.mp member with same | later
    · exact same
    · split at later <;> cases later
  · cases member

section Calls

variable (hosts : w.disk.Hosts base top) (plain : ['.', '.'] ∉ key.toList.splitOn '/')
include hosts plain

theorem withParent_confined {next : Push}
    (rest : ∀ d, w.disk.Steady d → d.Hosts base top → ∀ call ∈ next.calls keys { w with disk := d },
      w.disk.Confines source top call.1 call.2) :
    ∀ call ∈ (withParent (destination base key) next).calls keys w,
      w.disk.Confines source top call.1 call.2 := by
  intro call member
  rcases mem_calls_withParent member with ⟨parent, known, rfl⟩ | later
  · exact .of_steady (.refl _) fun loc affected => .inl (hosts.makeDirs_within plain known affected)
  · have steady := (makeAround_grows hosts.formed (destination base key)).steady
    exact rest _ steady (hosts.keep steady) call later

theorem placing_confined {d : Disk} {data : ByteArray} {next : Push} (steady : d.Steady w.disk)
    (rest : ∀ e, d.Steady e → ∀ call ∈ next.calls keys { w with disk := e },
      d.Confines source top call.1 call.2) :
    ∀ call ∈ (placing (partialName (destination base key)) (destination base key) data next).calls
      keys w, d.Confines source top call.1 call.2 := by
  have plain' := dots_not_mem_partial plain
  rw [← destination_partial]
  generalize aside : partialName key = part at plain' ⊢
  have steps : (Route.ofText part.toList).steps ≠ [] := aside ▸ steps_partial key
  have unlinks : ∀ {e : Disk}, d.Steady e → e.Hosts base top →
      d.Confines source top e (.unlink (destination base part)) := fun steady hosts =>
    .of_steady steady fun loc affected => .inl (hosts.lies_within plain' steps affected.2)
  intro call member
  simp only [placing, Program.calls, Disk.act] at member
  rcases List.mem_cons.mp member with rfl | member
  · refine .of_steady steady fun loc affected => .inl ?_
    obtain ⟨-, found, way⟩ := affected
    exact hosts.created_within plain' way
  · have written := write_steady hosts.formed (destination base part) data
    generalize made : w.disk.write (destination base part) data = call₁ at member written
    obtain ⟨e, reply⟩ := call₁
    have hosts' := hosts.keep written
    have steady' := steady.trans written
    cases reply with
    | error cause =>
      rw [mem_calls_discard member]
      exact unlinks steady' hosts'
    | ok =>
      dsimp only at written hosts' steady' member
      simp only [Program.calls, Disk.act] at member
      rcases List.mem_cons.mp member with rfl | member
      · refine .of_steady steady' fun loc affected => .inl ?_
        obtain ⟨done, own, lies, below⟩ := affected
        rcases lies with old | new
        · exact (hosts'.lies_within plain' steps old).trans below
        · exact (hosts'.renamed_within plain done new).trans below
      · cases renamed : e.rename (destination base part) (destination base key) with
        | mk f reply =>
          rw [renamed] at member
          cases reply with
          | error cause =>
            rw [mem_calls_discard member, rename_failed renamed]
            exact unlinks steady' hosts'
          | ok =>
            exact rest f (steady'.trans (rename_steady hosts hosts' plain plain' steps made renamed))
              call member

end Calls

theorem transfer_confined {job : Transfer} (hosts : w.disk.Hosts base top)
    (plain : ['.', '.'] ∉ job.remote.toList.splitOn '/') :
    ∀ call ∈ (transfer base job).calls keys w, w.disk.Confines job.source top call.1 call.2 := by
  refine withParent_confined hosts plain fun d steady hosts call member => ?_
  split at member
  · rw [mem_calls_moveFile member]
    refine .of_steady steady fun loc affected => ?_
    obtain ⟨done, own, lies, below⟩ := affected
    rcases lies with old | new
    · exact .inr ⟨own, old, below⟩
    · exact .inl ((hosts.renamed_within plain done new).trans below)
  · rw [mem_calls_copyFile member]
    exact .of_steady steady fun loc affected => .inl (hosts.created_within plain affected.2.choose_spec)

theorem transform_confined {job : Transform} (hosts : w.disk.Hosts base top)
    (outer : ['.', '.'] ∉ job.dir.toList.splitOn '/')
    (inner : ['.', '.'] ∉ (job.suffix.toList.splitOn '/').tail) :
    ∀ call ∈ (transform base job).calls keys w, w.disk.Confines job.source top call.1 call.2 := by
  intro call member
  simp only [transform, Program.calls] at member
  cases read : w.disk.read job.source with
  | error cause =>
    rw [read] at member
    cases member
  | ok content =>
    rw [read] at member
    have plain := (ObjectKey.isDigest_hex (Packed.ofContent content).data).dots_not_mem_ofDigest
      outer inner
    refine withParent_confined hosts plain (fun d steady hosts => ?_) call member
    refine placing_confined (w := { w with disk := d }) hosts plain steady
      fun e steady call member => ?_
    rw [mem_calls_finish member]
    exact .of_steady steady fun loc affected => .inr ⟨loc, affected.2, List.suffix_rfl⟩

end Directory

namespace Store

open Directory

/-- Each call of a push into a directory keeps to the base, but for the source, whether the push
succeeds or fails; so that is where everything lies that has changed in the end. No key, however many
slashes it begins with, takes the place of the base. -/
theorem push_confined {job : Job} (hosts : w.disk.Hosts base top) (descends : job.Descends) :
    (∀ call ∈ ((directory base).push job).calls keys w, ∃ source, job.source? = some source ∧
      w.disk.Confines source top call.1 call.2) ∧
    (∀ loc, (((directory base).push job).run keys w).1.disk.at? loc ≠ w.disk.at? loc → top <:+ loc ∨
      ∃ call ∈ ((directory base).push job).calls keys w, ∃ source own, job.source? = some source ∧
        call.1.Lies source own ∧ own <:+ loc) ∧
    ∀ key, base.toList <+: (destination base key).toList ∧
      (Route.ofText (destination base key).toList).absolute = (Route.ofText base.toList).absolute := by
  have calls : ∀ call ∈ ((directory base).push job).calls keys w, ∃ source,
      job.source? = some source ∧ w.disk.Confines source top call.1 call.2 := by
    cases job with
    | transfer job => exact fun call member => ⟨_, rfl, transfer_confined hosts descends call member⟩
    | transform job =>
      exact fun call member => ⟨_, rfl, transform_confined hosts descends.1 descends.2 call member⟩
    | termination => exact fun call member => by cases member
  refine ⟨calls, fun loc changed => ?_, fun key => ⟨prefix_destination base key,
    absolute_destination base key⟩⟩
  refine Classical.byContradiction fun off => changed ?_
  rw [not_or] at off
  refine Program.run_off keys _ fun call member affected => ?_
  obtain ⟨source, given, confines⟩ := calls call member
  rcases confines.within loc affected with below | ⟨own, lies, below⟩
  · exact off.1 below
  · exact off.2 ⟨call, member, source, own, given, lies, below⟩

def shelf : Disk where
  entries := [(["base"], .dir), (["a"], .file ⟨#[120]⟩ false)]

theorem hosts_shelf : shelf.Hosts "base" ["base"] := by
  have linkless : shelf.Linkless [] := by
    refine Disk.linkless_of_entries (fun pair member target => ?_) _
    simp only [shelf, List.mem_cons, List.not_mem_nil, or_false] at member
    rcases member with rfl | rfl <;> simp
  refine ⟨Disk.formed_of_entries rfl fun pair member => ?_, rfl, linkless.of_root _⟩
  simp only [shelf, List.mem_cons, List.not_mem_nil, or_false] at member
  rcases member with rfl | rfl <;> rfl

def rooted : Transfer := ⟨"a", "//x/./y", true, none⟩

/-- The file is moved below the base, where a directory has been made for it. -/
theorem push_confined_rooted :
    (∀ call ∈ ((directory "base").push (.transfer rooted)).calls (Memory.keyStore fun _ => none)
      ⟨shelf, []⟩, ∃ source, (Job.transfer rooted).source? = some source ∧
        shelf.Confines source ["base"] call.1 call.2) ∧
    (((directory "base").push (.transfer rooted)).calls (Memory.keyStore fun _ => none)
      ⟨shelf, []⟩).map Prod.snd = [.makeDirs "base/x", .rename "a" "base/x/./y"] := by
  have descends : (Job.transfer rooted).Descends := by
    show ['.', '.'] ∉ rooted.remote.toList.splitOn '/'
    decide
  have path : destination "base" "//x/./y" = "base/x/./y" := rfl
  have around : Path.parent? "base/x/./y" = some "base/x" := rfl
  have made : shelf.makeDirs "base/x" = (shelf.put ["x", "base"] .dir, .ok ()) := rfl
  have moved : ((shelf.put ["x", "base"] .dir).rename "a" "base/x/./y").2 = .ok () := rfl
  refine ⟨(push_confined hosts_shelf descends).1, ?_⟩
  simp only [push, transfer, Directory.transfer, path, withParent, around, Program.calls, Disk.act,
    made, rooted, if_true, moveFile, moved, List.map_cons, List.map_nil]

end Store

end Spool
