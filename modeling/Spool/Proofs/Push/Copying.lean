import Spool.Proofs.Disk.Copies
import Spool.Proofs.Push.Runs
import Spool.Push.Memory

/-!
Transfers that copy and transfers that move. A copy keeps its source as long as the destination is
another file. A move does what a copy does, and the source is gone; but that holds of plain files only,
since a move takes the entry that has the name and never looks at what it holds.
-/

namespace Spool.Directory

open Disk

variable {σ : Type} {keys : KeyStore σ} {w e : World σ} {base hash source dest : String}
  {job : Transfer}

theorem answered_ok {called : Disk × Reply Unit} (ended : answered w source called = (e, .ok hash)) :
    ∃ d, called = (d, .ok ()) ∧ e.disk = d := by
  obtain ⟨d, reply⟩ := called
  cases reply with
  | error cause => cases ended
  | ok =>
    cases ended
    exact ⟨d, rfl, rfl⟩

/-- A copy that succeeds leaves the content in both places; where these are the same file, it is gone
from it. No other file has changed. -/
theorem transfer_copied (formed : w.disk.Formed) (asked : job.move = false)
    (ended : (transfer base job).run keys w = (e, .ok hash)) : ∃ own goal bytes,
      w.disk.Copied e.disk job.source (destination base job.remote) own goal bytes ∧
        e.disk.read job.source = .ok (remainder own goal bytes) ∧
        e.disk.read (destination base job.remote) = .ok (remainder own goal bytes) := by
  have grows := makeAround_grows formed (destination base job.remote)
  simp only [run_transfer, asked, Bool.false_eq_true, if_false] at ended
  generalize w.disk.makeAround (destination base job.remote) = made at grows ended
  obtain ⟨d, reply⟩ := made
  cases reply with
  | error cause => cases ended
  | ok =>
    obtain ⟨_, copied, rfl⟩ := answered_ok ended
    obtain ⟨own, goal, bytes, executable, copies, put⟩ :=
      copies_of_copy (grows.steady.formed formed) copied
    have whole := copies.copied.of_grows grows
    rw [← put] at whole
    refine ⟨own, goal, bytes, whole, ?_, ?_⟩
    · obtain ⟨_, found⟩ := whole.source
      simp only [Disk.read, found]
    · obtain ⟨_, found⟩ := whole.dest
      simp only [Disk.read, found]

/-- A file, a link to it, and in the base a link to where nothing is yet. -/
def linked : Disk where
  entries := [(["m", "base"], .link "../n"), (["base"], .dir), (["l"], .link "a"),
    (["a"], .file ⟨#[120]⟩ false)]

theorem formed_linked : linked.Formed := by
  refine formed_of_entries rfl fun pair member => ?_
  simp only [linked, List.mem_cons, List.not_mem_nil, or_false] at member
  rcases member with rfl | rfl | rfl | rfl <;> rfl

theorem around_linked : linked.makeAround (destination "base" "m") = (linked, .ok ()) := rfl

theorem transfer_copied_linked : ∃ e, (transfer "base" ⟨"l", "m", false, none⟩).run
      (Memory.keyStore fun _ => none) ⟨linked, []⟩ = (e, .ok "") ∧ ∃ own goal bytes,
        linked.Copied e.disk "l" (destination "base" "m") own goal bytes ∧
          e.disk.read "l" = .ok (remainder own goal bytes) ∧
          e.disk.read (destination "base" "m") = .ok (remainder own goal bytes) := by
  have brought : linked.copy "l" (destination "base" "m") =
      (linked.put ["n"] (.file ⟨#[120]⟩ false), .ok ()) := rfl
  have run : (transfer "base" ⟨"l", "m", false, none⟩).run (Memory.keyStore fun _ => none)
      ⟨linked, []⟩ = (⟨linked.put ["n"] (.file ⟨#[120]⟩ false), []⟩, .ok "") := by
    simp only [run_transfer, around_linked, Bool.false_eq_true, if_false, brought]
    rfl
  exact ⟨_, run, transfer_copied formed_linked rfl run⟩

def stored : Disk where
  entries := [(["a", "base"], .file ⟨#[120]⟩ false), (["base"], .dir)]

/-- A copy onto itself succeeds and empties the file. -/
theorem source_emptied : stored.read "base/a" = .ok ⟨#[120]⟩ ∧
    ∃ e, (transfer "base" ⟨"base/a", "a", false, none⟩).run (Memory.keyStore fun _ => none)
      ⟨stored, []⟩ = (e, .ok "") ∧ e.disk.read "base/a" = .ok .empty := by
  have around : stored.makeAround (destination "base" "a") = (stored, .ok ()) := rfl
  have brought : stored.copy "base/a" (destination "base" "a") =
      (stored.put ["a", "base"] (.file .empty false), .ok ()) := rfl
  refine ⟨rfl, ⟨stored.put ["a", "base"] (.file .empty false), []⟩, ?_, rfl⟩
  simp only [run_transfer, around, Bool.false_eq_true, if_false, brought]
  rfl

/-- A move came to the same as a copy, but for the source. -/
structure LikeCopy (source dest : String) (moved copied : World σ × Except PushError String) :
    Prop where
  succeeds : moved.2.isOk = copied.2.isOk
  content : moved.2.isOk = true →
    ∃ bytes, moved.1.disk.read dest = .ok bytes ∧ copied.1.disk.read dest = .ok bytes
  gone : moved.2.isOk = true → moved.1.disk.exists? source = false

theorem LikeCopy.of_failed {moved copied : World σ × Except PushError String}
    (first : moved.2.isOk = false) (second : copied.2.isOk = false) :
    LikeCopy source dest moved copied := by
  refine ⟨first.trans second.symm, fun succeeded => ?_, fun succeeded => ?_⟩
  · rw [first] at succeeded
    cases succeeded
  · rw [first] at succeeded
    cases succeeded

/-- A plain file can be moved where it can be copied, and it arrives alike. -/
theorem moved_like_copied (keys : KeyStore σ) (formed : w.disk.Formed)
    (movable : (w.disk.makeAround (destination base job.remote)).1.Movable job.source
      (destination base job.remote)) :
    LikeCopy job.source (destination base job.remote)
      ((transfer base { job with move := true }).run keys w)
      ((transfer base { job with move := false }).run keys w) := by
  have grows := makeAround_grows formed (destination base job.remote)
  simp only [run_transfer]
  generalize w.disk.makeAround (destination base job.remote) = made at grows movable ⊢
  obtain ⟨d, reply⟩ := made
  have formed' := grows.steady.formed formed
  cases reply with
  | error cause => exact .of_failed rfl rfl
  | ok =>
    simp only [if_true, Bool.false_eq_true, if_false]
    cases renamed : d.rename job.source (destination base job.remote) with
    | mk f reply =>
      cases copied : d.copy job.source (destination base job.remote) with
      | mk g reply' =>
        cases reply with
        | ok =>
          obtain ⟨_, copied'⟩ := movable.copy_of_rename formed' renamed
          obtain rfl : reply' = .ok () := congrArg Prod.snd (copied.symm.trans copied')
          obtain ⟨content, gone⟩ := movable.content formed' copied renamed
          exact ⟨rfl, fun _ => content, fun _ => gone⟩
        | error cause =>
          cases reply' with
          | ok =>
            obtain ⟨_, renamed'⟩ := rename_of_copy formed' copied
            cases renamed.symm.trans renamed'
          | error cause' => exact .of_failed rfl rfl

theorem movable_linked : linked.Movable "a" (destination "base" "m") := by
  have origin : linked.place "a" = .ok ⟨[], some "a", false⟩ := rfl
  have goal : linked.place (destination "base" "m") = .ok ⟨["base"], some "m", false⟩ := rfl
  have found : linked.locate .existing "a" = .ok (["a"], some (.file ⟨#[120]⟩ false)) := rfl
  have aimed : linked.locate .creating (destination "base" "m") = .ok (["n"], none) := rfl
  refine ⟨fun place n there named => ?_, fun place n target there named _ => ⟨_, aimed⟩,
    fun own goal found' free there free' => ?_⟩
  · cases origin.symm.trans there
    cases named
    exact isLeaf_file _ _
  · cases found.symm.trans there
    cases aimed.symm.trans free'
    decide

theorem moved_like_copied_linked :
    LikeCopy "a" (destination "base" "m")
        ((transfer "base" ⟨"a", "m", true, none⟩).run (Memory.keyStore fun _ => none) ⟨linked, []⟩)
        ((transfer "base" ⟨"a", "m", false, none⟩).run (Memory.keyStore fun _ => none) ⟨linked, []⟩) ∧
      ((transfer "base" ⟨"a", "m", true, none⟩).run (Memory.keyStore fun _ => none)
        ⟨linked, []⟩).2 = .ok "" := by
  refine ⟨@moved_like_copied Memory ⟨linked, []⟩ "base" ⟨"a", "m", true, none⟩ _ formed_linked ?_, ?_⟩
  · rw [around_linked]
    exact movable_linked
  · simp only [run_transfer, around_linked, if_true]
    rfl

/-- A directory with a file and a link to that file. -/
def nested : Disk where
  entries := [(["l", "in"], .link "a"), (["a", "in"], .file ⟨#[120]⟩ false), (["in"], .dir),
    (["base"], .dir)]

/-- A link that is moved leads nowhere where its target is not, and a directory can be moved but not
copied. -/
theorem moved_unlike_copied :
    (∃ copied moved, (transfer "base" ⟨"in/l", "l", false, none⟩).run (Memory.keyStore fun _ => none)
        ⟨nested, []⟩ = (copied, .ok "") ∧ copied.disk.read "base/l" = .ok ⟨#[120]⟩ ∧
      (transfer "base" ⟨"in/l", "l", true, none⟩).run (Memory.keyStore fun _ => none)
        ⟨nested, []⟩ = (moved, .ok "") ∧
          moved.disk.read "base/l" = .error (.system Errno.noEntry)) ∧
      ((transfer "base" ⟨"in", "d", false, none⟩).run (Memory.keyStore fun _ => none)
        ⟨nested, []⟩).2.isOk = false ∧
      ((transfer "base" ⟨"in", "d", true, none⟩).run (Memory.keyStore fun _ => none)
        ⟨nested, []⟩).2 = .ok "" := by
  have around : nested.makeAround (destination "base" "l") = (nested, .ok ()) := rfl
  have around' : nested.makeAround (destination "base" "d") = (nested, .ok ()) := rfl
  have copied : nested.copy "in/l" (destination "base" "l") =
      (nested.put ["l", "base"] (.file ⟨#[120]⟩ false), .ok ()) := rfl
  have moved : nested.rename "in/l" (destination "base" "l") =
      (nested.relocate ["l", "in"] ["l", "base"], .ok ()) := rfl
  have refused : (nested.copy "in" (destination "base" "d")).2.isOk = false := rfl
  have carried : (nested.rename "in" (destination "base" "d")).2 = .ok () := rfl
  refine ⟨⟨⟨nested.put ["l", "base"] (.file ⟨#[120]⟩ false), []⟩,
    ⟨nested.relocate ["l", "in"] ["l", "base"], []⟩, ?_, rfl, ?_, rfl⟩, ?_, ?_⟩
  · simp only [run_transfer, around, Bool.false_eq_true, if_false, copied]
    rfl
  · simp only [run_transfer, around, if_true, moved]
    rfl
  · simp only [run_transfer, around', Bool.false_eq_true, if_false, answered]
    generalize nested.copy "in" (destination "base" "d") = called at refused
    obtain ⟨_, reply⟩ := called
    cases reply with
    | ok => cases refused
    | error cause => rfl
  · simp only [run_transfer, around', if_true, answered, carried]
    rfl

end Spool.Directory
