import Spool.Proofs.Disk.Arrivals
import Spool.Proofs.Disk.Ends

/-!
What calls that succeed have done on a disk without links, whatever their paths look like: a file
that is written or renamed is where the path leads.
-/

namespace Spool.Disk

variable {d e : Disk} {path : String} {bytes : ByteArray} {executable : Bool} {loc : Loc}

theorem walk_spells {steps : List Step} {names : List String} (spells : Route.Spells steps names)
    (here : Loc) : walk here steps = under here names := by
  induction spells generalizing here with
  | nil => rfl
  | stay _ ih => exact ih here
  | @name n _ names _ ih =>
    rw [walk, ih]
    exact (under_append here [n] names).symm

theorem Based.lead_eq {r : Route} {base : Loc} {outer : List String} {n : String}
    (based : d.Based r base) (linkless : d.Linkless [])
    (leads : Route.Leads r path.toList outer n) : d.lead path = under base (outer ++ [n]) := by
  obtain ⟨mid, steps, spells⟩ := leads.steps
  have top := eq_walk_of_explore linkless based.way
  rw [lead, steps, walk_append, walk_append, start_eq leads.absolute, ← top, walk_spells spells,
    under_concat]
  rfl

theorem source_of_read (linkless : d.Linkless []) (read : d.read path = .ok bytes) :
    d.Source path (d.lead path) (d.lead path) ∧
      ∃ executable, d.at? (d.lead path) = some (.file bytes executable) := by
  unfold Disk.read at read
  split at read
  · cases read
  · next loc _ executable found =>
    cases read
    obtain ⟨own, source⟩ := source_of_locate found
    obtain ⟨name, dir, place, split⟩ := source.place
    have named : own = d.lead path := split ▸ eq_lead_of_place linkless place rfl
    have there := (found_of_locate found).resolve_left fun impossible => by cases impossible
    rcases source.denotes.own_eq with ⟨same, _⟩ | ⟨target, link⟩
    · subst same
      subst named
      exact ⟨source, executable, there.symm⟩
    · exact absurd link (linkless.at?_ne _ target)
  · cases read

/-- A file lies there, and nothing else changed. -/
structure Set (d e : Disk) (loc : Loc) (bytes : ByteArray) : Prop where
  swaps : d.Swaps e
  others : ∀ other, other ≠ loc → e.at? other = d.at? other
  there : ∃ executable, e.at? loc = some (.file bytes executable)

theorem Set.spares (set : d.Set e loc bytes) : d.Spares e (· = loc) :=
  .of_swaps set.swaps set.others

theorem set_put (opens : d.Open loc) (bytes : ByteArray) (executable : Bool) :
    d.Set (d.put loc (.file bytes executable)) loc bytes :=
  ⟨opens.swaps_put bytes executable, fun _ off => at?_put_of_ne d _ off, executable,
    at?_put d opens.ne_nil _⟩

theorem write_cases (formed : d.Formed) (written : d.write path bytes = (e, .ok ())) :
    ∃ loc found, d.locate .creating path = .ok (loc, found) ∧ d.Set e loc bytes := by
  unfold write target at written
  cases way : d.locate .creating path with
  | error cause => rw [way] at written; cases written
  | ok spot =>
    obtain ⟨loc, found⟩ := spot
    have opens := (open_of_locate formed way).1
    rw [way] at written
    refine ⟨loc, found, rfl, ?_⟩
    cases found with
    | none => cases written; exact set_put opens bytes false
    | some entry => cases entry <;> (cases written; exact set_put opens bytes _)

theorem write_sets (formed : d.Formed) (linkless : d.Linkless [])
    (written : d.write path bytes = (e, .ok ())) : d.Set e (d.lead path) bytes := by
  obtain ⟨loc, found, way, set⟩ := write_cases formed written
  rwa [eq_lead_of_locate linkless way] at set

theorem rename_sets {old new : String} (formed : d.Formed) (linkless : d.Linkless [])
    (file : d.at? (d.lead old) = some (.file bytes executable))
    (renamed : d.rename old new = (e, .ok ())) :
    d.Spares e (fun loc => loc = d.lead new ∨ loc = d.lead old) ∧
      e.locate .existing new = .ok (d.lead new, some (.file bytes executable)) := by
  rcases rename_cases d old new with ⟨_, none⟩ | ⟨origin, goal, m, n, entry, allowed, -⟩
  · rw [none] at renamed
    cases renamed
  have first := eq_lead_of_place linkless allowed.found allowed.oldName
  have second := eq_lead_of_place linkless allowed.aimed allowed.newName
  have entry := allowed.there
  rw [first] at entry
  cases file.symm.trans entry
  have bare := (Bool.or_eq_false_iff.mp (bare_of_allowed allowed.allowed)).2
  obtain ⟨receives, there⟩ := allowed.moved formed (linkless.at?_ne _)
  rw [renamed] at receives there
  dsimp only at receives there
  have place := Source.place_of_keeps (receives.swaps.steady.keeps fun _ => False)
    (fun _ => False.elim) allowed.aimed
  refine ⟨.of_swaps receives.swaps fun loc off => ?_, ?_⟩
  · rw [first, second] at receives
    exact receives.others loc (fun here => off (.inl here)) fun here => off (.inr here)
  · rw [← second]
    obtain ⟨dir, name, slash⟩ := goal
    cases allowed.newName
    cases bare
    exact locate_of_place place allowed.short there

theorem rename_taken {old new : String} (formed : d.Formed) (linkless : d.Linkless [])
    (file : d.at? (d.lead old) = some (.file bytes executable))
    (taken : d.at? (d.lead new) = some .dir) : (d.rename old new).2 ≠ .ok () := by
  intro done
  obtain ⟨spares, found⟩ := rename_sets formed linkless file (Prod.ext rfl done)
  have arrived := (found_of_locate found).resolve_left fun isDir => by cases isDir
  cases arrived.trans (spares.steady.dirs _ taken)

end Spool.Disk
