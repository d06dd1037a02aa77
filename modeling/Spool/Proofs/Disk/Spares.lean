import Spool.Proofs.Disk.Files
import Spool.Proofs.Disk.Formed

/-!
What calls leave alone. Directories and links stay, and so do the files that a call is not about.
-/

namespace Spool.Disk

variable {d e f : Disk} {r : Route} {base : Loc} {path : String} {outer : List String} {n : String}
  {touched more : Loc → Prop}

/-- Directories and links stay, and so do files but at the locations that are touched. -/
structure Spares (d e : Disk) (touched : Loc → Prop) : Prop where
  steady : d.Steady e
  files : ∀ loc, ¬ touched loc → ∀ bytes executable,
    d.at? loc = some (.file bytes executable) → e.at? loc = some (.file bytes executable)

namespace Spares

theorem refl (d : Disk) (touched : Loc → Prop) : d.Spares d touched :=
  ⟨.refl d, fun _ _ _ _ there => there⟩

theorem trans (first : d.Spares e touched) (second : e.Spares f touched) : d.Spares f touched :=
  ⟨first.steady.trans second.steady, fun loc off bytes executable there =>
    second.files loc off bytes executable (first.files loc off bytes executable there)⟩

theorem mono (spares : d.Spares e touched) (wider : ∀ loc, touched loc → more loc) :
    d.Spares e more :=
  ⟨spares.steady, fun loc off => spares.files loc fun here => off (wider loc here)⟩

theorem of_swaps (swaps : d.Swaps e) (same : ∀ loc, ¬ touched loc → e.at? loc = d.at? loc) :
    d.Spares e touched :=
  ⟨swaps.steady, fun loc off bytes executable there => by rw [same loc off, there]⟩

end Spares

theorem spares_made (based : d.Based r base) {names : List String} (here : e.here = d.here)
    (clear : ∀ loc, OnWay base names loc → ∀ bytes executable,
      d.at? loc ≠ some (.file bytes executable))
    (made : ∀ loc, OnWay base names loc → e.at? loc = some .dir)
    (kept : ∀ loc, ¬ OnWay base names loc → e.at? loc = d.at? loc) (touched : Loc → Prop) :
    d.Spares e touched := by
  refine ⟨steady_of_made based here made kept, fun loc _ bytes executable there => ?_⟩
  rw [kept loc fun on => clear loc on bytes executable there, there]

theorem unlink_cases (d : Disk) (path : String) : (d.unlink path).1 = d ∨ ∃ place n,
    d.place path = .ok place ∧ place.name = some n ∧ d.at? (n :: place.dir) ≠ some .dir ∧
      d.unlink path = (d.remove (n :: place.dir), .ok ()) := by
  unfold unlink
  split
  · exact .inl rfl
  · exact .inl rfl
  · next dir name slash there =>
    split
    · exact .inl rfl
    · cases found : d.at? (name :: dir) with
      | none => exact .inl rfl
      | some entry =>
        cases entry with
        | dir => exact .inl rfl
        | file bytes executable | link target =>
          cases slash with
          | true => exact .inl rfl
          | false => exact .inr ⟨_, name, there, rfl, by rw [found]; simp, rfl⟩

theorem unlink_spares (linkless : ∀ place n, d.place path = .ok place → place.name = some n →
    ∀ target, d.at? (n :: place.dir) ≠ some (.link target)) :
    d.Spares (d.unlink path).1 fun loc => ∃ place n, d.place path = .ok place ∧
      place.name = some n ∧ loc = n :: place.dir := by
  rcases unlink_cases d path with same | ⟨place, n, there, named, other, gone⟩
  · rw [same]
    exact .refl d _
  · rw [gone]
    refine .of_swaps (swaps_remove ⟨other, linkless place n there named⟩) fun loc off => ?_
    exact at?_remove_of_ne d fun same => off ⟨place, n, there, named, same⟩

theorem unlink_at? (linkless : d.Linkless []) {loc : Loc} (other : loc ≠ d.lead path) :
    (d.unlink path).1.at? loc = d.at? loc := by
  rcases unlink_cases d path with same | ⟨place, n, there, named, _, gone⟩
  · rw [same]
  · rw [gone, eq_lead_of_place linkless there named]
    exact at?_remove_of_ne d other

theorem unlink_spares_lead (linkless : d.Linkless []) (path : String) :
    d.Spares (d.unlink path).1 (· = d.lead path) := by
  refine (unlink_spares fun place n _ _ target => ?_).mono fun loc ⟨place, n, there, named, same⟩ =>
    same.trans (eq_lead_of_place linkless there named)
  have none := linkless (n :: place.dir) target
  rwa [List.append_nil] at none

theorem Based.unlink_spares (based : d.Based r base) (names : Names r path outer n) :
    d.Spares (d.unlink path).1 (· = under base (outer ++ [n])) := by
  have place := based.place_eq names
  have only : ∀ found m, d.place path = .ok found → found.name = some m →
      m :: found.dir = under base (outer ++ [n]) := by
    intro found m there named
    rw [place] at there
    cases through : d.descend base outer with
    | error errno => rw [through] at there; cases there
    | ok dir =>
      rw [through] at there
      cases there
      cases named
      rw [under_concat, ← descend_eq_ok through]
  refine (Disk.unlink_spares fun found m there named target => ?_).mono
    fun loc ⟨found, m, there, named, same⟩ => same.trans (only found m there named)
  rw [only found m there named]
  exact based.linkless (outer ++ [n]).reverse target

end Spool.Disk
