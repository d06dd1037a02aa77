import Spool.Proofs.Disk.Arrivals
import Spool.Push.Program

/-!
What programs touch. Every call is taken with the disk that it is made on, whether or not the program
succeeds in the end; what no call of a program affects is as it was before the program ran.
-/

namespace Spool

namespace Disk

variable {d : Disk} {path : String} {loc : Loc}

def Lies (d : Disk) (path : String) (loc : Loc) : Prop :=
  ∃ n dir slash, d.place path = .ok ⟨dir, some n, slash⟩ ∧ loc = n :: dir

/-- The call creates, overwrites, renames or removes something at the location. Of what is renamed all
that lies below it goes along. -/
def Affects (d : Disk) : Action → Loc → Prop
  | .makeDirs path, loc => (d.makeDirs path).1.at? loc ≠ d.at? loc
  | .copy source dest, loc => (d.copy source dest).2 = .ok () ∧
      ∃ found, d.locate .creating dest = .ok (loc, found)
  | .write path bytes, loc => (d.write path bytes).2 = .ok () ∧
      ∃ found, d.locate .creating path = .ok (loc, found)
  | .rename old new, loc => (d.rename old new).2 = .ok () ∧
      ∃ own, (d.Lies old own ∨ d.Lies new own) ∧ own <:+ loc
  | .unlink path, loc => (d.unlink path).2 = .ok () ∧ d.Lies path loc

theorem locate_of_target {executable : Option Bool} (aimed : d.target path = .ok (loc, executable)) :
    ∃ found, d.locate .creating path = .ok (loc, found) := by
  unfold target at aimed
  cases way : d.locate .creating path with
  | error cause => rw [way] at aimed; cases aimed
  | ok spot =>
    obtain ⟨goal, found⟩ := spot
    rw [way] at aimed
    cases found with
    | none => cases aimed; exact ⟨_, rfl⟩
    | some entry => cases entry <;> (cases aimed; exact ⟨_, rfl⟩)

theorem copy_elsewhere {source dest : String}
    (off : ∀ found, d.locate .creating dest ≠ .ok (loc, found)) :
    (d.copy source dest).1.at? loc = d.at? loc := by
  unfold copy
  split
  · rfl
  · cases aimed : d.target dest with
    | error cause => rfl
    | ok spot =>
      obtain ⟨goal, executable⟩ := spot
      have other : loc ≠ goal := by
        rintro rfl
        obtain ⟨found, way⟩ := locate_of_target aimed
        exact off found way
      dsimp only
      split
      · rw [at?_put_of_ne _ _ other, at?_put_of_ne _ _ other]
      · exact at?_put_of_ne _ _ other
  · rfl

theorem write_elsewhere (bytes : ByteArray)
    (off : ∀ found, d.locate .creating path ≠ .ok (loc, found)) :
    (d.write path bytes).1.at? loc = d.at? loc := by
  unfold write
  cases aimed : d.target path with
  | error cause => rfl
  | ok spot =>
    obtain ⟨goal, executable⟩ := spot
    refine at?_put_of_ne d _ ?_
    rintro rfl
    obtain ⟨found, way⟩ := locate_of_target aimed
    exact off found way

theorem act_off {action : Action} (off : ¬ d.Affects action loc) :
    (d.act action).1.at? loc = d.at? loc := by
  cases action with
  | makeDirs path => exact Classical.not_not.mp off
  | copy source dest =>
    simp only [act, Affects] at off ⊢
    cases copied : d.copy source dest with
    | mk e reply =>
      cases reply with
      | error cause => rw [copy_failed copied]
      | ok =>
        rw [copied] at off
        rw [← copied]
        exact copy_elsewhere fun found way => off ⟨rfl, found, way⟩
  | write path bytes =>
    simp only [act, Affects] at off ⊢
    cases written : d.write path bytes with
    | mk e reply =>
      cases reply with
      | error cause => rw [write_failed written]
      | ok =>
        rw [written] at off
        rw [← written]
        exact write_elsewhere bytes fun found way => off ⟨rfl, found, way⟩
  | rename old new =>
    simp only [act, Affects] at off ⊢
    rcases rename_cases d old new with ⟨_, none⟩ | ⟨origin, goal, m, n, entry, renamed, made⟩
    · rw [none]
    · obtain ⟨outer, name, slash⟩ := origin
      obtain ⟨dir, name', slash'⟩ := goal
      cases renamed.oldName
      cases renamed.newName
      rw [made] at off ⊢
      dsimp only
      split
      · rfl
      · refine at?_relocate_off (fun here => off ⟨rfl, _, .inl ?_, here⟩) fun here =>
          off ⟨rfl, _, .inr ?_, here⟩
        · exact ⟨m, outer, slash, renamed.found, rfl⟩
        · exact ⟨n, dir, slash', renamed.aimed, rfl⟩
  | unlink path =>
    simp only [act, Affects] at off ⊢
    rcases unlink_cases d path with same | ⟨place, n, there, named, _, gone⟩
    · rw [same]
    · obtain ⟨dir, name, slash⟩ := place
      cases named
      rw [gone] at off ⊢
      exact at?_remove_of_ne d fun here => off ⟨rfl, n, dir, slash, there, here⟩

end Disk

namespace Program

variable {ρ σ : Type}

/-- The calls that a program makes when nothing happens in between, each with the disk it is made on. -/
def calls (store : KeyStore σ) (w : World σ) : Program ρ → List (Disk × Action)
  | done _ => []
  | read path next => calls store w (next (w.disk.read path))
  | size path next => calls store w (next (w.disk.size? path))
  | act action next =>
    let (disk, reply) := w.disk.act action
    (w.disk, action) :: calls store { w with disk } (next reply)
  | put key value next =>
    let (keys, reply) := store.put w.keys key value
    calls store { w with keys } (next reply)

/-- What no call of a program affects is as it was before. -/
theorem run_off (store : KeyStore σ) (p : Program ρ) {w : World σ} {loc : Loc}
    (off : ∀ call ∈ p.calls store w, ¬ call.1.Affects call.2 loc) :
    (p.run store w).1.disk.at? loc = w.disk.at? loc := by
  induction p generalizing w with
  | done result => rfl
  | read path next ih => exact ih _ off
  | size path next ih => exact ih _ off
  | act action next ih =>
    have first := Disk.act_off (off _ List.mem_cons_self)
    exact (ih _ fun call member => off call (.tail _ member)).trans first
  | put key value next ih => exact ih _ off

end Program

end Spool
