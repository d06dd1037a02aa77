import Spool.Push.Crew

/-!
Programs at work side by side. One that makes all its calls in a row finishes, one that is done stays
done, and every crew can be brought to its end.
-/

namespace Spool.Crew

variable {σ ρ : Type}

theorem follow_append (store : KeyStore σ) (c : Crew σ ρ) (front back : List Nat) :
    c.follow store (front ++ back) = (c.follow store front).follow store back :=
  List.foldl_append

theorem step_eq {store : KeyStore σ} {c : Crew σ ρ} {i : Nat} {p : Program ρ}
    (here : c.programs[i]? = some p) : c.step store i =
      ⟨(p.step store c.world).1, c.programs.set i (p.step store c.world).2⟩ := by
  simp only [step, here]

theorem finish_eq {store : KeyStore σ} {c : Crew σ ρ} {i : Nat} {p : Program ρ}
    (here : c.programs[i]? = some p) : c.finish store i =
      ⟨(p.run store c.world).1, c.programs.set i (.done (p.run store c.world).2)⟩ := by
  simp only [finish, here]

theorem getElem?_step (store : KeyStore σ) {c : Crew σ ρ} {i : Nat} {p : Program ρ}
    (here : c.programs[i]? = some p) :
    (c.step store i).programs[i]? = some (p.step store c.world).2 := by
  obtain ⟨inside, _⟩ := List.getElem?_eq_some_iff.mp here
  rw [step_eq here, List.getElem?_set_self inside]

theorem finish_step {store : KeyStore σ} {c : Crew σ ρ} {i : Nat} {p : Program ρ}
    (here : c.programs[i]? = some p) : (c.step store i).finish store i = c.finish store i := by
  rw [finish_eq (getElem?_step store here), finish_eq here, step_eq here]
  simp only [Program.run_step, List.set_set]

theorem finish_eq_follow (store : KeyStore σ) (c : Crew σ ρ) (i : Nat) :
    ∃ k, c.finish store i = c.follow store (List.replicate k i) := by
  cases here : c.programs[i]? with
  | none => exact ⟨0, by simp only [finish, here]; rfl⟩
  | some p =>
    induction p generalizing c with
    | done r =>
      have same : c.programs.set i (.done r) = c.programs := by
        obtain ⟨inside, there⟩ := List.getElem?_eq_some_iff.mp here
        rw [← there, List.set_getElem_self]
      exact ⟨0, by rw [finish_eq here, Program.run, same]; rfl⟩
    | read _ _ ih | size _ _ ih | act _ _ ih | put _ _ _ ih =>
      obtain ⟨k, rest⟩ := ih _ (c.step store i) (getElem?_step store here)
      exact ⟨k + 1, by rw [← finish_step here, rest]; rfl⟩

theorem inTurn_eq_follow (store : KeyStore σ) (c : Crew σ ρ) (order : List Nat) :
    ∃ turns, c.inTurn store order = c.follow store turns := by
  induction order generalizing c with
  | nil => exact ⟨[], rfl⟩
  | cons i order ih =>
    obtain ⟨k, first⟩ := finish_eq_follow store c i
    obtain ⟨turns, rest⟩ := ih (c.finish store i)
    refine ⟨List.replicate k i ++ turns, ?_⟩
    rw [follow_append, ← first, ← rest]
    rfl

theorem finish_of_done (store : KeyStore σ) {c : Crew σ ρ} {k : Nat} {r : ρ}
    (done : c.programs[k]? = some (.done r)) (i : Nat) :
    (c.finish store i).programs[k]? = some (.done r) := by
  unfold finish
  split
  · exact done
  · next p here =>
    by_cases same : i = k
    · subst same
      rw [done] at here
      cases here
      obtain ⟨inside, _⟩ := List.getElem?_eq_some_iff.mp done
      exact List.getElem?_set_self inside
    · rw [List.getElem?_set_ne same]
      exact done

theorem inTurn_of_done (store : KeyStore σ) {c : Crew σ ρ} {k : Nat} {r : ρ}
    (done : c.programs[k]? = some (.done r)) (order : List Nat) :
    (c.inTurn store order).programs[k]? = some (.done r) := by
  induction order generalizing c with
  | nil => exact done
  | cons i order ih => exact ih (finish_of_done store done i)

theorem length_finish (store : KeyStore σ) (c : Crew σ ρ) (i : Nat) :
    (c.finish store i).programs.length = c.programs.length := by
  unfold finish
  split
  · rfl
  · exact List.length_set

theorem inTurn_done (store : KeyStore σ) (c : Crew σ ρ) {order : List Nat} {k : Nat}
    (inside : k < c.programs.length) (member : k ∈ order) :
    ∃ r, (c.inTurn store order).programs[k]? = some (.done r) := by
  induction order generalizing c with
  | nil => cases member
  | cons i order ih =>
    rcases List.mem_cons.mp member with rfl | later
    · have here := List.getElem?_eq_getElem inside
      have done : (c.finish store k).programs[k]? =
          some (.done (c.programs[k].run store c.world).2) := by
        rw [finish_eq here]
        exact List.getElem?_set_self inside
      exact ⟨_, inTurn_of_done store done order⟩
    · exact ih (c.finish store i) (by rwa [length_finish]) later

theorem length_inTurn (store : KeyStore σ) (c : Crew σ ρ) (order : List Nat) :
    (c.inTurn store order).programs.length = c.programs.length := by
  induction order generalizing c with
  | nil => rfl
  | cons i order ih => exact (ih (c.finish store i)).trans (length_finish store c i)

/-- All programs can be brought to their ends, and those that are there keep their results. -/
theorem exists_over (store : KeyStore σ) (c : Crew σ ρ) : ∃ turns, (c.follow store turns).Over ∧
    ∀ (k : Nat) (r : ρ), c.programs[k]? = some (.done r) →
      (c.follow store turns).programs[k]? = some (.done r) := by
  obtain ⟨turns, same⟩ := inTurn_eq_follow store c (List.range c.programs.length)
  refine ⟨turns, ?_, fun k r done => ?_⟩
  · rw [← same]
    intro undone
    obtain ⟨p, member, none⟩ := List.mem_map.mp undone
    obtain ⟨k, here⟩ := List.mem_iff_getElem?.mp member
    obtain ⟨inside, _⟩ := List.getElem?_eq_some_iff.mp here
    rw [length_inTurn] at inside
    obtain ⟨r, done⟩ := inTurn_done store c inside (List.mem_range.mpr inside)
    rw [here] at done
    cases done
    cases none
  · rw [← same]
    exact inTurn_of_done store done _

theorem Like.result {c e : Crew σ ρ} (like : c.Like e) {k : Nat} {r : ρ}
    (done : c.programs[k]? = some (.done r)) :
    ∃ p, e.programs[k]? = some p ∧ p.result? = some r := by
  have results := congrArg (·[k]?) like.results
  simp only [Crew.results, List.getElem?_map, done, Option.map_some] at results
  exact Option.map_eq_some_iff.mp results.symm

end Spool.Crew
