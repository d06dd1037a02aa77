/-!
Tables: lists of keys with what is told of each. Where a key has several entries the first one counts.
-/

namespace Spool.Table

variable {κ α β : Type} [BEq κ] [LawfulBEq κ]

theorem mem_of_lookup {table : List (κ × α)} {key : κ} {a : α}
    (found : table.lookup key = some a) : (key, a) ∈ table := by
  obtain ⟨before, after, rfl, -⟩ := List.lookup_eq_some_iff.mp found
  exact List.mem_append_right before List.mem_cons_self

theorem lookup_map (f : κ → α → β) (table : List (κ × α)) (key : κ) :
    (table.map fun (k, a) => (k, f k a)).lookup key = (table.lookup key).map (f key) := by
  induction table with
  | nil => rfl
  | cons head table ih =>
    obtain ⟨k, a⟩ := head
    simp only [List.map_cons, List.lookup_cons, ih]
    by_cases same : key = k
    · subst same; simp
    · simp [beq_eq_false_iff_ne.mpr same]

theorem lookup_filter (keep : κ → Bool) (table : List (κ × α)) (key : κ) :
    (table.filter fun (k, _) => keep k).lookup key =
      if keep key then table.lookup key else none := by
  induction table with
  | nil => simp
  | cons head table ih =>
    obtain ⟨k, a⟩ := head
    by_cases same : key = k
    · subst same
      cases kept : keep key <;> simp [kept, ih]
    · have other := beq_eq_false_iff_ne.mpr same
      cases kept : keep k <;> simp [kept, ih, List.lookup_cons, other]

theorem lookup_filter_ne [DecidableEq κ] (table : List (κ × α)) (gone key : κ) :
    (table.filter (·.1 ≠ gone)).lookup key = if key = gone then none else table.lookup key := by
  refine (lookup_filter (· ≠ gone) table key).trans ?_
  by_cases same : key = gone <;> simp [same]

end Spool.Table
