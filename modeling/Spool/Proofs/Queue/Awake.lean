import Spool.Proofs.Queue.Wakeups

/-!
How many threads inside a queue are awake. Who goes to sleep is one less; a put and a get that return
wake no more than one getter, and the sleeping putters.
-/

namespace Spool.Queue

variable {ι α : Type}

section Counts

variable {β : Type} {t : β → Bool} {f : β → β} {xs : List β}

/-- A change that makes no element count makes fewer count, if one that counted does not any more. -/
theorem countP_map_lt (less : ∀ x, t (f x) = true → t x = true) {a : β} (member : a ∈ xs)
    (was : t a = true) (gone : t (f a) = false) : (xs.map f).countP t < xs.countP t := by
  induction xs with
  | nil => cases member
  | cons x xs ih =>
    have rest : (xs.map f).countP t ≤ xs.countP t := by
      rw [List.countP_map]
      exact List.countP_mono_left fun y _ => less y
    simp only [List.map_cons, List.countP_cons]
    rcases List.mem_cons.mp member with rfl | inside
    · simp only [was, gone, Bool.false_eq_true, if_false, if_true]
      omega
    · have fewer := ih inside
      by_cases kept : t (f x) = true
      · simp only [kept, less x kept, if_true]
        omega
      · simp only [kept, Bool.false_eq_true, if_false]
        omega

/-- A change of the element with one key makes at most one more count. -/
theorem countP_map_le {key : β → ι} [DecidableEq ι] (i : ι) (other : ∀ x, key x ≠ i → f x = x)
    (nodup : (xs.map key).Nodup) : (xs.map f).countP t ≤ xs.countP t + 1 := by
  induction xs with
  | nil => exact Nat.zero_le _
  | cons x xs ih =>
    rw [List.map_cons, List.nodup_cons] at nodup
    simp only [List.map_cons, List.countP_cons]
    by_cases this : key x = i
    · have same : xs.map f = xs := by
        refine (List.map_congr_left fun y member => ?_).trans (List.map_id xs)
        refine other y fun here => nodup.1 ?_
        exact this ▸ here ▸ List.mem_map_of_mem member
      rw [same]
      split <;> split <;> omega
    · rw [other x this]
      have few := ih nodup.2
      omega

end Counts

/-- The threads inside that are not asleep. -/
def awake (q : Queue ι α) : Nat :=
  (q.putters.countP fun p => p.phase ≠ .asleep) + q.getters.countP fun g => g.phase ≠ .asleep

variable {q : Queue ι α}

theorem awake_beginPut (i : ι) (a : α) : (q.beginPut i a).awake = q.awake + 1 := by
  simp only [awake, beginPut_putters, beginPut_getters, List.countP_append]
  simp
  omega

theorem awake_beginGet (i : ι) : (q.beginGet i).awake = q.awake + 1 := by
  simp only [awake, beginGet_putters, beginGet_getters, List.countP_append]
  simp
  omega

variable [DecidableEq ι]

theorem awake_holdBack {i : ι} {p : Putter ι α} (found : q.putter? i = some p)
    (awake : p.phase ≠ .asleep) : (q.holdBack p).awake < q.awake := by
  obtain ⟨member, _⟩ := mem_of_putter? found
  simp only [Queue.awake, holdBack_putters, holdBack_getters]
  refine Nat.add_lt_add_right (countP_map_lt (fun r counts => ?_) member ?_ ?_) _
  · split at counts
    · simp at counts
    · exact counts
  · simpa using awake
  · simp

theorem awake_setGetter {i : ι} {g : Getter ι} (found : q.getter? i = some g)
    (awake : g.phase ≠ .asleep) : (q.setGetter i .asleep).awake < q.awake := by
  obtain ⟨member, same⟩ := mem_of_getter? found
  simp only [Queue.awake, setGetter_putters]
  refine Nat.add_lt_add_left (countP_map_lt (fun r counts => ?_) member ?_ ?_) _
  · split at counts
    · simp at counts
    · exact counts
  · simpa using awake
  · simp [same]

/-- A put that returns wakes one getter at most. -/
theorem awake_append (distinct : q.Distinct) (p : Putter ι α) (woken : Option ι) :
    ((q.append p).wakeGetter woken).awake ≤ q.awake + 1 := by
  have putters : (q.putters.filter fun r => r.thread ≠ p.thread).countP
      (fun r => r.phase ≠ .asleep) ≤ q.putters.countP fun r => r.phase ≠ .asleep :=
    List.filter_sublist.countP_le
  simp only [awake, wakeGetter_putters, append_putters]
  cases woken with
  | none =>
    simp only [wakeGetter, append_getters]
    omega
  | some i =>
    have getters := countP_map_le (t := fun g : Getter ι => decide (g.phase ≠ .asleep))
      (f := fun g => if g.thread = i then { g with phase := .notified } else g) i
      (fun g other => if_neg other) distinct.getters
    simp only [wakeGetter, setGetter, append_getters]
    omega

/-- A get that returns wakes no other getter. -/
theorem awake_remove (i : ι) (rest : List α) :
    (q.remove i rest).awake ≤ q.awake + q.putters.length := by
  have getters : (q.getters.filter fun g => g.thread ≠ i).countP (fun g => g.phase ≠ .asleep) ≤
      q.getters.countP fun g => g.phase ≠ .asleep := List.filter_sublist.countP_le
  have putters : (q.remove i rest).putters.length = q.putters.length := by
    simpa using congrArg List.length (threads_of_samePutters (samePutters_remove q i rest))
  have all : ((q.remove i rest).putters.countP fun p => p.phase ≠ .asleep) ≤
      (q.remove i rest).putters.length := List.countP_le_length
  simp only [awake, remove_getters]
  omega

end Spool.Queue
