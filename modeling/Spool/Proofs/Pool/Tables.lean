import Spool.Pool.Machine
import Spool.Table

/-!
The calls and the workers of a pool as tables: what is under each number after a change, and what a
tally over a table becomes.
-/

namespace Spool

/-- The sum of a quantity over a list. -/
def tally {α : Type} (f : α → Nat) (xs : List α) : Nat :=
  xs.foldr (fun a n => f a + n) 0

section Tally

variable {α : Type} (f : α → Nat)

@[simp] theorem tally_nil : tally f [] = 0 := rfl

@[simp] theorem tally_cons (a : α) (xs : List α) : tally f (a :: xs) = f a + tally f xs := rfl

@[simp] theorem tally_append (xs ys : List α) : tally f (xs ++ ys) = tally f xs + tally f ys := by
  induction xs with
  | nil => simp
  | cons a xs ih => simp [ih, Nat.add_assoc]

theorem tally_set {xs : List α} {i : Nat} {old : α} (there : xs[i]? = some old) (new : α) :
    tally f (xs.set i new) + f old = tally f xs + f new := by
  induction xs generalizing i with
  | nil => cases there
  | cons a xs ih =>
    cases i with
    | zero =>
      cases there
      simp only [List.set_cons_zero, tally_cons]
      omega
    | succ i =>
      have rest := ih there
      simp only [List.set_cons_succ, tally_cons]
      omega

theorem le_tally {xs : List α} {a : α} (member : a ∈ xs) : f a ≤ tally f xs := by
  induction xs with
  | nil => cases member
  | cons b xs ih =>
    rcases List.mem_cons.mp member with rfl | later
    · exact Nat.le_add_right _ _
    · exact Nat.le_trans (ih later) (Nat.le_add_left _ _)

theorem tally_eq_zero {xs : List α} (none : ∀ a ∈ xs, f a = 0) : tally f xs = 0 := by
  induction xs with
  | nil => rfl
  | cons a xs ih =>
    rw [tally_cons, none a List.mem_cons_self, ih fun b member => none b (.tail a member)]

theorem tally_mono {g : α → Nat} {xs : List α} (le : ∀ a ∈ xs, f a ≤ g a) :
    tally f xs ≤ tally g xs := by
  induction xs with
  | nil => exact Nat.le_refl 0
  | cons a xs ih =>
    rw [tally_cons, tally_cons]
    exact Nat.add_le_add (le a List.mem_cons_self) (ih fun b member => le b (.tail a member))

theorem tally_le_length {xs : List α} (one : ∀ a, f a ≤ 1) : tally f xs ≤ xs.length := by
  induction xs with
  | nil => exact Nat.le_refl 0
  | cons a xs ih =>
    have here := one a
    simp only [tally_cons, List.length_cons]
    omega

theorem eq_one_of_tally {xs : List α} (one : ∀ a, f a ≤ 1) (full : tally f xs = xs.length) {a : α}
    (member : a ∈ xs) : f a = 1 := by
  induction xs with
  | nil => cases member
  | cons b xs ih =>
    have here := one b
    have rest : tally f xs ≤ xs.length := tally_le_length f one
    simp only [tally_cons, List.length_cons] at full
    rcases List.mem_cons.mp member with rfl | later
    · omega
    · exact ih (by omega) later

theorem tally_map {β : Type} (g : β → α) (xs : List β) :
    tally f (xs.map g) = tally (fun b => f (g b)) xs := by
  induction xs with
  | nil => rfl
  | cons b xs ih => simp only [List.map_cons, tally_cons, ih]

/-- A sum of ones is a count. -/
theorem tally_toNat (test : α → Bool) (xs : List α) :
    tally (fun a => (test a).toNat) xs = xs.countP test := by
  induction xs with
  | nil => rfl
  | cons a xs ih =>
    rw [tally_cons, ih, List.countP_cons]
    cases test a <;> simp [Nat.add_comm]

theorem tally_filter {β : Type} [DecidableEq β] {key : α → β} {xs : List α}
    (nodup : (xs.map key).Nodup) {a : α} (member : a ∈ xs) :
    tally f (xs.filter fun b => key b ≠ key a) + f a = tally f xs := by
  induction xs with
  | nil => cases member
  | cons b xs ih =>
    rw [List.map_cons, List.nodup_cons] at nodup
    rcases List.mem_cons.mp member with rfl | later
    · have rest : xs.filter (fun b => key b ≠ key a) = xs := by
        refine List.filter_eq_self.mpr fun b known => decide_eq_true fun same => ?_
        exact nodup.1 (List.mem_map.mpr ⟨b, known, same⟩)
      simp only [List.filter_cons, ne_eq, not_true_eq_false, decide_false, Bool.false_eq_true,
        if_false, tally_cons]
      simp only [ne_eq] at rest
      rw [rest]
      omega
    · have apart : key b ≠ key a := fun same =>
        nodup.1 (List.mem_map.mpr ⟨a, later, same.symm⟩)
      have rest := ih nodup.2 later
      have kept : decide (key b ≠ key a) = true := decide_eq_true apart
      simp only [List.filter_cons, kept, if_true, tally_cons]
      omega

theorem tally_two {xs : List α} {i j : Nat} {a b : α}
    (first : xs[i]? = some a) (second : xs[j]? = some b) (apart : i ≠ j) :
    f a + f b ≤ tally f xs := by
  induction xs generalizing i j with
  | nil => cases first
  | cons x xs ih =>
    cases i with
    | zero =>
      cases first
      cases j with
      | zero => exact absurd rfl apart
      | succ j =>
        have member := le_tally f (List.mem_of_getElem? (show xs[j]? = some b from second))
        simp only [tally_cons]
        omega
    | succ i =>
      cases j with
      | zero =>
        cases second
        have member := le_tally f (List.mem_of_getElem? (show xs[i]? = some a from first))
        simp only [tally_cons]
        omega
      | succ j =>
        have rest := ih (show xs[i]? = some a from first) (show xs[j]? = some b from second) (by omega)
        simp only [tally_cons]
        omega

theorem exists_of_tally_pos {xs : List α} (pos : 0 < tally f xs) : ∃ a ∈ xs, 0 < f a := by
  induction xs with
  | nil => cases pos
  | cons a xs ih =>
    rcases Nat.eq_zero_or_pos (f a) with zero | found
    · rw [tally_cons, zero, Nat.zero_add] at pos
      obtain ⟨b, member, found⟩ := ih pos
      exact ⟨b, .tail a member, found⟩
    · exact ⟨a, List.mem_cons_self, found⟩

end Tally

namespace Pool

variable {κ : Type}

/-- The call goes on with a phase, or is over. -/
def goOn (p : Pool κ) (c : Nat) : Option (CallPhase κ) → Pool κ
  | some phase => p.setCall c phase
  | none => p.endCall c

/-- What a sleeping call does when the drain is announced. -/
def CallPhase.woken : CallPhase κ → CallPhase κ
  | .asleep => .locking
  | phase => phase

section Fields

variable (p : Pool κ) (c : Nat) (w : Nat) (worker : Worker) (next : Option (CallPhase κ))

@[simp] theorem goOn_size : (p.goOn c next).size = p.size := by cases next <;> rfl
@[simp] theorem goOn_queue : (p.goOn c next).queue = p.queue := by cases next <;> rfl
@[simp] theorem goOn_issued : (p.goOn c next).issued = p.issued := by cases next <;> rfl
@[simp] theorem goOn_pending : (p.goOn c next).pending = p.pending := by cases next <;> rfl
@[simp] theorem goOn_lifecycle : (p.goOn c next).lifecycle = p.lifecycle := by cases next <;> rfl
@[simp] theorem goOn_callback : (p.goOn c next).callback = p.callback := by cases next <;> rfl
@[simp] theorem goOn_drainLock : (p.goOn c next).drainLock = p.drainLock := by cases next <;> rfl
@[simp] theorem goOn_workers : (p.goOn c next).workers = p.workers := by cases next <;> rfl
@[simp] theorem goOn_dropped : (p.goOn c next).dropped = p.dropped := by cases next <;> rfl
@[simp] theorem goOn_terminationsExecuted :
    (p.goOn c next).terminationsExecuted = p.terminationsExecuted := by cases next <;> rfl
@[simp] theorem goOn_teardowns : (p.goOn c next).teardowns = p.teardowns := by cases next <;> rfl
@[simp] theorem goOn_failed : (p.goOn c next).failed = p.failed := by cases next <;> rfl
@[simp] theorem goOn_moveMode : (p.goOn c next).moveMode = p.moveMode := by cases next <;> rfl

@[simp] theorem setWorker_size : (p.setWorker w worker).size = p.size := rfl
@[simp] theorem setWorker_queue : (p.setWorker w worker).queue = p.queue := rfl
@[simp] theorem setWorker_issued : (p.setWorker w worker).issued = p.issued := rfl
@[simp] theorem setWorker_pending : (p.setWorker w worker).pending = p.pending := rfl
@[simp] theorem setWorker_lifecycle : (p.setWorker w worker).lifecycle = p.lifecycle := rfl
@[simp] theorem setWorker_callback : (p.setWorker w worker).callback = p.callback := rfl
@[simp] theorem setWorker_drainLock : (p.setWorker w worker).drainLock = p.drainLock := rfl
@[simp] theorem setWorker_calls : (p.setWorker w worker).calls = p.calls := rfl
@[simp] theorem setWorker_dropped : (p.setWorker w worker).dropped = p.dropped := rfl
@[simp] theorem setWorker_terminationsExecuted :
    (p.setWorker w worker).terminationsExecuted = p.terminationsExecuted := rfl
@[simp] theorem setWorker_teardowns : (p.setWorker w worker).teardowns = p.teardowns := rfl
@[simp] theorem setWorker_failed : (p.setWorker w worker).failed = p.failed := rfl
@[simp] theorem setWorker_workers :
    (p.setWorker w worker).workers = p.workers.set w worker := rfl

@[simp] theorem wakeWaiters_size : p.wakeWaiters.size = p.size := rfl
@[simp] theorem wakeWaiters_queue : p.wakeWaiters.queue = p.queue := rfl
@[simp] theorem wakeWaiters_issued : p.wakeWaiters.issued = p.issued := rfl
@[simp] theorem wakeWaiters_pending : p.wakeWaiters.pending = p.pending := rfl
@[simp] theorem wakeWaiters_lifecycle : p.wakeWaiters.lifecycle = p.lifecycle := rfl
@[simp] theorem wakeWaiters_callback : p.wakeWaiters.callback = p.callback := rfl
@[simp] theorem wakeWaiters_drainLock : p.wakeWaiters.drainLock = p.drainLock := rfl
@[simp] theorem wakeWaiters_workers : p.wakeWaiters.workers = p.workers := rfl
@[simp] theorem wakeWaiters_dropped : p.wakeWaiters.dropped = p.dropped := rfl
@[simp] theorem wakeWaiters_terminationsExecuted :
    p.wakeWaiters.terminationsExecuted = p.terminationsExecuted := rfl
@[simp] theorem wakeWaiters_teardowns : p.wakeWaiters.teardowns = p.teardowns := rfl
@[simp] theorem wakeWaiters_failed : p.wakeWaiters.failed = p.failed := rfl

theorem wakeWaiters_calls :
    p.wakeWaiters.calls = p.calls.map fun (c, phase) => (c, CallPhase.woken phase) := by
  refine List.map_congr_left fun (c, phase) _ => ?_
  cases phase <;> rfl

end Fields

section Calls

variable (p : Pool κ) (c d : Nat)

theorem call?_setCall (phase : CallPhase κ) :
    (p.setCall c phase).call? d =
      if d = c then (p.call? c).map fun _ => phase else p.call? d := by
  have table : (p.setCall c phase).calls =
      p.calls.map fun (d, old) => (d, if d = c then phase else old) := by
    refine List.map_congr_left fun (d, old) _ => ?_
    dsimp only
    split <;> rfl
  simp only [call?, table]
  rw [Table.lookup_map fun d old => if d = c then phase else old]
  split
  · next same => subst same; rfl
  · simp

theorem call?_endCall : (p.endCall c).call? d = if d = c then none else p.call? d :=
  Table.lookup_filter_ne p.calls c d

theorem call?_goOn (next : Option (CallPhase κ)) :
    (p.goOn c next).call? d =
      if d = c then (p.call? c).bind fun _ => next else p.call? d := by
  cases next with
  | none => simp [goOn, call?_endCall]
  | some phase =>
    simp only [goOn, call?_setCall]
    split
    · cases p.call? c <;> rfl
    · rfl

theorem call?_wakeWaiters : p.wakeWaiters.call? d = (p.call? d).map CallPhase.woken := by
  simp only [call?, wakeWaiters_calls]
  exact Table.lookup_map (fun _ => CallPhase.woken) p.calls d

theorem keys_goOn_sublist (next : Option (CallPhase κ)) :
    ((p.goOn c next).calls.map Prod.fst).Sublist (p.calls.map Prod.fst) := by
  cases next with
  | none => exact (List.filter_sublist).map Prod.fst
  | some phase =>
    have same : (p.setCall c phase).calls.map Prod.fst = p.calls.map Prod.fst := by
      simp only [setCall, List.map_map]
      refine List.map_congr_left fun (d, old) _ => ?_
      simp only [Function.comp_apply]
      split <;> rfl
    exact same ▸ List.Sublist.refl _

theorem keys_wakeWaiters : p.wakeWaiters.calls.map Prod.fst = p.calls.map Prod.fst := by
  simp only [wakeWaiters_calls, List.map_map]
  rfl

/-- The sum of a quantity over the calls that have not returned. -/
def callSum (f : CallPhase κ → Nat) : Nat :=
  tally (fun call : Nat × CallPhase κ => f call.2) p.calls

variable {p c} (f : CallPhase κ → Nat)

theorem lookup_of_mem {table : List (Nat × CallPhase κ)} (nodup : (table.map Prod.fst).Nodup)
    {phase : CallPhase κ} (member : (c, phase) ∈ table) : table.lookup c = some phase := by
  induction table with
  | nil => cases member
  | cons head table ih =>
    rw [List.map_cons, List.nodup_cons] at nodup
    rcases List.mem_cons.mp member with rfl | later
    · simp
    · have apart : c ≠ head.1 := fun same =>
        nodup.1 (List.mem_map.mpr ⟨(c, phase), later, same⟩)
      rw [List.lookup_cons, beq_eq_false_iff_ne.mpr apart]
      exact ih nodup.2 later

theorem mem_of_call? {phase : CallPhase κ} (there : p.call? c = some phase) :
    (c, phase) ∈ p.calls := by
  obtain ⟨_, _, split, _⟩ := List.lookup_eq_some_iff.mp there
  rw [split]
  exact List.mem_append_right _ List.mem_cons_self

theorem nodup_threads (callers : (p.calls.map Prod.fst).Nodup) :
    (p.calls.map fun call => Thread.caller call.1).Nodup := by
  rw [List.Nodup, List.pairwise_map] at callers ⊢
  exact callers.imp fun other same => other (Thread.caller.inj same)

theorem le_callSum {phase : CallPhase κ} (there : p.call? c = some phase) :
    f phase ≤ p.callSum f :=
  le_tally (fun call : Nat × CallPhase κ => f call.2) (mem_of_call? there)

theorem unchanged_of_not_mem {table : List (Nat × CallPhase κ)} (absent : c ∉ table.map Prod.fst)
    (phase : CallPhase κ) :
    (table.map fun (d, old) => if d = c then (d, phase) else (d, old)) = table ∧
      table.filter (·.1 ≠ c) = table := by
  have apart : ∀ call ∈ table, call.1 ≠ c := fun call member same =>
    absent (List.mem_map.mpr ⟨call, member, same⟩)
  constructor
  · refine (List.map_congr_left fun call member => ?_).trans (List.map_id table)
    simp [apart call member]
  · exact List.filter_eq_self.mpr fun call member => by simpa using apart call member

theorem callSum_setCall (nodup : (p.calls.map Prod.fst).Nodup) {old : CallPhase κ}
    (there : p.call? c = some old) (phase : CallPhase κ) :
    (p.setCall c phase).callSum f + f old = p.callSum f + f phase := by
  simp only [callSum, setCall]
  simp only [call?] at there
  generalize p.calls = table at nodup there ⊢
  induction table with
  | nil => cases there
  | cons head table ih =>
    obtain ⟨d, now⟩ := head
    rw [List.map_cons, List.nodup_cons] at nodup
    rw [List.map_cons, tally_cons, tally_cons]
    by_cases same : d = c
    · subst same
      have now_old : now = old := by simpa using there
      simp only [now_old, (unchanged_of_not_mem nodup.1 phase).1, if_true]
      omega
    · rw [List.lookup_cons, beq_eq_false_iff_ne.mpr (Ne.symm same)] at there
      have rest := ih nodup.2 there
      simp only [same, if_false]
      omega

theorem callSum_endCall (nodup : (p.calls.map Prod.fst).Nodup) {old : CallPhase κ}
    (there : p.call? c = some old) : (p.endCall c).callSum f + f old = p.callSum f :=
  tally_filter (fun call : Nat × CallPhase κ => f call.2) nodup (mem_of_call? there)

theorem callSum_goOn (nodup : (p.calls.map Prod.fst).Nodup) {old : CallPhase κ}
    (there : p.call? c = some old) (next : Option (CallPhase κ)) :
    (p.goOn c next).callSum f + f old = p.callSum f + (next.map f).getD 0 := by
  cases next with
  | none => exact callSum_endCall f nodup there
  | some phase => exact callSum_setCall f nodup there phase

theorem callSum_wakeWaiters (same : f .asleep = f .locking) :
    p.wakeWaiters.callSum f = p.callSum f := by
  simp only [callSum, wakeWaiters_calls]
  generalize p.calls = table
  induction table with
  | nil => rfl
  | cons head table ih =>
    obtain ⟨d, phase⟩ := head
    simp only [List.map_cons, tally_cons, ih]
    cases phase <;> simp [CallPhase.woken, same]

end Calls

/-- The sum of a quantity over what the workers are doing. -/
def workerSum (f : WorkerPhase → Nat) (p : Pool κ) : Nat :=
  tally (fun worker => f worker.phase) p.workers

theorem workerSum_setWorker {p q : Pool κ} (f : WorkerPhase → Nat) {w : Nat} {worker : Worker}
    (there : p.worker? w = some worker) (same : q.workers = p.workers) (new : Worker) :
    (q.setWorker w new).workerSum f + f worker.phase = p.workerSum f + f new.phase := by
  simp only [workerSum, setWorker_workers, same]
  exact tally_set (fun worker => f worker.phase) there new

end Pool

end Spool
