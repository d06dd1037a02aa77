import Spool.Queue.Basic

/-!
What one turn does to a queue. Each turn is opened here once; what is proved later about queues and
pools rests on these lemmas and does not look into the turns again.
-/

namespace Spool.Queue

section Begin

variable {ι α : Type} (q : Queue ι α) (i : ι)

@[simp] theorem beginPut_items (a : α) : (q.beginPut i a).items = q.items := rfl
@[simp] theorem beginPut_getters (a : α) : (q.beginPut i a).getters = q.getters := rfl
@[simp] theorem beginPut_capacity (a : α) : (q.beginPut i a).capacity = q.capacity := rfl
@[simp] theorem beginPut_counts (a : α) : (q.beginPut i a).counts = q.counts := rfl
@[simp] theorem beginPut_putters (a : α) :
    (q.beginPut i a).putters = q.putters ++ [⟨i, a, .arriving⟩] := rfl

@[simp] theorem beginGet_items : (q.beginGet i).items = q.items := rfl
@[simp] theorem beginGet_putters : (q.beginGet i).putters = q.putters := rfl
@[simp] theorem beginGet_capacity : (q.beginGet i).capacity = q.capacity := rfl
@[simp] theorem beginGet_counts : (q.beginGet i).counts = q.counts := rfl
@[simp] theorem beginGet_getters : (q.beginGet i).getters = q.getters ++ [⟨i, .arriving⟩] := rfl

end Begin

variable {ι α : Type} [DecidableEq ι]

theorem putTurn?_eq_some {q r : Queue ι α} {i : ι} {woken : Option ι} {back : Bool}
    (turn : q.putTurn? i woken = some (r, back)) :
    ∃ p, q.putter? i = some p ∧ p.phase ≠ .asleep ∧
      (back = false ∧ q.isFull = true ∧ woken = none ∧ r = q.holdBack p ∨
        back = true ∧ q.isFull = false ∧ q.mayWake woken = true ∧
          r = (q.append p).wakeGetter woken) := by
  unfold putTurn? at turn
  split at turn
  · cases turn
  · next p found =>
    split at turn
    · cases turn
    · next awake =>
      refine ⟨p, found, awake, ?_⟩
      split at turn
      · next full =>
        split at turn
        · cases turn
        · next nobody =>
          cases turn
          exact .inl ⟨rfl, full, by simpa using nobody, rfl⟩
      · next room =>
        split at turn
        · next may =>
          cases turn
          exact .inr ⟨rfl, Bool.eq_false_iff.mpr room, may, rfl⟩
        · cases turn

theorem getTurn?_eq_some {q r : Queue ι α} {i : ι} {got : Option α}
    (turn : q.getTurn? i = some (r, got)) :
    ∃ g, q.getter? i = some g ∧ g.phase ≠ .asleep ∧
      (got = none ∧ q.items = [] ∧ r = q.setGetter i .asleep ∨
        ∃ a rest, got = some a ∧ q.items = a :: rest ∧ r = q.remove i rest) := by
  unfold getTurn? at turn
  split at turn
  · cases turn
  · next g found =>
    split at turn
    · cases turn
    · next awake =>
      refine ⟨g, found, awake, ?_⟩
      split at turn
      · next empty =>
        cases turn
        exact .inl ⟨rfl, empty, rfl⟩
      · next a rest items =>
        cases turn
        exact .inr ⟨a, rest, rfl, items, rfl⟩

theorem rouse?_eq_some {q r : Queue ι α} {i : ι} (turn : q.rouse? i = some r) :
    (∃ p, q.putter? i = some p ∧ p.phase = .asleep ∧ r = q.setPutter i .notified) ∨
      ∃ g, q.getter? i = some g ∧ g.phase = .asleep ∧ r = q.setGetter i .notified := by
  unfold rouse? at turn
  split at turn
  · next found => exact .inl ⟨_, found, rfl, (Option.some.inj turn).symm⟩
  · next found => exact .inr ⟨_, found, rfl, (Option.some.inj turn).symm⟩
  · cases turn

theorem mem_of_putter? {q : Queue ι α} {i : ι} {p : Putter ι α} (found : q.putter? i = some p) :
    p ∈ q.putters ∧ p.thread = i :=
  ⟨List.mem_of_find?_eq_some found, by simpa using List.find?_some found⟩

theorem mem_of_getter? {q : Queue ι α} {i : ι} {g : Getter ι} (found : q.getter? i = some g) :
    g ∈ q.getters ∧ g.thread = i :=
  ⟨List.mem_of_find?_eq_some found, by simpa using List.find?_some found⟩

/-- A thread goes to sleep or wakes, and that is all. -/
inductive Doze (q : Queue ι α) : Queue ι α → Prop
  | heldBack {p : Putter ι α} : p.phase ≠ .asleep → q.isFull = true → q.Doze (q.holdBack p)
  | dozed {i : ι} : q.items = [] → q.Doze (q.setGetter i .asleep)
  | rousedPutter {i : ι} : q.Doze (q.setPutter i .notified)
  | rousedGetter {i : ι} : q.Doze (q.setGetter i .notified)

theorem doze_of_rouse? {q r : Queue ι α} {i : ι} (turn : q.rouse? i = some r) : q.Doze r := by
  rcases rouse?_eq_some turn with ⟨_, _, _, rfl⟩ | ⟨_, _, _, rfl⟩
  · exact .rousedPutter
  · exact .rousedGetter

/-- A thread inside a put has a turn unless it sleeps. -/
theorem exists_putTurn? {q : Queue ι α} {i : ι} {p : Putter ι α} (found : q.putter? i = some p)
    (awake : p.phase ≠ .asleep) : ∃ woken, (q.putTurn? i woken).isSome = true := by
  by_cases full : q.isFull = true
  · exact ⟨none, by simp [putTurn?, found, awake, full]⟩
  · by_cases sleeper : ∃ g ∈ q.getters, g.phase = .asleep
    · obtain ⟨g, member, asleep⟩ := sleeper
      have may : q.mayWake (some g.thread) = true :=
        List.any_eq_true.mpr ⟨g, member, by simp [asleep]⟩
      exact ⟨some g.thread, by simp [putTurn?, found, awake, full, may]⟩
    · have may : q.mayWake none = true := by
        refine List.all_eq_true.mpr fun g member => decide_eq_true ?_
        exact fun asleep => sleeper ⟨g, member, asleep⟩
      exact ⟨none, by simp [putTurn?, found, awake, full, may]⟩

/-- A thread inside a get has a turn unless it sleeps. -/
theorem isSome_getTurn? {q : Queue ι α} {i : ι} {g : Getter ι} (found : q.getter? i = some g)
    (awake : g.phase ≠ .asleep) : (q.getTurn? i).isSome = true := by
  unfold getTurn?
  rw [found]
  simp only [awake, if_false]
  split <;> rfl

section Fields

variable (q : Queue ι α) (i : ι) (phase : Phase) (p : Putter ι α) (rest : List α)

@[simp] theorem setPutter_items : (q.setPutter i phase).items = q.items := rfl
@[simp] theorem setPutter_getters : (q.setPutter i phase).getters = q.getters := rfl
@[simp] theorem setPutter_capacity : (q.setPutter i phase).capacity = q.capacity := rfl
@[simp] theorem setPutter_counts : (q.setPutter i phase).counts = q.counts := rfl

@[simp] theorem setGetter_items : (q.setGetter i phase).items = q.items := rfl
@[simp] theorem setGetter_putters : (q.setGetter i phase).putters = q.putters := rfl
@[simp] theorem setGetter_capacity : (q.setGetter i phase).capacity = q.capacity := rfl
@[simp] theorem setGetter_counts : (q.setGetter i phase).counts = q.counts := rfl

@[simp] theorem wakeGetter_items (woken : Option ι) : (q.wakeGetter woken).items = q.items := by
  cases woken <;> rfl
@[simp] theorem wakeGetter_putters (woken : Option ι) :
    (q.wakeGetter woken).putters = q.putters := by
  cases woken <;> rfl
@[simp] theorem wakeGetter_capacity (woken : Option ι) :
    (q.wakeGetter woken).capacity = q.capacity := by
  cases woken <;> rfl
@[simp] theorem wakeGetter_counts (woken : Option ι) : (q.wakeGetter woken).counts = q.counts := by
  cases woken <;> rfl

@[simp] theorem append_items : (q.append p).items = q.items ++ [p.item] := rfl
@[simp] theorem append_getters : (q.append p).getters = q.getters := rfl
@[simp] theorem append_capacity : (q.append p).capacity = q.capacity := rfl
@[simp] theorem append_counts : (q.append p).counts = { q.counts with
    enqueued := q.counts.enqueued + 1, peak := max q.counts.peak (q.items.length + 1) } := rfl
@[simp] theorem append_putters :
    (q.append p).putters = q.putters.filter fun r => r.thread ≠ p.thread := rfl

@[simp] theorem holdBack_items : (q.holdBack p).items = q.items := by
  unfold holdBack; dsimp only; split <;> rfl
@[simp] theorem holdBack_getters : (q.holdBack p).getters = q.getters := by
  unfold holdBack; dsimp only; split <;> rfl
@[simp] theorem holdBack_capacity : (q.holdBack p).capacity = q.capacity := by
  unfold holdBack; dsimp only; split <;> rfl
@[simp] theorem holdBack_counts : (q.holdBack p).counts = { q.counts with
    backpressure := q.counts.backpressure + if p.phase = .arriving then 1 else 0 } := by
  unfold holdBack; dsimp only; split <;> rfl
@[simp] theorem holdBack_putters :
    (q.holdBack p).putters = (q.setPutter p.thread .asleep).putters := by
  unfold holdBack; dsimp only; split <;> rfl

@[simp] theorem remove_items : (q.remove i rest).items = rest := by
  unfold remove; dsimp only; split <;> rfl
@[simp] theorem remove_capacity : (q.remove i rest).capacity = q.capacity := by
  unfold remove; dsimp only; split <;> rfl
@[simp] theorem remove_counts : (q.remove i rest).counts =
    { q.counts with dequeued := q.counts.dequeued + 1 } := by
  unfold remove; dsimp only; split <;> rfl
@[simp] theorem remove_getters :
    (q.remove i rest).getters = q.getters.filter fun g => g.thread ≠ i := by
  unfold remove; dsimp only; split <;> rfl

end Fields

/-- Putters stay the same threads with the same items, whatever their phases. -/
def SamePutters (q r : Queue ι α) : Prop :=
  r.putters.map (fun p => (p.thread, p.item)) = q.putters.map fun p => (p.thread, p.item)

def SameGetters (q r : Queue ι α) : Prop :=
  r.getters.map (·.thread) = q.getters.map (·.thread)

theorem samePutters_setPutter (q : Queue ι α) (i : ι) (phase : Phase) :
    q.SamePutters (q.setPutter i phase) := by
  simp only [SamePutters, setPutter, List.map_map]
  refine List.map_congr_left fun p _ => ?_
  simp only [Function.comp_apply]
  split <;> rfl

theorem samePutters_remove (q : Queue ι α) (i : ι) (rest : List α) :
    q.SamePutters (q.remove i rest) := by
  unfold remove
  dsimp only
  split
  · simp only [SamePutters, wakePutters, List.map_map]
    refine List.map_congr_left fun p _ => ?_
    simp only [Function.comp_apply]
    split <;> rfl
  · rfl

theorem sameGetters_setGetter (q : Queue ι α) (i : ι) (phase : Phase) :
    q.SameGetters (q.setGetter i phase) := by
  simp only [SameGetters, setGetter, List.map_map]
  refine List.map_congr_left fun g _ => ?_
  simp only [Function.comp_apply]
  split <;> rfl

theorem sameGetters_wakeGetter (q : Queue ι α) (woken : Option ι) :
    q.SameGetters (q.wakeGetter woken) := by
  cases woken with
  | none => rfl
  | some i => exact sameGetters_setGetter q i .notified

omit [DecidableEq ι] in
theorem threads_of_samePutters {q r : Queue ι α} (same : q.SamePutters r) :
    r.putters.map (·.thread) = q.putters.map (·.thread) := by
  have first := congrArg (List.map Prod.fst) same
  rw [List.map_map, List.map_map] at first
  exact first

theorem samePutters_of_doze {q r : Queue ι α} (doze : q.Doze r) : q.SamePutters r := by
  cases doze with
  | @heldBack p => simpa [SamePutters] using samePutters_setPutter q p.thread .asleep
  | @rousedPutter i => exact samePutters_setPutter q i .notified
  | dozed | rousedGetter => rfl

theorem sameGetters_of_doze {q r : Queue ι α} (doze : q.Doze r) : q.SameGetters r := by
  cases doze with
  | heldBack => simp [SameGetters]
  | rousedPutter => rfl
  | @dozed i => exact sameGetters_setGetter q i .asleep
  | @rousedGetter i => exact sameGetters_setGetter q i .notified

theorem items_of_doze {q r : Queue ι α} (doze : q.Doze r) : r.items = q.items := by
  cases doze <;> simp

theorem capacity_of_doze {q r : Queue ι α} (doze : q.Doze r) : r.capacity = q.capacity := by
  cases doze <;> simp

end Spool.Queue
