import Spool.Proofs.Queue.Courses

/-!
Nobody sleeps for nothing. While a putter sleeps the queue holds `wakeThreshold` items or more, and
while a getter sleeps there is for every item another that was woken for it and has not had its turn
yet; those that woke without reason are not counted on.
-/

namespace Spool.Queue

variable {ι α : Type} [DecidableEq ι] {q r : Queue ι α} {move : Move ι α}
  {steps : List (Step ι α)} {events more : List (Event ι α)} {capacity : Nat} {i j : ι}

/-- Who has been woken by a put and has not had a turn since, after the move. -/
def Move.signals (now : List ι) : Move ι α → List ι
  | .put _ (some i) => i :: now
  | .get i => now.erase i
  | .put _ none | .beginPut _ _ | .beginGet _ | .rouse _ => now

def signalled (steps : List (Step ι α)) : List ι :=
  steps.foldl (fun now step => step.2.signals now) []

/-- The thread's get was woken and wants the lock again. -/
def Recalled (q : Queue ι α) (i : ι) : Prop :=
  ∃ g ∈ q.getters, g.thread = i ∧ g.phase = .notified

structure Signals (now : List ι) (q : Queue ι α) : Prop where
  nodup : now.Nodup
  recalled : ∀ i ∈ now, q.Recalled i
  enough : ∀ g ∈ q.getters, g.phase = .asleep → q.items.length ≤ now.length

theorem not_mem_of_find? {β : Type} {key : β → ι} {xs : List β}
    (none : xs.find? (fun b => key b = i) = none) : i ∉ xs.map key := by
  intro member
  obtain ⟨b, known, same⟩ := List.mem_map.mp member
  have apart := List.find?_eq_none.mp none b known
  exact apart (decide_eq_true same)

theorem distinct_turn (distinct : q.Distinct) (turn : q.Turn move more r) : r.Distinct := by
  cases turn with
  | putBegun free => exact distinct_beginPut distinct (not_mem_of_find? free) _
  | getBegun _ free => exact distinct_beginGet distinct (not_mem_of_find? free)
  | appended => exact distinct_append distinct ..
  | removed => exact distinct_remove distinct ..
  | heldBack _ awake full => exact distinct_doze distinct (.heldBack awake full)
  | dozed _ empty => exact distinct_doze distinct (.dozed empty)
  | rousedPutter => exact distinct_doze distinct .rousedPutter
  | rousedGetter => exact distinct_doze distinct .rousedGetter

theorem wakeful_turn (pos : 0 < q.capacity) (distinct : q.Distinct) (awake : q.Wakeful)
    (turn : q.Turn move more r) : r.Wakeful := by
  cases turn with
  | putBegun => exact wakeful_beginPut awake _ _
  | getBegun => exact wakeful_beginGet awake _
  | appended _ _ may => exact wakeful_append awake _ may
  | heldBack _ _ full => exact wakeful_holdBack pos awake full _
  | removed _ items => exact wakeful_remove distinct awake items _
  | dozed _ empty => exact wakeful_setGetter_asleep awake empty _
  | rousedPutter => exact wakeful_setPutter_notified awake _
  | rousedGetter => exact wakeful_setGetter_notified awake _

section Recalled

theorem recalled_setGetter {phase : Phase} (stays : i ≠ j ∨ phase = .notified)
    (recalled : q.Recalled i) : (q.setGetter j phase).Recalled i := by
  obtain ⟨g, member, rfl, notified⟩ := recalled
  refine ⟨_, List.mem_map.mpr ⟨g, member, rfl⟩, ?_⟩
  split
  · next same => exact ⟨rfl, stays.resolve_left fun other => other same⟩
  · exact ⟨rfl, notified⟩

theorem recalled_remove {rest : List α} (other : i ≠ j) (recalled : q.Recalled i) :
    (q.remove j rest).Recalled i := by
  obtain ⟨g, member, rfl, notified⟩ := recalled
  refine ⟨g, ?_, rfl, notified⟩
  rw [remove_getters]
  exact List.mem_filter.mpr ⟨member, decide_eq_true other⟩

/-- Who sleeps is not on its way. -/
theorem not_recalled (distinct : q.Distinct) {g : Getter ι} (member : g ∈ q.getters)
    (asleep : g.phase = .asleep) : ¬ q.Recalled g.thread := by
  rintro ⟨other, known, same, notified⟩
  have found := getter?_of_mem distinct known
  rw [same, getter?_of_mem distinct member] at found
  cases found
  rw [asleep] at notified
  cases notified

end Recalled

omit [DecidableEq ι] in
theorem signals_of_same {now : List ι} (signals : q.Signals now) (getters : r.getters = q.getters)
    (items : r.items = q.items) : r.Signals now := by
  refine ⟨signals.nodup, ?_, ?_⟩
  · simpa only [Recalled, getters] using signals.recalled
  · simpa only [getters, items] using signals.enough

theorem signals_append {now : List ι} (distinct : q.Distinct) (signals : q.Signals now)
    (p : Putter ι α) {woken : Option ι} (may : q.mayWake woken = true) :
    ((q.append p).wakeGetter woken).Signals (Move.signals (α := α) now (.put i woken)) := by
  cases woken with
  | none =>
    refine ⟨signals.nodup, signals.recalled, ?_⟩
    intro g member asleep
    have nobody := List.all_eq_true.mp may g member
    simp [asleep] at nobody
  | some j =>
    obtain ⟨s, known, holds⟩ := List.any_eq_true.mp may
    simp only [Bool.and_eq_true, decide_eq_true_eq] at holds
    obtain ⟨rfl, sleeps⟩ := holds
    have free : s.thread ∉ now := fun member =>
      not_recalled distinct known sleeps (signals.recalled _ member)
    constructor
    · exact List.nodup_cons.mpr ⟨free, signals.nodup⟩
    · intro i member
      rcases List.mem_cons.mp member with rfl | old
      · exact ⟨_, List.mem_map.mpr ⟨s, known, rfl⟩, by simp⟩
      · have recalled : (q.append p).Recalled i := signals.recalled i old
        exact recalled_setGetter (.inr rfl) recalled
    · intro g member asleep
      have before := signals.enough g (asleep_of_setGetter member asleep) asleep
      simp only [Move.signals, wakeGetter_items, append_items, List.length_append,
        List.length_cons, List.length_nil]
      omega

theorem signals_remove {now : List ι} (signals : q.Signals now) {a : α} {rest : List α}
    (items : q.items = a :: rest) : (q.remove i rest).Signals (now.erase i) := by
  constructor
  · exact signals.nodup.erase i
  · intro j member
    have known := signals.nodup.mem_erase_iff.mp member
    exact recalled_remove known.1 (signals.recalled j known.2)
  · intro g member asleep
    rw [remove_getters] at member
    have before := signals.enough g (List.mem_filter.mp member).1 asleep
    have fewer := List.le_length_erase (a := i) (l := now)
    rw [items, List.length_cons] at before
    rw [remove_items]
    omega

theorem signals_turn {now : List ι} (distinct : q.Distinct) (signals : q.Signals now)
    (turn : q.Turn move more r) : r.Signals (move.signals now) := by
  cases turn with
  | putBegun | rousedPutter => exact signals_of_same signals rfl rfl
  | heldBack => exact signals_of_same signals (holdBack_getters ..) (holdBack_items ..)
  | getBegun =>
    refine ⟨signals.nodup, ?_, ?_⟩
    · intro j member
      obtain ⟨g, known, holds⟩ := signals.recalled j member
      exact ⟨g, List.mem_append_left _ known, holds⟩
    · intro g member asleep
      rcases List.mem_append.mp member with old | new
      · exact signals.enough g old asleep
      · cases List.mem_singleton.mp new
        cases asleep
  | appended _ _ may => exact signals_append distinct signals _ may
  | removed _ items => exact signals_remove signals items
  | dozed _ empty =>
    refine ⟨signals.nodup.erase _, ?_, ?_⟩
    · intro j member
      have known := signals.nodup.mem_erase_iff.mp member
      exact recalled_setGetter (.inl known.1) (signals.recalled j known.2)
    · intro _ _ _
      simp [empty]
  | rousedGetter =>
    refine ⟨signals.nodup, ?_, ?_⟩
    · intro j member
      exact recalled_setGetter (.inr rfl) (signals.recalled j member)
    · intro g member asleep
      exact signals.enough g (asleep_of_setGetter member asleep) asleep

/-- What holds of who is inside the queue after every run. -/
structure Attentive (steps : List (Step ι α)) (q : Queue ι α) : Prop where
  distinct : q.Distinct
  wakeful : q.Wakeful
  signals : q.Signals (signalled steps)

theorem Course.attentive (pos : 0 < capacity) (course : Course { capacity } steps events q) :
    Attentive steps q := by
  have all := course.induct (motive := fun steps _ q => q.capacity = capacity ∧ Attentive steps q)
    ⟨rfl, ?_⟩ ?_
  · exact all.2
  · constructor
    · exact distinct_of_nobody rfl rfl
    · exact wakeful_of_nobody rfl rfl
    · constructor
      · exact List.nodup_nil
      · intro i member
        cases member
      · intro g member
        cases member
  · intro steps events q r move more before turn
    obtain ⟨same, ⟨distinct, wakeful, signals⟩⟩ := before
    refine ⟨(capacity_turn turn).trans same, ?_, ?_, ?_⟩
    · exact distinct_turn distinct turn
    · exact wakeful_turn (same ▸ pos) distinct wakeful turn
    · rw [signalled, List.foldl_append]
      exact signals_turn distinct signals turn

/-- Whoever may have to sleep is woken in time. -/
structure LosesNobody (capacity : Nat) (steps : List (Step ι α)) (q : Queue ι α) : Prop where
  threshold : q.wakeThreshold = capacity / 2 + 1 ∧ 1 ≤ q.wakeThreshold ∧ q.wakeThreshold ≤ capacity
  putters : ∀ p ∈ q.putters, p.phase = .asleep → q.wakeThreshold ≤ q.items.length
  getters : ∀ g ∈ q.getters, g.phase = .asleep → q.items.length ≤ q.notifiedGetters
  /-- Nobody that woke without reason has to be counted on. -/
  counted : ∀ g ∈ q.getters, g.phase = .asleep → q.items.length ≤ (signalled steps).length
  /-- Who is counted on is inside a get, waits for the lock, and is counted once. -/
  recalled : (signalled steps).Nodup ∧ ∀ i ∈ signalled steps, q.Recalled i
  both : q.putters ≠ [] → q.getters ≠ [] →
    (∃ p ∈ q.putters, p.phase ≠ .asleep) ∨ ∃ g ∈ q.getters, g.phase ≠ .asleep
  served : q.items ≠ [] → q.getters ≠ [] → ∃ g ∈ q.getters, g.phase ≠ .asleep

theorem Attentive.served (fits : Attentive steps q) (items : q.items ≠ [])
    (getters : q.getters ≠ []) : ∃ g ∈ q.getters, g.phase ≠ .asleep := by
  obtain ⟨g, member⟩ := List.exists_mem_of_ne_nil _ getters
  by_cases asleep : g.phase = .asleep
  · obtain ⟨other, there, notified⟩ := exists_notified fits.wakeful items member asleep
    exact ⟨other, there, by simp [notified]⟩
  · exact ⟨g, member, asleep⟩

theorem Attentive.both (fits : Attentive steps q) (putters : q.putters ≠ [])
    (getters : q.getters ≠ []) :
    (∃ p ∈ q.putters, p.phase ≠ .asleep) ∨ ∃ g ∈ q.getters, g.phase ≠ .asleep := by
  obtain ⟨p, member⟩ := List.exists_mem_of_ne_nil _ putters
  by_cases asleep : p.phase = .asleep
  · right
    apply fits.served _ getters
    intro empty
    have many := fits.wakeful.putters p member asleep
    simp [empty, wakeThreshold] at many
  · exact .inl ⟨p, member, asleep⟩

theorem Course.loses_nobody (pos : 0 < capacity) (course : Course { capacity } steps events q) :
    LosesNobody capacity steps q := by
  have fits := course.attentive pos
  have same : q.capacity = capacity := course.capacity_eq
  exact {
    threshold := by
      have most := wakeThreshold_le (q := q) (by omega)
      unfold wakeThreshold at most ⊢
      omega
    putters := fits.wakeful.putters
    getters := fits.wakeful.getters
    counted := fits.signals.enough
    recalled := ⟨fits.signals.nodup, fits.signals.recalled⟩
    both := fits.both
    served := fits.served }

/-- Three threads sleep in a get. Two items wake two of them, and a third put finds the queue full:
now a putter and a getter sleep at once. -/
def meeting : List (Move Nat Nat) :=
  [.beginGet 0, .get 0, .beginGet 1, .get 1, .beginGet 2, .get 2, .beginPut 3 7, .put 3 (some 0),
    .beginPut 4 8, .put 4 (some 1), .beginPut 5 9, .put 5 none]

theorem loses_nobody_of_meeting : ∃ steps events q,
    0 < 2 ∧ Course { capacity := 2 } steps events q ∧ steps.map Prod.snd = meeting ∧
      ⟨5, 9, .asleep⟩ ∈ q.putters ∧ ⟨2, .asleep⟩ ∈ q.getters ∧ signalled steps = [1, 0] ∧
        LosesNobody 2 steps q := by
  have course := (Course.start (q := ({ capacity := 2 } : Queue Nat Nat))).follow meeting
  refine ⟨_, _, _, by decide, course, ?_, ?_, ?_, ?_, course.loses_nobody (by decide)⟩
  · rfl
  · decide
  · decide
  · rfl

end Spool.Queue
