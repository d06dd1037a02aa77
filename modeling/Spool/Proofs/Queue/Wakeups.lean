import Spool.Proofs.Queue.Turns

/-!
Who may sleep. A putter sleeps only while the queue holds `wakeThreshold` items or more. While a
getter sleeps, every item has a notified getter that comes for it. Both hold after every turn.
-/

namespace Spool.Queue

variable {ι α : Type}

/-- Every thread is inside one put and one get at most. -/
structure Distinct (q : Queue ι α) : Prop where
  putters : (q.putters.map (·.thread)).Nodup
  getters : (q.getters.map (·.thread)).Nodup

def notifiedGetters (q : Queue ι α) : Nat :=
  q.getters.countP fun g => g.phase = .notified

structure Wakeful (q : Queue ι α) : Prop where
  putters : ∀ p ∈ q.putters, p.phase = .asleep → q.wakeThreshold ≤ q.items.length
  getters : ∀ g ∈ q.getters, g.phase = .asleep → q.items.length ≤ q.notifiedGetters

section Distinct

variable {q r : Queue ι α}

theorem nodup_map_concat {β : Type} {key : β → ι} {xs : List β} (nodup : (xs.map key).Nodup)
    {b : β} (free : key b ∉ xs.map key) : ((xs ++ [b]).map key).Nodup := by
  rw [List.map_append, List.nodup_append]
  refine ⟨nodup, List.pairwise_singleton .., ?_⟩
  intro i known j new same
  rw [List.map_singleton, List.mem_singleton] at new
  exact free (new ▸ same ▸ known)

theorem distinct_of_nobody (putters : q.putters = []) (getters : q.getters = []) :
    q.Distinct := by
  constructor
  · rw [putters]
    exact List.nodup_nil
  · rw [getters]
    exact List.nodup_nil

theorem distinct_of_same (distinct : q.Distinct) (putters : q.SamePutters r)
    (getters : q.SameGetters r) : r.Distinct := by
  constructor
  · rw [threads_of_samePutters putters]
    exact distinct.putters
  · rw [getters]
    exact distinct.getters

theorem distinct_beginPut (distinct : q.Distinct) {i : ι} (free : i ∉ q.putters.map (·.thread))
    (a : α) : (q.beginPut i a).Distinct :=
  ⟨nodup_map_concat distinct.putters free, distinct.getters⟩

theorem distinct_beginGet (distinct : q.Distinct) {i : ι} (free : i ∉ q.getters.map (·.thread)) :
    (q.beginGet i).Distinct :=
  ⟨distinct.putters, nodup_map_concat distinct.getters free⟩

variable [DecidableEq ι]

theorem distinct_append (distinct : q.Distinct) (p : Putter ι α) (woken : Option ι) :
    ((q.append p).wakeGetter woken).Distinct := by
  constructor
  · rw [wakeGetter_putters, append_putters]
    exact (List.filter_sublist.map _).nodup distinct.putters
  · rw [sameGetters_wakeGetter]
    exact distinct.getters

theorem distinct_remove (distinct : q.Distinct) (i : ι) (rest : List α) :
    (q.remove i rest).Distinct := by
  constructor
  · rw [threads_of_samePutters (samePutters_remove q i rest)]
    exact distinct.putters
  · rw [remove_getters]
    exact (List.filter_sublist.map _).nodup distinct.getters

theorem distinct_doze (distinct : q.Distinct) (doze : q.Doze r) : r.Distinct :=
  distinct_of_same distinct (samePutters_of_doze doze) (sameGetters_of_doze doze)

end Distinct

theorem wakeThreshold_le {q : Queue ι α} (pos : 0 < q.capacity) : q.wakeThreshold ≤ q.capacity := by
  unfold wakeThreshold
  omega

theorem wakeful_of_nobody {q : Queue ι α} (putters : q.putters = []) (getters : q.getters = []) :
    q.Wakeful := by
  constructor
  · intro p member
    rw [putters] at member
    cases member
  · intro g member
    rw [getters] at member
    cases member

theorem wakeful_beginPut {q : Queue ι α} (awake : q.Wakeful) (i : ι) (a : α) :
    (q.beginPut i a).Wakeful := by
  refine ⟨?_, awake.getters⟩
  intro p member asleep
  rcases List.mem_append.mp member with old | new
  · exact awake.putters p old asleep
  · rw [List.mem_singleton.mp new] at asleep
    cases asleep

theorem wakeful_beginGet {q : Queue ι α} (awake : q.Wakeful) (i : ι) :
    (q.beginGet i).Wakeful := by
  refine ⟨awake.putters, ?_⟩
  intro g member asleep
  rcases List.mem_append.mp member with old | new
  · refine Nat.le_trans (awake.getters g old asleep) ?_
    simp only [notifiedGetters, beginGet_getters, List.countP_append, Nat.le_add_right]
  · rw [List.mem_singleton.mp new] at asleep
    cases asleep

/-- An item behind which a getter sleeps has a notified getter coming for it. -/
theorem exists_notified {q : Queue ι α} (awake : q.Wakeful) (items : q.items ≠ []) {g : Getter ι}
    (member : g ∈ q.getters) (asleep : g.phase = .asleep) :
    ∃ other ∈ q.getters, other.phase = .notified := by
  have some := Nat.lt_of_lt_of_le (List.length_pos_iff.mpr items) (awake.getters g member asleep)
  obtain ⟨other, known, notified⟩ := List.countP_pos_iff.mp some
  exact ⟨other, known, of_decide_eq_true notified⟩

variable [DecidableEq ι]

theorem wakeful_holdBack {q : Queue ι α} (pos : 0 < q.capacity) (awake : q.Wakeful)
    (full : q.isFull = true) (p : Putter ι α) : (q.holdBack p).Wakeful := by
  refine ⟨?_, ?_⟩
  · intro _ _ _
    simp only [wakeThreshold, holdBack_capacity, holdBack_items]
    exact Nat.le_trans (wakeThreshold_le pos) (of_decide_eq_true full)
  · simp only [holdBack_getters, holdBack_items, notifiedGetters]
    exact awake.getters

theorem notified_woken {g : Getter ι} (i : ι) (notified : g.phase = .notified) :
    (if g.thread = i then { g with phase := .notified } else g).phase = .notified := by
  split
  · rfl
  · exact notified

theorem countP_notified_woken (gs : List (Getter ι)) (i : ι) :
    gs.countP (fun g => g.phase = .notified) ≤ gs.countP
      ((fun g : Getter ι => decide (g.phase = .notified)) ∘
        fun g => if g.thread = i then { g with phase := .notified } else g) :=
  List.countP_mono_left fun _ _ notified =>
    decide_eq_true (notified_woken i (of_decide_eq_true notified))

/-- Waking a getter that sleeps leaves one more notified. -/
theorem notifiedGetters_setGetter {q : Queue ι α} {i : ι}
    (sleeper : ∃ g ∈ q.getters, g.thread = i ∧ g.phase = .asleep) :
    q.notifiedGetters + 1 ≤ (q.setGetter i .notified).notifiedGetters := by
  obtain ⟨g, member, thread, asleep⟩ := sleeper
  simp only [notifiedGetters, setGetter, List.countP_map]
  generalize q.getters = gs at member
  induction gs with
  | nil => cases member
  | cons head tail ih =>
    rcases List.mem_cons.mp member with rfl | later
    · have rest := countP_notified_woken tail i
      simp only [List.countP_cons, Function.comp_apply, thread, asleep, if_true]
      simpa using rest
    · have rest := ih later
      simp only [List.countP_cons, Function.comp_apply, decide_eq_true_eq]
      by_cases notified : head.phase = .notified
      · rw [if_pos notified, if_pos (notified_woken i notified)]
        omega
      · rw [if_neg notified]
        omega

theorem notifiedGetters_le_setGetter (q : Queue ι α) (i : ι) :
    q.notifiedGetters ≤ (q.setGetter i .notified).notifiedGetters := by
  simp only [notifiedGetters, setGetter, List.countP_map]
  exact countP_notified_woken q.getters i

/-- A getter that still sleeps when another was woken was asleep before. -/
theorem asleep_of_setGetter {q : Queue ι α} {i : ι} {g : Getter ι}
    (member : g ∈ (q.setGetter i .notified).getters) (asleep : g.phase = .asleep) :
    g ∈ q.getters := by
  obtain ⟨old, known, rfl⟩ := List.mem_map.mp member
  split at asleep
  · cases asleep
  · next other => rwa [if_neg other]

theorem wakeful_append {q : Queue ι α} (awake : q.Wakeful) (p : Putter ι α) {woken : Option ι}
    (may : q.mayWake woken = true) : ((q.append p).wakeGetter woken).Wakeful := by
  refine ⟨?_, ?_⟩
  · intro r member asleep
    simp only [wakeGetter_putters, append_putters] at member
    have before := awake.putters r ((List.mem_filter.mp member).1) asleep
    simp only [wakeThreshold, wakeGetter_capacity, append_capacity, wakeGetter_items, append_items,
      List.length_append] at before ⊢
    omega
  · intro g member asleep
    cases woken with
    | none =>
      have nobody := of_decide_eq_true (List.all_eq_true.mp may g member)
      exact absurd asleep nobody
    | some i =>
      obtain ⟨s, known, holds⟩ := List.any_eq_true.mp may
      simp only [Bool.and_eq_true, decide_eq_true_eq] at holds
      have before := awake.getters s known holds.2
      have more := notifiedGetters_setGetter (q := q.append p) ⟨s, known, holds⟩
      simp only [wakeGetter_items, append_items, List.length_append, List.length_singleton]
      exact Nat.le_trans (Nat.succ_le_succ before) more

theorem wakeful_setGetter_asleep {q : Queue ι α} (awake : q.Wakeful) (empty : q.items = [])
    (i : ι) : (q.setGetter i .asleep).Wakeful := by
  refine ⟨awake.putters, ?_⟩
  intro _ _ _
  simp only [setGetter_items, empty, List.length_nil, Nat.zero_le]

/-- At most one getter leaves with an item. -/
theorem notifiedGetters_remove {q : Queue ι α} (distinct : q.Distinct) (i : ι) (rest : List α) :
    q.notifiedGetters ≤ (q.remove i rest).notifiedGetters + 1 := by
  have one : q.getters.countP (fun g => g.thread = i) ≤ 1 := by
    have count := List.nodup_iff_count.mp distinct.getters i
    rw [List.count, List.countP_map] at count
    refine Nat.le_trans (List.countP_mono_left fun g _ same => ?_) count
    simpa using same
  simp only [notifiedGetters, remove_getters, List.countP_filter]
  generalize q.getters = gs at one
  induction gs with
  | nil => exact Nat.zero_le _
  | cons g gs ih =>
    by_cases same : g.thread = i
    · simp only [List.countP_cons, same, decide_true, if_true] at one
      have none : gs.countP (fun g => g.thread = i) = 0 := by omega
      have kept : gs.countP (fun g => g.phase = .notified) ≤
          gs.countP fun g => decide (g.phase = .notified) && decide (g.thread ≠ i) := by
        refine List.countP_mono_left fun g member notified => ?_
        have apart := List.countP_eq_zero.mp none g member
        simp only [decide_eq_true_eq] at apart notified
        simp [apart, notified]
      simp only [List.countP_cons, same]
      split <;> simp_all
    · simp only [List.countP_cons, same, decide_false, Bool.false_eq_true, if_false] at one ih ⊢
      have tail := ih one
      split <;> simp_all

theorem wakeful_remove {q : Queue ι α} (distinct : q.Distinct) (awake : q.Wakeful) {a : α}
    {rest : List α} (items : q.items = a :: rest) (i : ι) : (q.remove i rest).Wakeful := by
  refine ⟨?_, ?_⟩
  · simp only [wakeThreshold, remove_capacity, remove_items]
    intro p member asleep
    by_cases few : rest.length < q.capacity / 2 + 1
    · simp only [remove, wakeThreshold, few, if_true, wakePutters] at member
      obtain ⟨old, _, rfl⟩ := List.mem_map.mp member
      split at asleep
      · cases asleep
      · next awake => exact absurd asleep awake
    · exact Nat.le_of_not_lt few
  · intro g member asleep
    rw [remove_getters] at member
    have before := awake.getters g ((List.mem_filter.mp member).1) asleep
    have fewer := notifiedGetters_remove distinct i rest
    rw [items, List.length_cons] at before
    rw [remove_items]
    omega

theorem wakeful_setPutter_notified {q : Queue ι α} (awake : q.Wakeful) (i : ι) :
    (q.setPutter i .notified).Wakeful := by
  refine ⟨?_, awake.getters⟩
  intro p member asleep
  obtain ⟨old, known, rfl⟩ := List.mem_map.mp member
  split at asleep
  · cases asleep
  · exact awake.putters old known asleep

theorem wakeful_setGetter_notified {q : Queue ι α} (awake : q.Wakeful) (i : ι) :
    (q.setGetter i .notified).Wakeful := by
  refine ⟨awake.putters, ?_⟩
  intro g member asleep
  have before := awake.getters g (asleep_of_setGetter member asleep) asleep
  exact Nat.le_trans before (notifiedGetters_le_setGetter q i)

theorem wakeful_doze {q r : Queue ι α} (pos : 0 < q.capacity) (awake : q.Wakeful)
    (doze : q.Doze r) : r.Wakeful := by
  cases doze with
  | heldBack _ full => exact wakeful_holdBack pos awake full _
  | dozed empty => exact wakeful_setGetter_asleep awake empty _
  | rousedPutter => exact wakeful_setPutter_notified awake _
  | rousedGetter => exact wakeful_setGetter_notified awake _

theorem find?_of_nodup {β : Type} {key : β → ι} {xs : List β} (nodup : (xs.map key).Nodup) {b : β}
    (member : b ∈ xs) : xs.find? (fun other => key other = key b) = some b := by
  induction xs with
  | nil => cases member
  | cons head xs ih =>
    rw [List.map_cons, List.nodup_cons] at nodup
    rcases List.mem_cons.mp member with rfl | later
    · simp
    · have apart : key head ≠ key b := fun same =>
        nodup.1 (same ▸ List.mem_map.mpr ⟨b, later, rfl⟩)
      rw [List.find?_cons_of_neg (by simpa using apart)]
      exact ih nodup.2 later

theorem putter?_of_mem {q : Queue ι α} (distinct : q.Distinct) {putter : Putter ι α}
    (member : putter ∈ q.putters) : q.putter? putter.thread = some putter :=
  find?_of_nodup distinct.putters member

theorem getter?_of_mem {q : Queue ι α} (distinct : q.Distinct) {getter : Getter ι}
    (member : getter ∈ q.getters) : q.getter? getter.thread = some getter :=
  find?_of_nodup distinct.getters member

end Spool.Queue
