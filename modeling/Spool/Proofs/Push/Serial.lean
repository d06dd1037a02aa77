import Spool.Proofs.Push.Replay

/-!
Transforms that do not clash end as they would one after the other. Those that need more directories
go first, then those that let go of their object earlier, and those that met a file go last.
-/

namespace Spool.Site

section Pairs

variable {α : Type} {a b : α} {l : List α}

theorem pair_sublist_or (first : a ∈ l) (second : b ∈ l) (apart : a ≠ b) :
    [a, b].Sublist l ∨ [b, a].Sublist l := by
  induction l with
  | nil => cases first
  | cons x l ih =>
    rcases List.mem_cons.mp first with rfl | inside
    · have later := (List.mem_cons.mp second).resolve_left (Ne.symm apart)
      exact .inl (List.cons_sublist_cons.mpr (List.singleton_sublist.mpr later))
    · rcases List.mem_cons.mp second with rfl | within
      · exact .inr (List.cons_sublist_cons.mpr (List.singleton_sublist.mpr inside))
      · exact (ih inside within).imp (·.cons x) (·.cons x)

theorem idxOf_lt_of_sublist [DecidableEq α] (nodup : l.Nodup) (pair : [a, b].Sublist l) :
    l.idxOf a < l.idxOf b := by
  induction l with
  | nil => cases pair
  | cons x l ih =>
    obtain ⟨fresh, rest⟩ := List.nodup_cons.mp nodup
    have cons : ∀ c ∈ l, (x :: l).idxOf c = l.idxOf c + 1 := by
      intro c member
      have other : (x == c) = false := beq_eq_false_iff_ne.mpr fun same => fresh (same ▸ member)
      rw [List.idxOf_cons, other, cond_false]
    rcases List.sublist_cons_iff.mp pair with inner | ⟨tail, same, inner⟩
    · rw [cons a (inner.subset List.mem_cons_self), cons b (inner.subset (by simp))]
      exact Nat.succ_lt_succ (ih rest inner)
    · cases same
      rw [cons b (List.singleton_sublist.mp inner), List.idxOf_cons_self]
      exact Nat.succ_pos _

theorem exists_bound (l : List α) (g : α → Nat) : ∃ wide, ∀ x ∈ l, g x ≤ wide := by
  induction l with
  | nil => exact ⟨0, fun _ member => by cases member⟩
  | cons x l ih =>
    obtain ⟨wide, bound⟩ := ih
    refine ⟨max (g x) wide, fun y member => ?_⟩
    rcases List.mem_cons.mp member with rfl | inside
    · exact Nat.le_max_left _ _
    · exact Nat.le_trans (bound y inside) (Nat.le_max_right _ _)

end Pairs

variable {n : Nat} {t : Site n} {d e : Disk} {f : Fin n → Stage} {last : List (Fin n)}
  {i j : Fin n} {wide : Nat}

/-- Where a transform stands in line: a lower number goes first. -/
def rank (t : Site n) (wide : Nat) (f : Fin n → Stage) (last : List (Fin n)) (i : Fin n) : Nat :=
  -- a deep way first, since a shallower object may bar it; of equal depth, as they let go of theirs
  if (f i).hasMade then (wide - (t.parcel i).outer.length) * (last.length + 1) + last.idxOf i
  else (wide + 1) * (last.length + 1)

theorem rank_barred (met : (f i).hasMade = false) (made : (f j).hasMade = true) :
    t.rank wide f last j < t.rank wide f last i := by
  have less := Nat.mul_le_mul_right (last.length + 1)
    (Nat.sub_le wide (t.parcel j).outer.length)
  have early := List.idxOf_le_length (l := last) (a := j)
  rw [rank, rank, if_pos made, met, if_neg Bool.false_ne_true, Nat.succ_mul]
  omega

theorem rank_wider (made : (f i).hasMade = true) (made' : (f j).hasMade = true)
    (wider : (t.parcel i).outer.length < (t.parcel j).outer.length)
    (bound : (t.parcel j).outer.length ≤ wide) : t.rank wide f last j < t.rank wide f last i := by
  have less := Nat.mul_le_mul_right (last.length + 1)
    (show wide - (t.parcel j).outer.length + 1 ≤ wide - (t.parcel i).outer.length by omega)
  have early := List.idxOf_le_length (l := last) (a := j)
  rw [rank, rank, if_pos made, if_pos made']
  rw [Nat.succ_mul] at less
  omega

theorem rank_earlier (wide : Nat) (made : (f i).hasMade = true) (made' : (f j).hasMade = true)
    (same : (t.parcel i).outer.length = (t.parcel j).outer.length) (nodup : last.Nodup)
    (pair : [i, j].Sublist last) : t.rank wide f last i < t.rank wide f last j := by
  have earlier := idxOf_lt_of_sublist nodup pair
  rw [rank, rank, if_pos made, if_pos made', same]
  omega

def line (t : Site n) (wide : Nat) (f : Fin n → Stage) (last : List (Fin n)) : List (Fin n) :=
  (List.finRange n).mergeSort fun i j => t.rank wide f last i ≤ t.rank wide f last j

theorem pairwise_line (t : Site n) (wide : Nat) (f : Fin n → Stage) (last : List (Fin n)) :
    (t.line wide f last).Pairwise fun i j => t.rank wide f last i ≤ t.rank wide f last j := by
  have sorted : (t.line wide f last).Pairwise fun i j =>
      decide (t.rank wide f last i ≤ t.rank wide f last j) = true := by
    refine List.pairwise_mergeSort (fun i j k first second => ?_) (fun i j => ?_) (List.finRange n)
    · simp only [decide_eq_true_eq] at first second ⊢
      exact Nat.le_trans first second
    · simp only [Bool.or_eq_true, decide_eq_true_eq]
      exact Nat.le_total _ _
  simpa only [decide_eq_true_eq] using sorted

theorem mem_line (t : Site n) (wide : Nat) (f : Fin n → Stage) (last : List (Fin n)) (i : Fin n) :
    i ∈ t.line wide f last :=
  List.mem_mergeSort.mpr (List.mem_finRange i)

theorem nodup_line (t : Site n) (wide : Nat) (f : Fin n → Stage) (last : List (Fin n)) :
    (t.line wide f last).Nodup :=
  (List.mergeSort_perm _ _).nodup_iff.mpr (List.nodup_finRange n)

theorem perm_line (t : Site n) (wide : Nat) (f : Fin n → Stage) (last : List (Fin n)) :
    ((t.line wide f last).map Fin.val).Perm (List.range n) := by
  have positions : (List.finRange n).map Fin.val = List.range n :=
    List.ext_getElem (by simp) fun k _ _ => by simp
  rw [← positions]
  exact (List.mergeSort_perm _ _).map _

theorem mem_of_rank_lt {ran rest : List (Fin n)} (split : t.line wide f last = ran ++ i :: rest)
    (before : t.rank wide f last j < t.rank wide f last i) : j ∈ ran := by
  have member := t.mem_line wide f last j
  have sorted := t.pairwise_line wide f last
  rw [split] at member sorted
  rcases List.mem_append.mp member with inside | later
  · exact inside
  · rcases List.mem_cons.mp later with rfl | behind
    · exact absurd before (Nat.lt_irrefl _)
    · have order := (List.pairwise_cons.mp (List.pairwise_append.mp sorted).2.1).1 j behind
      exact absurd before (Nat.not_lt_of_le order)

/-- Transforms that are at their ends, in line, have the disk as they left it when they run again one
after the other. -/
theorem alike {now : List (Fin n)} (peaceful : t.Peaceful) (first : t.Shared d f last)
    (second : t.Shared e f now)
    (order : ∀ i j, (f i).hasPlaced = true → (t.parcel j).sideTrail = (t.parcel i).trail →
      ([i, j].Sublist last ↔ [i, j].Sublist now)) : d.Alike e := by
  refine ⟨first.here.trans second.here.symm, fun loc => ?_⟩
  by_cases below : ∃ names, names ≠ [] ∧ loc = Disk.under t.top names
  · obtain ⟨names, given, rfl⟩ := below
    have lies : ∀ bytes, t.Lies f last names bytes ↔ t.Lies f now names bytes := by
      intro bytes
      refine exists_congr fun i => and_congr_right fun _ => or_congr_right ?_
      refine and_congr_right fun placed => and_congr_right fun here => forall_congr' fun j => ?_
      subst here
      refine and_congr (forall_congr' fun same => ?_) (forall_congr' fun placed' =>
        forall_congr' fun same => ?_)
      · rw [order i j placed same]
      · have here := first.storable_of_mem (first.mem_of_placed placed)
        have there := first.storable_of_mem (first.mem_of_placed placed')
        have one := peaceful.side_inj there here (Parcel.sideTrail_of_trail same)
        subst one
        exact iff_of_true (fun after => by simpa using after.nodup first.nodup)
          fun after => by simpa using after.nodup second.nodup
    refine Option.ext fun entry => ?_
    cases entry with
    | dir => exact (first.dirs names given).trans (second.dirs names given).symm
    | file bytes executable =>
      rw [first.files names given, second.files names given, lies]
    | link target =>
      exact iff_of_false (first.linkless names target) (second.linkless names target)
  · have outside : ∀ names, names ≠ [] → loc ≠ Disk.under t.top names := fun names given same =>
      below ⟨names, given, same⟩
    by_cases gone : ∃ i, (t.parcel i).Gone (f i) ∧ loc = t.origin i
    · obtain ⟨i, gone, rfl⟩ := gone
      rw [first.gone i gone, second.gone i gone]
    · have others : ∀ i, (t.parcel i).Gone (f i) → loc ≠ t.origin i := fun i left same =>
        gone ⟨i, left, same⟩
      rw [first.kept loc outside others, second.kept loc outside others]

section Running

variable {σ : Type} {store : KeyStore σ} {keys : σ} {s : Fin n → Stage} {now : List (Fin n)}

/-- The transforms in line run one after the other, and each ends as it did before. -/
theorem inTurn (store : KeyStore σ) (ran : List (Fin n)) {rest : List (Fin n)}
    {c : Crew σ (Except PushError String)} (sound : t.Sound)
    (peaceful : t.Peaceful) (final : t.Shared d f last) (ended : ∀ j, (f j).isOver = true)
    (bound : ∀ j, (t.parcel j).outer.length ≤ wide) (split : t.line wide f last = ran ++ rest)
    (standing : t.Standing keys c s now) (same : ∀ j, j ∈ ran → s j = f j)
    (idle : ∀ j, j ∉ ran → s j = .reading) (logs : now.Sublist ran) :
    ∃ after, t.Standing keys (c.inTurn store (rest.map Fin.val)) f after ∧
      after.Sublist (t.line wide f last) := by
  induction rest generalizing c ran s now with
  | nil =>
    have all : s = f := funext fun j => same j <| by
      have member := t.mem_line wide f last j
      rwa [split, List.append_nil] at member
    subst all
    exact ⟨now, standing, by rwa [split, List.append_nil]⟩
  | cons i rest ih =>
    obtain ⟨b, between, stands, isOver, logs'⟩ := standing.finish store sound
      (i := i) fun _ _ _ shared => shared.free sound peaceful i
    have fresh : i ∉ ran := by
      have nodup := t.nodup_line wide f last
      rw [split, List.nodup_append] at nodup
      exact fun member => nodup.2.2 i member i List.mem_cons_self rfl
    have replay : t.Replay d f last (c.finish store i).world.disk (advance s i b)
        between ran i := by
      refine ⟨final, ended, stands.shared, by rwa [advance_self], ?_, ?_, ?_, ?_⟩
      · intro j member
        rw [advance_of_ne s b fun here : j = i => fresh (here ▸ member)]
        exact same j member
      · intro j other off
        rw [advance_of_ne s b other]
        exact idle j off
      · intro names bars j made
        exact mem_of_rank_lt split (rank_barred (by rw [bars]; rfl) made)
      · intro made j made' needs
        have length := needs.2.1.length_le
        simp only [Parcel.trail, List.length_append, List.length_cons, List.length_nil] at length
        exact mem_of_rank_lt split (rank_wider made made' (by omega) (bound j))
    have agrees := replay.agree sound peaceful
    rw [advance_self] at agrees
    subst agrees
    have tail : t.line wide f last = ran ++ [i] ++ rest := by
      rw [split, List.append_assoc, List.singleton_append]
    refine ih (ran ++ [i]) tail stands ?_ ?_ ?_
    · intro j member
      rcases List.mem_append.mp member with before | last
      · rw [advance_of_ne s _ fun here : j = i => fresh (here ▸ before)]
        exact same j before
      · rw [List.mem_singleton.mp last, advance_self]
    · intro j off
      rw [List.mem_append, List.mem_singleton, not_or] at off
      rw [advance_of_ne s _ off.2]
      exact idle j off.1
    · rcases logs' with rfl | rfl
      · exact logs.trans (List.sublist_append_left _ _)
      · exact logs.append (List.Sublist.refl _)

/-- Among those that let go of their object, whether one did so before another is kept when the one
that did so first also goes first. -/
theorem pair_iff {now : List (Fin n)} (first : t.Shared d f last) (second : t.Shared e f now)
    (inLine : now.Sublist (t.line wide f last)) (placed : (f i).hasPlaced = true)
    (same : (t.parcel j).sideTrail = (t.parcel i).trail) :
    [i, j].Sublist last ↔ [i, j].Sublist now := by
  have apart : i ≠ j := by
    rintro rfl
    exact (t.parcel i).side_ne_trail same
  have length : (t.parcel i).outer.length = (t.parcel j).outer.length := by
    have lengths := congrArg List.length same
    simp only [Parcel.sideTrail, Parcel.trail, List.length_append, List.length_cons,
      List.length_nil] at lengths
    omega
  have sorted : ∀ a b, [a, b].Sublist (t.line wide f last) →
      t.rank wide f last a ≤ t.rank wide f last b := fun a b pair =>
    List.pairwise_iff_forall_sublist.mp (t.pairwise_line wide f last) pair
  have made : (f i).hasMade = true := hasMade_of_hasPlaced placed
  have made' : j ∈ last ∨ j ∈ now → (f j).hasMade = true := by
    intro logged
    have gave := logged.elim (first.logged j).mp (second.logged j).mp
    cases stage : f j <;> simp [stage, Stage.hasLet, Stage.hasMade] at gave ⊢
  constructor
  · intro pair
    have member : j ∈ last := pair.subset (by simp)
    have here := second.mem_of_placed placed
    have there := (second.logged j).mpr ((first.logged j).mp member)
    refine (pair_sublist_or here there apart).resolve_right fun swapped => ?_
    have before := rank_earlier wide made (made' (.inl member)) length first.nodup pair
    exact absurd (sorted _ _ (swapped.trans inLine)) (Nat.not_le_of_lt before)
  · intro pair
    have member : j ∈ now := pair.subset (by simp)
    have here := first.mem_of_placed placed
    have there := (first.logged j).mpr ((second.logged j).mp member)
    refine (pair_sublist_or here there apart).resolve_right fun swapped => ?_
    have before := rank_earlier wide (made' (.inr member)) made length.symm first.nodup
      swapped
    exact absurd (sorted _ _ (pair.trans inLine)) (Nat.not_le_of_lt before)

theorem programs_eq {c c' : Crew σ (Except PushError String)}
    (first : t.Posed keys c s) (second : t.Posed keys c' s) :
    c.programs = c'.programs := by
  refine List.ext_getElem? fun k => ?_
  by_cases inside : k < n
  · exact (first.programs ⟨k, inside⟩).trans (second.programs ⟨k, inside⟩).symm
  · have out := Nat.le_of_not_lt inside
    rw [List.getElem?_eq_none_iff.mpr (by rwa [first.length]),
      List.getElem?_eq_none_iff.mpr (by rwa [second.length])]

/-- Transforms that do not clash can be interleaved at will. -/
theorem serializable_of_peaceful {c : Crew σ (Except PushError String)} (sound : t.Sound)
    (peaceful : t.Peaceful) (standing : t.Standing keys c (fun _ => .reading) []) :
    c.Serializable store := by
  intro turns finished
  obtain ⟨f, last, stands⟩ := standing.follow store sound peaceful turns
  have ended : ∀ j, (f j).isOver = true := by
    intro j
    have member := List.mem_of_getElem? (stands.posed.programs j)
    cases result : ((t.parcel j).program t.base (f j)).result? with
    | none => exact absurd (List.mem_map.mpr ⟨_, member, result⟩) finished
    | some r =>
      cases done : (t.parcel j).program t.base (f j) with
      | done r => exact isOver_of_program done
      | read _ _ | size _ _ | act _ _ | put _ _ _ =>
        rw [done] at result
        cases result
  obtain ⟨wide, bound⟩ := exists_bound (List.finRange n) fun j => (t.parcel j).outer.length
  have bound' : ∀ j, (t.parcel j).outer.length ≤ wide := fun j => bound j (List.mem_finRange j)
  -- in line, each gets to the stage it was led to by the turns
  obtain ⟨now, serial, inLine⟩ := inTurn store [] sound peaceful stands.shared ended bound'
    (List.nil_append (t.line wide f last)).symm standing (by simp) (fun _ _ => rfl)
    (List.Sublist.refl [])
  refine ⟨(t.line wide f last).map Fin.val, ?_, ?_, ?_, ?_⟩
  · rw [standing.posed.length]
    exact t.perm_line wide f last
  · exact congrArg (List.map Program.result?) (programs_eq stands.posed serial.posed)
  · exact alike peaceful stands.shared serial.shared fun i j placed same =>
      pair_iff stands.shared serial.shared inLine placed same
  · rw [stands.posed.keys, serial.posed.keys]

end Running

end Spool.Site
