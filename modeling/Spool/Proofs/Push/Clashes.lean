import Spool.Proofs.Push.Races

/-!
Transforms can be interleaved at will exactly when no two of them clash. Two that clash can be led to
an end that neither order of the two has.
-/

namespace Spool

namespace Parcel

variable {base : String} {p : Parcel} {a : Stage}

theorem fault_cases (path : String) : fault path = Route.unpassable ∨
    fault path = .system Errno.noEntry ∨ fault path = .system Errno.nameTooLong := by
  unfold fault Route.read
  split
  · next cause refused =>
    split at refused
    · cases refused
      exact .inl rfl
    · split at refused
      · cases refused
        exact .inr (.inl rfl)
      · split at refused
        · cases refused
          exact .inr (.inr rfl)
        · cases refused
  · exact .inr (.inr rfl)

/-- What a failed transform reports. -/
def cause? (push : Push) : Option IoError :=
  match push.result? with
  | some (.error (.io _ cause)) => some cause
  | _ => none

theorem cause_ne_missing (isOver : a.isOver = true) (fits : p.Fits base a)
    (storable : p.Storable base) (reached : p.Reached base) :
    cause? (p.program base a) ≠ some (.system Errno.noEntry) := by
  intro same
  cases a with
  | turnedAway => exact absurd reached fits
  | barred names =>
    have code := IoError.system.inj (Option.some.inj same)
    split at code <;> exact absurd code (by decide)
  | refused => exact absurd storable.shortOuter fits.2
  | unwritten => exact absurd storable fits.2.2
  | failed => exact absurd (IoError.system.inj (Option.some.inj same)) (by decide)
  | ended => cases same
  | _ => cases isOver

theorem cause_ne_barred (isOver : a.isOver = true) (fits : p.Fits base a)
    (reached : p.Reached base) (clear : ∀ names, a ≠ .barred names) {code : Int}
    (barred : code = Errno.entryExists ∨ code = Errno.notDirectory) :
    cause? (p.program base a) ≠ some (.system code) := by
  have noFault : ∀ path, fault path ≠ .system code := by
    intro path same
    rcases fault_cases path with found | found | found <;> rw [found] at same
    · cases same
    · have code := IoError.system.inj same
      rcases barred with rfl | rfl <;> exact absurd code (by decide)
    · have code := IoError.system.inj same
      rcases barred with rfl | rfl <;> exact absurd code (by decide)
  intro same
  cases a with
  | turnedAway => exact absurd reached fits
  | barred names => exact clear names rfl
  | refused => exact noFault _ (Option.some.inj same)
  | unwritten => exact noFault _ (Option.some.inj same)
  | failed =>
    have code := IoError.system.inj (Option.some.inj same)
    rcases barred with rfl | rfl <;> exact absurd code (by decide)
  | ended => cases same
  | _ => cases isOver

theorem cause_barred (base : String) (p : Parcel) (names : List String) : ∃ code,
    (code = Errno.entryExists ∨ code = Errno.notDirectory) ∧
      cause? (p.program base (.barred names)) = some (.system code) := by
  refine ⟨if names = p.outer then Errno.entryExists else Errno.notDirectory, ?_, rfl⟩
  split
  · exact .inl rfl
  · exact .inr rfl

end Parcel

namespace Site

theorem Shared.ended {n : Nat} {t : Site n} {d : Disk} {s : Fin n → Stage} {log : List (Fin n)}
    {i : Fin n} (shared : t.Shared d s log) (sound : t.Sound) (isOver : (s i).isOver = true)
    (storable : (t.parcel i).Storable t.base)
    (level : ∀ j, (t.parcel j).outer.length = (t.parcel i).outer.length) : s i = .ended := by
  have fits := shared.fits i
  have high : ∀ j k, ¬ (t.parcel j).Needs (t.parcel k).trail := fun j k =>
    Parcel.not_needs_trail (Nat.le_of_eq ((level j).trans (level k).symm))
  cases stage : s i with
  | ended => rfl
  | barred names =>
    obtain ⟨needs, j, _, same⟩ := shared.barred i names stage
    exact absurd (same ▸ needs) (high i j)
  | turnedAway =>
    rw [stage] at fits
    exact absurd (storable.reached (sound.plain i)) fits
  | refused =>
    rw [stage] at fits
    exact absurd storable.shortOuter fits.2
  | unwritten =>
    rw [stage] at fits
    exact absurd storable fits.2.2
  | failed =>
    obtain ⟨j, _, needs⟩ := shared.failing i (.inr stage)
    exact absurd needs (high j i)
  | _ =>
    rw [stage] at isOver
    cases isOver

theorem order_cases {i j : Fin 2} (other : j ≠ i) {order : List Nat}
    (perm : order.Perm (List.range 2)) : order = [i.val, j.val] ∨ order = [j.val, i.val] := by
  have length := perm.length_eq
  match order, length with
  | [x, y], _ =>
    have nodup := perm.nodup_iff.mpr List.nodup_range
    have first := List.mem_range.mp (perm.subset (List.mem_cons_self (a := x)))
    have second := List.mem_range.mp (perm.subset (List.mem_cons_of_mem x (List.mem_cons_self (a := y))))
    have apart : x ≠ y := by simpa using nodup
    have left := i.isLt
    have right := j.isLt
    have differ : j.val ≠ i.val := fun same => other (Fin.ext same)
    simp only [List.cons.injEq, and_true]
    omega

theorem eq_or_eq {i j : Fin 2} (other : j ≠ i) (k : Fin 2) : k = i ∨ k = j := by
  have apart : j.val ≠ i.val := fun same => other (Fin.ext same)
  have left := i.isLt
  have right := j.isLt
  have here := k.isLt
  simp only [Fin.ext_iff]
  omega

variable {t : Site 2} {i j : Fin 2} {σ : Type} {keys : σ}
  {c : Crew σ (Except PushError String)}

theorem Posed.over {s : Fin 2 → Stage} (posed : t.Posed keys c s)
    (ended : ∀ k, (s k).isOver = true) : c.Over := by
  intro undone
  obtain ⟨p, member, none⟩ := List.mem_map.mp undone
  obtain ⟨k, here⟩ := List.mem_iff_getElem?.mp member
  obtain ⟨inside, _⟩ := List.getElem?_eq_some_iff.mp here
  rw [posed.length] at inside
  obtain ⟨r, done⟩ := program_of_isOver t.base (t.parcel ⟨k, inside⟩) (ended ⟨k, inside⟩)
  have same := (posed.programs ⟨k, inside⟩).symm.trans here
  rw [done] at same
  rw [← Option.some.inj same] at none
  cases none

variable (store : KeyStore σ)

/-- A result that a transform never has when they run one after the other. -/
theorem refuted {turns : List Nat} {k : Nat} {r : Except PushError String}
    (bad : (c.follow store turns).programs[k]? = some (.done r))
    (never : ∀ order, order.Perm (List.range c.programs.length) →
      ∀ p, (c.inTurn store order).programs[k]? = some p → p.result? ≠ some r) :
    ¬ c.Serializable store := by
  intro serializable
  obtain ⟨more, finished, kept⟩ := Crew.exists_over store (c.follow store turns)
  rw [← Crew.follow_append] at finished
  obtain ⟨order, perm, like⟩ := serializable (turns ++ more) finished
  have done := kept k r bad
  rw [← Crew.follow_append] at done
  obtain ⟨p, here, result⟩ := like.result done
  exact never order perm p here result

variable (sound : t.Sound) (standing : t.Standing keys c fresh [])
include sound standing

theorem behind (clear : (t.parcel j).Storable t.base → ¬ (t.parcel i).Needs (t.parcel j).sideTrail) :
    ∃ a b after, t.Standing keys (c.inTurn store [i, j]) (pair i j a b) after ∧
      a.isOver = true ∧ b.isOver = true := by
  obtain ⟨a, between, stands, over', _⟩ := standing.first store sound i
  obtain ⟨b, after, stands, over''⟩ := stands.second store sound over' clear
  exact ⟨a, b, after, stands, over', over''⟩

variable (other : j ≠ i) (first : (t.parcel i).Storable t.base)
include other

/-- Transforms whose objects lie equally deep run one behind the other in both orders. -/
theorem inOrder (level : (t.parcel i).outer.length = (t.parcel j).outer.length) {order : List Nat}
    (perm : order.Perm (List.range c.programs.length)) :
    ∃ a b after, t.Standing keys (c.inTurn store order) (pair i j a b) after ∧
      a.isOver = true ∧ b.isOver = true := by
  rw [standing.posed.length] at perm
  rcases order_cases other perm with rfl | rfl
  · exact behind store sound standing fun _ => Parcel.not_needs_sideTrail (Nat.le_of_eq level)
  · obtain ⟨b, a, after, stands, over', over''⟩ := behind store sound standing fun _ =>
      Parcel.not_needs_sideTrail (Nat.le_of_eq level.symm)
    rw [pair_comm (Ne.symm other)] at stands
    exact ⟨a, b, after, stands, over'', over'⟩

include first

theorem not_serializable_of_side (second : (t.parcel j).Storable t.base)
    (same : (t.parcel i).sideTrail = (t.parcel j).sideTrail) : ¬ c.Serializable store := by
  have level : (t.parcel i).outer.length = (t.parcel j).outer.length := by
    have length := congrArg List.length same
    simp only [Parcel.sideTrail, List.length_append, List.length_cons, List.length_nil] at length
    omega
  obtain ⟨turns, bad⟩ := missing store sound standing other first second level same
  refine refuted store bad fun order perm p here result => ?_
  obtain ⟨a, b, after, stands, _, isOver⟩ := inOrder store sound standing other level perm
  have there := stands.posed.programs j
  have fits := stands.shared.fits j
  rw [pair_right] at there fits
  refine Parcel.cause_ne_missing isOver fits second (second.reached (sound.plain j)) ?_
  rw [← Option.some.inj (here.symm.trans there), Parcel.cause?, result]

theorem not_serializable_of_front (second : (t.parcel j).Reached t.base)
    (front : (t.parcel i).sideTrail <+: (t.parcel j).outer) : ¬ c.Serializable store := by
  have shallow : (t.parcel i).outer.length ≤ (t.parcel j).outer.length := by
    have length := front.length_le
    simp only [Parcel.sideTrail, List.length_append, List.length_cons, List.length_nil] at length
    omega
  obtain ⟨turns, names, bad⟩ := obstructed store sound standing other first second front
  obtain ⟨r, done⟩ := program_of_isOver t.base (t.parcel j) (a := .barred names) rfl
  obtain ⟨code, isBar, cause⟩ := Parcel.cause_barred t.base (t.parcel j) names
  rw [done] at bad cause
  refine refuted store bad fun order perm p here result => ?_
  have same : Parcel.cause? p = some (.system code) := by
    rw [← cause, Parcel.cause?, Parcel.cause?, result]
    rfl
  rw [standing.posed.length] at perm
  rcases order_cases other perm with rfl | rfl
  · obtain ⟨a, b, after, stands, _, isOver⟩ := behind store sound standing (i := i) (j := j)
      fun _ => Parcel.not_needs_sideTrail shallow
    have there := stands.posed.programs j
    have fits := stands.shared.fits j
    rw [pair_right] at there fits
    rw [Option.some.inj (here.symm.trans there)] at same
    refine Parcel.cause_ne_barred isOver fits second (fun others bars => ?_) isBar same
    -- what bars the way of the second is the object of the first, and it lies beside that way
    obtain ⟨needs, k, placed, trail⟩ := stands.shared.barred j others (by rw [pair_right, bars])
    rcases pair_others Stage.hasPlaced rfl placed with ⟨rfl, _⟩ | ⟨rfl, _⟩
    · rw [← trail] at needs
      have length : (t.parcel k).sideTrail.length = (t.parcel k).trail.length := by
        simp only [Parcel.sideTrail, Parcel.trail, List.length_append, List.length_cons,
          List.length_nil]
      exact (t.parcel k).side_ne_trail
        ((List.prefix_of_prefix_length_le front needs.2.1 (Nat.le_of_eq length)).eq_of_length length)
    · exact Parcel.not_needs_trail (Nat.le_refl _) (trail ▸ needs)
  · obtain ⟨b, after, stands, isOver, clear⟩ := standing.first store sound j
    have there := stands.posed.programs j
    have fits := stands.shared.fits j
    rw [advance_self] at there fits
    obtain ⟨r', done'⟩ := program_of_isOver t.base (t.parcel j) isOver
    rw [done'] at there
    have kept : (c.inTurn store [j.val, i.val]).programs[j.val]? = some (.done r') :=
      Crew.finish_of_done store there i
    rw [Option.some.inj (here.symm.trans kept), ← done'] at same
    exact Parcel.cause_ne_barred isOver fits second clear isBar same

theorem not_serializable_of_over (second : (t.parcel j).Storable t.base)
    (over' : (t.parcel j).trail = (t.parcel i).sideTrail)
    (differ : (t.parcel j).object.data ≠ (t.parcel i).object.data) : ¬ c.Serializable store := by
  have level : (t.parcel i).outer.length = (t.parcel j).outer.length := by
    have length := congrArg List.length over'
    simp only [Parcel.trail, Parcel.sideTrail, List.length_append, List.length_cons,
      List.length_nil] at length
    omega
  obtain ⟨turns, posed, spoiled, sources⟩ :=
    overwritten store sound standing other first second level over'
  have away : ∀ k, (t.parcel i).place t.top ≠ t.origin k := fun k same =>
    sound.origin_outside k _ same.symm
  obtain ⟨posed, kept, sources'⟩ := tidies store sound posed (pair_left other) (sources i)
  rw [advance_left other] at posed
  obtain ⟨posed, kept', _⟩ :=
    tidies store sound posed pair_right (sources' j other (sources j))
  rw [advance_right] at posed
  have final : ((c.follow store turns).step store i).step store j =
      c.follow store (turns ++ [i.val, j.val]) := by
    rw [Crew.follow_append]
    rfl
  have file := (kept' _ (away j)).trans ((kept _ (away i)).trans spoiled)
  rw [final] at posed file
  intro serializable
  obtain ⟨order, perm, like⟩ := serializable _ <| posed.over fun k => by
    rcases eq_or_eq other k with rfl | rfl
    · rw [pair_left other]
      rfl
    · rw [pair_right]
      rfl
  obtain ⟨a, b, after, stands, isOver, isOver'⟩ := inOrder store sound standing other level perm
  rw [like.disk.entries] at file
  obtain ⟨_, k, data, own⟩ :=
    (stands.shared.files _ (t.parcel i).trail_ne_nil _ _).mp file
  rcases own with ⟨holds, _⟩ | ⟨placed, trail, _⟩
  · rcases pair_others Stage.holds rfl holds with ⟨_, held⟩ | ⟨_, held⟩
    · exact absurd held (by rw [Stage.holds_of_isOver isOver]; exact Bool.false_ne_true)
    · exact absurd held (by rw [Stage.holds_of_isOver isOver']; exact Bool.false_ne_true)
  · rcases pair_others Stage.hasPlaced rfl placed with ⟨rfl, _⟩ | ⟨rfl, _⟩
    · exact differ data
    · exact (t.parcel i).side_ne_trail (over'.symm.trans trail)

omit first in
/-- Two transforms that clash can end as they would in neither order. -/
theorem not_serializable_of_clash (clash : (t.parcel i).Clash t.base (t.parcel j)) :
    ¬ c.Serializable store := by
  obtain ⟨first, ⟨second, same⟩ | ⟨second, front⟩ | ⟨second, over', differ⟩⟩ := clash
  · exact not_serializable_of_side store sound standing other first second same
  · exact not_serializable_of_front store sound standing other first second front
  · exact not_serializable_of_over store sound standing other first second over' differ

end Site

end Spool
