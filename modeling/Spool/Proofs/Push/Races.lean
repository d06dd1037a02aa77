import Spool.Proofs.Push.Serial

/-!
Two transforms that clash. Their calls can be interleaved so that they end as they never would one
after the other: the second finds its object gone, finds a file where it needs a directory, or has
its content put in the place of the first.
-/

namespace Spool.Site

variable {n : Nat} {t : Site n} {s : Fin n → Stage} {log : List (Fin n)} {i j : Fin n} {σ : Type}
  {keys : σ} {c : Crew σ (Except PushError String)}

/-- Nobody gets in the way of a transform while the others hold nothing. -/
theorem free_of_others (others : ∀ k, k ≠ i → (s k).holds = false)
    (clear : (t.parcel i).Storable t.base → ∀ k, k ≠ i → (s k).hasMade = true →
      ¬ (t.parcel k).Needs (t.parcel i).sideTrail) : t.Free s i where
  making before _ k holds := by
    by_cases here : k = i
    · rw [here, before] at holds
      cases holds
    · rw [others k here] at holds
      cases holds
  writing _ storable k made := by
    by_cases here : k = i
    · rw [here]
      exact Parcel.not_needs_sideTrail (Nat.le_refl _)
    · exact clear storable k here made
  alone _ k other holds := by
    rw [others k other] at holds
    cases holds
  placing before k holds same := by
    by_cases here : k = i
    · rw [here] at same
      exact absurd same.symm (t.parcel i).side_ne_trail
    · rw [others k here] at holds
      cases holds

def fresh : Fin n → Stage := fun _ => .reading

namespace Standing

theorem first (store : KeyStore σ) (sound : t.Sound) (standing : t.Standing keys c fresh [])
    (i : Fin n) : ∃ b after, t.Standing keys (c.finish store i) (advance fresh i b) after ∧
      b.isOver = true ∧ ∀ names, b ≠ .barred names := by
  have alone : ∀ d b after, t.Shared d (advance fresh i b) after →
      t.Free (advance fresh i b) i := by
    intro d b after _
    refine free_of_others (fun k other => ?_) fun _ k other made => ?_
    · rw [advance_of_ne fresh b other]
      rfl
    · rw [advance_of_ne fresh b other] at made
      cases made
  obtain ⟨b, after, stands, isOver, _⟩ := standing.finish store sound alone
  refine ⟨b, after, stands, isOver, fun names bars => ?_⟩
  obtain ⟨needs, k, placed, same⟩ := stands.shared.barred i names (by rw [advance_self, bars])
  by_cases here : k = i
  · rw [here] at same
    exact Parcel.not_needs_trail (Nat.le_refl _) (same ▸ needs)
  · rw [advance_of_ne fresh b here] at placed
    cases placed

/-- A second transform runs behind the first, if the first leaves the name beside its object alone. -/
theorem second (store : KeyStore σ) (sound : t.Sound) {a : Stage} (over' : a.isOver = true)
    (standing : t.Standing keys c (advance fresh i a) log)
    (clear : (t.parcel j).Storable t.base → ¬ (t.parcel i).Needs (t.parcel j).sideTrail) :
    ∃ b after, t.Standing keys (c.finish store j) (advance (advance fresh i a) j b) after ∧
      b.isOver = true := by
  have quiet := Stage.holds_of_isOver over'
  have alone : ∀ d b after, t.Shared d (advance (advance fresh i a) j b) after →
      t.Free (advance (advance fresh i a) j b) j := by
    intro d b after _
    refine free_of_others (fun k differs => ?_) fun storable k differs made => ?_
    · rw [advance_of_ne _ b differs]
      by_cases here : k = i
      · rw [here, advance_self, quiet]
      · rw [advance_of_ne fresh a here]
        rfl
    · rw [advance_of_ne _ b differs] at made
      by_cases here : k = i
      · rw [here]
        exact clear storable
      · rw [advance_of_ne fresh a here] at made
        cases made
  obtain ⟨b, after, stands, isOver, _⟩ := standing.finish store sound alone
  exact ⟨b, after, stands, isOver⟩

theorem reads (store : KeyStore σ) (sound : t.Sound) (standing : t.Standing keys c s log)
    (alone : t.Free s i) (before : s i = .reading) :
    ∃ after, t.Standing keys (c.step store i) (advance s i .making) after := by
  obtain ⟨b, after, does, stands, _⟩ := standing.act store sound alone (by rw [before]; rfl)
  generalize (c.step store i).world.disk = e at does
  rw [before] at does
  cases does with
  | read => exact ⟨after, stands⟩

theorem makes (store : KeyStore σ) (sound : t.Sound) (standing : t.Standing keys c s log)
    (alone : t.Free s i) (before : s i = .making) (reached : (t.parcel i).Reached t.base)
    (short : Disk.Short (t.parcel i).outer) (empty : ∀ k, (s k).hasPlaced = false) :
    ∃ after, t.Standing keys (c.step store i) (advance s i .writing) after := by
  obtain ⟨b, after, does, stands, _⟩ := standing.act store sound alone (by rw [before]; rfl)
  generalize (c.step store i).world.disk = e at does
  rw [before] at does
  cases does with
  | turn off => exact absurd reached off
  | @bar names bytes executable _ needs file =>
    obtain ⟨_, k, _, own⟩ := (standing.shared.files names needs.1 bytes executable).mp file
    rcases own with ⟨holds, rfl⟩ | ⟨placed, _, _⟩
    · exact absurd needs (alone.making before reached k holds)
    · rw [empty k] at placed
      cases placed
  | make _ _ _ _ _ =>
    rw [if_pos short] at stands
    exact ⟨after, stands⟩

theorem writes (store : KeyStore σ) (sound : t.Sound) (standing : t.Standing keys c s log)
    (alone : t.Free s i) (before : s i = .writing) (storable : (t.parcel i).Storable t.base) :
    ∃ after, t.Standing keys (c.step store i) (advance s i .placing) after := by
  obtain ⟨b, after, does, stands, _⟩ := standing.act store sound alone (by rw [before]; rfl)
  generalize (c.step store i).world.disk = e at does
  rw [before] at does
  cases does with
  | write _ _ => exact ⟨after, stands⟩
  | unwrite unstorable => exact absurd storable unstorable

theorem prepares (store : KeyStore σ) (sound : t.Sound) (standing : t.Standing keys c s log)
    (alone : ∀ b, t.Free (advance s i b) i) (before : s i = .reading)
    (storable : (t.parcel i).Storable t.base) (empty : ∀ k, (s k).hasPlaced = false) :
    ∃ after, t.Standing keys (c.follow store [i, i]) (advance s i .writing) after := by
  have start := alone (s i)
  rw [advance_id] at start
  obtain ⟨between, stands⟩ := standing.reads store sound start before
  obtain ⟨after, stands⟩ := stands.makes store sound (alone .making) (advance_self s i _)
    (storable.reached (sound.plain i)) storable.shortOuter fun k => by
      by_cases here : k = i
      · rw [here, advance_self]
        rfl
      · rw [advance_of_ne s _ here]
        exact empty k
  rw [advance_advance] at stands
  exact ⟨after, stands⟩

end Standing

section Pair

def pair (i j : Fin n) (a b : Stage) : Fin n → Stage := advance (advance fresh i a) j b

variable {a b : Stage}

theorem pair_left (other : j ≠ i) : pair i j a b i = a := by
  rw [pair, advance_of_ne _ b (Ne.symm other), advance_self]

theorem pair_right : pair i j a b j = b := advance_self _ j b

theorem pair_comm (other : j ≠ i) : pair i j a b = pair j i b a := by
  funext k
  unfold pair
  by_cases left : k = i
  · rw [left, advance_of_ne _ b (Ne.symm other), advance_self, advance_self]
  · by_cases right : k = j
    · rw [right, advance_self, advance_of_ne _ a other, advance_self]
    · rw [advance_of_ne _ b right, advance_of_ne _ a left, advance_of_ne _ a left,
        advance_of_ne _ b right]

theorem advance_right (c : Stage) : advance (pair i j a b) j c = pair i j a c :=
  advance_advance _ j b c

theorem advance_left (other : j ≠ i) (c : Stage) :
    advance (pair i j a b) i c = pair i j c b := by
  rw [pair_comm other, pair_comm other]
  exact advance_advance _ i a c

theorem advance_fresh (other : j ≠ i) : advance fresh i a = pair i j a .reading := by
  funext k
  unfold pair
  by_cases right : k = j
  · rw [right, advance_self, advance_of_ne fresh a other]
    rfl
  · rw [advance_of_ne _ _ right]

theorem pair_others {k : Fin n} (f : Stage → Bool) (none : f .reading = false)
    (is : f (pair i j a b k) = true) : k = i ∧ f a = true ∨ k = j ∧ f b = true := by
  unfold pair at is
  by_cases right : k = j
  · rw [right, advance_self] at is
    exact .inr ⟨right, is⟩
  · rw [advance_of_ne _ b right] at is
    by_cases left : k = i
    · rw [left, advance_self] at is
      exact .inl ⟨left, is⟩
    · rw [advance_of_ne _ a left] at is
      exact absurd (none.symm.trans is) Bool.false_ne_true

theorem free_right (other : j ≠ i)
    (making : b = .making → (t.parcel j).Reached t.base → a.holds = true →
      ¬ (t.parcel j).Needs (t.parcel i).sideTrail)
    (clear : (t.parcel j).Storable t.base → a.hasMade = true →
      ¬ (t.parcel i).Needs (t.parcel j).sideTrail)
    (alone : (t.parcel j).Storable t.base → a.holds = true →
      (t.parcel i).sideTrail ≠ (t.parcel j).sideTrail)
    (placing : b = .placing → a.holds = true → (t.parcel j).trail = (t.parcel i).sideTrail →
      (t.parcel j).object.data = (t.parcel i).object.data) : t.Free (pair i j a b) j where
  making before reached k holds := by
    rw [pair_right] at before
    rcases pair_others Stage.holds rfl holds with ⟨rfl, held⟩ | ⟨rfl, held⟩
    · exact making before reached held
    · rw [before] at held
      cases held
  writing before storable k made := by
    rcases pair_others Stage.hasMade rfl made with ⟨rfl, done⟩ | ⟨rfl, _⟩
    · exact clear storable done
    · exact Parcel.not_needs_sideTrail (Nat.le_refl _)
  alone storable k differs holds := by
    rcases pair_others Stage.holds rfl holds with ⟨rfl, held⟩ | ⟨rfl, _⟩
    · exact alone storable held
    · exact absurd rfl differs
  placing before k holds same := by
    rw [pair_right] at before
    rcases pair_others Stage.holds rfl holds with ⟨rfl, held⟩ | ⟨rfl, _⟩
    · exact placing before held same
    · exact absurd same.symm (t.parcel k).side_ne_trail

theorem place_ne_dir {d : Disk} (shared : t.Shared d (pair i j a b) log)
    (level : (t.parcel i).outer.length = (t.parcel j).outer.length) :
    d.at? ((t.parcel i).place t.top) ≠ some .dir := by
  intro dir
  obtain ⟨k, begun, needs⟩ := (shared.dirs _ (t.parcel i).trail_ne_nil).mp dir
  rcases pair_others Stage.hasMade rfl begun with ⟨rfl, _⟩ | ⟨rfl, _⟩
  · exact Parcel.not_needs_trail (Nat.le_refl _) needs
  · exact Parcel.not_needs_trail (Nat.le_of_eq level.symm) needs

/-- The first transform puts in its place whatever file the second left beside it. -/
theorem renames (store : KeyStore σ) (sound : t.Sound) (other : j ≠ i)
    (first : (t.parcel i).Storable t.base)
    (level : (t.parcel i).outer.length = (t.parcel j).outer.length) {d : Disk}
    (shared : t.Shared d (pair i j .placing a) log) (swaps : d.Swaps c.world.disk)
    (posed : t.Posed keys c (pair i j .placing b)) {bytes : ByteArray}
    (there : c.world.disk.at? ((t.parcel i).sidePlace t.top) = some (.file bytes false)) :
    t.Posed keys (c.step store i) (pair i j (t.parcel i).placed b) ∧
      c.world.disk.Swaps (c.step store i).world.disk ∧
      ∀ loc, (c.step store i).world.disk.at? loc =
        if loc = (t.parcel i).place t.top then some (.file bytes false)
        else if loc = (t.parcel i).sidePlace t.top then none else c.world.disk.at? loc := by
  have based := swaps.steady.based shared.based
  have clear : c.world.disk.at? ((t.parcel i).place t.top) ≠ some .dir := fun dir =>
    place_ne_dir shared level (swaps.isDir.mp dir)
  have through := swaps.descend (shared.descend (i := i) (by rw [pair_left other]; rfl)
    first.shortOuter)
  have home : c.world.disk.at? c.world.disk.here = some .dir := by
    rw [swaps.here]
    exact swaps.isDir.mpr (shared.home sound)
  obtain ⟨next, disk⟩ := posed.next store (pair_left other)
    (Parcel.step_place based (sound.plain i) through first there clear)
  rw [advance_left other] at next
  rw [disk]
  exact ⟨next, Parcel.relocate_eq based home through there clear⟩

end Pair

theorem lost (store : KeyStore σ) (sound : t.Sound) (posed : t.Posed keys c s)
    (before : s i = .placing) (based : c.world.disk.Based (Route.ofText t.base.toList) t.top)
    (storable : (t.parcel i).Storable t.base)
    (through : c.world.disk.descend t.top (t.parcel i).outer =
      .ok (Disk.under t.top (t.parcel i).outer))
    (gone : c.world.disk.at? ((t.parcel i).sidePlace t.top) = none) :
    ((c.step store i).step store i).programs[i.val]? = some (.done
      (.error (.io ((t.parcel i).dest t.base) (.system Errno.noEntry)))) := by
  have fits := storable.2 _ (List.mem_append_right _ List.mem_cons_self)
  have missing := based.rename_missing (Parcel.names_beside (sound.plain i) storable.1)
    (Parcel.names_dest (sound.plain i) storable) through (Nat.not_lt_of_le fits) gone
  have call : ((t.parcel i).program t.base .placing).step store c.world =
      ({ c.world with disk := c.world.disk }, Directory.discard ((t.parcel i).beside t.base)
        ((t.parcel i).dest t.base) (.system Errno.noEntry)) := Parcel.step_placing missing
  have left : (c.step store i).programs[i.val]? = some (Directory.discard
      ((t.parcel i).beside t.base) ((t.parcel i).dest t.base) (.system Errno.noEntry)) := by
    rw [Crew.getElem?_step store (before ▸ posed.programs i), call]
  rw [Crew.getElem?_step store left, Parcel.discard_ends]

section Two

variable (store : KeyStore σ) (sound : t.Sound) (standing : t.Standing keys c fresh [])
  (other : j ≠ i) (first : (t.parcel i).Storable t.base)
include sound standing other first

theorem one_prepared : ∃ after,
    t.Standing keys (c.follow store [i, i]) (pair i j .writing .reading) after := by
  have alone : ∀ b, t.Free (advance fresh i b) i := by
    intro b
    rw [advance_fresh other, pair_comm other]
    exact free_right (Ne.symm other) (by simp [Stage.holds]) (by simp [Stage.hasMade])
      (by simp [Stage.holds]) (by simp [Stage.holds])
  obtain ⟨after, stands⟩ := standing.prepares store sound alone rfl first fun _ => rfl
  rw [advance_fresh other] at stands
  exact ⟨after, stands⟩

theorem obstructed (second : (t.parcel j).Reached t.base)
    (front : (t.parcel i).sideTrail <+: (t.parcel j).outer) : ∃ turns names,
      (c.follow store turns).programs[j.val]? =
        some ((t.parcel j).program t.base (.barred names)) := by
  have deeper : (t.parcel i).outer.length < (t.parcel j).outer.length := by
    have length := front.length_le
    simp only [Parcel.sideTrail, List.length_append, List.length_cons, List.length_nil] at length
    omega
  obtain ⟨_, stands⟩ := one_prepared store sound standing other first
  have alone : t.Free (pair i j .writing .reading) i := by
    rw [pair_comm other]
    exact free_right (Ne.symm other) (by simp) (by simp [Stage.hasMade]) (by simp [Stage.holds])
      (by simp)
  obtain ⟨_, stands⟩ := stands.writes store sound alone (pair_left other) first
  rw [advance_left other] at stands
  have alone : t.Free (pair i j .placing .reading) j := by
    refine free_right other (by simp) (fun _ _ => ?_) (fun _ _ same => ?_) (by simp)
    · exact Parcel.not_needs_sideTrail (Nat.le_of_lt deeper)
    · have length := congrArg List.length same
      simp only [Parcel.sideTrail, List.length_append, List.length_cons, List.length_nil] at length
      omega
  obtain ⟨_, stands⟩ := stands.reads store sound alone pair_right
  rw [advance_right] at stands
  have turns : ((c.follow store [i, i]).step store i).step store j =
      c.follow store [i, i, i, j] := rfl
  rw [turns] at stands
  generalize before : c.follow store [i, i, i, j] = c₁ at stands
  have held := stands.shared.held (i := i) (by rw [pair_left other]; rfl)
  obtain ⟨b, d, does, acted⟩ : ∃ b d, Parcel.Does t.base t.top (t.origin j) (t.parcel j)
      c₁.world.disk .making b d ∧ ((t.parcel j).program t.base .making).step store c₁.world =
        ({ c₁.world with disk := d }, (t.parcel j).program t.base b) :=
    Parcel.step_making stands.shared.based (sound.plain j)
  have here := stands.posed.programs j
  rw [pair_right] at here
  have next := Crew.getElem?_step store here
  rw [acted] at next
  cases does with
  | turn off => exact absurd second off
  | @bar names _ _ _ _ _ =>
    refine ⟨[i.val, i.val, i.val, j.val] ++ [j.val], names, ?_⟩
    rw [Crew.follow_append, before]
    exact next
  | make _ clear _ _ _ =>
    have needs : (t.parcel j).Needs (t.parcel i).sideTrail :=
      ⟨(t.parcel i).sideTrail_ne_nil, front, first.2⟩
    exact absurd held (clear _ (Parcel.onWay_under.mpr needs) _ _)

variable (second : (t.parcel j).Storable t.base)
  (level : (t.parcel i).outer.length = (t.parcel j).outer.length)
include second level

theorem both_write : ∃ after,
    t.Standing keys (c.follow store [i, i, j, j]) (pair i j .writing .writing) after := by
  obtain ⟨between, stands⟩ := one_prepared store sound standing other first
  have alone : ∀ b, t.Free (advance (pair i j .writing .reading) j b) j := by
    intro b
    rw [advance_right]
    exact free_right other (by simp [Stage.holds])
      (fun _ _ => Parcel.not_needs_sideTrail (Nat.le_of_eq level)) (by simp [Stage.holds])
      (by simp [Stage.holds])
  have empty : ∀ k, (pair i j .writing .reading k).hasPlaced = false := fun k =>
    Bool.eq_false_iff.mpr fun placed => by
      rcases pair_others Stage.hasPlaced rfl placed with ⟨_, placed⟩ | ⟨_, placed⟩ <;> cases placed
  obtain ⟨after, stands⟩ := stands.prepares store sound alone pair_right second empty
  rw [advance_right] at stands
  exact ⟨after, stands⟩

theorem one_wrote : ∃ after,
    t.Standing keys (c.follow store [i, i, j, j, i]) (pair i j .placing .writing) after := by
  obtain ⟨between, stands⟩ := both_write store sound standing other first second level
  have alone : t.Free (pair i j .writing .writing) i := by
    rw [pair_comm other]
    exact free_right (Ne.symm other) (by simp)
      (fun _ _ => Parcel.not_needs_sideTrail (Nat.le_of_eq level.symm)) (by simp [Stage.holds])
      (by simp)
  obtain ⟨after, stands⟩ := stands.writes store sound alone (pair_left other) first
  rw [advance_left other] at stands
  exact ⟨after, stands⟩

/-- The second transform writes over the object of the first, which then puts it in its place. -/
theorem missing (same : (t.parcel i).sideTrail = (t.parcel j).sideTrail) : ∃ turns,
    (c.follow store turns).programs[j.val]? = some (.done
      (.error (.io ((t.parcel j).dest t.base) (.system Errno.noEntry)))) := by
  obtain ⟨log, stands⟩ := one_wrote store sound standing other first second level
  generalize before : c.follow store [i, i, j, j, i] = c₁ at stands
  have shared := stands.shared
  have spot : (t.parcel i).sidePlace t.top = (t.parcel j).sidePlace t.top :=
    congrArg (Disk.under t.top) same
  have held := shared.held (i := i) (by rw [pair_left other]; rfl)
  have free : c₁.world.disk.at? ((t.parcel j).sidePlace t.top) ≠ some .dir := by
    rw [← spot, held]
    simp
  have bare : ∀ bytes executable,
      c₁.world.disk.at? ((t.parcel j).sidePlace t.top) = some (.file bytes executable) →
        executable = false := fun bytes executable file =>
    ((shared.files _ (t.parcel j).sideTrail_ne_nil bytes executable).mp file).1
  -- the second writes over the object of the first
  have through := shared.descend (i := j) (by rw [pair_right]; rfl) second.shortOuter
  obtain ⟨posed, disk⟩ := stands.posed.next store pair_right
    (Parcel.step_write shared.based (sound.plain j) through second free bare)
  obtain ⟨swaps, entries⟩ := Parcel.put_eq shared.based through free (t.parcel j).object.data
    false
  rw [advance_right] at posed
  rw [← disk] at swaps entries
  generalize written : c₁.step store j = c₂ at posed disk swaps entries
  have there : c₂.world.disk.at? ((t.parcel i).sidePlace t.top) =
      some (.file (t.parcel j).object.data false) := by
    rw [entries, if_pos spot]
  obtain ⟨posed, swaps', entries'⟩ :=
    renames store sound other first level shared swaps posed there
  generalize renamed : c₂.step store i = c₃ at posed swaps' entries'
  -- nothing is left for the second to rename
  have gone : c₃.world.disk.at? ((t.parcel j).sidePlace t.top) = none := by
    have apart : (t.parcel j).sidePlace t.top ≠ (t.parcel i).place t.top := by
      rw [← spot]
      exact fun same => (t.parcel i).side_ne_trail (Disk.under_inj.mp same)
    rw [entries', if_neg apart, if_pos spot.symm]
  have ends := lost store sound posed pair_right
    (swaps'.steady.based (swaps.steady.based shared.based)) second
    (swaps'.descend (swaps.descend through)) gone
  refine ⟨[i.val, i.val, j.val, j.val, i.val] ++ [j.val, i.val, j.val, j.val], ?_⟩
  rw [Crew.follow_append, before]
  simp only [Crew.follow, List.foldl_cons, List.foldl_nil, written, renamed]
  exact ends

/-- The first transform puts in its place what the second put over its object. -/
theorem overwritten (over' : (t.parcel j).trail = (t.parcel i).sideTrail) : ∃ turns,
    t.Posed keys (c.follow store turns) (pair i j (t.parcel i).placed (t.parcel j).placed) ∧
      (c.follow store turns).world.disk.at? ((t.parcel i).place t.top) =
        some (.file (t.parcel j).object.data false) ∧
      ∀ k, (c.follow store turns).world.disk.Source (t.parcel k).job.source (t.origin k)
        (t.file k) := by
  obtain ⟨_, stands⟩ := one_wrote store sound standing other first second level
  have apart : (t.parcel i).sideTrail ≠ (t.parcel j).sideTrail := by
    rw [← over']
    exact (t.parcel j).side_ne_trail.symm
  have alone : t.Free (pair i j .placing .writing) j :=
    free_right other (by simp) (fun _ _ => Parcel.not_needs_sideTrail (Nat.le_of_eq level))
      (fun _ _ => apart) (by simp)
  obtain ⟨log, stands⟩ := stands.writes store sound alone pair_right second
  rw [advance_right] at stands
  have turns : (c.follow store [i, i, j, j, i]).step store j =
      c.follow store [i, i, j, j, i, j] := rfl
  rw [turns] at stands
  generalize before : c.follow store [i, i, j, j, i, j] = c₁ at stands
  have shared := stands.shared
  have held := shared.held (i := i) (by rw [pair_left other]; rfl)
  have held' := shared.held (i := j) (by rw [pair_right]; rfl)
  have spot : (t.parcel j).place t.top = (t.parcel i).sidePlace t.top :=
    congrArg (Disk.under t.top) over'
  have free : c₁.world.disk.at? ((t.parcel j).place t.top) ≠ some .dir := by
    rw [spot, held]
    simp
  have sources : ∀ k, c₁.world.disk.Source (t.parcel k).job.source (t.origin k) (t.file k) := by
    intro k
    refine shared.source sound fun gone => ?_
    unfold pair advance fresh at gone
    split at gone
    · exact absurd gone.1 (by simp)
    · split at gone <;> exact absurd gone.1 (by simp)
  -- the second puts its object over that of the first
  have through := shared.descend (i := j) (by rw [pair_right]; rfl) second.shortOuter
  obtain ⟨posed, disk⟩ := stands.posed.next store pair_right
    (Parcel.step_place shared.based (sound.plain j) through second held' free)
  obtain ⟨swaps, entries⟩ :=
    Parcel.relocate_eq shared.based (shared.home sound) through held' free
  rw [advance_right] at posed
  rw [← disk] at swaps entries
  generalize renamed : c₁.step store j = c₂ at posed disk swaps entries
  -- the first renames it
  have there : c₂.world.disk.at? ((t.parcel i).sidePlace t.top) =
      some (.file (t.parcel j).object.data false) := by
    rw [entries, if_pos spot.symm]
  obtain ⟨posed, swaps', entries'⟩ :=
    renames store sound other first level shared swaps posed there
  generalize moved : c₂.step store i = c₃ at posed swaps' entries'
  have final : c.follow store ([i.val, i.val, j.val, j.val, i.val, j.val] ++ [j.val, i.val]) = c₃ := by
    rw [Crew.follow_append, before]
    simp only [Crew.follow, List.foldl_cons, List.foldl_nil, renamed, moved]
  refine ⟨_, final ▸ posed, ?_, fun k => ?_⟩
  · rw [final, entries', if_pos rfl]
  · rw [final]
    have away : ∀ p : Parcel, t.file k ≠ p.place t.top ∧ t.file k ≠ p.sidePlace t.top :=
      fun p => ⟨sound.file_outside k p.trail, sound.file_outside k p.sideTrail⟩
    have source := (sources k).keep (swaps.steady.keeps fun _ => False) (fun _ => False.elim) (by
      rw [entries, if_neg (away _).1, if_neg (away _).2])
    exact source.keep (swaps'.steady.keeps fun _ => False) (fun _ => False.elim) (by
      rw [entries', if_neg (away _).1, if_neg (away _).2])

end Two

theorem tidies (store : KeyStore σ) (sound : t.Sound) (posed : t.Posed keys c s)
    (before : s i = (t.parcel i).placed)
    (source : c.world.disk.Source (t.parcel i).job.source (t.origin i) (t.file i)) :
    t.Posed keys (c.step store i) (advance s i .ended) ∧
      (∀ loc, loc ≠ t.origin i →
        (c.step store i).world.disk.at? loc = c.world.disk.at? loc) ∧
      ∀ k, k ≠ i → c.world.disk.Source (t.parcel k).job.source (t.origin k) (t.file k) →
        (c.step store i).world.disk.Source (t.parcel k).job.source (t.origin k) (t.file k) := by
  unfold Parcel.placed at before
  split at before
  · obtain ⟨next, disk⟩ := posed.next store before (Parcel.step_removing source)
    refine ⟨next, fun loc away => ?_, fun k differs there => ?_⟩
    · rw [disk]
      exact Disk.at?_remove_of_ne _ away
    · rw [disk]
      exact there.keep_remove source.denotes fun same => differs (sound.apart i k same).symm
  · have still : ((t.parcel i).program t.base .ended).step store c.world =
        ({ c.world with disk := c.world.disk }, (t.parcel i).program t.base .ended) := rfl
    obtain ⟨next, disk⟩ := posed.next store before still
    refine ⟨next, fun loc _ => by rw [disk], fun k _ there => ?_⟩
    rw [disk]
    exact there

end Spool.Site
