import Spool.Proofs.Push.Steps

/-!
Turns of a crew of transforms. Whoever makes the next call, what is shared stays as it is described,
and only the one whose turn it is gets to another stage.
-/

namespace Spool.Site

variable {n : Nat} {t : Site n} {d e : Disk} {s : Fin n → Stage} {log : List (Fin n)} {i : Fin n}
  {b : Stage} {σ : Type} {w : World σ}

namespace Shared

/-- Every way in which a stage can end keeps what is shared. -/
theorem does (sound : t.Sound) (alone : t.Free s i) (shared : t.Shared d s log)
    (done : Parcel.Does t.base t.top (t.origin i) (t.parcel i) d (s i) b e) :
    ∃ after, t.Shared e (advance s i b) after ∧ (after = log ∨ after = log ++ [i]) := by
  have fits := shared.fits i
  generalize before : s i = a at done fits
  cases done with
  | read =>
    refine ⟨log, shared.quiet (by rw [before]; rfl) ?_ ?_ ?_ ?_ ?_ ?_ ?_ ?_, .inl rfl⟩ <;>
      simp [before, Parcel.Gone, Parcel.Fits, Stage.holds, Stage.hasPlaced, Stage.hasLet]
  | turn off =>
    refine ⟨log, shared.quiet (by rw [before]; rfl) ?_ ?_ ?_ ?_ ?_ off ?_ ?_, .inl rfl⟩ <;>
      simp [before, Parcel.Gone, Stage.holds, Stage.hasPlaced, Stage.hasLet]
  | @bar names bytes executable reached needs file =>
    obtain ⟨_, j, _, own⟩ := (shared.files names needs.1 bytes executable).mp file
    have placed : (s j).hasPlaced ∧ (t.parcel j).trail = names := by
      rcases own with ⟨holds, same⟩ | ⟨placed, same, _⟩
      · rw [← same] at needs
        exact absurd needs (alone.making before reached j holds)
      · exact ⟨placed, same⟩
    refine ⟨log, shared.quiet (by rw [before]; rfl) ?_ ?_ ?_ ?_ ?_ reached ?_ ?_, .inl rfl⟩
    · simp [before, Stage.holds]
    · simp [before, Stage.hasPlaced]
    · simp [before, Stage.hasLet]
    · simp [before, Parcel.Gone]
    · simp [Parcel.Gone]
    · simp
    · intro others same
      cases same
      exact ⟨needs, j, placed⟩
  | make reached clear here dirs kept =>
    exact ⟨log, shared.make sound before reached clear here dirs kept, .inl rfl⟩
  | write storable free => exact ⟨log, shared.write sound alone before storable free, .inl rfl⟩
  | unwrite unstorable =>
    refine ⟨log, shared.quiet (by rw [before]; rfl) ?_ ?_ ?_ ?_ ?_ ⟨fits.1, fits.2, unstorable⟩
      ?_ ?_, .inl rfl⟩ <;>
      simp [before, Parcel.Gone, Stage.holds, Stage.hasPlaced, Stage.hasLet]
  | leave unstorable =>
    refine ⟨log, shared.quiet (by rw [before]; rfl) ?_ ?_ ?_ ?_ ?_ fits ?_ ?_, .inl rfl⟩ <;>
      simp [before, Parcel.Gone, Stage.holds, Stage.hasPlaced, Stage.hasLet]
  | place free => exact ⟨_, shared.place sound alone before free, .inr rfl⟩
  | fail barred =>
    have there := (shared.dirs _ (t.parcel i).trail_ne_nil).mp barred
    refine ⟨log, shared.quiet (by rw [before]; rfl) ?_ ?_ ?_ ?_ ?_ fits (fun _ => there) ?_,
      .inl rfl⟩ <;>
      simp [before, Parcel.Gone, Stage.holds, Stage.hasPlaced, Stage.hasLet]
  | discard => exact ⟨_, shared.discard sound alone before, .inr rfl⟩
  | remove => exact ⟨log, shared.remove sound before, .inl rfl⟩

theorem side_free (alone : t.Free s i) (shared : t.Shared d s log) (before : s i = .writing)
    (storable : (t.parcel i).Storable t.base) :
    d.at? ((t.parcel i).sidePlace t.top) ≠ some .dir := by
  intro dir
  obtain ⟨j, made, needs⟩ := (shared.dirs _ (t.parcel i).sideTrail_ne_nil).mp dir
  exact alone.writing before storable j made needs

theorem acts (store : KeyStore σ) (sound : t.Sound) (alone : t.Free s i)
    (shared : t.Shared w.disk s log) : (s i).isOver = true ∨ ∃ b d,
      Parcel.Does t.base t.top (t.origin i) (t.parcel i) w.disk (s i) b d ∧
        ((t.parcel i).program t.base (s i)).step store w =
          ({ w with disk := d }, (t.parcel i).program t.base b) := by
  have based := shared.based
  have plain := sound.plain i
  have fits := shared.fits i
  have through := shared.descend (i := i)
  have source := shared.source (i := i) sound
  have held := shared.held (i := i)
  generalize before : s i = a at fits through source held
  cases a with
  | barred _ | turnedAway | refused | unwritten | failed | ended => exact .inl rfl
  | reading =>
    have still : ¬ (t.parcel i).Gone .reading := by simp [Parcel.Gone]
    obtain ⟨executable, content⟩ := sound.content i
    have there := (shared.file_kept sound (before ▸ still)).trans content
    exact .inr ⟨.making, w.disk, .read, Parcel.step_reading ((source still).read_eq there)⟩
  | making => exact .inr (Parcel.step_making based plain)
  | writing =>
    exact .inr (Parcel.step_writing based plain (through rfl fits.2)
      (shared.side_free alone before) fun bytes executable file =>
        ((shared.files _ (t.parcel i).sideTrail_ne_nil bytes executable).mp file).1)
  | unwritable =>
    exact .inr ⟨.unwritten, w.disk, .leave fits.2.2,
      Parcel.step_unwritable based plain (through rfl fits.2.1) fits.2.2⟩
  | placing =>
    exact .inr (Parcel.step_stored based plain (through rfl fits.shortOuter) fits
      (held rfl))
  | failing =>
    exact .inr ⟨.failed, _, .discard, Parcel.step_failing based plain
      (through rfl fits.shortOuter) fits (held rfl)⟩
  | removing =>
    exact .inr ⟨.ended, _, .remove, Parcel.step_removing (source (by simp [Parcel.Gone]))⟩

end Shared

theorem advance_id (s : Fin n → Stage) (i : Fin n) : advance s i (s i) = s := by
  funext j
  by_cases here : j = i
  · rw [here, advance_self]
  · rw [advance_of_ne s _ here]

theorem advance_advance (s : Fin n → Stage) (i : Fin n) (b c : Stage) :
    advance (advance s i b) i c = advance s i c := by
  funext j
  by_cases here : j = i
  · rw [here, advance_self, advance_self]
  · rw [advance_of_ne _ c here, advance_of_ne s b here, advance_of_ne s c here]

theorem program_of_isOver (base : String) (p : Parcel) {a : Stage} (isOver : a.isOver = true) :
    ∃ r, p.program base a = .done r := by
  cases a with
  | barred _ | turnedAway | refused | unwritten | failed | ended => exact ⟨_, rfl⟩
  | _ => cases isOver

theorem isOver_of_program {base : String} {p : Parcel} {a : Stage} {r : Except PushError String}
    (done : p.program base a = .done r) : a.isOver = true := by
  cases a with
  | barred _ | turnedAway | refused | unwritten | failed | ended => rfl
  | making =>
    simp only [Parcel.program, Directory.withParent] at done
    split at done <;> cases done
  | _ => cases done

structure Posed (t : Site n) (keys : σ) (c : Crew σ (Except PushError String)) (s : Fin n → Stage) :
    Prop where
  keys : c.world.keys = keys
  length : c.programs.length = n
  programs : ∀ i : Fin n, c.programs[i.val]? = some ((t.parcel i).program t.base (s i))

theorem Posed.next {keys : σ} {c : Crew σ (Except PushError String)} (store : KeyStore σ)
    (posed : t.Posed keys c s) {a : Stage} (before : s i = a)
    (acted : ((t.parcel i).program t.base a).step store c.world =
      ({ c.world with disk := d }, (t.parcel i).program t.base b)) :
    t.Posed keys (c.step store i) (advance s i b) ∧ (c.step store i).world.disk = d := by
  subst before
  rw [Crew.step_eq (posed.programs i), acted]
  refine ⟨⟨posed.keys, by rw [List.length_set]; exact posed.length, fun j => ?_⟩, rfl⟩
  by_cases own : j = i
  · subst own
    rw [List.getElem?_set_self (by rw [posed.length]; exact j.isLt), advance_self]
  · rw [List.getElem?_set_ne fun eq => own (Fin.ext eq.symm), advance_of_ne s b own]
    exact posed.programs j

/-- A crew at the given stages, on a disk that is shared as described. -/
structure Standing (t : Site n) (keys : σ) (c : Crew σ (Except PushError String))
    (s : Fin n → Stage) (log : List (Fin n)) : Prop where
  shared : t.Shared c.world.disk s log
  posed : t.Posed keys c s

namespace Standing

variable {keys : σ} {c : Crew σ (Except PushError String)}

theorem act (store : KeyStore σ) (sound : t.Sound) (standing : t.Standing keys c s log)
    (alone : t.Free s i) (busy : (s i).isOver = false) : ∃ b after,
      Parcel.Does t.base t.top (t.origin i) (t.parcel i) c.world.disk (s i) b
        (c.step store i).world.disk ∧
      t.Standing keys (c.step store i) (advance s i b) after ∧
      (after = log ∨ after = log ++ [i]) := by
  rcases standing.shared.acts store sound alone with isOver | ⟨b, d, does, next⟩
  · rw [busy] at isOver
    cases isOver
  · obtain ⟨after, shared, logs⟩ := standing.shared.does sound alone does
    obtain ⟨posed, disk⟩ := standing.posed.next store rfl next
    exact ⟨b, after, disk ▸ does, ⟨disk ▸ shared, posed⟩, logs⟩

theorem step (store : KeyStore σ) (sound : t.Sound) (standing : t.Standing keys c s log)
    (alone : t.Free s i) : ∃ b after, t.Standing keys (c.step store i) (advance s i b) after ∧
      (after = log ∨ after = log ++ [i]) := by
  cases busy : (s i).isOver with
  | false =>
    obtain ⟨b, after, _, next, logs⟩ := standing.act store sound alone busy
    exact ⟨b, after, next, logs⟩
  | true =>
    obtain ⟨r, done⟩ := program_of_isOver t.base (t.parcel i) busy
    have still : ((t.parcel i).program t.base (s i)).step store c.world =
        ({ c.world with disk := c.world.disk }, (t.parcel i).program t.base (s i)) := by
      rw [done]
      rfl
    obtain ⟨posed, disk⟩ := standing.posed.next store rfl still
    refine ⟨s i, log, ⟨?_, posed⟩, .inl rfl⟩
    rw [disk, advance_id]
    exact standing.shared

theorem follow (store : KeyStore σ) (sound : t.Sound) (peaceful : t.Peaceful)
    (standing : t.Standing keys c s log) (turns : List Nat) :
    ∃ s' after, t.Standing keys (c.follow store turns) s' after := by
  induction turns generalizing c s log with
  | nil => exact ⟨s, log, standing⟩
  | cons turn turns ih =>
    by_cases inside : turn < n
    · have alone := standing.shared.free sound peaceful ⟨turn, inside⟩
      obtain ⟨b, after, next, _⟩ := standing.step store sound alone
      exact ih next
    · have none : c.programs[turn]? = none := by
        rw [List.getElem?_eq_none_iff, standing.posed.length]
        exact Nat.le_of_not_lt inside
      have same : c.step store turn = c := by simp only [Crew.step, none]
      have rest := ih standing
      rw [← same] at rest
      exact rest

theorem repeated (store : KeyStore σ) (sound : t.Sound) (standing : t.Standing keys c s log)
    (alone : ∀ d b after, t.Shared d (advance s i b) after → t.Free (advance s i b) i) (k : Nat) :
    ∃ b after,
      t.Standing keys (c.follow store (List.replicate k i.val)) (advance s i b) after ∧
        (after = log ∨ after = log ++ [i]) := by
  induction k with
  | zero =>
    refine ⟨s i, log, ?_, .inl rfl⟩
    rw [advance_id]
    exact standing
  | succ k ih =>
    obtain ⟨b, between, stands, logs⟩ := ih
    obtain ⟨b', after, next, logs'⟩ :=
      stands.step store sound (alone _ b between stands.shared)
    rw [advance_advance] at next
    rw [List.replicate_succ', Crew.follow_append]
    refine ⟨b', after, next, ?_⟩
    rcases logs' with rfl | rfl
    · exact logs
    · rcases logs with rfl | rfl
      · exact .inr rfl
      · have nodup := next.shared.nodup
        simp [List.nodup_append] at nodup

theorem finish (store : KeyStore σ) (sound : t.Sound) (standing : t.Standing keys c s log)
    (alone : ∀ d b after, t.Shared d (advance s i b) after → t.Free (advance s i b) i) :
    ∃ b after, t.Standing keys (c.finish store i) (advance s i b) after ∧
      b.isOver = true ∧ (after = log ∨ after = log ++ [i]) := by
  obtain ⟨k, calls⟩ := Crew.finish_eq_follow store c i
  obtain ⟨b, after, stands, logs⟩ := standing.repeated store sound alone k
  rw [← calls] at stands
  refine ⟨b, after, stands, ?_, logs⟩
  have done := stands.posed.programs i
  rw [advance_self, Crew.finish_eq (standing.posed.programs i),
    List.getElem?_set_self (by rw [standing.posed.length]; exact i.isLt)] at done
  exact isOver_of_program (Option.some.inj done).symm

end Standing

end Spool.Site
