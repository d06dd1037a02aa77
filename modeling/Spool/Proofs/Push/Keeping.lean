import Spool.Proofs.Push.Runs
import Spool.Proofs.Push.Serializable

/-!
Objects and later transforms. A transform that runs by itself touches the place of its object, the
name beside it and its source; so an object that was stored stays until a transform of the same
content needs its place for a partial object.
-/

namespace Spool

namespace Parcel

open Directory

variable {σ : Type} {w : World σ} {base : String} {top source : Loc}
  {p : Parcel} {d e f : Disk} {r : Except PushError String}

/-- What a transform does to a disk on which its object can be placed at `top`, and how it ends. -/
structure Stores (base : String) (p : Parcel) (top source : Loc) (d e : Disk) (r : Except PushError String) :
    Prop where
  spares : d.Spares e fun loc => loc = p.place top ∨ loc = p.sidePlace top ∨ loc = source
  /-- A file that was at the place of the object stays, or the object took its place. -/
  place : ∀ bytes executable, d.at? (p.place top) = some (.file bytes executable) →
    e.at? (p.place top) = some (.file bytes executable) ∨
      ∃ executable, e.at? (p.place top) = some (.file p.object.data executable)
  stored : ∀ hash, r = .ok hash → hash = p.object.hash ∧ p.Storable base ∧
    e.at? (p.sidePlace top) = none ∧
      ∃ executable, e.at? (p.place top) = some (.file p.object.data executable)

namespace Stores

theorem idle (d : Disk) (cause : PushError) : p.Stores base top source d d (.error cause) :=
  ⟨.refl d _, fun _ _ there => .inl there, fun _ impossible => by cases impossible⟩

theorem after (first : d.Spares e (· = p.sidePlace top)) (second : p.Stores base top source e f r) :
    p.Stores base top source d f r where
  spares := (first.mono fun _ here => .inr (.inl here)).trans second.spares
  place bytes executable there := by
    refine second.place bytes executable (first.files _ (fun same => ?_) bytes executable there)
    exact p.side_ne_trail (Disk.under_inj.mp same).symm
  stored := second.stored

end Stores

theorem program_placed (base : String) (p : Parcel) :
    p.program base p.placed = Push.finish p.job.move p.job.source p.object.hash := by
  unfold placed Push.finish
  cases p.job.move <;> rfl

section Run

variable (store : KeyStore σ) (linkless : w.disk.Linkless []) (leads : w.disk.lead p.job.source = source)
  (away : ∀ names, source ≠ Disk.under top names)
include linkless leads away

theorem stores_finish (storable : p.Storable base) {executable : Bool}
    (there : w.disk.at? (p.place top) = some (.file p.object.data executable))
    (alone : w.disk.at? (p.sidePlace top) = none) :
    p.Stores base top source w.disk
      ((Push.finish p.job.move p.job.source p.object.hash).run store w).1.disk
      ((Push.finish p.job.move p.job.source p.object.hash).run store w).2 := by
  have kept : ∀ {loc}, loc ≠ source →
      ((Push.finish p.job.move p.job.source p.object.hash).run store w).1.disk.at? loc =
        w.disk.at? loc := by
    intro loc other
    unfold Push.finish
    split
    · rw [← Disk.unlink_at? linkless (leads ▸ other)]
      simp only [Program.run, Disk.act]
      split <;> rfl
    · rfl
  have spares : w.disk.Spares
      ((Push.finish p.job.move p.job.source p.object.hash).run store w).1.disk (· = source) := by
    unfold Push.finish
    split
    · have gone := Disk.unlink_spares_lead linkless p.job.source
      rw [leads] at gone
      simp only [Program.run, Disk.act]
      split <;> exact gone
    · exact .refl _ _
  refine ⟨spares.mono fun _ here => .inr (.inr here), fun bytes other before => ?_,
    fun hash ended => ⟨?_, storable, ?_, executable, ?_⟩⟩
  · exact .inl ((kept (away _).symm).trans before)
  · unfold Push.finish at ended
    split at ended
    · simp only [Program.run, Disk.act] at ended
      split at ended <;> cases ended
      rfl
    · cases ended
      rfl
  · exact (kept (away _).symm).trans alone
  · exact (kept (away _).symm).trans there

variable (based : w.disk.Based (Route.ofText base.toList) top)
  (home : w.disk.at? w.disk.here = some .dir) (plain : Plain p.job)
  (through : w.disk.descend top p.outer = .ok (Disk.under top p.outer))
include based home plain through

theorem stores_placing (storable : p.Storable base) {executable : Bool}
    (there : w.disk.at? (p.sidePlace top) = some (.file p.object.data executable)) :
    p.Stores base top source w.disk ((p.program base .placing).run store w).1.disk
      ((p.program base .placing).run store w).2 := by
  obtain ⟨s, d, done, acted⟩ : ∃ s d, Does base top source p w.disk .placing s d ∧
      (p.program base .placing).step store w = ({ w with disk := d }, p.program base s) :=
    step_stored based plain through storable there
  rw [← Program.run_step, acted]
  cases done with
  | place free =>
    obtain ⟨swaps, entries⟩ := relocate_eq based home through there free
    have differ : p.sidePlace top ≠ p.place top := fun same =>
      p.side_ne_trail (Disk.under_inj.mp same)
    have placed := (entries (p.place top)).trans (if_pos rfl)
    have alone := ((entries (p.sidePlace top)).trans (if_neg differ)).trans (if_pos rfl)
    have spares : w.disk.Spares (w.disk.relocate (p.sidePlace top) (p.place top))
        fun loc => loc = p.place top ∨ loc = p.sidePlace top ∨ loc = source :=
      .of_swaps swaps fun loc off => by
        rw [entries, if_neg fun here => off (.inl here), if_neg fun here => off (.inr (.inl here))]
    rw [program_placed]
    have rest := stores_finish store
      (w := { w with disk := w.disk.relocate (p.sidePlace top) (p.place top) })
      (swaps.steady.linkless linkless) ((swaps.steady.lead _).trans leads) away storable placed alone
    refine ⟨spares.trans rest.spares, fun bytes other _ => .inr ?_, rest.stored⟩
    rcases rest.place _ _ placed with same | taken
    · exact ⟨_, same⟩
    · exact taken
  | fail barred =>
    have gone := based.unlink_spares (names_beside plain storable.1)
    simp only [program, run_discard]
    exact .after gone (.idle _ _)

theorem stores_writing : p.Stores base top source w.disk ((p.program base .writing).run store w).1.disk
    ((p.program base .writing).run store w).2 := by
  by_cases storable : p.Storable base
  · have fits := storable.2 _ (List.mem_append_right _ List.mem_cons_self)
    have wrote := based.write_eq (names_beside plain storable.1) through (beside_bare plain)
      (Nat.not_lt_of_le fits) p.object.data
    rw [show Disk.under top (p.outer ++ [partialName p.name]) = p.sidePlace top from rfl] at wrote
    have linkless' := based.linkless p.sideTrail.reverse
    change ∀ target, w.disk.at? (p.sidePlace top) ≠ _ at linkless'
    have goes : ∀ executable, w.disk.at? (p.sidePlace top) ≠ some .dir →
        w.disk.write (p.beside base) p.object.data =
          (w.disk.put (p.sidePlace top) (.file p.object.data executable), .ok ()) →
        p.Stores base top source w.disk ((p.program base .writing).run store w).1.disk
          ((p.program base .writing).run store w).2 := by
      intro executable free wrote
      obtain ⟨swaps, entries⟩ := put_eq based through free p.object.data executable
      have spares : w.disk.Spares (w.disk.put (p.sidePlace top) (.file p.object.data executable))
          (· = p.sidePlace top) := .of_swaps swaps fun loc off => by rw [entries, if_neg off]
      rw [← Program.run_step, show p.program base .writing = p.storing base from rfl,
        step_storing wrote]
      dsimp only [replied]
      rw [show p.placing base = p.program base .placing from rfl]
      have rest := stores_placing store
        (w := { w with disk := w.disk.put (p.sidePlace top) (.file p.object.data executable) })
        (swaps.steady.linkless linkless) ((swaps.steady.lead _).trans leads) away
        (swaps.steady.based based) (swaps.isDir.mpr home) plain (swaps.descend through) storable
        ((entries _).trans (if_pos rfl))
      exact .after spares rest
    cases found : w.disk.at? (p.sidePlace top) with
    | none => exact goes false (by rw [found]; simp) (wrote.trans (by rw [found]))
    | some entry =>
      rw [found] at wrote
      cases entry with
      | dir =>
        have gone := based.unlink_spares (names_beside plain storable.1)
        rw [program, ← Program.run_step, step_storing wrote]
        simp only [replied, run_discard]
        exact .after gone (.idle _ _)
      | file bytes executable => exact goes executable (by rw [found]; simp) wrote
      | link target => exact absurd found (linkless' target)
  · rw [← Program.run_step, step_unwrite based plain through storable, ← Program.run_step,
      step_unwritable based plain through storable]
    exact .idle _ _

omit through

theorem stores_making : p.Stores base top source w.disk ((p.program base .making).run store w).1.disk
    ((p.program base .making).run store w).2 := by
  obtain ⟨s, d, done, acted⟩ : ∃ s d, Does base top source p w.disk .making s d ∧
      (p.program base .making).step store w = ({ w with disk := d }, p.program base s) :=
    step_making based plain
  rw [← Program.run_step, acted]
  dsimp only
  cases done with
  | turn off => exact .idle _ _
  | bar reached needs file => exact .idle _ _
  | make reached clear here dirs kept =>
    have spares := Disk.spares_made based here clear dirs kept (· = p.sidePlace top)
    have home' : d.at? d.here = some .dir := by
      rw [spares.steady.here]
      exact spares.steady.dirs _ home
    by_cases short : Disk.Short p.outer
    · rw [if_pos short]
      have rest := stores_writing store (w := { w with disk := d })
        (spares.steady.linkless linkless) ((spares.steady.lead _).trans leads) away
        (spares.steady.based based) home' plain (Disk.descend_of_onWay short dirs)
      exact .after spares rest
    · rw [if_neg short]
      exact .after spares (.idle _ _)

end Run

theorem transform_stores (store : KeyStore σ) {job : Transform} (linkless : w.disk.Linkless [])
    (away : ∀ names, w.disk.lead job.source ≠ Disk.under top names)
    (based : w.disk.Based (Route.ofText base.toList) top)
    (home : w.disk.at? w.disk.here = some .dir) (plain : Plain job) :
    ∃ p : Parcel, p.job = job ∧ p.Stores base top (w.disk.lead job.source) w.disk
      ((transform base job).run store w).1.disk ((transform base job).run store w).2 := by
  cases content : w.disk.read job.source with
  | error cause =>
    refine ⟨⟨job, .empty⟩, rfl, ?_⟩
    rw [transform, ← Program.run_step, Program.step, content]
    exact .idle _ _
  | ok bytes =>
    refine ⟨⟨job, bytes⟩, rfl, ?_⟩
    have begun : (program base ⟨job, bytes⟩ .reading).step store w =
        (w, program base ⟨job, bytes⟩ .making) := step_reading content
    rw [show transform base job = program base ⟨job, bytes⟩ .reading from rfl,
      ← Program.run_step, begun]
    dsimp only
    exact stores_making store linkless rfl away based home plain

end Parcel

namespace Directory

/-- Transforms one after the other, with the results they have. -/
def transforms {σ : Type} (store : KeyStore σ) (base : String) (w : World σ) :
    List Transform → World σ × List (Except PushError String)
  | [] => (w, [])
  | job :: jobs =>
    let (w, result) := (transform base job).run store w
    let (w, results) := transforms store base w jobs
    (w, result :: results)

/-- The disk is a tree without links in which the base is a directory and no path of a source leads
below it, whether or not there is a file. -/
structure Orderly (base : String) (d : Disk) (jobs : List Transform) : Prop where
  formed : d.Formed
  linkless : d.Linkless []
  isDir : d.isDir base = true ∨ base.toList = []
  plain : ∀ job ∈ jobs, Parcel.Plain job
  outside : ∀ job ∈ jobs, ∀ names, d.lead job.source ≠ Disk.under (d.lead base) names

/-- The same, with the location of the base. -/
structure Ready (base : String) (top : Loc) (d : Disk) (jobs : List Transform) : Prop where
  formed : d.Formed
  linkless : d.Linkless []
  based : d.Based (Route.ofText base.toList) top
  plain : ∀ job ∈ jobs, Parcel.Plain job
  outside : ∀ job ∈ jobs, ∀ names, d.lead job.source ≠ Disk.under top names

variable {σ : Type} {base : String} {top : Loc} {w : World σ} {jobs : List Transform}
  {job : Transform}

theorem Orderly.ready {d : Disk} (orderly : Orderly base d jobs) :
    Ready base (d.lead base) d jobs :=
  ⟨orderly.formed, orderly.linkless, orderly.formed.based_of_isDir orderly.linkless orderly.isDir,
    orderly.plain, orderly.outside⟩

namespace Ready

theorem steady {d e : Disk} (ready : Ready base top d jobs) (steady : d.Steady e) :
    Ready base top e jobs :=
  ⟨steady.formed ready.formed, steady.linkless ready.linkless, steady.based ready.based,
    ready.plain, fun job member names => by
      rw [steady.lead]
      exact ready.outside job member names⟩

theorem mono {d : Disk} {others : List Transform} (ready : Ready base top d jobs)
    (fewer : ∀ other ∈ others, other ∈ jobs) : Ready base top d others :=
  ⟨ready.formed, ready.linkless, ready.based,
    fun other member => ready.plain other (fewer other member),
    fun other member => ready.outside other (fewer other member)⟩

theorem head (store : KeyStore σ) (ready : Ready base top w.disk (job :: jobs)) :
    ∃ p : Parcel, p.job = job ∧ p.Stores base top (w.disk.lead job.source) w.disk
        ((transform base job).run store w).1.disk ((transform base job).run store w).2 ∧
      Ready base top ((transform base job).run store w).1.disk jobs := by
  obtain ⟨p, same, stores⟩ := Parcel.transform_stores store ready.linkless
    (ready.outside job List.mem_cons_self) ready.based ready.formed.home
    (ready.plain job List.mem_cons_self)
  exact ⟨p, same, stores, (ready.mono fun _ => List.mem_cons_of_mem job).steady stores.spares.steady⟩

end Ready

/-- Something with the digest of the object lies at the place of the object. -/
def Keeps (top : Loc) (d : Disk) (p : Parcel) : Prop :=
  ∃ bytes executable, d.at? (p.place top) = some (.file bytes executable) ∧
    Sha256.hex bytes = p.object.hash

/-- The transform writes its object under the name of another one first. -/
def Overlaps (job later : Transform) : Prop :=
  Route.names (Route.ofText job.dir.toList).steps =
      Route.names (Route.ofText later.dir.toList).steps ∧
    job.suffix = later.suffix ++ ".partial"

theorem keeps_of_stores {d e : Disk} {p q : Parcel} {source : Loc}
    {r : Except PushError String} (away : ∀ names, source ≠ Disk.under top names)
    (stores : p.Stores base top source d e r) (keeps : Keeps top d q)
    (apart : Overlaps q.job p.job → ∃ other, r = .ok other ∧ other ≠ q.object.hash) :
    Keeps top e q := by
  obtain ⟨bytes, executable, there, digest⟩ := keeps
  by_cases side : q.trail = p.sideTrail
  · obtain ⟨dirs, hash, suffix⟩ := Parcel.eq_of_trail_sideTrail side
    obtain ⟨other, ended, differs⟩ := apart ⟨dirs, suffix⟩
    exact absurd ((stores.stored other ended).1.trans hash.symm) differs
  · by_cases place : q.trail = p.trail
    · have hash := (Parcel.eq_of_trail place).2.1
      have same : q.place top = p.place top := Disk.under_inj.mpr place
      unfold Keeps
      rw [same] at there ⊢
      rcases stores.place bytes executable there with kept | ⟨executable, taken⟩
      · exact ⟨bytes, executable, kept, digest⟩
      · exact ⟨_, executable, taken, hash.symm⟩
    · refine ⟨bytes, executable, stores.spares.files _ ?_ bytes executable there, digest⟩
      rintro (same | same | same)
      · exact place (Disk.under_inj.mp same)
      · exact side (Disk.under_inj.mp same)
      · exact away q.trail same.symm

/-- An object that is there stays through all transforms that do not write it under its name. -/
theorem keeps_of_transforms (store : KeyStore σ) {q : Parcel} (ready : Ready base top w.disk jobs)
    (keeps : Keeps top w.disk q)
    (apart : ∀ (j : Nat) later, jobs[j]? = some later → Overlaps q.job later → ∃ other,
      (transforms store base w jobs).2[j]? = some (.ok other) ∧ other ≠ q.object.hash) :
    Keeps top (transforms store base w jobs).1.disk q := by
  induction jobs generalizing w with
  | nil => exact keeps
  | cons job jobs ih =>
    obtain ⟨p, rfl, stores, ready'⟩ := ready.head store
    refine ih ready' (keeps_of_stores (ready.outside _ List.mem_cons_self) stores keeps ?_) ?_
    · intro overlaps
      obtain ⟨other, ended, differs⟩ := apart 0 p.job rfl overlaps
      exact ⟨other, Option.some.inj ended, differs⟩
    · intro j later here overlaps
      exact apart (j + 1) later here overlaps

theorem steady_transforms (store : KeyStore σ) (ready : Ready base top w.disk jobs) :
    w.disk.Steady (transforms store base w jobs).1.disk := by
  induction jobs generalizing w with
  | nil => exact .refl _
  | cons job jobs ih =>
    obtain ⟨p, _, stores, ready'⟩ := ready.head store
    exact stores.spares.steady.trans (ih ready')

theorem keeps_of_stored (store : KeyStore σ) {i : Nat} {hash : String}
    (ready : Ready base top w.disk jobs) (here : jobs[i]? = some job)
    (stored : (transforms store base w jobs).2[i]? = some (.ok hash))
    (apart : ∀ j later, i < j → jobs[j]? = some later → Overlaps job later → ∃ other,
      (transforms store base w jobs).2[j]? = some (.ok other) ∧ other ≠ hash) :
    ∃ p : Parcel, p.job = job ∧ p.object.hash = hash ∧ p.Storable base ∧
      Keeps top (transforms store base w jobs).1.disk p := by
  induction jobs generalizing w i with
  | nil => cases here
  | cons first jobs ih =>
    obtain ⟨p, same, stores, ready'⟩ := ready.head store
    cases i with
    | zero =>
      cases here
      obtain ⟨rfl, storable, _, executable, there⟩ := stores.stored hash (Option.some.inj stored)
      have kept := keeps_of_transforms store ready' ⟨_, executable, there, rfl⟩
        fun j later behind overlaps =>
          apart (j + 1) later (Nat.succ_pos j) behind (same ▸ overlaps)
      exact ⟨p, same, rfl, storable, kept⟩
    | succ i =>
      exact ih ready' here stored fun j later behind here overlaps =>
        apart (j + 1) later (Nat.succ_lt_succ behind) here overlaps

theorem inTurn_pair (store : KeyStore σ) (base : String) (w : World σ) (a b : Transform) :
    ((crew base w [a, b]).inTurn store [0, 1]).programs =
      (transforms store base w [a, b]).2.map Program.done := rfl

theorem orderly_twins {a b : Transform} (first : a.source = "a") (second : b.source = "b")
    (plain : Parcel.Plain a) (plain' : Parcel.Plain b) : Orderly "base" twins [a, b] := by
  have away : ∀ name, name ≠ "base" → ∀ names, [name] ≠ Disk.under ["base"] names := by
    intro name other names same
    have last := congrArg List.getLast? same
    simp only [Disk.under, List.getLast?_append, List.getLast?_singleton, Option.some_or] at last
    exact other (Option.some.inj last)
  refine ⟨formed_twins, linkless_twins _, .inl rfl, fun job member => ?_, fun job member => ?_⟩
  · simp only [List.mem_cons, List.not_mem_nil, or_false] at member
    rcases member with rfl | rfl
    · exact plain
    · exact plain'
  · simp only [List.mem_cons, List.not_mem_nil, or_false] at member
    rcases member with rfl | rfl
    · rw [first]
      exact away "a" (by decide)
    · rw [second]
      exact away "b" (by decide)

def twinHash : String := (Packed.ofContent ⟨#[120]⟩).hash

theorem results_twins (store : KeyStore σ) (keys : σ) (suffix suffix' : String) (mild : Mild suffix)
    (mild' : Mild suffix') : (transforms store "base" ⟨twins, keys⟩
      [flat "a" suffix, flat "b" suffix']).2 = [.ok twinHash, .ok twinHash] := by
  obtain ⟨plain, storable⟩ := storable_of_mild (rfl : (flat "a" suffix).dir = "") mild twins
  obtain ⟨plain', storable'⟩ := storable_of_mild (rfl : (flat "b" suffix').dir = "") mild' twins
  have done := stored_in_turn store (w := ⟨twins, keys⟩) (shareable_twins rfl rfl plain plain')
    storable storable' rfl
  have content : (Parcel.ofJob twins (flat "a" suffix)).content = ⟨#[120]⟩ := by
    simp only [Parcel.ofJob, flat, Disk.read,
      show twins.locate .existing "a" = .ok (["a"], some (.file ⟨#[120]⟩ false)) from rfl]
  have content' : (Parcel.ofJob twins (flat "b" suffix')).content = ⟨#[120]⟩ := by
    simp only [Parcel.ofJob, flat, Disk.read,
      show twins.locate .existing "b" = .ok (["b"], some (.file ⟨#[120]⟩ false)) from rfl]
  rw [inTurn_pair] at done
  refine (List.map_inj_right fun _ _ same => Program.done.inj same).mp (done.trans ?_)
  simp only [Parcel.object, content, content', List.map_cons, List.map_nil, twinHash]

/-- After transforms that ran one after the other, an object that was stored can be read under its
key and has its digest, unless a later transform stored the same content, or failed, under a suffix
that makes the name of its partial object that of the first one. -/
theorem object_kept (store : KeyStore σ) (orderly : Orderly base w.disk jobs) {i : Nat}
    {hash : String} (here : jobs[i]? = some job)
    (stored : (transforms store base w jobs).2[i]? = some (.ok hash))
    (apart : ∀ j later, i < j → jobs[j]? = some later → Overlaps job later → ∃ other,
      (transforms store base w jobs).2[j]? = some (.ok other) ∧ other ≠ hash) :
    ∃ bytes, (transforms store base w jobs).1.disk.read
        (destination base (ObjectKey.ofDigest job.dir hash job.suffix)) = .ok bytes ∧
      Sha256.hex bytes = hash := by
  obtain ⟨p, rfl, rfl, storable, bytes, executable, there, digest⟩ :=
    keeps_of_stored store orderly.ready here stored apart
  have plain := orderly.plain _ (List.mem_of_getElem? here)
  have based := (steady_transforms store orderly.ready).based orderly.ready.based
  exact ⟨bytes, based.read_file (Parcel.names_dest plain storable) (Parcel.dest_bare plain)
    storable.short there, digest⟩

theorem object_kept_of_suffixes : ∃ bytes,
    (transforms (Memory.keyStore fun _ => none) "base" ⟨twins, []⟩
      [flat "a" ".obj", flat "b" ".bin"]).1.disk.read
        (destination "base" (ObjectKey.ofDigest "" twinHash ".obj")) = .ok bytes ∧
    Sha256.hex bytes = twinHash := by
  have stored : (transforms (Memory.keyStore fun _ => none) "base" ⟨twins, []⟩
      [flat "a" ".obj", flat "b" ".bin"]).2[0]? = some (.ok twinHash) := by
    rw [results_twins _ _ _ _ (by decide) (by decide), List.getElem?_cons_zero]
  have plain : ∀ source suffix, '/' ∉ suffix.toList → Parcel.Plain (flat source suffix) :=
    fun _ _ free => ⟨by simp [flat], free⟩
  have orderly := orderly_twins (a := flat "a" ".obj") (b := flat "b" ".bin") rfl rfl
    (plain _ _ (by decide)) (plain _ _ (by decide))
  have kept := object_kept (Memory.keyStore fun _ => none) (w := (⟨twins, []⟩ : World Memory)) orderly
    List.getElem?_cons_zero stored
  refine kept fun j later behind there overlaps => ?_
  match j, behind with
  | 1, _ =>
    cases there
    exact absurd overlaps.2 (by decide)
  | j + 2, _ => cases there

theorem transforms_concat (store : KeyStore σ) (base : String) (w : World σ)
    (jobs : List Transform) (last : Transform) : transforms store base w (jobs ++ [last]) =
      (((transform base last).run store (transforms store base w jobs).1).1,
        (transforms store base w jobs).2 ++
          [((transform base last).run store (transforms store base w jobs).1).2]) := by
  induction jobs generalizing w with
  | nil => rfl
  | cons job jobs ih =>
    simp only [List.cons_append, transforms, ih]

theorem length_transforms (store : KeyStore σ) (base : String) (w : World σ)
    (jobs : List Transform) : (transforms store base w jobs).2.length = jobs.length := by
  induction jobs generalizing w with
  | nil => rfl
  | cons job jobs ih => simp only [transforms, List.length_cons, ih]

/-- Behind a transform that succeeded, the name it wrote its object under first is free: an object
that was kept there is lost. -/
theorem object_lost (store : KeyStore σ) {last : Transform} {hash : String}
    (orderly : Orderly base w.disk (jobs ++ [last])) (plain : Parcel.Plain job)
    (overlaps : Overlaps job last)
    (stored : (transforms store base w (jobs ++ [last])).2[jobs.length]? = some (.ok hash)) :
    (transforms store base w (jobs ++ [last])).1.disk.exists?
      (destination base (ObjectKey.ofDigest job.dir hash job.suffix)) = false := by
  have ready := orderly.ready
  have steady := steady_transforms store (ready.mono fun _ => List.mem_append_left [last])
  obtain ⟨p, rfl, stores, ready'⟩ := Ready.head store
    ((ready.mono fun _ => List.mem_append_right jobs).steady steady)
  rw [transforms_concat] at stored ⊢
  dsimp only at stored ⊢
  rw [List.getElem?_append_right (Nat.le_of_eq (length_transforms ..)), length_transforms,
    Nat.sub_self] at stored
  obtain ⟨rfl, storable, gone, executable, there⟩ := stores.stored hash (Option.some.inj stored)
  obtain ⟨q, rfl, object⟩ : ∃ q : Parcel, q.job = job ∧ q.object = p.object :=
    ⟨⟨job, p.content⟩, rfl, rfl⟩
  have outer : q.outer = p.outer := by
    rw [Parcel.outer, overlaps.1, object, Parcel.outer]
  have name : q.name = partialName p.name := by
    rw [Parcel.partialName_eq, Parcel.name, ← overlaps.2, object]
  have leads := Parcel.leads base plain (Parcel.named_name plain)
  rw [← Parcel.dest_eq, outer, name] at leads
  rw [show destination base (ObjectKey.ofDigest q.job.dir p.object.hash q.job.suffix) =
    q.dest base by rw [Parcel.dest, object]]
  cases read : Route.read (q.dest base) with
  | error cause => simp only [Disk.exists?, Disk.status?, Disk.locate, read, Option.isSome_none]
  | ok r =>
    have placed := ready'.based.through_of_there storable.shortOuter
      (show _ ≠ none from there ▸ Option.some_ne_none _)
    exact ready'.based.exists?_of_missing ⟨leads, Parcel.read_of_isOk (by rw [read]; rfl)⟩
      placed gone

/-- A copy of a file under the suffix of partial objects is lost when its twin is stored. -/
theorem object_lost_of_twin :
    (transforms (Memory.keyStore fun _ => none) "base" ⟨twins, []⟩
        [flat "a" ".partial", flat "b" ""]).2[0]? = some (.ok twinHash) ∧
    (transforms (Memory.keyStore fun _ => none) "base" ⟨twins, []⟩
        [flat "a" ".partial", flat "b" ""]).1.disk.exists?
      (destination "base" (ObjectKey.ofDigest "" twinHash ".partial")) = false := by
  have results := results_twins (Memory.keyStore fun _ => none) [] ".partial" "" (by decide)
    (by decide)
  have plain : ∀ source suffix, '/' ∉ suffix.toList → Parcel.Plain (flat source suffix) :=
    fun _ _ free => ⟨by simp [flat], free⟩
  constructor
  · rw [results, List.getElem?_cons_zero]
  · have overlaps : Overlaps (flat "a" ".partial") (flat "b" "") := ⟨rfl, by decide⟩
    have orderly := orderly_twins (a := flat "a" ".partial") (b := flat "b" "") rfl rfl
      (plain _ _ (by decide)) (plain _ _ (by decide))
    have stored : (transforms (Memory.keyStore fun _ => none) "base" ⟨twins, []⟩
        ([flat "a" ".partial"] ++ [flat "b" ""])).2[1]? = some (.ok twinHash) := by
      rw [List.singleton_append, results, List.getElem?_cons_succ, List.getElem?_cons_zero]
    have lost := object_lost (Memory.keyStore fun _ => none) (w := (⟨twins, []⟩ : World Memory)) orderly
      (plain "a" ".partial" (by decide)) overlaps stored
    rw [List.singleton_append] at lost
    exact lost

end Directory

end Spool
