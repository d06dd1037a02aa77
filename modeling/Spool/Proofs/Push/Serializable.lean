import Spool.Proofs.Disk.Formed
import Spool.Proofs.Push.Clashes
import Spool.Push.Memory

/-!
Workers that each have a transform of their own and share an empty base. Their calls can be
interleaved at will if no two of the transforms clash, and two that clash can be led to an end that
neither order of the two has. Transforms of equal content clash when they go to one place.
-/

namespace Spool.Directory

open Route

/-- The base is an empty directory, relative paths begin at a directory, and the sources are files,
each of them another one. -/
structure Shareable (base : String) (d : Disk) (jobs : List Transform) : Prop where
  empty : ∃ top, d.Based (ofText base.toList) top ∧
    ∀ names, names ≠ [] → d.at? (Disk.under top names) = none
  home : d.at? d.here = some .dir
  plain : ∀ job ∈ jobs, Parcel.Plain job
  readable : ∀ job ∈ jobs, ∃ loc bytes executable,
    d.locate .existing job.source = .ok (loc, some (.file bytes executable))
  apart : ∀ (i j : Fin jobs.length) loc entry entry',
    d.locate .existing jobs[i].source = .ok (loc, entry) →
      d.locate .existing jobs[j].source = .ok (loc, entry') → i = j

/-- Of two transforms, the second can get in the way of the object of the first. -/
def Clash (base : String) (d : Disk) (a b : Transform) : Prop :=
  (Parcel.ofJob d a).Clash base (Parcel.ofJob d b)

instance (base : String) (d : Disk) (a b : Transform) : Decidable (Clash base d a b) :=
  inferInstanceAs (Decidable (Parcel.Clash ..))

variable {σ : Type} {base : String} {w : World σ} {jobs : List Transform}

theorem Shareable.site (shareable : Shareable base w.disk jobs) :
    ∃ t : Site jobs.length, t.Sound ∧ t.base = base ∧
      (∀ i, t.parcel i = Parcel.ofJob w.disk jobs[i]) ∧
      t.Standing w.keys (crew base w jobs) Site.fresh [] := by
  obtain ⟨top, based, empty⟩ := shareable.empty
  have found : ∀ i : Fin jobs.length, ∃ own loc, w.disk.Source jobs[i].source own loc := by
    intro i
    obtain ⟨loc, bytes, executable, there⟩ := shareable.readable jobs[i] (List.getElem_mem _)
    obtain ⟨own, source⟩ := Disk.source_of_locate there
    exact ⟨own, loc, source⟩
  obtain ⟨own, found⟩ := Classical.axiomOfChoice found
  obtain ⟨file, source⟩ := Classical.axiomOfChoice found
  refine ⟨⟨base, top, w.disk, fun i => Parcel.ofJob w.disk jobs[i], own, file⟩, ?_, rfl,
    fun _ => rfl, ?_, ?_⟩
  · refine ⟨based, empty, shareable.home, fun i => shareable.plain _ (List.getElem_mem _),
      source, fun i => ?_, fun i j same => ?_⟩
    · obtain ⟨bytes, executable, there⟩ := (source i).denotes.at?
      refine ⟨executable, there.trans ?_⟩
      simp only [Parcel.ofJob, (source i).read_eq there]
    · obtain ⟨_, _, here⟩ := (source i).file
      obtain ⟨_, _, there⟩ := (source j).file
      rw [show file j = file i from same.symm] at there
      exact shareable.apart i j (file i) _ _ here there
  · refine ⟨based, rfl, fun _ _ _ => rfl, ?_, fun _ => trivial, fun names given => ?_,
      fun names given bytes executable => ?_, List.nodup_nil, ?_, ?_, ?_⟩
    · rintro i ⟨impossible, _⟩
      cases impossible
    · refine iff_of_false (fun there => ?_) fun ⟨_, made, _⟩ => by cases made
      cases (empty names given).symm.trans there
    · refine iff_of_false (fun there => ?_) ?_
      · cases (empty names given).symm.trans there
      rintro ⟨_, _, _, ⟨holds, _⟩ | ⟨placed, _⟩⟩
      · cases holds
      · cases placed
    · exact fun _ => iff_of_false List.not_mem_nil fun gave => by cases gave
    · rintro i (impossible | impossible) <;> cases impossible
    · intro i names impossible
      cases impossible
  · refine ⟨rfl, List.length_map .., fun i => ?_⟩
    simp only [crew, List.getElem?_map, List.getElem?_eq_getElem i.isLt, Option.map_some]
    rfl

/-- Workers whose transforms do not clash leave what they would leave one after the other, however
their calls are interleaved. -/
theorem crew_serializable (store : KeyStore σ) (shareable : Shareable base w.disk jobs)
    (peaceful : ∀ i j : Fin jobs.length, i ≠ j → ¬ Clash base w.disk jobs[i] jobs[j]) :
    (crew base w jobs).Serializable store := by
  obtain ⟨t, sound, same, parcels, standing⟩ := shareable.site
  refine Site.serializable_of_peaceful sound (fun i j other => ?_) standing
  rw [same, parcels, parcels]
  exact peaceful i j other

/-- Two transforms that clash can be led to an end that neither order of the two has. -/
theorem not_serializable_of_clash (store : KeyStore σ) {a b : Transform}
    (shareable : Shareable base w.disk [a, b])
    (clash : Clash base w.disk a b ∨ Clash base w.disk b a) :
    ¬ (crew base w [a, b]).Serializable store := by
  obtain ⟨t, sound, same, parcels, standing⟩ := shareable.site
  have first : t.parcel 0 = Parcel.ofJob w.disk a := parcels 0
  have second : t.parcel 1 = Parcel.ofJob w.disk b := parcels 1
  rcases clash with clash | clash
  · refine Site.not_serializable_of_clash store sound standing (i := 0) (j := 1) (by decide) ?_
    rwa [same, first, second]
  · refine Site.not_serializable_of_clash store sound standing (i := 1) (j := 0) (by decide) ?_
    rwa [same, first, second]

theorem stored_in_turn (store : KeyStore σ) {a b : Transform}
    (shareable : Shareable base w.disk [a, b]) (first : (Parcel.ofJob w.disk a).Storable base)
    (second : (Parcel.ofJob w.disk b).Storable base)
    (level : (names (ofText a.dir.toList).steps).length = (names (ofText b.dir.toList).steps).length) :
    ((crew base w [a, b]).inTurn store [0, 1]).programs =
      [.done (.ok (Parcel.ofJob w.disk a).object.hash),
        .done (.ok (Parcel.ofJob w.disk b).object.hash)] := by
  obtain ⟨t, sound, same, parcels, standing⟩ := shareable.site
  have parcel : t.parcel 0 = Parcel.ofJob w.disk a := parcels 0
  have parcel' : t.parcel 1 = Parcel.ofJob w.disk b := parcels 1
  have deep : ∀ j k, (t.parcel j).outer.length = (t.parcel k).outer.length := by
    have all : ∀ j, (t.parcel j).outer.length = (t.parcel 0).outer.length := by
      intro j
      obtain ⟨_ | _ | n, below⟩ := j
      · rfl
      · change (t.parcel 1).outer.length = _
        simp only [parcel, parcel', Parcel.outer, Parcel.ofJob, List.length_append,
          List.length_cons, List.length_nil, level]
      · exact absurd below (Nat.not_lt_of_le (Nat.le_add_left 2 n))
    exact fun j k => (all j).trans (all k).symm
  obtain ⟨x, y, after, stands, isOver, isOver'⟩ := Site.behind store sound standing (i := 0) (j := 1)
    fun _ => Parcel.not_needs_sideTrail (Nat.le_of_eq (deep 0 1))
  have ended : Site.pair (0 : Fin 2) 1 x y 0 = .ended := by
    refine stands.shared.ended sound ?_ (by rw [same, parcel]; exact first) (deep · 0)
    rw [Site.pair_left (by decide)]
    exact isOver
  have ended' : Site.pair (0 : Fin 2) 1 x y 1 = .ended := by
    refine stands.shared.ended sound ?_ (by rw [same, parcel']; exact second) (deep · 1)
    rw [Site.pair_right]
    exact isOver'
  have done := stands.posed.programs 0
  have done' := stands.posed.programs 1
  rw [ended, parcel] at done
  rw [ended', parcel'] at done'
  refine List.ext_getElem? fun k => ?_
  obtain _ | _ | k := k
  · exact done
  · exact done'
  · exact List.getElem?_eq_none (Nat.le_trans (Nat.le_of_eq stands.posed.length) (by simp))

theorem clash_of_equal {d : Disk} {a b : Transform} (dir : a.dir = b.dir)
    (suffix : a.suffix = b.suffix)
    (content : (Parcel.ofJob d a).content = (Parcel.ofJob d b).content)
    (first : (Parcel.ofJob d a).Storable base) (second : (Parcel.ofJob d b).Storable base) :
    Clash base d a b := by
  refine ⟨first, .inl ⟨second, ?_⟩⟩
  have object : (Parcel.ofJob d a).object = (Parcel.ofJob d b).object :=
    congrArg Packed.ofContent content
  simp only [Parcel.sideTrail, Parcel.outer, Parcel.name, object]
  simp only [Parcel.ofJob, dir, suffix]

theorem not_clash_of_apart {d : Disk} {a b : Transform}
    (level : (names (ofText a.dir.toList).steps).length = (names (ofText b.dir.toList).steps).length)
    (apart : names (ofText a.dir.toList).steps ≠ names (ofText b.dir.toList).steps ∨
      a.suffix ≠ b.suffix ∧ b.suffix ≠ a.suffix ++ ".partial") : ¬ Clash base d a b := by
  rintro ⟨_, ⟨_, same⟩ | ⟨_, front⟩ | ⟨_, same, _⟩⟩
  · obtain ⟨dirs, _, suffix⟩ := Parcel.eq_of_sideTrail same
    exact apart.elim (· dirs) fun apart => apart.1 suffix
  · have shorter := front.length_le
    simp only [Parcel.sideTrail, Parcel.outer, Parcel.ofJob, List.length_append, List.length_cons,
      List.length_nil, level] at shorter
    omega
  · obtain ⟨dirs, _, suffix⟩ := Parcel.eq_of_trail_sideTrail same
    exact apart.elim (· dirs.symm) fun apart => apart.2 suffix

def twins : Disk where
  entries := [(["base"], .dir), (["a"], .file ⟨#[120]⟩ false), (["b"], .file ⟨#[120]⟩ false)]

theorem formed_twins : twins.Formed := by
  refine Disk.formed_of_entries rfl fun pair member => ?_
  simp only [twins, List.mem_cons, List.not_mem_nil, or_false] at member
  rcases member with rfl | rfl | rfl <;> rfl

theorem linkless_twins (base : Loc) : twins.Linkless base := by
  refine Disk.linkless_of_entries (fun pair member target => ?_) _
  simp only [twins, List.mem_cons, List.not_mem_nil, or_false] at member
  rcases member with rfl | rfl | rfl <;> simp

theorem twins_empty {names : List String} (given : names ≠ []) :
    twins.at? (Disk.under ["base"] names) = none := by
  refine Classical.byContradiction fun there => ?_
  have key := Disk.key_of_at? there
  obtain ⟨front, last, rfl⟩ := (List.eq_nil_or_concat names).resolve_left given
  rw [List.concat_eq_append] at key
  simp [twins, Disk.under] at key

theorem shareable_twins {a b : Transform} (first : a.source = "a") (second : b.source = "b")
    (plain : Parcel.Plain a) (plain' : Parcel.Plain b) : Shareable "base" twins [a, b] := by
  have here : twins.locate .existing "a" = .ok (["a"], some (.file ⟨#[120]⟩ false)) := rfl
  have there : twins.locate .existing "b" = .ok (["b"], some (.file ⟨#[120]⟩ false)) := rfl
  refine ⟨⟨["base"], formed_twins.based (linkless_twins _) rfl, fun _ => twins_empty⟩, rfl, ?_, ?_, ?_⟩
  · intro job member
    simp only [List.mem_cons, List.not_mem_nil, or_false] at member
    rcases member with rfl | rfl
    · exact plain
    · exact plain'
  · intro job member
    simp only [List.mem_cons, List.not_mem_nil, or_false] at member
    rcases member with rfl | rfl
    · exact ⟨_, _, _, first ▸ here⟩
    · exact ⟨_, _, _, second ▸ there⟩
  · intro i j loc entry entry' found found'
    have sides : ∀ i : Fin [a, b].length, i = 0 ∨ i = 1 :=
      (by decide : ∀ i : Fin 2, i = 0 ∨ i = 1)
    rcases sides i with rfl | rfl <;> rcases sides j with rfl | rfl
    · rfl
    · change twins.locate .existing a.source = _ at found
      change twins.locate .existing b.source = _ at found'
      rw [first, here] at found
      rw [second, there] at found'
      cases found
      simp at found'
    · change twins.locate .existing b.source = _ at found
      change twins.locate .existing a.source = _ at found'
      rw [second, there] at found
      rw [first, here] at found'
      cases found
      simp at found'
    · rfl

def Mild (suffix : String) : Prop :=
  '/' ∉ suffix.toList ∧ '\x00' ∉ suffix.toList ∧ suffix.utf8ByteSize ≤ 185

instance (suffix : String) : Decidable (Mild suffix) := inferInstanceAs (Decidable (_ ∧ _))

theorem storable_of_mild {job : Transform} (dir : job.dir = "") (mild : Mild job.suffix) (d : Disk) :
    Parcel.Plain job ∧ (Parcel.ofJob d job).Storable "base" := by
  have plain : Parcel.Plain job := ⟨by rw [dir]; decide, mild.1⟩
  have same : (Parcel.ofJob d job).job = job := rfl
  refine ⟨plain, Parcel.storable_of_short plain ?_ ?_ (by rw [same, dir]; decide) mild.2.2⟩
  · rw [same, dir, List.mem_append, List.mem_append]
    rintro ((base | none) | suffix)
    · exact absurd base (by decide)
    · cases none
    · exact mild.2.1 suffix
  · rw [same, dir]
    have base : "base".utf8ByteSize + "".utf8ByteSize = 4 := by decide
    have short := mild.2.2
    omega

def flat (source suffix : String) : Transform where
  source
  dir := ""
  suffix
  move := false

/-- One of two equal files is removed after it is stored under a suffix of its own; the other one
may be stored at the same time. -/
theorem crew_serializable_of_suffixes :
    (crew "base" ⟨twins, []⟩ [{ flat "a" ".obj" with move := true }, flat "b" ".bin"]).Serializable
      (Memory.keyStore fun _ => none) := by
  obtain ⟨plain, _⟩ := storable_of_mild (rfl : (flat "a" ".obj").dir = "") (by decide) twins
  obtain ⟨plain', _⟩ := storable_of_mild (rfl : (flat "b" ".bin").dir = "") (by decide) twins
  refine crew_serializable _ (shareable_twins rfl rfl ⟨plain.dir, plain.suffix⟩ plain')
    fun i j other => ?_
  have forth : (".obj" : String) ≠ ".bin" ∧ ".bin" ≠ ".obj" ++ ".partial" := by decide
  have back : (".bin" : String) ≠ ".obj" ∧ ".obj" ≠ ".bin" ++ ".partial" := by decide
  match i, j with
  | ⟨0, _⟩, ⟨0, _⟩ | ⟨1, _⟩, ⟨1, _⟩ => exact absurd rfl other
  | ⟨0, _⟩, ⟨1, _⟩ => exact not_clash_of_apart rfl (.inr forth)
  | ⟨1, _⟩, ⟨0, _⟩ => exact not_clash_of_apart rfl (.inr back)

/-- Two equal files that are stored under one suffix at the same time get in each other's way. -/
theorem not_serializable_twins : ¬ (crew "base" ⟨twins, []⟩ [flat "a" ".obj", flat "b" ".obj"]).Serializable
    (Memory.keyStore fun _ => none) := by
  obtain ⟨plain, storable⟩ := storable_of_mild (rfl : (flat "a" ".obj").dir = "") (by decide) twins
  obtain ⟨plain', storable'⟩ := storable_of_mild (rfl : (flat "b" ".obj").dir = "") (by decide) twins
  exact not_serializable_of_clash _ (shareable_twins rfl rfl plain plain')
    (.inl (clash_of_equal rfl rfl rfl storable storable'))

end Spool.Directory
