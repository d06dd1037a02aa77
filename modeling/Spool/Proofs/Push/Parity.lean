import Spool.Proofs.Push.Mirrors

/-!
A directory and a key-value store do the same. Jobs that are carried out one after the other end
alike in both, take away the same sources, and leave the same content under the same keys.
-/

namespace Spool

open Disk Directory

variable {σ : Type} {base : String} {top own : Loc} {family : String → Prop} {w d e : Disk} {m : Memory}

abbrev Memory.plain : KeyStore Memory := Memory.keyStore fun _ => none

theorem KeyValue.run_store_plain {source : String} (key : String) (value : ByteArray) (move : Bool)
    (result : String) (found : e.Source source own own) :
    (KeyValue.store key value move source result).run Memory.plain ⟨e, m⟩ =
      (⟨if move then e.remove own else e, m.insert key value⟩, .ok result) := by
  have finished := Push.run_finish (w := ⟨e, m.insert key value⟩) Memory.plain move result found
  exact finished

namespace Mirrors

/-- Both pushes end alike, and the two stores mirror each other afterwards. -/
def Answer (keys : KeyStore σ) (state : σ) (base : String) (top : Loc) (family : String → Prop)
    (w d e : Disk) (m : Memory) (here there : Push) : Prop :=
  ∃ d' e' m' result, here.run keys ⟨d, state⟩ = (⟨d', state⟩, result) ∧
    there.run Memory.plain ⟨e, m⟩ = (⟨e', m'⟩, result) ∧ Mirrors base top family w d' e' m'

variable (mirrors : Mirrors base top family w d e m) (safe : Family base family)
  (linkless : w.Linkless [])
include mirrors safe linkless

theorem transfer (keys : KeyStore σ) (state : σ) {job : Transfer} (known : family job.remote)
    (aside : w.Aside top job.source) (file : w.isDir job.source = false) :
    Answer keys state base top family w d e m (Directory.transfer base job)
      (KeyValue.transfer job) := by
  -- the directories around the object are made before the source is looked for, so they stay
  obtain ⟨parent, d₁, outer, n, parent?, made, mirrors₁, ready⟩ := mirrors.ready safe known
  have begun : (Directory.transfer base job).run keys ⟨d, state⟩ =
      (if job.move then moveFile job.source (destination base job.remote)
        else copyFile job.source (destination base job.remote)).run keys ⟨d₁, state⟩ := by
    simp only [Directory.transfer, withParent, parent?, Program.run, Disk.act, made]
  unfold Answer
  rw [begun]
  rcases mirrors₁.source_cases aside linkless file with ⟨bytes, executable, _, away, found⟩ |
    ⟨cause, lost⟩
  · obtain ⟨source, source', there, _, read⟩ := mirrors₁.held aside found
    obtain ⟨k, dir, place, own⟩ := source.place
    have named : w.lead job.source ≠ [] := own ▸ List.cons_ne_nil k dir
    have apart : w.lead job.source ≠ under top (outer ++ [n]) := by
      intro same
      exact away ⟨_, by simp, same⟩
    have answered : (KeyValue.transfer job).run Memory.plain ⟨e, m⟩ =
        (⟨if job.move then e.remove (w.lead job.source) else e, m.insert job.remote bytes⟩, .ok "") := by
      simp only [KeyValue.transfer, Program.run, read]
      exact KeyValue.run_store_plain _ _ _ _ source'
    cases asked : job.move with
    | false =>
      obtain ⟨d₂, copied, receives⟩ := ready.landing.copy mirrors₁.based found there apart
      rw [← ready.split] at receives
      have after := mirrors₁.received known false receives away named (by simp) (by simp)
      refine ⟨d₂, _, _, .ok "", ?_, by rw [answered, asked], after⟩
      simp only [copyFile, Bool.false_eq_true, if_false, Program.run, Disk.act, copied]
    | true =>
      rw [own] at there
      obtain ⟨d₂, renamed, receives⟩ := ready.landing.rename mirrors₁.based mirrors₁.formed place
        (own ▸ source).short there
      rw [← ready.split] at receives
      have after := mirrors₁.received known true receives away named (fun _ => own)
        fun loc gone => .inl ⟨rfl, gone.trans own.symm⟩
      refine ⟨d₂, _, _, .ok "", ?_, by rw [answered, asked], after⟩
      simp only [moveFile, if_true, Program.run, Disk.act, renamed]
  · have lost' := (mirrors₁.locate_eq aside).trans lost
    have answered : (KeyValue.transfer job).run Memory.plain ⟨e, m⟩ =
        (⟨e, m⟩, .error (.io job.source cause)) := by
      simp only [KeyValue.transfer, Program.run, Disk.read, lost', Push.failIo]
    refine ⟨d₁, e, m, _, ?_, answered, mirrors₁⟩
    cases job.move with
    | false =>
      have failed : d₁.copy job.source (destination base job.remote) = (d₁, .error cause) :=
        Landing.copy_lost lost
      simp only [copyFile, Bool.false_eq_true, if_false, Program.run, Disk.act, failed, Push.failIo]
    | true =>
      have failed := ready.landing.rename_lost mirrors₁.based mirrors₁.linkless lost
      have here : cause ≠ .system crossDevice := by
        rintro rfl
        exact locate_ne (by decide) _ _ lost
      simp only [moveFile, if_true, Program.run, Disk.act, failed, if_neg here, Push.failIo]

/-- The key of an object is that of the content which its source had in the beginning. -/
theorem transform (keys : KeyStore σ) (state : σ) {job : Transform} (aside : w.Aside top job.source)
    (known : ∀ content, w.read job.source = .ok content →
      family (ObjectKey.ofDigest job.dir (Packed.ofContent content).hash job.suffix))
    (file : w.isDir job.source = false) : Answer keys state base top family w d e m
      (Directory.transform base job) (KeyValue.transform job) := by
  -- here the source is read first, and a lost one leaves both disks as they are
  rcases mirrors.source_cases aside linkless file with ⟨bytes, executable, was, away, found⟩ |
    ⟨cause, lost⟩
  · have known := known bytes was
    obtain ⟨source, source', _, read, read'⟩ := mirrors.held aside found
    simp only [Answer, Directory.transform, KeyValue.transform, Program.run, read, read']
    generalize Packed.ofContent bytes = object at known
    generalize ObjectKey.ofDigest job.dir object.hash job.suffix = key at known
    obtain ⟨parent, d₁, outer, n, parent?, made, mirrors₁, ready⟩ := mirrors.ready safe known
    have found₁ := (mirrors₁.locate_eq aside).symm.trans ((mirrors.locate_eq aside).trans found)
    obtain ⟨source₁, -, there₁, -⟩ := mirrors₁.held aside found₁
    obtain ⟨k, dir, -, own⟩ := source₁.place
    have named : w.lead job.source ≠ [] := own ▸ List.cons_ne_nil k dir
    obtain ⟨d₂, d₃, written, renamed, placed⟩ := ready.landing.write_rename mirrors₁.based
      ready.beside mirrors₁.formed object.data
    rw [← ready.split] at placed
    have clean : ∀ loc, loc = under top (outer ++ [Directory.partialName n]) →
        Within top loc ∧ d₁.at? loc = none := by
      rintro loc rfl
      exact ⟨⟨_, by simp, rfl⟩, mirrors₁.side_free safe outer n⟩
    have apart : w.lead job.source ≠ under top (Key.names key) := fun same =>
      away (same ▸ within_names key)
    have there₃ := placed.others _ apart fun went => away (clean _ went).1
    have source₃ := source₁.keep (placed.swaps.steady.keeps fun _ => False) (fun _ => False.elim) there₃
    have leaf : IsLeaf (d₃.at? (w.lead job.source)) := by
      rw [there₃, there₁]
      exact isLeaf_file _ _
    have stored := mirrors₁.finished known job.move placed away named leaf clean
    refine ⟨_, _, _, .ok object.hash, ?_, KeyValue.run_store_plain _ _ _ _ source', stored⟩
    simp only [withParent, parent?, Program.run, Disk.act, made, written, renamed]
    exact Push.run_finish (w := ⟨d₃, state⟩) keys job.move object.hash source₃
  · have lost' := (mirrors.locate_eq aside).trans lost
    refine ⟨d, e, m, .error (.io job.source cause), ?_, ?_, mirrors⟩
    · simp only [Directory.transform, Program.run, Disk.read, lost, Push.failIo]
    · simp only [KeyValue.transform, Program.run, Disk.read, lost', Push.failIo]

end Mirrors

def Job.key? (d : Disk) : Job → Option String
  | .transfer job => some job.remote
  | .transform job =>
    match d.read job.source with
    | .ok content => some (ObjectKey.ofDigest job.dir (Packed.ofContent content).hash job.suffix)
    | .error _ => none
  | .termination => none

namespace Store

def carryOut (s : Store) (keys : KeyStore σ) (w : World σ) :
    List Job → World σ × List (Except PushError String)
  | [] => (w, [])
  | job :: jobs =>
    let (w, result) := (s.push job).run keys w
    let (w, results) := s.carryOut keys w jobs
    (w, result :: results)

/-- The base is an empty directory, no source is a directory or is reached through the base, and the
keys can be used side by side. -/
structure Level (base : String) (w : Disk) (jobs : List Job) : Prop where
  formed : w.Formed
  linkless : w.Linkless []
  isDir : w.isDir base = true ∨ base.toList = []
  empty : ∀ loc, Within (w.lead base) loc → w.at? loc = none
  sources : ∀ job ∈ jobs, ∀ source, job.source? = some source →
    w.Aside (w.lead base) source ∧ w.isDir source = false
  keys : Family base fun key => ∃ job ∈ jobs, job.key? w = some key

/-- The same came of the jobs in the directory and in the key-value store. -/
structure Parity (top : Loc) (jobs : List Job) (here : World σ × List (Except PushError String))
    (there : World Memory × List (Except PushError String)) : Prop where
  results : here.2 = there.2
  outside : ∀ loc, ¬ Within top loc → here.1.disk.at? loc = there.1.disk.at? loc
  sources : ∀ job ∈ jobs, ∀ source, job.source? = some source →
    here.1.disk.read source = there.1.disk.read source
  /-- The files below the base are the values in the store. -/
  files : ∀ names bytes,
    (∃ executable, here.1.disk.at? (under top names) = some (.file bytes executable)) ↔
      ∃ key, there.1.keys.get? key = some bytes ∧ Key.names key = names

variable {jobs : List Job}

theorem mirrors_of_level (level : Level base w jobs) :
    Mirrors base (w.lead base) (fun key => ∃ job ∈ jobs, job.key? w = some key) w w w [] := by
  have based := level.formed.based_of_isDir level.linkless level.isDir
  refine ⟨level.formed, level.linkless, based, rfl, rfl, fun _ _ => rfl, level.empty,
    fun _ _ => .inl rfl, fun names bytes => iff_of_false ?_ ?_, fun key stored => absurd rfl stored,
    fun names some isDir => ?_⟩
  · rintro ⟨executable, file⟩
    by_cases some : names = []
    · rw [some, under, List.reverse_nil, List.nil_append, based.isDir] at file
      cases file
    · rw [level.empty _ ⟨names, some, rfl⟩] at file
      cases file
  · rintro ⟨key, stored, _⟩
    cases stored
  · rw [level.empty _ ⟨names, some, rfl⟩] at isDir
    cases isDir

theorem carryOut_mirrors (keys : KeyStore σ) (state : σ) {family : String → Prop}
    (mirrors : Mirrors base top family w d e m)
    (safe : Family base family) (linkless : w.Linkless [])
    (sources : ∀ job ∈ jobs, ∀ source, job.source? = some source →
      w.Aside top source ∧ w.isDir source = false)
    (known : ∀ job ∈ jobs, ∀ key, job.key? w = some key → family key) : ∃ d' e' m' results,
      (directory base).carryOut keys ⟨d, state⟩ jobs = (⟨d', state⟩, results) ∧
        keyValue.carryOut Memory.plain ⟨e, m⟩ jobs = (⟨e', m'⟩, results) ∧
          Mirrors base top family w d' e' m' := by
  induction jobs generalizing d e m with
  | nil => exact ⟨d, e, m, [], rfl, rfl, mirrors⟩
  | cons job jobs ih =>
    have answer : Mirrors.Answer keys state base top family w d e m ((directory base).push job)
        (keyValue.push job) := by
      have source := sources job List.mem_cons_self
      have key := known job List.mem_cons_self
      cases job with
      | transfer job =>
        obtain ⟨aside, file⟩ := source job.source rfl
        have answer := mirrors.transfer safe linkless keys state (key job.remote rfl) aside file
        exact answer
      | transform job =>
        obtain ⟨aside, file⟩ := source job.source rfl
        have answer := mirrors.transform safe linkless keys state aside
          (fun content read => key _ (by simp only [Job.key?, read])) file
        exact answer
      | termination => exact ⟨d, e, m, .ok "", rfl, rfl, mirrors⟩
    obtain ⟨d₁, e₁, m₁, result, here, there, mirrors₁⟩ := answer
    obtain ⟨d', e', m', results, here', there', mirrors'⟩ := ih mirrors₁
      (fun job member => sources job (List.mem_cons_of_mem _ member))
      fun job member => known job (List.mem_cons_of_mem _ member)
    refine ⟨d', e', m', result :: results, ?_, ?_, mirrors'⟩
    · simp only [carryOut, here, here']
    · simp only [carryOut, there, there']

/-- Both stores carry out jobs alike. -/
theorem carryOut_parity (keys : KeyStore σ) (state : σ) (level : Level base w jobs) :
    Parity (w.lead base) jobs ((directory base).carryOut keys ⟨w, state⟩ jobs)
      (keyValue.carryOut Memory.plain ⟨w, []⟩ jobs) := by
  obtain ⟨d, e, m, results, here, there, mirrors⟩ := carryOut_mirrors keys state
    (mirrors_of_level level) level.keys level.linkless level.sources
    fun job member key known => ⟨job, member, known⟩
  rw [here, there]
  refine ⟨rfl, fun loc off => (mirrors.outside loc off).symm, fun job member source given => ?_,
    mirrors.files⟩
  have aside := (level.sources job member source given).1
  simp only [Disk.read, mirrors.locate_eq aside]

/-- Two transfers of one file, the first of which takes it away, and a transform of another file. -/
def mixed : List Job :=
  [.transfer ⟨"a", "x/y", true, none⟩, .transfer ⟨"a", "x/z", false, none⟩,
    .transform (flat "b" ".obj")]

theorem names_flat {p : Parcel} (dir : p.job.dir = "") (plain : Parcel.Plain p.job) :
    Key.names (ObjectKey.ofDigest p.job.dir p.object.hash p.job.suffix) = p.trail := by
  have fan : '/' ∉ p.object.hash.toList.take 2 := p.fan_text.2.1
  have rest : '/' ∉ p.object.hash.toList.drop 2 ++ p.job.suffix.toList := by
    have free := (Parcel.named_name plain).free
    rwa [Parcel.name, String.toList_ofList] at free
  have text : (ObjectKey.ofDigest p.job.dir p.object.hash p.job.suffix).toList =
      p.object.hash.toList.take 2 ++ '/' :: (p.object.hash.toList.drop 2 ++ p.job.suffix.toList) := by
    rw [dir, ObjectKey.ofDigest, String.toList_ofList]
    simp [ObjectKey.render, Text.dropEndSlashes]
  rw [Key.names, text, List.splitOn_append_cons_self, List.splitOn_eq_singleton fan,
    List.splitOn_eq_singleton rest, Parcel.trail, Parcel.outer, Parcel.name, dir]
  rfl

theorem ordinary_flat {p : Parcel} (dir : p.job.dir = "") (plain : Parcel.Plain p.job) :
    ∀ n ∈ p.trail, Key.IsOrdinary n ∧ 2 ≤ n.toList.length := by
  intro n member
  simp only [Parcel.trail, Parcel.outer, dir, List.mem_append, List.mem_singleton] at member
  rcases member with (no | rfl) | rfl
  · cases no
  · obtain ⟨long, _, other⟩ := p.fan_text
    rw [← String.toList_ofList (l := p.object.hash.toList.take 2)] at long other
    refine ⟨⟨?_, ?_, ?_⟩, long⟩
    · intro same; rw [same] at long; exact absurd long (by decide)
    · intro same; rw [same] at long; exact absurd long (by decide)
    · intro same; rw [same] at other; exact other rfl
  · have long := (Parcel.named_name plain).long
    refine ⟨⟨?_, ?_, ?_⟩, Nat.le_of_succ_le long⟩ <;>
    · intro same
      rw [same] at long
      exact absurd long (by decide)

theorem whole_flat {p : Parcel} (dir : p.job.dir = "") (suffix : p.job.suffix = ".obj") :
    ∀ n ∈ p.trail, ¬ ".partial".toList <:+ n.toList := by
  intro n member ends
  simp only [Parcel.trail, Parcel.outer, dir, List.mem_append, List.mem_singleton] at member
  rcases member with (no | rfl) | rfl
  · cases no
  · have longer := ends.length_le
    rw [String.toList_ofList] at longer
    simp [p.length_hash] at longer
  · obtain ⟨front, same⟩ := ends
    rw [Parcel.name, String.toList_ofList, suffix] at same
    have last := congrArg List.getLast? same
    simp at last

theorem key_mixed {key : String} (known : ∃ job ∈ mixed, job.key? twins = some key) :
    key = "x/y" ∨ key = "x/z" ∨ key = ObjectKey.ofDigest "" twinHash ".obj" := by
  have content : twins.read "b" = .ok ⟨#[120]⟩ := by
    simp only [Disk.read,
      show twins.locate .existing "b" = .ok (["b"], some (.file ⟨#[120]⟩ false)) from rfl]
  obtain ⟨job, member, key⟩ := known
  simp only [mixed, List.mem_cons, List.not_mem_nil, or_false] at member
  rcases member with rfl | rfl | rfl
  · exact .inl (Option.some.inj key).symm
  · exact .inr (.inl (Option.some.inj key).symm)
  · simp only [Job.key?, flat, content, Option.some.injEq] at key
    exact .inr (.inr key.symm)

theorem family_mixed : Family "base" fun key => ∃ job ∈ mixed, job.key? twins = some key := by
  obtain ⟨plain, storable⟩ := storable_of_mild (rfl : (flat "b" ".obj").dir = "") (by decide) twins
  have parcel : (Parcel.ofJob twins (flat "b" ".obj")).object.hash = twinHash := by
    simp only [Parcel.object, Parcel.ofJob, flat, Disk.read, twinHash,
      show twins.locate .existing "b" = .ok (["b"], some (.file ⟨#[120]⟩ false)) from rfl]
  generalize made : Parcel.ofJob twins (flat "b" ".obj") = p at storable parcel
  have job : p.job = flat "b" ".obj" := made ▸ rfl
  rw [← job] at plain
  have dir : p.job.dir = "" := job ▸ rfl
  have suffix : p.job.suffix = ".obj" := job ▸ rfl
  have names := names_flat dir plain
  have ordinary := ordinary_flat dir plain
  generalize object : ObjectKey.ofDigest p.job.dir p.object.hash p.job.suffix = key₃ at names
  have known : ∀ key, (∃ job ∈ mixed, job.key? twins = some key) →
      (key = "x/y" ∨ key = "x/z") ∨ key = key₃ := by
    intro key given
    rcases key_mixed given with here | here | here
    · exact .inl (.inl here)
    · exact .inl (.inr here)
    · rw [← parcel, ← dir, ← suffix, object] at here
      exact .inr here
  have brief : ∀ key, key = "x/y" ∨ key = "x/z" → ∀ n ∈ Key.names key, n.toList.length = 1 := by
    rintro key (rfl | rfl) <;> decide
  have cross : ∀ key, key = "x/y" ∨ key = "x/z" → ∀ n ∈ Key.names key, n ∉ Key.names key₃ := by
    intro key short n member inside
    rw [names] at inside
    have long := (ordinary n inside).2
    rw [brief key short n member] at long
    exact absurd long (by decide)
  refine ⟨fun key given => ?_, fun key given => ?_, fun key given => ?_,
    fun key other given given' begins => ?_⟩
  · rcases known key given with (rfl | rfl) | rfl
    · decide
    · decide
    · rw [Key.Ordinary, names]
      exact fun n member => (ordinary n member).1
  · rcases known key given with (rfl | rfl) | rfl
    · exact ⟨rfl, by decide⟩
    · exact ⟨rfl, by decide⟩
    · refine ⟨?_, ?_⟩
      · rw [← object]
        exact storable.1
      · rw [Key.names_partial names]
        exact storable.2
  · rcases known key given with (rfl | rfl) | rfl
    · decide
    · decide
    · rw [names]
      exact whole_flat dir suffix
  · obtain ⟨outer, n, split⟩ := Key.names_split key
    have inside : n ∈ Key.names key ∧ n ∈ Key.names other := by
      have here : n ∈ Key.names key := by simp [split]
      exact ⟨here, begins.subset here⟩
    rcases known key given with first | rfl
    · rcases known other given' with second | rfl
      · rcases first with rfl | rfl <;> rcases second with rfl | rfl <;>
          first | rfl | exact absurd begins (by decide)
      · exact absurd inside.2 (cross key first n inside.1)
    · rcases known other given' with second | rfl
      · exact absurd inside.1 (cross other second n inside.2)
      · rfl

theorem level_mixed : Level "base" twins mixed := by
  have aside : ∀ n ∈ ["a", "b"], twins.Aside ["base"] n ∧ twins.isDir n = false := by
    intro n member
    simp only [List.mem_cons, List.not_mem_nil, or_false] at member
    refine ⟨fun front isFront below => ?_, ?_⟩
    · obtain ⟨names, some, inside⟩ := below
      have steps : (Route.ofText n.toList).steps = [.name n] ∧ twins.start (Route.ofText n.toList) = [] := by
        rcases member with rfl | rfl <;> exact ⟨rfl, rfl⟩
      have long := congrArg List.length inside
      have count := List.length_pos_iff.mpr some
      rw [steps.1] at isFront
      rw [steps.2] at long
      rcases List.prefix_cons_iff.mp isFront with rfl | ⟨rest, rfl, none⟩
      · simp [walk, under] at long
      · obtain rfl := List.prefix_nil.mp none
        simp only [walk, under, List.length_append, List.length_reverse, List.length_cons,
          List.length_nil] at long
        omega
    · rcases member with rfl | rfl <;> rfl
  refine ⟨formed_twins, linkless_twins _, .inl rfl, ?_, ?_, family_mixed⟩
  · rintro loc ⟨names, some, rfl⟩
    exact twins_empty some
  · intro job member source given
    simp only [mixed, List.mem_cons, List.not_mem_nil, or_false] at member
    rcases member with rfl | rfl | rfl <;> cases given <;> exact aside _ (by simp [flat])

theorem parity_mixed : Level "base" twins mixed ∧ Parity (twins.lead "base") mixed
    ((directory "base").carryOut Memory.plain ⟨twins, []⟩ mixed)
    (keyValue.carryOut Memory.plain ⟨twins, []⟩ mixed) :=
  ⟨level_mixed, carryOut_parity Memory.plain [] level_mixed⟩

/-- A copy of the first of two files, and one of the second by a path through what the first copy
makes. -/
def crossing : List Job :=
  [.transfer ⟨"a", "k/x", false, none⟩, .transfer ⟨"base/k/../../b", "y", false, none⟩]

def copied : Disk where
  entries := [(["x", "k", "base"], .file ⟨#[120]⟩ false), (["k", "base"], .dir), (["base"], .dir),
    (["a"], .file ⟨#[120]⟩ false), (["b"], .file ⟨#[120]⟩ false)]

theorem results_crossing :
    ((directory "base").carryOut Memory.plain ⟨twins, []⟩ crossing).2 = [.ok "", .ok ""] := by
  have first : (Directory.transfer "base" ⟨"a", "k/x", false, none⟩).run Memory.plain ⟨twins, []⟩ =
      (⟨copied, []⟩, .ok "") := by
    have dest : destination "base" "k/x" = "base/k/x" := rfl
    have parent : Path.parent? "base/k/x" = some "base/k" := rfl
    have made : twins.makeDirs "base/k" = (twins.put ["k", "base"] .dir, .ok ()) := rfl
    have brought : (twins.put ["k", "base"] .dir).copy "a" "base/k/x" = (copied, .ok ()) := rfl
    simp only [Directory.transfer, dest, withParent, parent, copyFile, Program.run, Disk.act, made,
      Bool.false_eq_true, if_false, brought]
  have second : ((Directory.transfer "base" ⟨"base/k/../../b", "y", false, none⟩).run Memory.plain
      ⟨copied, []⟩).2 = .ok "" := by
    have dest : destination "base" "y" = "base/y" := rfl
    have parent : Path.parent? "base/y" = some "base" := rfl
    have made : copied.makeDirs "base" = (copied, .ok ()) := rfl
    have brought : copied.copy "base/k/../../b" "base/y" =
        (copied.put ["y", "base"] (.file ⟨#[120]⟩ false), .ok ()) := rfl
    simp only [Directory.transfer, dest, withParent, parent, copyFile, Program.run, Disk.act, made,
      Bool.false_eq_true, if_false, brought]
  simp only [crossing, carryOut, push, transfer, first, second]

/-- A directory need not do what a key-value store does when a source is reached through the base, or
when the system takes no path with the key in it. -/
theorem carryOut_differs :
    (twins.read "base/k/../../b" = .error (.system Errno.noEntry) ∧
      ((directory "base").carryOut Memory.plain ⟨twins, []⟩ crossing).2 = [.ok "", .ok ""] ∧
      (keyValue.carryOut Memory.plain ⟨twins, []⟩ crossing).2 =
        [.ok "", .error (.io "base/k/../../b" (.system Errno.noEntry))]) ∧
    ((directory "base").carryOut Memory.plain ⟨twins, []⟩ [.transfer ⟨"a", "n\x00", false, none⟩]).2 =
        [.error (.io "a" Route.unpassable)] ∧
      (keyValue.carryOut Memory.plain ⟨twins, []⟩ [.transfer ⟨"a", "n\x00", false, none⟩]).2 =
        [.ok ""] :=
  ⟨⟨rfl, results_crossing, rfl⟩, rfl, rfl⟩

end Store

end Spool
