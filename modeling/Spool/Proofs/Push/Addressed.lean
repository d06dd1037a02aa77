import Spool.Proofs.Disk.Places
import Spool.Proofs.Flate.Stream
import Spool.Proofs.Push.Codes
import Spool.Proofs.Push.Keeping
import Spool.Push.Memory
import Spool.Push.Store

/-!
Transforms keep content under its address. What a transform that succeeds has stored is named by its
own digest and gives back the content of the source, in a directory and in a key-value store alike;
nothing else that was stored before changes.
-/

namespace Spool

/-- A view of a key-value store in which a value that was put is found under its key. -/
structure KeyStore.Shows {σ : Type} (store : KeyStore σ) (get : σ → String → Option ByteArray) :
    Prop where
  put {state next : σ} {key : String} {value : ByteArray} :
    store.put state key value = (next, .ok ()) → get next key = some value
  others {state next : σ} {key other : String} {value : ByteArray} {reply : Except PushError Unit} :
    store.put state key value = (next, reply) → other ≠ key → get next other = get state other

variable {σ : Type} {keys : KeyStore σ} {get : σ → String → Option ByteArray} {w e : World σ}
  {base source hash result : String} {content : ByteArray} {job : Transform}

namespace Memory

theorem get?_insert_self (m : Memory) (key : String) (value : ByteArray) :
    (m.insert key value).get? key = some value := by
  simp [insert, get?]

theorem get?_insert_of_ne (m : Memory) {key other : String} (value : ByteArray)
    (apart : other ≠ key) : (m.insert key value).get? other = m.get? other := by
  have passed : (other == key) = false := beq_eq_false_iff_ne.mpr apart
  simp only [insert, get?, List.lookup_cons, passed]
  induction m with
  | nil => rfl
  | cons head m ih =>
    obtain ⟨k, v⟩ := head
    by_cases same : k = key
    · have gone : (k != key) = false := by simp [same]
      have off : (other == k) = false := by rw [same]; exact passed
      simp only [List.filter_cons, gone, Bool.false_eq_true, if_false, ih, List.lookup_cons, off]
    · have kept : (k != key) = true := bne_iff_ne.mpr same
      simp only [List.filter_cons, kept, if_true, List.lookup_cons, ih]

theorem shows (fault : String → Option PushError) : (keyStore fault).Shows get? where
  put put := by
    simp only [keyStore] at put
    split at put
    · cases put
    · cases put
      exact get?_insert_self ..
  others put apart := by
    simp only [keyStore] at put
    split at put
    · cases put
      rfl
    · cases put
      exact get?_insert_of_ne _ _ apart

end Memory

namespace Directory

theorem run_withParent_ok {path : String} {next : Push} (formed : w.disk.Formed)
    (ended : (withParent path next).run keys w = (e, .ok hash)) : ∃ d,
      w.disk.Spares d (fun _ => False) ∧ next.run keys { w with disk := d } = (e, .ok hash) := by
  have grows := Disk.makeAround_grows formed path
  rw [run_withParent] at ended
  generalize w.disk.makeAround path = made at grows ended
  obtain ⟨d, reply⟩ := made
  cases reply with
  | error cause => cases ended
  | ok => exact ⟨d, grows.spares _, ended⟩

theorem run_discard_ne_ok {beside path : String} {cause : IoError} :
    (discard beside path cause).run keys w ≠ (e, .ok hash) := by
  intro ended
  rw [run_discard] at ended
  cases ended

/-- Where a directory keeps the object with the given digest. -/
def objectPath (base : String) (job : Transform) (hash : String) : String :=
  destination base (ObjectKey.ofDigest job.dir hash job.suffix)

theorem placing_ok {beside dest : String} {data : ByteArray} {next : Push}
    (ended : (placing beside dest data next).run keys w = (e, .ok hash)) : ∃ d f,
      w.disk.write beside data = (d, .ok ()) ∧ d.rename beside dest = (f, .ok ()) ∧
        next.run keys { w with disk := f } = (e, .ok hash) := by
  simp only [placing, Program.run, Disk.act] at ended
  cases written : w.disk.write beside data with
  | mk d reply =>
    rw [written] at ended
    cases reply with
    | error cause => exact absurd ended run_discard_ne_ok
    | ok =>
      simp only [Program.run, Disk.act] at ended
      cases renamed : d.rename beside dest with
      | mk f reply =>
        rw [renamed] at ended
        cases reply with
        | error cause => exact absurd ended run_discard_ne_ok
        | ok => exact ⟨d, f, rfl, renamed, ended⟩

theorem run_placed {beside dest : String} {data : ByteArray} {next : Push}
    (formed : w.disk.Formed) (linkless : w.disk.Linkless [])
    (ended : (placing beside dest data next).run keys w = (e, .ok hash)) : ∃ d,
      (w.disk.Spares d fun loc => loc = w.disk.lead dest ∨ loc = w.disk.lead beside) ∧
        (∃ executable, d.locate .existing dest =
          .ok (w.disk.lead dest, some (.file data executable))) ∧
        next.run keys { w with disk := d } = (e, .ok hash) := by
  obtain ⟨d₁, d₂, written, renamed, ended⟩ := placing_ok ended
  have set := Disk.write_sets formed linkless written
  obtain ⟨executable, there⟩ := set.there
  have formed₁ := set.spares.steady.formed formed
  have linkless₁ := set.spares.steady.linkless linkless
  rw [← set.spares.steady.lead] at there
  obtain ⟨spares, found⟩ := Disk.rename_sets formed₁ linkless₁ there renamed
  rw [set.spares.steady.lead, set.spares.steady.lead] at spares
  rw [set.spares.steady.lead] at found
  exact ⟨d₂, (set.spares.mono fun _ => .inr).trans spares, ⟨executable, found⟩, ended⟩

theorem run_transform (formed : w.disk.Formed) (linkless : w.disk.Linkless [])
    (read : w.disk.read job.source = .ok content)
    (ended : (transform base job).run keys w = (e, .ok hash)) : ∃ d,
      let object := Packed.ofContent content
      let dest := objectPath base job object.hash
      (w.disk.Spares d fun loc => loc = w.disk.lead dest ∨ loc = w.disk.lead (partialName dest)) ∧
        (∃ executable, d.locate .existing dest =
          .ok (w.disk.lead dest, some (.file object.data executable))) ∧
        (Push.finish job.move job.source object.hash).run keys { w with disk := d } =
          (e, .ok hash) := by
  simp only [transform, Program.run, read] at ended
  obtain ⟨d₁, made, ended⟩ := run_withParent_ok formed ended
  have formed₁ := made.steady.formed formed
  have linkless₁ := made.steady.linkless linkless
  refine run_placed formed₁ linkless₁ ended |>.imp fun d placed => ?_
  simp only [made.steady.lead] at placed
  exact ⟨(made.mono fun _ => False.elim).trans placed.1, placed.2⟩

end Directory

namespace Push

/-- If the push ends well, then with this digest. -/
structure Names (keys : KeyStore σ) (hash : String) (push : Push) : Prop where
  ends : push.Ends keys fun result => ∀ given, result = .ok given → given = hash

theorem names_ok : Names keys hash (.done (.ok hash)) := by
  refine ⟨fun given same => ?_⟩
  cases same
  rfl

theorem names_error (cause : PushError) : Names keys hash (.done (.error cause)) := by
  refine ⟨fun given same => ?_⟩
  cases same

theorem names_failIo (path : String) (cause : IoError) : Names keys hash (failIo path cause) :=
  names_error _

theorem names_act {action : Action} {next : Disk.Reply Unit → Push}
    (fine : Names keys hash (next (.ok ()))) (failed : ∀ cause, Names keys hash (next (.error cause))) :
    Names keys hash (.act action next) := by
  refine ⟨fun d => ?_⟩
  cases (d.act action).2 with
  | ok => exact fine.ends
  | error cause => exact (failed cause).ends

theorem names_finish (move : Bool) (source : String) : Names keys hash (finish move source hash) := by
  unfold finish
  split
  · exact names_act names_ok fun cause => names_failIo source cause
  · exact names_ok

end Push

open Push

namespace Directory

theorem names_discard (beside path : String) (cause : IoError) :
    Names keys hash (discard beside path cause) :=
  names_act (names_failIo path cause) fun _ => names_failIo path cause

theorem names_withParent (path : String) {next : Push} (fine : Names keys hash next) :
    Names keys hash (withParent path next) := by
  unfold withParent
  split
  · exact fine
  · next parent _ => exact names_act fine fun cause => names_failIo parent cause

theorem names_transform (base : String) (read : w.disk.read job.source = .ok content) :
    Names keys (Packed.ofContent content).hash ((transform base job).step keys w).2 := by
  simp only [transform, Program.step, read]
  generalize Packed.ofContent content = object
  refine names_withParent _ (names_act ?_ fun cause => names_discard _ _ cause)
  exact names_act (names_finish job.move job.source) fun cause => names_discard _ _ cause

end Directory

theorem KeyValue.names_transform (read : w.disk.read job.source = .ok content) :
    Names keys (Packed.ofContent content).hash ((transform job).step keys w).2 := by
  simp only [transform, Program.step, read]
  generalize Packed.ofContent content = object
  refine ⟨fun state => ?_⟩
  cases (keys.put state _ object.data).2 with
  | ok => exact (names_finish job.move job.source).ends
  | error cause => exact (names_error cause).ends

theorem KeyValue.run_store {key : String} {value : ByteArray} {move : Bool}
    (ended : (store key value move source result).run keys w = (e, .ok hash)) : ∃ next,
      keys.put w.keys key value = (next, .ok ()) ∧
        (finish move source result).run keys { w with keys := next } = (e, .ok hash) := by
  simp only [store, Program.run] at ended
  cases reply : keys.put w.keys key value with
  | mk next outcome =>
    simp only [reply] at ended
    cases outcome with
    | error cause => cases ended
    | ok => exact ⟨next, rfl, ended⟩

namespace Store

def value? (get : σ → String → Option ByteArray) (w : World σ) (key : String) :
    Store → Option ByteArray
  | directory base => (w.disk.read (Directory.destination base key)).toOption
  | keyValue => get w.keys key

def Writes (d : Disk) (key : String) (loc : Loc) : Store → Prop
  | directory base => loc = d.lead (Directory.destination base key) ∨
      loc = d.lead (Directory.partialName (Directory.destination base key))
  | keyValue => False

/-- What a transform that succeeded has done. -/
structure Addressed (get : σ → String → Option ByteArray) (s : Store) (job : Transform)
    (content : ByteArray) (hash : String) (w e : World σ) : Prop where
  stored : ∃ data, s.value? get e (ObjectKey.ofDigest job.dir hash job.suffix) = some data ∧
    Sha256.hex data = hash ∧ Flate.Stream.decompress? data = some content
  /-- The source is removed if that is asked for, and only then. -/
  removed : e.disk.at? (w.disk.lead job.source) = none ↔ job.move = true
  kept : job.move = false → e.disk.read job.source = .ok content
  files : ∀ loc, loc ≠ w.disk.lead job.source →
    ¬ s.Writes w.disk (ObjectKey.ofDigest job.dir hash job.suffix) loc → ∀ bytes executable,
      w.disk.at? loc = some (.file bytes executable) → e.disk.at? loc = some (.file bytes executable)
  entries : ∀ key, (s = .keyValue → key ≠ ObjectKey.ofDigest job.dir hash job.suffix) →
    get e.keys key = get w.keys key
  /-- Every transform of the same content gives this digest, whatever store it is for. -/
  digest : ∀ {τ : Type} (other : Store) (keys : KeyStore τ) (w e : World τ) (job : Transform)
    (given : String), w.disk.read job.source = .ok content →
      (other.transform job).run keys w = (e, .ok given) → given = hash

theorem hash_of_transform (s : Store) (read : w.disk.read job.source = .ok content)
    (ended : (s.transform job).run keys w = (e, .ok hash)) :
    hash = (Packed.ofContent content).hash := by
  have named : Names keys (Packed.ofContent content).hash ((s.transform job).step keys w).2 := by
    cases s with
    | directory base => exact Directory.names_transform base read
    | keyValue => exact KeyValue.names_transform read
  have reached := named.ends.run ((s.transform job).step keys w).1
  rw [Program.run_step, ended] at reached
  exact reached hash rfl

/-- The source is dealt with as the job asks, and nothing else happened. -/
structure Finished (job : Transform) (content : ByteArray) (own : Loc) (d e : Disk) : Prop where
  removed : e.at? own = none ↔ job.move = true
  kept : job.move = false → e.read job.source = .ok content
  others : ∀ loc, loc ≠ own → e.at? loc = d.at? loc
  found : ∀ path loc, d.Source path loc loc → loc ≠ own → e.Source path loc loc

theorem finished {d : Disk} {touched : Loc → Prop} (linkless : w.disk.Linkless [])
    (read : w.disk.read job.source = .ok content) (spares : w.disk.Spares d touched)
    (apart : ¬ touched (w.disk.lead job.source))
    (ended : (finish job.move job.source result).run keys { w with disk := d } = (e, .ok hash)) :
    e.keys = w.keys ∧ Finished job content (w.disk.lead job.source) d e.disk := by
  obtain ⟨source, executable, there⟩ := Disk.source_of_read linkless read
  have there' := spares.files _ apart _ _ there
  have source' : d.Source job.source (w.disk.lead job.source) (w.disk.lead job.source) :=
    source.keep (spares.steady.keeps fun _ => False) (fun _ => False.elim) (there'.trans there.symm)
  rw [run_finish (w := { w with disk := d }) keys job.move result source'] at ended
  cases ended
  refine ⟨rfl, ?_⟩
  cases asked : job.move with
  | false =>
    rw [if_neg (by simp)]
    refine ⟨iff_of_false ?_ (by simp [asked]), fun _ => source'.read_eq there', fun _ _ => rfl,
      fun _ _ found _ => found⟩
    rw [there']
    simp
  | true =>
    rw [if_pos rfl]
    refine ⟨iff_of_true ?_ asked, fun no => ?_, fun _ off => Disk.at?_remove_of_ne d off,
      fun _ _ found off => found.keep_remove source'.denotes off.symm⟩
    · obtain ⟨name, dir, -, split⟩ := source'.place
      rw [split]
      exact Disk.at?_remove_self d name dir
    · rw [asked] at no
      cases no

theorem unpacked (content : ByteArray) : ∃ data, (Packed.ofContent content).data = data ∧
    Sha256.hex data = (Packed.ofContent content).hash ∧
      Flate.Stream.decompress? data = some content :=
  ⟨_, rfl, rfl, Flate.Stream.decompress?_compress content⟩

theorem addressed_directory (formed : w.disk.Formed) (linkless : w.disk.Linkless [])
    (read : w.disk.read job.source = .ok content)
    (apart : ∀ loc, (directory base).Writes w.disk (ObjectKey.ofDigest job.dir hash job.suffix) loc →
      loc ≠ w.disk.lead job.source)
    (ended : (Directory.transform base job).run keys w = (e, .ok hash)) :
    (directory base).Addressed get job content hash w e := by
  have digest := hash_of_transform (directory base) read ended
  obtain ⟨data, packed, named, inflated⟩ := unpacked content
  obtain ⟨d, spares, ⟨executable, placed⟩, ended'⟩ := Directory.run_transform formed linkless read ended
  rw [← digest, packed] at placed
  rw [← digest] at spares ended' named
  obtain ⟨same, finished⟩ := finished linkless read spares (fun on => apart _ on rfl) ended'
  have stored : e.disk.read (Directory.objectPath base job hash) = .ok data := by
    have placed' : d.read (Directory.objectPath base job hash) = .ok data := by
      unfold Disk.read
      rw [placed]
    obtain ⟨object, executable', there⟩ :=
      Disk.source_of_read (spares.steady.linkless linkless) placed'
    rw [spares.steady.lead] at object there
    have off := apart _ (.inl rfl)
    exact (finished.found _ _ object off).read_eq ((finished.others _ off).trans there)
  refine ⟨⟨data, ?_, named, inflated⟩, finished.removed, finished.kept,
    fun loc other untouched bytes executable old => ?_, fun key _ => by rw [same], ?_⟩
  · unfold Directory.objectPath at stored
    simp only [value?, stored, Except.toOption]
  · exact (finished.others loc other).trans (spares.files loc untouched bytes executable old)
  · exact fun other keys w e job given read ended =>
      (hash_of_transform other read ended).trans digest.symm

theorem addressed_keyValue (shows : keys.Shows get) (linkless : w.disk.Linkless [])
    (read : w.disk.read job.source = .ok content)
    (ended : (KeyValue.transform job).run keys w = (e, .ok hash)) :
    keyValue.Addressed get job content hash w e := by
  have digest := hash_of_transform keyValue read ended
  obtain ⟨data, packed, named, inflated⟩ := unpacked content
  simp only [KeyValue.transform, Program.run, read] at ended
  rw [← digest, packed] at ended
  rw [← digest] at named
  obtain ⟨next, put, ended'⟩ := KeyValue.run_store ended
  obtain ⟨same, finished⟩ := finished (w := { w with keys := next }) linkless read
    (.refl w.disk fun _ => False) (fun no => no) ended'
  refine ⟨⟨data, ?_, named, inflated⟩, finished.removed, finished.kept,
    fun loc other _ bytes executable old => (finished.others loc other).trans old,
    fun key other => ?_, ?_⟩
  · simp only [value?, same, shows.put put]
  · simp only [same, shows.others put (other rfl)]
  · exact fun other keys w e job given read ended =>
      (hash_of_transform other read ended).trans digest.symm

/-- A transform that ends well keeps its content under the digest of what it stored. -/
theorem transform_addressed {s : Store} (shows : keys.Shows get) (formed : w.disk.Formed)
    (linkless : w.disk.Linkless []) (read : w.disk.read job.source = .ok content)
    (apart : ∀ loc, s.Writes w.disk (ObjectKey.ofDigest job.dir hash job.suffix) loc →
      loc ≠ w.disk.lead job.source)
    (ended : (s.transform job).run keys w = (e, .ok hash)) : s.Addressed get job content hash w e := by
  cases s with
  | directory base => exact addressed_directory formed linkless read apart ended
  | keyValue => exact addressed_keyValue shows linkless read ended

theorem writes_below {d : Disk} {top loc : Loc} {p : Parcel} (linkless : d.Linkless [])
    (based : d.Based (Route.ofText base.toList) top) (plain : Parcel.Plain p.job)
    (storable : p.Storable base) (written : (directory base).Writes d
      (ObjectKey.ofDigest p.job.dir p.object.hash p.job.suffix) loc) :
    loc = p.place top ∨ loc = p.sidePlace top := by
  refine written.imp (fun here => here.trans ?_) fun here => here.trans ?_
  · exact based.lead_eq linkless (Parcel.names_dest plain storable).leads
  · exact based.lead_eq linkless (Parcel.names_beside plain storable.1).leads

theorem run_of_transforms {jobs : List Transform} {outcome : Except PushError String}
    {others : List (Except PushError String)}
    (results : (Directory.transforms keys base w (job :: jobs)).2 = outcome :: others) :
    ∃ e, ((directory base).transform job).run keys w = (e, outcome) :=
  ⟨_, Prod.ext rfl (List.cons.inj results).1⟩

open Directory in
/-- One of two equal files is copied into a base beside it. -/
theorem addressed_twin : ∃ e, ((directory "base").transform (flat "a" ".obj")).run
      (Memory.keyStore fun _ => none) ⟨twins, []⟩ = (e, .ok twinHash) ∧
    (directory "base").Addressed Memory.get? (flat "a" ".obj") ⟨#[120]⟩ twinHash ⟨twins, []⟩ e := by
  have content : twins.read "a" = .ok ⟨#[120]⟩ := by
    simp only [Disk.read,
      show twins.locate .existing "a" = .ok (["a"], some (.file ⟨#[120]⟩ false)) from rfl]
  have results := results_twins (Memory.keyStore fun _ => none) [] ".obj" ".bin" (by decide)
    (by decide)
  obtain ⟨e, run⟩ := run_of_transforms results
  refine ⟨e, run, ?_⟩
  have apart : ∀ names, Disk.under ["base"] names ≠ twins.lead "a" := by
    intro names same
    have last := congrArg List.getLast? same
    simp only [Disk.under, List.getLast?_append, List.getLast?_singleton, Option.some_or] at last
    exact absurd last (by decide)
  have based : twins.Based (Route.ofText "base".toList) ["base"] :=
    formed_twins.based (linkless_twins _) rfl
  obtain ⟨plain, storable⟩ := storable_of_mild (rfl : (flat "a" ".obj").dir = "") (by decide) twins
  have parcel : (Parcel.ofJob twins (flat "a" ".obj")).object.hash = twinHash := by
    simp only [Parcel.object, Parcel.ofJob, flat, content, twinHash]
  refine transform_addressed (Memory.shows _) formed_twins (linkless_twins []) content ?_ run
  intro loc written
  rw [← parcel] at written
  rcases writes_below (linkless_twins []) based plain storable written with here | here
  · exact here ▸ apart _
  · exact here ▸ apart _

end Store

end Spool
