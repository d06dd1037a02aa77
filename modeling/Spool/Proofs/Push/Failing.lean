import Spool.Proofs.Disk.Intact
import Spool.Proofs.Disk.Landings
import Spool.Proofs.Push.Addressed

/-!
Pushes into a directory that fail. They leave what was there as it was, and add nothing but
directories; a partial object that lay under the name this one needed may be gone. If that was a file
with several names, what the push wrote stays under the others.
-/

namespace Spool

variable {σ : Type} {keys : KeyStore σ} {m e : Mount σ} {base source hash : String}
  {content : ByteArray} {cause : PushError}

/-- A source that is there can be removed. -/
theorem Push.finish_succeeds {own loc : Loc} (keys : KeyStore σ) (move : Bool) (hash : String)
    (found : m.volume.disk.Source source own loc) :
    ∃ e, (finish move source hash).runOn keys m = (e, .ok hash) := by
  unfold finish
  cases move with
  | false => exact ⟨_, rfl⟩
  | true =>
    simp only [if_true, Program.runOn, Volume.act, Volume.unlink, found.unlink_eq]
    exact ⟨_, rfl⟩

namespace Directory

open Disk

theorem runOn_withParent (keys : KeyStore σ) (formed : m.volume.disk.Formed) (path : String)
    (next : Push) :
    ∃ v, m.volume.disk.Grows v.disk ∧ v.numbers = m.volume.numbers ∧
      ((withParent path next).runOn keys m = next.runOn keys { m with volume := v } ∨
        ∃ cause, (withParent path next).runOn keys m = ({ m with volume := v }, .error cause)) := by
  unfold withParent
  cases Path.parent? path with
  | none => exact ⟨m.volume, .refl _, rfl, .inl rfl⟩
  | some parent =>
    have grows := makeDirs_grows formed parent
    simp only [Program.runOn, Volume.act, Volume.makeDirs]
    generalize m.volume.disk.makeDirs parent = made at grows ⊢
    obtain ⟨d, reply⟩ := made
    refine ⟨.numbering d m.volume.numbers, grows, ?_, ?_⟩
    · refine Volume.numbers_numbering fun pair member => ?_
      obtain ⟨bytes, executable, there⟩ := hasFile_iff.mp (m.volume.numbered pair member)
      exact hasFile_iff.mpr ⟨bytes, executable, grows.kept _ _ there⟩
    · cases reply with
      | ok => exact .inl rfl
      | error cause => exact .inr ⟨_, rfl⟩

theorem copyFile_failed {dest : String}
    (failed : (copyFile source dest).runOn keys m = (e, .error cause)) : e.volume = m.volume := by
  simp only [copyFile, Program.runOn, Volume.act] at failed
  cases copied : m.volume.copy source dest with
  | mk v reply =>
    rw [copied] at failed
    cases reply with
    | ok => cases failed
    | error cause =>
      cases failed
      exact Volume.copy_failed copied

/-- Within one file system a file is never copied to move it. -/
theorem moveFile_failed {dest : String}
    (failed : (moveFile source dest).runOn keys m = (e, .error cause)) : e.volume = m.volume := by
  simp only [moveFile, Program.runOn, Volume.act] at failed
  rcases m.volume.rename_cases source dest with ⟨cause, refused, same⟩ | ⟨_, _, done⟩
  · have within : cause ≠ .system crossDevice := by
      rintro rfl
      exact passage_ne (by decide) source dest refused
    rw [same] at failed
    simp only [if_neg within] at failed
    cases failed
    rfl
  · rcases done with done | ⟨_, done⟩ <;> (rw [done] at failed; cases failed)

/-- A transfer changes nothing once the call that brings the file has failed. -/
theorem transfer_failed {job : Transfer} (formed : m.volume.disk.Formed)
    (part : Option (Loc × ByteArray))
    (failed : (transfer base job).runOn keys m = (e, .error cause)) :
    m.volume.Intact e.volume part := by
  unfold transfer at failed
  obtain ⟨v, grows, -, ended | ⟨_, ended⟩⟩ := runOn_withParent keys formed
    (destination base job.remote) (if job.move then moveFile job.source (destination base job.remote)
      else copyFile job.source (destination base job.remote))
  · have same : e.volume = v := by
      rw [ended] at failed
      split at failed
      · exact moveFile_failed failed
      · exact copyFile_failed failed
    exact Volume.intact_of_grows (same ▸ grows) part
  · rw [ended] at failed
    cases failed
    exact Volume.intact_of_grows grows part

/-- A transform that has read its source fails before its object is in place, or not at all. -/
theorem placing_failed {beside dest : String} {data : ByteArray} {next : Push}
    (formed : m.volume.disk.Formed) (linkless : m.volume.disk.Linkless [])
    (succeeds : ∀ v : Volume, m.volume.disk.Steady v.disk →
      (∀ loc, m.volume.disk.hasFile loc → ¬ m.volume.areOne (m.volume.disk.lead beside) loc →
        v.disk.hasFile loc) →
      ∃ f hash, next.runOn keys { m with volume := v } = (f, .ok hash))
    (failed : (placing beside dest data next).runOn keys m = (e, .error cause)) :
    m.volume.Intact e.volume (some (m.volume.disk.lead beside, data)) := by
  simp only [placing, Program.runOn, Volume.act] at failed
  cases written : m.volume.write beside data with
  | mk v reply =>
    rw [written] at failed
    cases reply with
    | error cause =>
      rw [Volume.write_failed written] at failed
      cases failed
      exact Volume.intact_unlink linkless beside data
    | ok =>
      simp only [Program.runOn, Volume.act] at failed
      cases renamed : v.rename beside dest with
      | mk u reply =>
        rw [renamed] at failed
        cases reply with
        | error cause =>
          rw [Volume.rename_failed renamed] at failed
          cases failed
          exact Volume.intact_write_unlink formed linkless written
        | ok =>
          have fills := Volume.write_fills formed linkless written
          have steady := fills.swaps.steady
          obtain ⟨executable, there⟩ := fills.there
          have there := there _ (Volume.areOne_self _ _)
          rw [← steady.lead] at there
          obtain ⟨steady', files⟩ :=
            Volume.rename_keeps (steady.formed formed) (steady.linkless linkless) there renamed
          obtain ⟨f, hash, ended⟩ := succeeds u (steady.trans steady') fun loc file two => by
            refine files loc (fun same => two ?_) ?_
            · rw [same, steady.lead]
              exact Volume.areOne_self _ _
            · rw [hasFile_iff, fills.others loc two]
              exact hasFile_iff.mp file
          cases failed.symm.trans ended

/-- A transform that read its source and failed has left no object and no part of one. -/
theorem transform_failed {job : Transform} (formed : m.volume.disk.Formed)
    (linkless : m.volume.disk.Linkless []) (read : m.volume.disk.read job.source = .ok content)
    (apart : ¬ m.volume.areOne
      (m.volume.disk.lead (partialName (objectPath base job (Packed.ofContent content).hash)))
      (m.volume.disk.lead job.source))
    (failed : (transform base job).runOn keys m = (e, .error cause)) : m.volume.Intact e.volume
      (some (m.volume.disk.lead (partialName (objectPath base job (Packed.ofContent content).hash)),
        (Packed.ofContent content).data)) := by
  obtain ⟨source, executable, there⟩ := source_of_read linkless read
  obtain ⟨_, _, found⟩ := source.file
  simp only [transform, Program.runOn, read] at failed
  unfold objectPath at apart ⊢
  generalize Packed.ofContent content = object at apart failed ⊢
  generalize destination base (ObjectKey.ofDigest job.dir object.hash job.suffix) = dest at *
  obtain ⟨v, grows, numbers, ended | ⟨_, ended⟩⟩ := runOn_withParent keys formed dest
    (placing (partialName dest) dest object.data (Push.finish job.move job.source object.hash))
  · have steady := grows.steady
    have succeeds : ∀ u : Volume, v.disk.Steady u.disk →
        (∀ loc, v.disk.hasFile loc → ¬ v.areOne (v.disk.lead (partialName dest)) loc →
          u.disk.hasFile loc) →
        ∃ f hash, (Push.finish job.move job.source object.hash).runOn keys { m with volume := u } =
          (f, .ok hash) := by
      intro u after files
      have file : v.disk.hasFile (m.volume.disk.lead job.source) :=
        hasFile_iff.mpr ⟨content, executable, grows.kept _ _ there⟩
      simp only [steady.lead, Volume.areOne_congr numbers] at files
      obtain ⟨_, _, still⟩ := hasFile_iff.mp (files _ file apart)
      obtain ⟨_, source⟩ := source_of_locate
        (locate_lands ((steady.trans after).keeps _) still (by simp) found)
      obtain ⟨f, ended⟩ := Push.finish_succeeds (m := { m with volume := u }) keys job.move object.hash
        source
      exact ⟨f, _, ended⟩
    have intact := placing_failed (m := { m with volume := v }) (steady.formed formed)
      (steady.linkless linkless) succeeds (ended.symm.trans failed)
    simp only [steady.lead] at intact
    exact intact.after grows numbers
  · cases failed.symm.trans ended
    exact Volume.intact_of_grows grows _

end Directory

namespace Store

open Directory

/-- Where a part of an object can have been left under the name that a transform needs, and what the
transform writes there. -/
def leftover? (base : String) (d : Disk) : Job → Option (Loc × ByteArray)
  | .transform job =>
    match d.read job.source with
    | .ok content =>
      let object := Packed.ofContent content
      some (d.lead (partialName (objectPath base job object.hash)), object.data)
    | .error _ => none
  | .transfer _ | .termination => none

/-- After a push into a directory has failed all that was there can be found as it was, but for a
partial object in its way; and there is nothing new but directories. -/
theorem failed_intact {job : Job} (formed : m.volume.disk.Formed)
    (linkless : m.volume.disk.Linkless [])
    (apart : ∀ source stale data, job.source? = some source →
      leftover? base m.volume.disk job = some (stale, data) →
        ¬ m.volume.areOne stale (m.volume.disk.lead source))
    (failed : ((directory base).push job).runOn keys m = (e, .error cause)) :
    m.volume.Intact e.volume (leftover? base m.volume.disk job) ∧
      ∀ source bytes, job.source? = some source → m.volume.disk.read source = .ok bytes →
        e.volume.disk.read source = .ok bytes := by
  have intact : m.volume.Intact e.volume (leftover? base m.volume.disk job) := by
    cases job with
    | termination => cases failed
    | transfer job => exact transfer_failed formed _ failed
    | transform job =>
      cases read : m.volume.disk.read job.source with
      | error cause =>
        simp only [push, transform, Directory.transform, Program.runOn, read, Push.failIo] at failed
        cases failed
        exact Volume.intact_of_grows (.refl _) _
      | ok content =>
        have known : leftover? base m.volume.disk (.transform job) = some
            (m.volume.disk.lead (partialName (objectPath base job (Packed.ofContent content).hash)),
              (Packed.ofContent content).data) := by
          simp only [leftover?, read]
        rw [known]
        exact transform_failed formed linkless read (apart job.source _ _ rfl known) failed
  refine ⟨intact, fun source bytes given read =>
    intact.read_eq (fun loc found stale data way known => ?_) read⟩
  rw [Disk.eq_lead_of_locate linkless way]
  exact apart source stale data given known

/-- A push that finds its place taken by a directory has written its object into a part that was left
behind, and so under all names of that file. -/
theorem spoilt_of_taken (beside dest : String) {data : ByteArray} {next : Push}
    (formed : m.volume.disk.Formed) (linkless : m.volume.disk.Linkless [])
    (inside : ∀ parent, Path.parent? dest = some parent → m.volume.disk.isDir parent = true)
    (writable : (m.volume.disk.write beside data).2 = .ok ())
    (taken : m.volume.disk.at? (m.volume.disk.lead dest) = some .dir) : ∃ e cause,
      (withParent dest (placing beside dest data next)).runOn keys m = (e, .error cause) ∧
        ∀ loc, m.volume.disk.hasFile loc → m.volume.areOne (m.volume.disk.lead beside) loc →
          m.volume.Spoilt e.volume (m.volume.disk.lead beside) data loc := by
  have made : (withParent dest (placing beside dest data next)).runOn keys m =
      (placing beside dest data next).runOn keys m := by
    unfold withParent
    cases known : Path.parent? dest with
    | none => rfl
    | some parent =>
      simp only [Program.runOn, Volume.act, Volume.makeDirs,
        Disk.makeDirs_of_isDir (inside parent known), Volume.numbering_self]
  rw [made]
  simp only [placing, Program.runOn]
  have wrote := Volume.reply_act m.volume (.write beside data)
  simp only [Volume.act, Disk.act, writable] at wrote ⊢
  cases written : m.volume.write beside data with
  | mk v reply =>
    rw [written] at wrote
    cases wrote
    have fills := Volume.write_fills formed linkless written
    have steady := fills.swaps.steady
    simp only [Program.runOn, Volume.act]
    cases renamed : v.rename beside dest with
    | mk u reply =>
      cases reply with
      | error cause =>
        rw [Volume.rename_failed renamed]
        exact ⟨_, _, rfl, fun loc file one =>
          Volume.spoilt_of_write formed linkless written file one⟩
      | ok =>
        obtain ⟨executable, there⟩ := fills.there
        have there := there _ (Volume.areOne_self _ _)
        rw [← steady.lead] at there taken
        have moved := Volume.reply_act v (.rename beside dest)
        simp only [Volume.act, renamed] at moved
        exact absurd moved.symm (Disk.rename_taken (steady.formed formed)
          (steady.linkless linkless) there (steady.dirs _ taken))

theorem data_ne_empty (p : Parcel) : p.object.data ≠ .empty := by
  obtain ⟨data, same, -, inflated⟩ := unpacked p.content
  intro empty
  rw [← same, show (Packed.ofContent p.content).data = .empty from empty] at inflated
  have nothing : Flate.Stream.decompress? .empty = none := by
    simp [Flate.Stream.decompress?, ByteArray.toList, ByteArray.toList.loop]
  cases nothing.symm.trans inflated

/-- The object of a file that holds one byte. -/
def single : Parcel := ⟨flat "a" ".obj", ⟨#[120]⟩⟩

/-- A base in which a directory has taken the place of an object, beside a part of it that was left
behind. -/
def occupied (fan name : String) : Disk where
  entries := [(["base"], .dir), (["a"], .file ⟨#[120]⟩ false), (["other"], .file .empty false),
    ([fan, "base"], .dir), ([name, fan, "base"], .dir),
    ([partialName name, fan, "base"], .file .empty false)]

theorem at?_part (fan name : String) :
    (occupied fan name).at? [partialName name, fan, "base"] = some (.file .empty false) := by
  simp [occupied, Disk.at?, List.lookup_cons, beq_eq_false_iff_ne.mpr (Parcel.name_ne_partial name)]

/-- The part that was left behind has a second name. -/
def shared (fan name : String) : Volume where
  disk := occupied fan name
  numbers := [(["other"], 0), ([partialName name, fan, "base"], 0)]
  numbered := by
    intro pair member
    simp only [List.mem_cons, List.not_mem_nil, or_false] at member
    rcases member with rfl | rfl
    · rfl
    · exact Disk.hasFile_iff.mpr ⟨_, _, at?_part fan name⟩

theorem formed_shared (fan name : String) : (shared fan name).disk.Formed := by
  refine Disk.formed_of_entries rfl fun pair member => ?_
  simp only [shared, occupied, List.mem_cons, List.not_mem_nil, or_false] at member
  rcases member with rfl | rfl | rfl | rfl | rfl | rfl
  · rfl
  · rfl
  · rfl
  · rfl
  · simp [shared, occupied, Disk.at?, List.lookup_cons]
  · simp [shared, occupied, Disk.at?, List.lookup_cons]

theorem linkless_shared (fan name : String) : (shared fan name).disk.Linkless [] := by
  refine Disk.linkless_of_entries (fun pair member target => ?_) _
  simp only [shared, occupied, List.mem_cons, List.not_mem_nil, or_false] at member
  rcases member with rfl | rfl | rfl | rfl | rfl | rfl <;> simp

theorem at?_fan (fan name : String) : (shared fan name).disk.at? [fan, "base"] = some .dir := by
  simp [shared, occupied, Disk.at?, List.lookup_cons]

theorem at?_taken (fan name : String) :
    (shared fan name).disk.at? [name, fan, "base"] = some .dir := by
  simp [shared, occupied, Disk.at?, List.lookup_cons]

theorem not_areOne_shared (fan name n : String) : ¬ (shared fan name).areOne [n, fan, "base"] ["a"] := by
  simp [Volume.areOne_iff, shared, List.lookup_cons]

theorem areOne_shared (fan name : String) :
    (shared fan name).areOne [partialName name, fan, "base"] ["other"] := by
  simp [shared, Volume.areOne, List.lookup_cons]

/-- All names of a file show the same. -/
theorem coherent_shared {fan name : String} {loc other : Loc}
    (one : (shared fan name).areOne loc other) :
    (shared fan name).disk.at? other = (shared fan name).disk.at? loc := by
  have named : ∀ l number, (shared fan name).numbers.lookup l = some number →
      (shared fan name).disk.at? l = some (.file .empty false) := by
    intro l number known
    have member := Table.mem_of_lookup known
    simp only [shared, List.mem_cons, List.not_mem_nil, or_false, Prod.mk.injEq] at member
    rcases member with ⟨rfl, -⟩ | ⟨rfl, -⟩
    · rfl
    · exact at?_part fan name
  rcases Volume.areOne_iff.mp one with same | ⟨number, first, second⟩
  · rw [same]
  · rw [named _ _ first, named _ _ second]

/-- The place of the object is not free. -/
def barred : Volume :=
  shared (String.ofList (single.object.hash.toList.take 2)) single.name

theorem formed_barred : barred.disk.Formed := formed_shared _ _

theorem linkless_barred : barred.disk.Linkless [] := linkless_shared _ _

theorem based_barred : barred.disk.Based (Route.ofText "base".toList) ["base"] :=
  formed_barred.based (linkless_barred.of_root _) rfl

theorem plain_single : Parcel.Plain single.job := ⟨by decide, by decide⟩

theorem lead_barred {n : String} (named : Parcel.Named n) : barred.disk.lead
    (single.pathOf "base" n) = [n, String.ofList (single.object.hash.toList.take 2), "base"] :=
  based_barred.lead_eq linkless_barred (Parcel.leads "base" plain_single named)

theorem read_barred : barred.disk.read single.job.source = .ok ⟨#[120]⟩ := by
  simp only [Disk.read, single, flat,
    show barred.disk.locate .existing "a" = .ok (["a"], some (.file ⟨#[120]⟩ false)) from rfl]

theorem lead_part : barred.disk.lead (single.beside "base") =
    [partialName single.name, String.ofList (single.object.hash.toList.take 2), "base"] := by
  rw [Parcel.beside_eq]
  exact lead_barred (Parcel.named_partial (Parcel.named_name plain_single))

theorem lead_taken : barred.disk.lead (single.dest "base") =
    [single.name, String.ofList (single.object.hash.toList.take 2), "base"] := by
  rw [Parcel.dest_eq]
  exact lead_barred (Parcel.named_name plain_single)

theorem taken_barred : barred.disk.at? (barred.disk.lead (single.dest "base")) = some .dir := by
  rw [lead_taken]
  exact at?_taken _ _

theorem leftover_barred : leftover? "base" barred.disk (.transform single.job) =
    some (barred.disk.lead (single.beside "base"), single.object.data) := by
  simp only [leftover?, read_barred]
  rfl

/-- The source is not the part that was left behind, under none of its names. -/
theorem apart_barred : ¬ barred.areOne (barred.disk.lead (single.beside "base"))
    (barred.disk.lead single.job.source) := by
  rw [lead_part]
  exact not_areOne_shared _ _ _

theorem storable_single : single.Storable "base" :=
  Parcel.storable_of_short plain_single (by decide) (by decide) (by decide) (by decide)

theorem run_barred : ∃ e cause,
    ((directory "base").push (.transform single.job)).runOn (Memory.keyStore fun _ => none)
      ⟨barred, []⟩ = (e, .error cause) ∧
    ∀ loc, barred.disk.hasFile loc → barred.areOne (barred.disk.lead (single.beside "base")) loc →
      barred.Spoilt e.volume (barred.disk.lead (single.beside "base")) single.object.data loc := by
  simp only [push, transform, Directory.transform, Program.runOn, read_barred]
  refine spoilt_of_taken (single.beside "base") (single.dest "base") formed_barred linkless_barred
    (fun parent known => ?_) ?_ taken_barred
  · obtain ⟨known', -, up, n, split, leads⟩ := Parcel.parent_leads "base" plain_single
    rw [known', Option.some.injEq] at known
    subst known
    have outer : single.outer = [String.ofList (single.object.hash.toList.take 2)] := rfl
    cases up with
    | cons first rest => simp [outer] at split
    | nil =>
      obtain rfl := (List.cons.inj (outer.symm.trans split)).1
      have reached := storable_single.reached plain_single
      refine (based_barred.isDir_eq ⟨leads, Parcel.read_of_isOk reached⟩ rfl
        (Nat.not_lt_of_le (storable_single.2 _ List.mem_cons_self))).mpr ?_
      exact at?_fan _ _
  · have there : barred.disk.at? (Disk.under ["base"] (single.outer ++ [partialName single.name])) =
        some (.file .empty false) := at?_part _ _
    have through := based_barred.through_of_there storable_single.shortOuter (by rw [there]; simp)
    have fits := storable_single.2 _ (List.mem_append_right _ List.mem_cons_self)
    change (barred.disk.write (single.beside "base") single.object.data).2 = .ok ()
    rw [based_barred.write_eq (Parcel.names_beside plain_single storable_single.1) through
      (Parcel.beside_bare plain_single) (Nat.not_lt_of_le fits), there]

/-- The transform of the file gives up, and takes back what it had written. -/
theorem failed_intact_barred : ∃ e cause,
    ((directory "base").push (.transform single.job)).runOn (Memory.keyStore fun _ => none)
      ⟨barred, []⟩ = (e, .error cause) ∧
    barred.Intact e.volume (leftover? "base" barred.disk (.transform single.job)) ∧
      ∀ source bytes, (Job.transform single.job).source? = some source →
        barred.disk.read source = .ok bytes → e.volume.disk.read source = .ok bytes := by
  obtain ⟨e, cause, run, -⟩ := run_barred
  refine ⟨e, cause, run, failed_intact formed_barred linkless_barred ?_ run⟩
  rintro source stale data given known
  cases given
  simp only [leftover_barred, Option.some.injEq, Prod.mk.injEq] at known
  exact known.1 ▸ apart_barred

/-- A transform that fails can change a file: one of its names is that of a part that was left behind.
The source is neither that file nor at the place of the object. -/
theorem failed_changes_other : ∃ e cause,
    ((directory "base").push (.transform single.job)).runOn (Memory.keyStore fun _ => none)
      ⟨barred, []⟩ = (e, .error cause) ∧
    (barred.disk.Formed ∧ barred.disk.Linkless [] ∧
      ∀ loc other, barred.areOne loc other → barred.disk.at? other = barred.disk.at? loc) ∧
    (¬ barred.areOne (barred.disk.lead (single.dest "base")) (barred.disk.lead single.job.source) ∧
      ¬ barred.areOne (barred.disk.lead (single.beside "base"))
        (barred.disk.lead single.job.source)) ∧
    barred.disk.lead (single.beside "base") ≠ ["other"] ∧
    barred.disk.at? ["other"] = some (.file .empty false) ∧
    ∃ bytes executable, e.volume.disk.at? ["other"] = some (.file bytes executable) ∧
      bytes ≠ .empty := by
  obtain ⟨e, cause, run, spoilt⟩ := run_barred
  refine ⟨e, cause, run, ⟨formed_barred, linkless_barred, fun _ _ => coherent_shared⟩,
    ⟨?_, apart_barred⟩, ?_, rfl, ?_⟩
  · rw [lead_taken]
    exact not_areOne_shared _ _ _
  · rw [lead_part]
    simp
  · have one : barred.areOne (barred.disk.lead (single.beside "base")) ["other"] := by
      rw [lead_part]
      exact areOne_shared _ _
    have apart : (["other"] : Loc) ≠ barred.disk.lead (single.beside "base") := by
      rw [lead_part]
      simp
    have file : barred.disk.hasFile ["other"] :=
      Disk.hasFile_iff.mpr ⟨.empty, false, rfl⟩
    obtain ⟨executable, there⟩ := (spoilt ["other"] file one).other apart
    exact ⟨_, executable, there, data_ne_empty single⟩

end Store

end Spool
