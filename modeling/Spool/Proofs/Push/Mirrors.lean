import Spool.Proofs.Disk.Aside
import Spool.Proofs.Push.Addressed
import Spool.Proofs.Push.Keys

/-!
A directory beside a key-value store. One job is carried out in both, and the files below the base
are again the entries of the store, while everything else on the two disks is the same.
-/

namespace Spool

open Disk

/-- Keys that can be used side by side: ordinary ones, none of which leads below another one, or to
where an object is written first. -/
structure Family (base : String) (family : String → Prop) : Prop where
  ordinary : ∀ key, family key → Key.Ordinary key
  passable : ∀ key, family key → Key.Passable base key
  whole : ∀ key, family key → ∀ n ∈ Key.names key, ¬ ".partial".toList <:+ n.toList
  apart : ∀ key other, family key → family other → Key.names key <+: Key.names other → key = other

/-- The first disk, with what lies below the base, is to the directory what the second one, with the
entries of the store, is to the key-value store. Both began as the disk `w`. -/
structure Mirrors (base : String) (top : Loc) (family : String → Prop) (w d e : Disk) (m : Memory) :
    Prop where
  formed : d.Formed
  linkless : d.Linkless []
  based : d.Based (Route.ofText base.toList) top
  here : e.here = d.here
  start : d.here = w.here
  outside : ∀ loc, ¬ Within top loc → e.at? loc = d.at? loc
  bare : ∀ loc, Within top loc → e.at? loc = none
  /-- Nothing comes but below the base. -/
  origin : ∀ loc, ¬ Within top loc → d.at? loc = w.at? loc ∨ d.at? loc = none
  files : ∀ names bytes, (∃ executable, d.at? (under top names) = some (.file bytes executable)) ↔
    ∃ key, m.get? key = some bytes ∧ Key.names key = names
  keys : ∀ key, m.get? key ≠ none → family key
  dirs : ∀ names, names ≠ [] → d.at? (under top names) = some .dir →
    ∃ key, family key ∧ names <+: Key.names key ∧ names ≠ Key.names key

structure Ready (base : String) (top : Loc) (d : Disk) (key : String) (outer : List String)
    (n : String) : Prop where
  split : Key.names key = outer ++ [n]
  landing : d.Landing (Route.ofText base.toList) top (Directory.destination base key) outer n
  beside : d.Landing (Route.ofText base.toList) top
    (Directory.partialName (Directory.destination base key)) outer (Directory.partialName n)

namespace Mirrors

variable {base key path : String} {top own : Loc} {family : String → Prop} {w d e d₁ : Disk}
  {m : Memory} {outer : List String} {n : String} {value : ByteArray} {gone : Loc → Prop}

theorem within_onWay {loc : Loc} (on : OnWay top outer loc) : Within top loc := by
  obtain ⟨front, some, _, _, rfl⟩ := on
  exact ⟨front, some, rfl⟩

theorem within_names (key : String) : Within top (under top (Key.names key)) := by
  obtain ⟨outer, n, split⟩ := Key.names_split key
  exact ⟨_, by simp [split], rfl⟩

theorem names_ne_nil (key : String) : Key.names key ≠ [] := by
  obtain ⟨outer, n, split⟩ := Key.names_split key
  simp [split]

theorem at?_remove_when (move : Bool) (named : own ≠ []) (loc : Loc) :
    (if move then e.remove own else e).at? loc =
      if move = true ∧ loc = own then none else e.at? loc := by
  obtain ⟨n, dir, rfl⟩ := List.exists_cons_of_ne_nil named
  cases move with
  | false => simp
  | true =>
    by_cases same : loc = n :: dir
    · simp [same, at?_remove_self]
    · simp [same, at?_remove_of_ne e same]

section Entries

variable (mirrors : Mirrors base top family w d e m) (safe : Family base family) (known : family key)
include mirrors safe known

theorem free : d.at? (under top (Key.names key)) ≠ some .dir := by
  intro isDir
  obtain ⟨other, known', isFront, longer⟩ := mirrors.dirs _ (names_ne_nil key) isDir
  exact longer (congrArg Key.names (safe.apart key other known known' isFront))

theorem clear (split : Key.names key = outer ++ [n]) {loc : Loc} (on : OnWay top outer loc)
    (bytes : ByteArray) (executable : Bool) : d.at? loc ≠ some (.file bytes executable) := by
  obtain ⟨front, _, isFront, _, rfl⟩ := on
  intro file
  obtain ⟨other, stored, same⟩ := (mirrors.files front bytes).mp ⟨executable, file⟩
  have known' := mirrors.keys other (by rw [stored]; simp)
  have begins : Key.names other <+: Key.names key := by
    rw [same, split]
    exact isFront.trans (List.prefix_append _ _)
  have alike := safe.apart other key known' known begins
  have longer := isFront.length_le
  rw [← same, alike, split] at longer
  simp only [List.length_append, List.length_cons, List.length_nil] at longer
  omega

omit known in
theorem side_free (outer : List String) (n : String) :
    d.at? (under top (outer ++ [Directory.partialName n])) = none := by
  have ends : ".partial".toList <:+ (Directory.partialName n).toList := by
    rw [Directory.partialName, String.toList_append]
    exact List.suffix_append _ _
  cases entry : d.at? (under top (outer ++ [Directory.partialName n])) with
  | none => rfl
  | some found =>
    cases found with
    | dir =>
      obtain ⟨other, known', isFront, _⟩ := mirrors.dirs _ (by simp) entry
      exact absurd ends (safe.whole other known' _ (isFront.subset (by simp)))
    | file bytes executable =>
      obtain ⟨other, stored, same⟩ := (mirrors.files _ bytes).mp ⟨executable, entry⟩
      have known' := mirrors.keys other (by rw [stored]; simp)
      exact absurd ends (safe.whole other known' _ (by rw [same]; simp))
    | link target => exact absurd entry (mirrors.based.linkless _ target)

theorem opened (split : Key.names key = outer ++ [n]) (opens : d.Opens d₁ top outer) :
    Mirrors base top family w d₁ e m := by
  have kept : ∀ loc, ¬ Within top loc → d₁.at? loc = d.at? loc := fun loc off =>
    opens.others loc fun on => off (within_onWay on)
  refine ⟨opens.steady.formed mirrors.formed, opens.steady.linkless mirrors.linkless,
    opens.steady.based mirrors.based, mirrors.here.trans opens.steady.here.symm,
    opens.steady.here.trans mirrors.start, fun loc off => ?_, mirrors.bare, fun loc off => ?_,
    fun names bytes => ?_, mirrors.keys, fun names some isDir => ?_⟩
  · rw [kept loc off]
    exact mirrors.outside loc off
  · rw [kept loc off]
    exact mirrors.origin loc off
  · rw [← mirrors.files names bytes]
    by_cases on : OnWay top outer (under top names)
    · rw [opens.dirs _ on]
      refine iff_of_false (by simp) ?_
      rintro ⟨executable, file⟩
      exact mirrors.clear safe known split on bytes executable file
    · rw [opens.others _ on]
  · by_cases on : OnWay top outer (under top names)
    · obtain ⟨front, _, isFront, _, same⟩ := on
      obtain rfl := under_inj.mp same
      refine ⟨key, known, ?_, fun whole => ?_⟩
      · rw [split]
        exact isFront.trans (List.prefix_append _ _)
      · have longer := isFront.length_le
        rw [whole, split] at longer
        simp only [List.length_append, List.length_cons, List.length_nil] at longer
        omega
    · rw [opens.others _ on] at isDir
      exact mirrors.dirs names some isDir

theorem ready : ∃ parent d₁ outer n, Path.parent? (Directory.destination base key) = some parent ∧
    d.makeDirs parent = (d₁, .ok ()) ∧ Mirrors base top family w d₁ e m ∧
      Ready base top d₁ key outer n := by
  obtain ⟨outer, n, split⟩ := Key.names_split key
  have ordinary := safe.ordinary key known
  have passable := safe.passable key known
  obtain ⟨names, side⟩ := passable.names ordinary split
  obtain ⟨short, shortSide⟩ := passable.short_names split
  have free := mirrors.free safe known
  rw [split] at free
  have none := mirrors.side_free safe outer n
  have beside := Key.ordinary_partial ordinary
  have bare := beside.bare base
  rw [Directory.destination_partial] at bare
  obtain ⟨parent, d₁, parent?, made, opens⟩ := mirrors.based.makeDirs_around names
    (fun m member => short m (List.mem_append_left _ member))
    fun loc on => mirrors.clear safe known split on
  exact ⟨parent, d₁, outer, n, parent?, made, mirrors.opened safe known split opens, split,
    opens.landing mirrors.based names (ordinary.bare base) short free,
    opens.landing mirrors.based side bare shortSide (by rw [none]; simp)⟩

omit safe known in
theorem below_received {move : Bool} (receives : d.Receives d₁ (under top (Key.names key)) value gone)
    (away : ¬ Within top own)
    (narrow : ∀ loc, gone loc → move = true ∧ loc = own ∨ Within top loc ∧ d.at? loc = none)
    {names : List String} (other : names ≠ Key.names key) :
    d₁.at? (under top names) = d.at? (under top names) := by
  have off : under top names ≠ under top (Key.names key) := fun same => other (under_inj.mp same)
  by_cases some : names = []
  · rw [some, under, List.reverse_nil, List.nil_append, mirrors.based.isDir,
      (receives.swaps.steady.based mirrors.based).isDir]
  · by_cases went : gone (under top names)
    · rw [receives.left _ off went]
      rcases narrow _ went with ⟨_, same⟩ | ⟨_, none⟩
      · exact absurd ⟨names, some, same.symm⟩ away
      · exact none.symm
    · exact receives.others _ off went

omit safe known in
theorem files_received
    (there : ∃ executable, d₁.at? (under top (Key.names key)) = some (.file value executable))
    (below : ∀ names, names ≠ Key.names key → d₁.at? (under top names) = d.at? (under top names))
    (names : List String) (bytes : ByteArray) :
    (∃ executable, d₁.at? (under top names) = some (.file bytes executable)) ↔
      ∃ other, (m.insert key value).get? other = some bytes ∧ Key.names other = names := by
  obtain ⟨executable, there⟩ := there
  by_cases here : names = Key.names key
  · subst here
    rw [there]
    constructor
    · rintro ⟨_, same⟩
      cases same
      exact ⟨key, Memory.get?_insert_self .., rfl⟩
    · rintro ⟨other, stored, same⟩
      cases Key.names_inj same
      rw [Memory.get?_insert_self] at stored
      cases stored
      exact ⟨executable, rfl⟩
  · rw [below names here, mirrors.files names bytes]
    refine exists_congr fun other => and_congr_left fun same => ?_
    have differs : other ≠ key := by
      rintro rfl
      exact here same.symm
    rw [Memory.get?_insert_of_ne m value differs]

omit safe in
/-- A file comes to lie where a key leads, and the value is put under the key. The source may go from
both disks. -/
theorem received (move : Bool) (receives : d.Receives d₁ (under top (Key.names key)) value gone)
    (away : ¬ Within top own) (named : own ≠ []) (wide : move = true → gone own)
    (narrow : ∀ loc, gone loc → move = true ∧ loc = own ∨ Within top loc ∧ d.at? loc = none) :
    Mirrors base top family w d₁ (if move then e.remove own else e) (m.insert key value) := by
  have steady := receives.swaps.steady
  have apart : ∀ loc, ¬ Within top loc → loc ≠ under top (Key.names key) := by
    rintro loc off rfl
    exact off (within_names key)
  have below : ∀ names, names ≠ Key.names key → d₁.at? (under top names) = d.at? (under top names) :=
    fun names => mirrors.below_received receives away narrow
  refine ⟨steady.formed mirrors.formed, steady.linkless mirrors.linkless, steady.based mirrors.based,
    ?_, steady.here.trans mirrors.start, fun loc off => ?_, fun loc inside => ?_, fun loc off => ?_,
    mirrors.files_received receives.there below, fun other stored => ?_, fun names some isDir => ?_⟩
  · refine Eq.trans ?_ (mirrors.here.trans steady.here.symm)
    split <;> rfl
  · rw [at?_remove_when move named]
    -- outside the base nothing but the source may go, and it goes from both disks
    by_cases went : gone loc
    · rw [receives.left loc (apart loc off) went]
      exact if_pos ((narrow loc went).resolve_right fun inside => off inside.1)
    · have still : ¬ (move = true ∧ loc = own) := fun both => went (both.2 ▸ wide both.1)
      rw [receives.others loc (apart loc off) went, if_neg still]
      exact mirrors.outside loc off
  · have still : ¬ (move = true ∧ loc = own) := fun both => away (both.2 ▸ inside)
    rw [at?_remove_when move named, if_neg still]
    exact mirrors.bare loc inside
  · by_cases went : gone loc
    · exact .inr (receives.left loc (apart loc off) went)
    · rw [receives.others loc (apart loc off) went]
      exact mirrors.origin loc off
  · by_cases same : other = key
    · exact same ▸ known
    · rw [Memory.get?_insert_of_ne m value same] at stored
      exact mirrors.keys other stored
  · have other : names ≠ Key.names key := by
      rintro rfl
      obtain ⟨executable, there⟩ := receives.there
      rw [there] at isDir
      cases isDir
    rw [below names other] at isDir
    exact mirrors.dirs names some isDir

omit safe in
theorem finished (move : Bool) (receives : d.Receives d₁ (under top (Key.names key)) value gone)
    (away : ¬ Within top own) (named : own ≠ []) (leaf : IsLeaf (d₁.at? own))
    (clean : ∀ loc, gone loc → Within top loc ∧ d.at? loc = none) :
    Mirrors base top family w (if move then d₁.remove own else d₁)
      (if move then e.remove own else e) (m.insert key value) := by
  cases move with
  | false =>
    exact mirrors.received known false receives away named (by simp) fun loc went =>
      .inr (clean loc went)
  | true =>
    have off : own ≠ under top (Key.names key) := by
      rintro rfl
      exact away (within_names key)
    refine mirrors.received known true (receives.remove leaf named off) away named
      (fun _ => .inr rfl) ?_
    rintro loc (went | same)
    · exact .inr (clean loc went)
    · exact .inl ⟨rfl, same⟩

end Entries

section Sources

variable (mirrors : Mirrors base top family w d e m) (aside : w.Aside top path)
include mirrors

theorem linkless' : e.Linkless [] := by
  intro names target
  by_cases inside : Within top (names ++ [])
  · rw [mirrors.bare _ inside]
    simp
  · rw [mirrors.outside _ inside]
    exact mirrors.linkless names target

theorem lead_eq (path : String) : d.lead path = w.lead path ∧ e.lead path = w.lead path := by
  simp only [Disk.lead, Disk.start, mirrors.here, mirrors.start, and_self]

include aside

theorem aside_now : d.Aside top path := by
  unfold Aside Disk.start at aside ⊢
  rw [mirrors.start]
  exact aside

theorem locate_eq : e.locate .existing path = d.locate .existing path :=
  locate_aside mirrors.linkless mirrors.here mirrors.outside (mirrors.aside_now aside)

theorem source_cases (linkless : w.Linkless []) (file : w.isDir path = false) :
    (∃ bytes executable, w.read path = .ok bytes ∧ ¬ Within top (w.lead path) ∧
      d.locate .existing path = .ok (w.lead path, some (.file bytes executable))) ∨
    ∃ cause, d.locate .existing path = .error cause := by
  cases way : d.locate .existing path with
  | error cause => exact .inr ⟨cause, rfl⟩
  | ok spot =>
    obtain ⟨loc, found⟩ := spot
    have before := locate_of_missing linkless mirrors.start mirrors.origin aside way
    rcases found_cases mirrors.linkless way with rfl | ⟨bytes, executable, rfl⟩
    · simp only [isDir, status?, before] at file
      cases file
    · have read : w.read path = .ok bytes := by simp only [Disk.read, before]
      obtain ⟨own, source⟩ := source_of_locate before
      obtain ⟨named, _⟩ := source_of_read linkless read
      cases named.unique source
      exact .inl ⟨bytes, executable, read, aside _ List.prefix_rfl, rfl⟩

/-- A source as both disks have it. -/
structure Held (d e : Disk) (path : String) (own : Loc) (bytes : ByteArray) (executable : Bool) :
    Prop where
  source : d.Source path own own
  source' : e.Source path own own
  there : d.at? own = some (.file bytes executable)
  read : d.read path = .ok bytes ∧ e.read path = .ok bytes

theorem held {bytes : ByteArray} {executable : Bool} (found : d.locate .existing path =
    .ok (w.lead path, some (.file bytes executable))) :
    Held d e path (w.lead path) bytes executable := by
  have found' := (mirrors.locate_eq aside).trans found
  obtain ⟨first, second⟩ := mirrors.lead_eq path
  have read : d.read path = .ok bytes := by simp only [Disk.read, found]
  have read' : e.read path = .ok bytes := by simp only [Disk.read, found']
  have source := (source_of_read mirrors.linkless read).1
  have source' := (source_of_read mirrors.linkless' read').1
  rw [first] at source
  rw [second] at source'
  exact ⟨source, source',
    ((found_of_locate found).resolve_left fun no => by cases no).symm, read, read'⟩

end Sources

end Mirrors

end Spool
