import Spool.Proofs.Disk.Prepared

/-!
How a file gets to a place below a base: it is copied there or renamed. A call that fails leaves the
disk as it was, and one that succeeds brings the file, whatever was there before.
-/

namespace Spool.Disk

variable {d e : Disk} {r : Route} {base origin : Loc} {path source : String} {outer : List String}
  {n : String} {bytes : ByteArray} {executable : Bool}

theorem Formed.none_below (formed : d.Formed) {loc names : Loc} (more : names ≠ [])
    (other : d.at? loc ≠ some .dir) : d.at? (names ++ loc) = none := by
  induction names with
  | nil => exact absurd rfl more
  | cons m names ih =>
    refine Classical.byContradiction fun there => ?_
    have inside := formed.rooted m (names ++ loc) there
    by_cases last : names = []
    · subst last
      exact other inside
    · rw [ih last] at inside
      cases inside

/-- A file can be put where the path leads. -/
structure Landing (d : Disk) (r : Route) (base : Loc) (path : String) (outer : List String)
    (n : String) : Prop where
  names : Names r path outer n
  through : d.descend base outer = .ok (under base outer)
  bare : (Route.ofText path.toList).slash = false
  short : ¬ Route.maxName < n.utf8ByteSize
  leaf : IsLeaf (d.at? (under base (outer ++ [n])))

theorem Landing.inside (landing : d.Landing r base path outer n) (based : d.Based r base) :
    d.at? (under base outer) = some .dir := by
  by_cases none : outer = []
  · subst none
    exact based.isDir
  · exact isDir_of_onWay landing.through
      ⟨outer, none, List.prefix_rfl, short_of_descend landing.through, rfl⟩

theorem Landing.found (landing : d.Landing r base path outer n) (based : d.Based r base)
    (swaps : d.Swaps e) (there : e.at? (under base (outer ++ [n])) = some (.file bytes executable)) :
    e.locate .existing path = .ok (under base (outer ++ [n]), some (.file bytes executable)) :=
  (swaps.steady.based based).locate_file landing.names (swaps.descend landing.through) landing.bare
    landing.short there

/-- The file is where the path leads. What it was put in place of, and its origin, are all that may
have changed. -/
structure Arrives (d e : Disk) (path : String) (origin goal : Loc) (bytes : ByteArray) : Prop where
  spares : d.Spares e fun loc => loc = goal ∨ loc = origin
  found : ∃ executable, e.locate .existing path = .ok (goal, some (.file bytes executable))

theorem copy_failed {cause : IoError} (copied : d.copy source path = (e, .error cause)) :
    e = d := by
  unfold copy at copied
  split at copied
  · cases copied
    rfl
  · split at copied
    · cases copied
      rfl
    · dsimp only at copied
      split at copied <;> cases copied
  · cases copied
    rfl

theorem write_failed {cause : IoError} (written : d.write path bytes = (e, .error cause)) : e = d := by
  unfold write at written
  split at written <;> cases written
  rfl

namespace Based

theorem descend_of_explore (based : d.Based r base) (leads : Route.Leads r path.toList outer n)
    {aim : Aim} {slash : Bool} {spot : Spot}
    (way : d.explore aim Route.maxLinks (d.start (Route.ofText path.toList)) slash
      (Route.ofText path.toList).steps = .ok spot) :
    d.descend base outer = .ok (under base outer) := by
  obtain ⟨mid, steps, spells⟩ := leads.steps
  rw [steps] at way
  obtain ⟨dir, cut⟩ := explore_cut (List.cons_ne_nil _ _) way
  have same := based.explore_outer spells
  rw [← start_eq leads.absolute, cut] at same
  cases through : d.descend base outer with
  | error errno => rw [through] at same; cases same
  | ok loc => rw [descend_eq_ok through]

theorem landing_of_creating (based : d.Based r base)
    (leads : Route.Leads r path.toList outer n) {loc : Loc} {found : Option Entry}
    (way : d.locate .creating path = .ok (loc, found)) :
    loc = under base (outer ++ [n]) ∧ d.Landing r base path outer n := by
  obtain ⟨r, read, explored⟩ := way_of_locate way
  cases read_eq_ofText read
  have bare := explored.bare
  have through := based.descend_of_explore leads explored.explore
  obtain ⟨left, locate⟩ := based.locate_eq ⟨leads, read⟩ through .creating
  rw [locate, bare] at way
  cases ends : d.explore .creating left (under base outer) false [.name n] with
  | error errno => rw [ends] at way; cases way
  | ok spot =>
    rw [ends] at way
    cases way
    rw [under_concat]
    have lands : ¬ Route.maxName < n.utf8ByteSize → IsLeaf (d.at? (n :: under base outer)) →
        d.Landing r base path outer n := fun short leaf =>
      ⟨⟨leads, read⟩, through, bare, short, by rwa [under_concat]⟩
    cases way_of_explore ends with
    | dir _ _ last => cases last with | here existing => cases existing
    | file short entry => exact ⟨rfl, lands short (entry ▸ isLeaf_file ..)⟩
    | free _ short entry => exact ⟨rfl, lands short (entry ▸ isLeaf_none)⟩
    | link _ entry _ _ => exact absurd entry (based.linkless (n :: outer.reverse) _)

section Outside

variable (based : d.Based r base) (leads : Route.Leads r path.toList outer n)
  (from' : d.Source source origin origin) (there : d.at? origin = some (.file bytes executable))
  (away : origin ≠ under base (outer ++ [n]))
include based leads from' there away

theorem copy_arrives (copied : d.copy source path = (e, .ok ())) :
    d.Arrives e path origin (under base (outer ++ [n])) bytes ∧
      d.Spares e (· = under base (outer ++ [n])) := by
  obtain ⟨_, _, found⟩ := from'.file
  have same := (found_of_locate found).resolve_left fun impossible => by cases impossible
  rw [there] at same
  cases same
  unfold copy target at copied
  rw [found] at copied
  dsimp only at copied
  cases way : d.locate .creating path with
  | error cause => rw [way] at copied; cases copied
  | ok spot =>
    obtain ⟨loc, old⟩ := spot
    obtain ⟨rfl, landing⟩ := based.landing_of_creating leads way
    have opened : (d.put (under base (outer ++ [n])) (.file .empty executable)).at? origin =
        some (.file bytes executable) := (at?_put_of_ne d _ away).trans there
    have made : e = d.put (under base (outer ++ [n])) (.file bytes executable) := by
      rw [way] at copied
      cases old with
      | none => simp only [opened, put_put] at copied; cases copied; rfl
      | some entry => cases entry <;> simp only [opened, put_put] at copied <;> cases copied <;> rfl
    obtain ⟨swaps, -, -, others⟩ := receives_put ⟨_, under_concat base outer n, landing.inside based⟩
      landing.leaf bytes executable
    have spares : d.Spares e (· = under base (outer ++ [n])) :=
      .of_swaps (made ▸ swaps) fun loc off => made ▸ others loc off not_false
    have arrived : e.at? (under base (outer ++ [n])) = some (.file bytes executable) := by
      rw [made, under_concat, at?_put_self]
    exact ⟨⟨spares.mono fun _ => .inl, executable, landing.found based (made ▸ swaps) arrived⟩, spares⟩

end Outside

end Based

/-- What is renamed was there, and nothing forbids it. -/
structure Renamed (d : Disk) (old new : String) (origin goal : Place) (m n : String) (entry : Entry) :
    Prop where
  found : d.place old = .ok origin
  aimed : d.place new = .ok goal
  oldName : origin.name = some m
  newName : goal.name = some n
  fits : ¬ Route.maxName < m.utf8ByteSize
  short : ¬ Route.maxName < n.utf8ByteSize
  there : d.at? (m :: origin.dir) = some entry
  allowed : d.renameFault (m :: origin.dir) (n :: goal.dir) (origin.slash || goal.slash) entry
    (d.at? (n :: goal.dir)) = none

theorem not_long_of_checkName (named : checkName n = .ok ()) : ¬ Route.maxName < n.utf8ByteSize := by
  intro long
  rw [checkName, if_pos long] at named
  cases named

theorem passage_cases (d : Disk) (old new : String) :
    (∃ cause, d.passage old new = .error cause) ∨
      ∃ origin goal m n entry, d.Renamed old new origin goal m n entry ∧
        d.passage old new = .ok (m :: origin.dir, n :: goal.dir) := by
  unfold passage
  split
  · exact .inl ⟨_, rfl⟩
  · split
    · exact .inl ⟨_, rfl⟩
    · exact .inl ⟨_, rfl⟩
    · next origin goal found aimed =>
      split
      · next m n oldName newName =>
        split
        · exact .inl ⟨_, rfl⟩
        · next named =>
          split
          · exact .inl ⟨_, rfl⟩
          · exact .inl ⟨_, rfl⟩
          · next _ entry there fits =>
            dsimp only
            split
            · exact .inl ⟨_, rfl⟩
            · next allowed =>
              exact .inr ⟨origin, goal, m, n, entry,
                ⟨found, aimed, oldName, newName, not_long_of_checkName named,
                  not_long_of_checkName fits, there, allowed⟩, rfl⟩
      · exact .inl ⟨_, rfl⟩

theorem rename_of_passage {old new : String} {origin goal : Loc}
    (passes : d.passage old new = .ok (origin, goal)) :
    d.rename old new = (if origin = goal then d else d.relocate origin goal, .ok ()) := by
  simp only [rename, passes]
  split <;> rfl

theorem rename_cases (d : Disk) (old new : String) :
    (∃ cause, d.rename old new = (d, .error cause)) ∨
      ∃ origin goal m n entry, d.Renamed old new origin goal m n entry ∧
        d.rename old new = (if m :: origin.dir = n :: goal.dir then d
          else d.relocate (m :: origin.dir) (n :: goal.dir), .ok ()) := by
  rcases passage_cases d old new with ⟨cause, refused⟩ | ⟨origin, goal, m, n, entry, renamed, passes⟩
  · exact .inl ⟨cause, by simp only [rename, refused]⟩
  · exact .inr ⟨origin, goal, m, n, entry, renamed, rename_of_passage passes⟩

theorem passable_of_place {place : Place} (there : d.place path = .ok place) :
    Route.isUnpassable path = false :=
  Based.passable_of_read (read_of_place there)

theorem Renamed.eq {old new m : String} {origin goal : Place} {entry : Entry}
    (renamed : d.Renamed old new origin goal m n entry) : d.rename old new =
      (if m :: origin.dir = n :: goal.dir then d
        else d.relocate (m :: origin.dir) (n :: goal.dir), .ok ()) := by
  refine rename_of_passage ?_
  unfold passage
  rw [passable_of_place renamed.found, passable_of_place renamed.aimed, renamed.found, renamed.aimed]
  simp only [Bool.or_self, Bool.false_eq_true, if_false, renamed.oldName, renamed.newName, checkName,
    renamed.fits, renamed.short, renamed.there, renamed.allowed]

theorem Formed.renameFault_eq_none (formed : d.Formed) {m : String} {old new : Loc} {entry : Entry}
    (there : d.at? (m :: old) = some entry) (other : entry ≠ .dir) (inside : d.at? new = some .dir)
    (free : d.at? (n :: new) ≠ some .dir) :
    d.renameFault (m :: old) (n :: new) false entry (d.at? (n :: new)) = none := by
  -- what lies below a location shows that a directory is there
  have outside : ∀ {loc dir}, d.at? dir = some .dir → d.at? loc ≠ some .dir →
      inside? loc dir = none := by
    intro loc dir isDir leaf
    refine Option.eq_none_iff_forall_ne_some.mpr fun names within => ?_
    rw [inside?_eq_some within] at isDir
    by_cases top : names = []
    · rw [top, List.nil_append] at isDir
      exact leaf isDir
    · rw [formed.none_below top leaf] at isDir
      cases isDir
  have leaf : d.at? (m :: old) ≠ some .dir := fun isDir => other (Option.some.inj (there.symm.trans isDir))
  have around := formed.rooted m old (by rw [there]; simp)
  have isDir : entry.isDir = false := by
    cases entry with
    | dir => exact absurd rfl other
    | file _ _ | link _ => rfl
  simp only [renameFault, isDir, Bool.not_false, Bool.and_false, Bool.false_eq_true, if_false,
    List.tail_cons, outside inside leaf, outside around free, Option.isSome_none]
  split
  · rfl
  · split
    · rfl
    · next isDir => exact absurd isDir free
    · rfl

theorem rename_failed {old new : String} {cause : IoError}
    (renamed : d.rename old new = (e, .error cause)) : e = d := by
  rcases rename_cases d old new with ⟨_, none⟩ | ⟨_, _, _, _, _, _, made⟩
  · rw [none] at renamed
    cases renamed
    rfl
  · rw [made] at renamed
    cases renamed

theorem bare_of_allowed {old new : Loc} {slash : Bool} {there : Option Entry}
    (allowed : d.renameFault old new slash (.file bytes executable) there = none) :
    slash = false := by
  unfold renameFault at allowed
  cases slash
  · rfl
  · cases allowed

theorem file_of_allowed {old new : Loc} {slash : Bool} {there : Option Entry} (apart : old ≠ new)
    (allowed : d.renameFault old new slash (.file bytes executable) there = none) :
    slash = false ∧ there ≠ some .dir := by
  simp only [renameFault, Entry.isDir, Bool.not_false, Bool.true_and, if_neg apart] at allowed
  split at allowed
  · cases allowed
  · next bare =>
    refine ⟨Bool.eq_false_iff.mpr bare, ?_⟩
    rintro rfl
    split at allowed
    · cases allowed
    · split at allowed <;> cases allowed

theorem Renamed.ne_link {old new m : String} {origin goal : Place} {entry : Entry}
    (renamed : d.Renamed old new origin goal m n entry) (slash : goal.slash = true) (target : String) :
    d.at? (n :: goal.dir) ≠ some (.link target) := by
  intro link
  have allowed := renamed.allowed
  rw [link, slash, Bool.or_true] at allowed
  cases entry with
  | file bytes executable | link other => cases allowed
  | dir =>
    have apart : m :: origin.dir ≠ n :: goal.dir := by
      intro same
      have there := renamed.there
      rw [same, link] at there
      cases there
    simp only [renameFault, Entry.isDir, Bool.not_true, Bool.false_and, Bool.false_eq_true, if_false,
      if_neg apart, if_true] at allowed
    split at allowed
    · cases allowed
    · split at allowed <;> cases allowed

theorem Renamed.moved {old new m : String} {origin goal : Place} (formed : d.Formed)
    (renamed : d.Renamed old new origin goal m n (.file bytes executable))
    (plain : ∀ target, d.at? (n :: goal.dir) ≠ some (.link target)) :
    d.Receives (d.rename old new).1 (n :: goal.dir) bytes (· = m :: origin.dir) ∧
      (d.rename old new).1.at? (n :: goal.dir) = some (.file bytes executable) := by
  have there := renamed.there
  rw [renamed.eq]
  dsimp only
  split
  · next same =>
    have still : d.at? (n :: goal.dir) = some (.file bytes executable) := same ▸ there
    exact ⟨⟨.refl d, ⟨executable, still⟩, fun _ other gone => absurd (gone.trans same) other,
      fun _ _ _ => rfl⟩, still⟩
  · next apart =>
    have below : ∀ names, names ≠ [] → d.at? (names ++ m :: origin.dir) = none := fun names more =>
      formed.none_below more (by rw [there]; simp)
    have leaf : IsLeaf (d.at? (n :: goal.dir)) :=
      ⟨(file_of_allowed apart renamed.allowed).2, plain⟩
    have entries := at?_relocate (List.cons_ne_nil _ _) apart (List.cons_ne_nil _ _) below
    have arrived := (entries (n :: goal.dir)).trans ((if_pos rfl).trans there)
    refine ⟨⟨?_, ⟨executable, arrived⟩, fun loc other gone => ?_, fun loc other still => ?_⟩, arrived⟩
    · exact swaps_relocate formed.home (formed.isDir_of_place renamed.aimed) (List.cons_ne_nil _ _)
        apart there leaf below
    · rw [entries, if_neg other, if_pos gone]
    · rw [entries, if_neg other, if_neg still]

namespace Based

theorem place_cases (based : d.Based r base) (leads : Route.Leads r path.toList outer n)
    {place : Place} (there : d.place path = .ok place) : Names r path outer n ∧
      d.descend base outer = .ok (under base outer) ∧
        place = ⟨under base outer, some n, (Route.ofText path.toList).slash⟩ := by
  have names : Names r path outer n := ⟨leads, read_of_place there⟩
  have spells := based.place_eq names
  rw [there] at spells
  cases through : d.descend base outer with
  | error errno => rw [through] at spells; cases spells
  | ok loc =>
    have same := descend_eq_ok through
    subst same
    rw [through] at spells
    cases spells
    exact ⟨names, rfl, rfl⟩

theorem rename_arrives (based : d.Based r base) (formed : d.Formed)
    (leads : Route.Leads r path.toList outer n) (from' : d.Source source origin origin)
    (there : d.at? origin = some (.file bytes executable))
    (away : origin ≠ under base (outer ++ [n])) (renamed : d.rename source path = (e, .ok ())) :
    d.Arrives e path origin (under base (outer ++ [n])) bytes := by
  rcases rename_cases d source path with ⟨_, none⟩ | ⟨place, goal, m, k, entry, allowed, -⟩
  · rw [none] at renamed
    cases renamed
  obtain ⟨name, dir, found, rfl⟩ := from'.place
  cases allowed.found.symm.trans found
  cases allowed.oldName
  obtain ⟨names, through, rfl⟩ := based.place_cases leads allowed.aimed
  cases allowed.newName
  cases allowed.there.symm.trans there
  rw [under_concat] at away
  obtain ⟨bare, free⟩ := file_of_allowed away allowed.allowed
  rw [Bool.false_or] at bare
  have landing : d.Landing r base path outer n :=
    ⟨names, through, bare, allowed.short, by rw [under_concat]; exact free,
      based.linkless (outer ++ [n]).reverse⟩
  have leaf := landing.leaf
  rw [under_concat] at leaf
  obtain ⟨receives, arrived⟩ := allowed.moved formed leaf.2
  rw [renamed] at receives arrived
  dsimp only at receives arrived
  rw [under_concat]
  refine ⟨.of_swaps receives.swaps fun loc off => receives.others loc (fun here => off (.inl here))
    fun here => off (.inr here), executable, ?_⟩
  rw [← under_concat] at arrived
  have found := landing.found based receives.swaps arrived
  rwa [under_concat] at found

end Based

end Spool.Disk
