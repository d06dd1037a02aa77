import Spool.Proofs.Disk.MakeDirs

/-!
Files below a base come and go: they are written, renamed beside their place, and removed.
-/

namespace Spool.Disk

variable {d e : Disk} {r : Route} {base : Loc} {path : String} {outer : List String} {n : String}

theorem inside?_eq_some {top loc names : Loc} (inside : inside? top loc = some names) :
    loc = names ++ top := by
  induction loc generalizing names with
  | nil =>
    simp only [inside?] at inside
    split at inside
    · next root =>
      cases inside
      rw [root, List.nil_append]
    · cases inside
  | cons name outer ih =>
    simp only [inside?] at inside
    split at inside
    · next same =>
      cases inside
      exact same
    · obtain ⟨rest, found, rfl⟩ := Option.map_eq_some_iff.mp inside
      rw [ih found, List.cons_append]

theorem inside?_append (names top : Loc) (some : top ≠ []) :
    inside? top (names ++ top) = .some names := by
  induction names with
  | nil =>
    cases top with
    | nil => exact absurd rfl some
    | cons n top => simp [inside?]
  | cons name names ih =>
    have other : name :: (names ++ top) ≠ top := by
      intro same
      have length := congrArg List.length same
      simp only [List.length_cons, List.length_append] at length
      omega
    simp only [List.cons_append, inside?, if_neg other, ih, Option.map_some]

theorem not_mem_of_at?_none {loc : Loc} (some : loc ≠ []) (none : d.at? loc = none) :
    ∀ entry, (loc, entry) ∉ d.entries := by
  intro entry member
  cases loc with
  | nil => exact some rfl
  | cons n dir =>
    have missing := List.lookup_eq_none_iff.mp (show d.entries.lookup (n :: dir) = .none from none)
    simpa using missing _ member

theorem lookup_map_key {f : Loc → Loc} {entries : List (Loc × Entry)} (loc : Loc) {goal : Loc}
    (only : ∀ l entry, (l, entry) ∈ entries → (f l = goal ↔ l = loc)) :
    (entries.map fun (l, entry) => (f l, entry)).lookup goal = entries.lookup loc := by
  induction entries with
  | nil => rfl
  | cons head entries ih =>
    obtain ⟨l, entry⟩ := head
    have here := only l entry List.mem_cons_self
    have rest := ih fun m other member => only m other (.tail _ member)
    simp only [List.map_cons, List.lookup_cons, rest]
    by_cases same : l = loc
    · have found := here.mpr same
      subst same
      simp [found]
    · have apart : goal ≠ f l := fun eq => same (here.mp eq.symm)
      have other : loc ≠ l := fun eq => same eq.symm
      simp [beq_eq_false_iff_ne.mpr apart, beq_eq_false_iff_ne.mpr other]

theorem moved_of_leaf {old : Loc} (new : Loc) (named : old ≠ [])
    (leaf : ∀ names, names ≠ [] → d.at? (names ++ old) = none) {l : Loc} {entry : Entry}
    (member : (l, entry) ∈ d.entries) : moved old new l = if l = old then new else l := by
  unfold moved
  by_cases same : l = old
  · have inside : inside? old l = some [] := same ▸ inside?_append [] old named
    rw [inside, if_pos same]
    rfl
  · rw [if_neg same]
    cases inside : inside? old l with
    | none => rfl
    | some names =>
      have below := inside?_eq_some inside
      have deeper : names ≠ [] := by
        rintro rfl
        exact same below
      refine absurd member (not_mem_of_at?_none ?_ (below ▸ leaf names deeper) entry)
      rw [below]
      simp [named]

theorem at?_relocate {old new : Loc} (named : old ≠ []) (apart : old ≠ new) (goal : new ≠ [])
    (leaf : ∀ names, names ≠ [] → d.at? (names ++ old) = none) (loc : Loc) :
    (d.relocate old new).at? loc =
      if loc = new then d.at? old else if loc = old then none else d.at? loc := by
  have moved_eq : ∀ l entry, (l, entry) ∈ d.entries →
      moved old new l = if l = old then new else l := fun _ _ => moved_of_leaf new named leaf
  have kept : ∀ l entry, (l, entry) ∈ d.entries.filter (·.1 != new) →
      (l, entry) ∈ d.entries ∧ l ≠ new := by
    intro l entry member
    simpa using List.mem_filter.mp member
  cases loc with
  | nil => simp [at?, Ne.symm named, Ne.symm goal]
  | cons n dir =>
    show ((d.entries.filter (·.1 != new)).map fun (l, entry) => (moved old new l, entry)).lookup
      (n :: dir) = _
    split
    · next here =>
      rw [lookup_map_key old, lookup_filter_ne apart]
      · cases old with
        | nil => exact absurd rfl named
        | cons _ _ => rfl
      · intro l entry member
        obtain ⟨known, other⟩ := kept l entry member
        rw [moved_eq l entry known, here]
        split
        · next same => exact iff_of_true rfl same
        · next differs => exact iff_of_false other differs
    · next away =>
      split
      · next here =>
        refine List.lookup_eq_none_iff.mpr ?_
        intro pair member
        obtain ⟨⟨l, entry⟩, known, rfl⟩ := List.mem_map.mp member
        dsimp only
        rw [moved_eq l entry (kept l entry known).1, here, bne_iff_ne]
        split
        · exact apart
        · next differs => exact Ne.symm differs
      · next still =>
        rw [lookup_map_key (n :: dir), lookup_filter_ne away]
        · rfl
        · intro l entry member
          rw [moved_eq l entry (kept l entry member).1]
          split
          · next same =>
            exact iff_of_false (fun eq => away eq.symm) fun eq => still (eq.symm.trans same)
          · exact Iff.rfl

/-- What lies neither below the one place nor below the other is not moved, and nothing comes there. -/
theorem at?_relocate_off {old new loc : Loc} (left : ¬ old <:+ loc) (off : ¬ new <:+ loc) :
    (d.relocate old new).at? loc = d.at? loc := by
  have moved_eq : ∀ l, moved old new l = loc ↔ l = loc := by
    intro l
    unfold moved
    cases inside : inside? old l with
    | none => exact Iff.rfl
    | some names =>
      have below := inside?_eq_some inside
      refine iff_of_false (fun same => off ⟨names, same⟩) fun same => left ⟨names, ?_⟩
      rw [← below, same]
  cases loc with
  | nil => rfl
  | cons n dir =>
    have apart : n :: dir ≠ new := fun same => off (same ▸ List.suffix_rfl)
    exact (lookup_map_key (n :: dir) fun l _ _ => moved_eq l).trans (lookup_filter_ne apart)

/-- Neither a directory nor a link. -/
def IsLeaf (found : Option Entry) : Prop :=
  found ≠ some .dir ∧ ∀ target, found ≠ some (.link target)

theorem isLeaf_none : IsLeaf none := ⟨by simp, by simp⟩

theorem isLeaf_file (bytes : ByteArray) (executable : Bool) :
    IsLeaf (some (.file bytes executable)) := ⟨by simp, by simp⟩

theorem IsLeaf.file_of_ne_none {found : Option Entry} (leaf : IsLeaf found) (some : found ≠ none) :
    ∃ bytes executable, found = .some (.file bytes executable) := by
  obtain ⟨entry, rfl⟩ := Option.ne_none_iff_exists'.mp some
  cases entry with
  | dir => exact absurd rfl leaf.1
  | link target => exact absurd rfl (leaf.2 target)
  | file bytes executable => exact ⟨bytes, executable, rfl⟩

/-- Files came and went, and new ones lie in directories. -/
structure Swaps (d e : Disk) : Prop where
  here : e.here = d.here
  leaves : ∀ loc, e.at? loc = d.at? loc ∨ IsLeaf (d.at? loc) ∧ IsLeaf (e.at? loc)
  parents : ∀ n dir, d.at? (n :: dir) = none → e.at? (n :: dir) ≠ none → d.at? dir = some .dir

namespace Swaps

theorem refl (d : Disk) : d.Swaps d :=
  ⟨rfl, fun _ => .inl rfl, fun _ _ none there => absurd none there⟩

theorem isDir (swaps : d.Swaps e) {loc : Loc} : e.at? loc = some .dir ↔ d.at? loc = some .dir := by
  rcases swaps.leaves loc with same | ⟨before, after⟩
  · rw [same]
  · exact iff_of_false after.1 before.1

theorem trans {f : Disk} (first : d.Swaps e) (second : e.Swaps f) : d.Swaps f := by
  refine ⟨second.here.trans first.here, fun loc => ?_, fun n dir none there => ?_⟩
  · rcases first.leaves loc with same | ⟨before, between⟩
    · rw [← same]
      exact second.leaves loc
    · rcases second.leaves loc with same | ⟨_, after⟩
      · exact .inr ⟨before, same ▸ between⟩
      · exact .inr ⟨before, after⟩
  · by_cases between : e.at? (n :: dir) = .none
    · exact first.isDir.mp (second.parents n dir between there)
    · exact first.parents n dir none between

theorem steady (swaps : d.Swaps e) : d.Steady e := by
  refine ⟨swaps.here, fun loc there => swaps.isDir.mpr there, fun loc target => ?_,
    fun n dir none there => swaps.isDir.mpr (swaps.parents n dir none there)⟩
  rcases swaps.leaves loc with same | ⟨before, after⟩
  · rw [same]
  · exact iff_of_false (after.2 target) (before.2 target)

theorem descend (swaps : d.Swaps e) {names : List String}
    (through : d.descend base names = .ok (under base names)) :
    e.descend base names = .ok (under base names) :=
  descend_of_onWay (short_of_descend through) fun _ onWay =>
    swaps.isDir.mpr (isDir_of_onWay through onWay)

end Swaps

theorem swaps_put {loc dir : Loc} (bytes : ByteArray) (executable : Bool) (split : loc = n :: dir)
    (inside : d.at? dir = some .dir) (leaf : IsLeaf (d.at? loc)) :
    d.Swaps (d.put loc (.file bytes executable)) := by
  subst split
  refine ⟨rfl, fun other => ?_, fun m other none there => ?_⟩
  · by_cases same : other = n :: dir
    · rw [same, at?_put_self]
      exact .inr ⟨leaf, isLeaf_file _ _⟩
    · exact .inl (at?_put_of_ne d _ same)
  · by_cases same : m :: other = n :: dir
    · cases same
      exact inside
    · rw [at?_put_of_ne d _ same] at there
      exact absurd none there

theorem swaps_remove {dir : Loc} (leaf : IsLeaf (d.at? (n :: dir))) :
    d.Swaps (d.remove (n :: dir)) := by
  refine ⟨rfl, fun other => ?_, fun m other none there => ?_⟩
  · by_cases same : other = n :: dir
    · rw [same, at?_remove_self]
      exact .inr ⟨leaf, isLeaf_none⟩
    · exact .inl (at?_remove_of_ne d same)
  · by_cases same : m :: other = n :: dir
    · rw [same, at?_remove_self] at there
      exact absurd rfl there
    · rw [at?_remove_of_ne d same] at there
      exact absurd none there

/-- What is moved and is no directory is not where relative paths begin, nor around it. -/
theorem here_relocate {old : Loc} (home : d.at? d.here = some .dir) (other : d.at? old ≠ some .dir)
    (below : ∀ names, names ≠ [] → d.at? (names ++ old) = none) (new : Loc) :
    (d.relocate old new).here = d.here := by
  unfold relocate moved
  cases found : inside? old d.here with
  | none => rfl
  | some names =>
    rw [inside?_eq_some found] at home
    by_cases top : names = []
    · rw [top, List.nil_append] at home
      exact absurd home other
    · rw [below names top] at home
      cases home

theorem swaps_relocate {old dir : Loc} {bytes : ByteArray} {executable : Bool}
    (home : d.at? d.here = some .dir) (inside : d.at? dir = some .dir) (named : old ≠ [])
    (apart : old ≠ n :: dir) (file : d.at? old = some (.file bytes executable))
    (leaf : IsLeaf (d.at? (n :: dir))) (below : ∀ names, names ≠ [] → d.at? (names ++ old) = none) :
    d.Swaps (d.relocate old (n :: dir)) := by
  have entries := at?_relocate named apart (List.cons_ne_nil n dir) below
  refine ⟨here_relocate home (by rw [file]; simp) below _, fun other => ?_,
    fun k other none there => ?_⟩
  · rw [entries]
    split
    · next goal =>
      rw [goal, file]
      exact .inr ⟨leaf, isLeaf_file _ _⟩
    · split
      · next origin =>
        rw [origin, file]
        exact .inr ⟨isLeaf_file _ _, isLeaf_none⟩
      · exact .inl rfl
  · rw [entries] at there
    split at there
    · next goal =>
      cases goal
      exact inside
    · split at there
      · exact absurd rfl there
      · exact absurd none there

theorem put_put (d : Disk) (loc : Loc) (first second : Entry) :
    (d.put loc first).put loc second = d.put loc second := by
  have twice : ((loc, first) :: d.entries.filter (·.1 != loc)).filter (·.1 != loc) =
      d.entries.filter (·.1 != loc) := by
    simp [List.filter_filter]
  simp only [put, twice]

/-- A file has come to lie at a location, those at others have gone, and all else is as it was. -/
structure Receives (d e : Disk) (goal : Loc) (bytes : ByteArray) (gone : Loc → Prop) : Prop where
  swaps : d.Swaps e
  there : ∃ executable, e.at? goal = some (.file bytes executable)
  left : ∀ loc, loc ≠ goal → gone loc → e.at? loc = none
  others : ∀ loc, loc ≠ goal → ¬ gone loc → e.at? loc = d.at? loc

theorem receives_put {goal : Loc} (split : ∃ dir, goal = n :: dir ∧ d.at? dir = some .dir)
    (leaf : IsLeaf (d.at? goal)) (bytes : ByteArray) (executable : Bool) :
    d.Receives (d.put goal (.file bytes executable)) goal bytes fun _ => False := by
  obtain ⟨dir, rfl, inside⟩ := split
  exact ⟨swaps_put bytes executable rfl inside leaf, ⟨executable, at?_put_self d _⟩,
    fun _ _ no => no.elim, fun _ other _ => at?_put_of_ne d _ other⟩

namespace Receives

variable {goal mid : Loc} {gone' : Loc → Prop} {first : ByteArray}

theorem congr (receives : d.Receives e goal bytes gone) (same : ∀ loc, gone' loc ↔ gone loc) :
    d.Receives e goal bytes gone' :=
  ⟨receives.swaps, receives.there, fun loc other here => receives.left loc other ((same loc).mp here),
    fun loc other still => receives.others loc other fun here => still ((same loc).mpr here)⟩

theorem trans (before : d.Receives e mid first gone) (after : e.Receives f goal bytes gone')
    (covered : mid = goal ∨ gone' mid) :
    d.Receives f goal bytes fun loc => gone loc ∨ gone' loc := by
  have ne_mid : ∀ loc, loc ≠ goal → ¬ gone' loc → loc ≠ mid := by
    rintro loc other still rfl
    exact covered.elim other still
  refine ⟨before.swaps.trans after.swaps, after.there, fun loc other here => ?_,
    fun loc other still => ?_⟩
  · by_cases later : gone' loc
    · exact after.left loc other later
    · rw [after.others loc other later]
      exact before.left loc (ne_mid loc other later) (here.resolve_right later)
  · have later : ¬ gone' loc := fun here => still (.inr here)
    rw [after.others loc other later]
    exact before.others loc (ne_mid loc other later) fun here => still (.inl here)

end Receives

theorem write_unread {cause : IoError} (unread : Route.read path = .error cause)
    (bytes : ByteArray) : d.write path bytes = (d, .error cause) := by
  simp only [write, Disk.target, locate, unread]

theorem unlink_unread {cause : IoError} (unread : Route.read path = .error cause) :
    d.unlink path = (d, .error cause) := by
  simp only [unlink, place, unread]

namespace Based

theorem write_long (based : d.Based r base) (names : Names r path outer n)
    (through : d.descend base outer = .ok (under base outer))
    (bare : (Route.ofText path.toList).slash = false) (long : Route.maxName < n.utf8ByteSize)
    (bytes : ByteArray) :
    d.write path bytes = (d, .error (.system Errno.nameTooLong)) := by
  obtain ⟨left, locate⟩ := based.locate_eq names through .creating
  simp only [write, Disk.target, locate, bare]
  rw [explore_eq]
  simp [exploreWith, long, report]

theorem write_eq (based : d.Based r base) (names : Names r path outer n)
    (through : d.descend base outer = .ok (under base outer))
    (bare : (Route.ofText path.toList).slash = false) (short : ¬ Route.maxName < n.utf8ByteSize)
    (bytes : ByteArray) : d.write path bytes =
      match d.at? (under base (outer ++ [n])) with
      | some .dir => (d, .error (.system Errno.isDirectory))
      | some (.file _ executable) =>
        (d.put (under base (outer ++ [n])) (.file bytes executable), .ok ())
      | _ => (d.put (under base (outer ++ [n])) (.file bytes false), .ok ()) := by
  obtain ⟨left, locate⟩ := based.locate_eq names through .creating
  have linkless := based.linkless (n :: outer.reverse)
  change ∀ target, d.at? (n :: under base outer) ≠ _ at linkless
  rw [under_concat]
  simp only [write, Disk.target, locate, bare]
  rw [explore_eq]
  cases entry : d.at? (n :: under base outer) with
  | none => simp [exploreWith, short, entry, report]
  | some old =>
    cases old with
    | dir => simp [exploreWith, short, entry, report]
    | file old executable => simp [exploreWith, short, entry, report]
    | link target => exact absurd entry (linkless target)

theorem write_file (based : d.Based r base) (names : Names r path outer n)
    (through : d.descend base outer = .ok (under base outer))
    (bare : (Route.ofText path.toList).slash = false) (short : ¬ Route.maxName < n.utf8ByteSize)
    (free : d.at? (under base (outer ++ [n])) ≠ some .dir)
    (still : ∀ bytes executable, d.at? (under base (outer ++ [n])) = some (.file bytes executable) →
      executable = false) (bytes : ByteArray) :
    d.write path bytes = (d.put (under base (outer ++ [n])) (.file bytes false), .ok ()) := by
  rw [write_eq based names through bare short]
  split
  · next dir => exact absurd dir free
  · next old executable file => rw [still old executable file]
  · rfl

theorem unlink_long (based : d.Based r base) (names : Names r path outer n)
    (through : d.descend base outer = .ok (under base outer))
    (long : Route.maxName < n.utf8ByteSize) :
    d.unlink path = (d, .error (.system Errno.nameTooLong)) := by
  unfold unlink
  rw [based.place_eq names, through]
  simp only [checkName, long, if_true]

theorem not_inside (n : String) (dir : Loc) : inside? (n :: dir) dir = none := by
  cases inside : inside? (n :: dir) dir with
  | none => rfl
  | some names =>
    have length := congrArg List.length (inside?_eq_some inside)
    simp only [List.length_append, List.length_cons] at length
    omega

theorem passable_of_read {route : Route} (read : Route.read path = .ok route) :
    Route.isUnpassable path = false := by
  unfold Route.read at read
  split at read
  · cases read
  · next passable => simpa using passable

variable {old new : String} {m : String}

theorem renameFault_file (d : Disk) (apart : m ≠ n) (dir : Loc) (bytes : ByteArray)
    (executable : Bool) (there : Option Entry) :
    d.renameFault (m :: dir) (n :: dir) false (.file bytes executable) there =
      match there with
      | some .dir => some Errno.isDirectory
      | _ => none := by
  have differ : ¬ m :: dir = n :: dir := fun same => apart (List.cons.inj same).1
  simp only [renameFault, Entry.isDir, Bool.not_false, Bool.and_false, Bool.false_eq_true,
    if_false, List.tail_cons, not_inside, Option.isSome_none, differ, if_true]
  cases there with
  | none => rfl
  | some found => cases found <;> rfl

section Rename

variable (based : d.Based r base) (source : Names r old outer m) (goal : Names r new outer n)
  (through : d.descend base outer = .ok (under base outer))
include based source goal through

theorem rename_missing (short : ¬ Route.maxName < m.utf8ByteSize)
    (missing : d.at? (under base (outer ++ [m])) = none) :
    d.rename old new = (d, .error (.system Errno.noEntry)) := by
  rw [under_concat] at missing
  unfold rename passage
  rw [passable_of_read source.read, passable_of_read goal.read, based.place_eq source,
    based.place_eq goal, through]
  simp only [Bool.or_self, Bool.false_eq_true, if_false, checkName, short, missing]

variable (bare : (Route.ofText old.toList).slash = false ∧ (Route.ofText new.toList).slash = false)
  (short : ¬ Route.maxName < m.utf8ByteSize ∧ ¬ Route.maxName < n.utf8ByteSize) (apart : m ≠ n)
  {bytes : ByteArray} {executable : Bool}
  (there : d.at? (under base (outer ++ [m])) = some (.file bytes executable))
include bare short apart there

theorem rename_eq : d.rename old new =
    match d.at? (under base (outer ++ [n])) with
    | some .dir => (d, .error (.system Errno.isDirectory))
    | _ => (d.relocate (under base (outer ++ [m])) (under base (outer ++ [n])), .ok ()) := by
  have linkless := based.linkless (n :: outer.reverse)
  change ∀ target, d.at? (n :: under base outer) ≠ _ at linkless
  rw [under_concat] at there ⊢
  rw [under_concat]
  unfold rename passage
  rw [passable_of_read source.read, passable_of_read goal.read, based.place_eq source,
    based.place_eq goal, through]
  simp only [Bool.or_self, Bool.false_eq_true, if_false, checkName, short, bare, there,
    renameFault_file d apart]
  cases entry : d.at? (n :: under base outer) with
  | none => simp [apart]
  | some found =>
    cases found with
    | dir => rfl
    | file _ _ => simp [apart]
    | link target => exact absurd entry (linkless target)

theorem rename_barred (barred : d.at? (under base (outer ++ [n])) = some .dir) :
    d.rename old new = (d, .error (.system Errno.isDirectory)) := by
  rw [rename_eq based source goal through bare short apart there, barred]

theorem rename_file (free : d.at? (under base (outer ++ [n])) ≠ some .dir) : d.rename old new =
    (d.relocate (under base (outer ++ [m])) (under base (outer ++ [n])), .ok ()) := by
  rw [rename_eq based source goal through bare short apart there]
  split
  · next barred => exact absurd barred free
  · rfl

end Rename

theorem unlink_file {bytes : ByteArray} {executable : Bool} (based : d.Based r base)
    (names : Names r path outer n) (through : d.descend base outer = .ok (under base outer))
    (bare : (Route.ofText path.toList).slash = false) (short : ¬ Route.maxName < n.utf8ByteSize)
    (there : d.at? (under base (outer ++ [n])) = some (.file bytes executable)) :
    d.unlink path = (d.remove (under base (outer ++ [n])), .ok ()) := by
  rw [under_concat] at there ⊢
  unfold unlink
  rw [based.place_eq names, through]
  simp only [checkName, short, if_false, bare, there, Bool.false_eq_true]

theorem relocate_eq (based : d.Based r base) (home : d.at? d.here = some .dir)
    (through : d.descend base outer = .ok (under base outer)) (inside : outer ≠ []) (apart : m ≠ n)
    {bytes : ByteArray} {executable : Bool}
    (file : d.at? (under base (outer ++ [m])) = some (.file bytes executable))
    (free : d.at? (under base (outer ++ [n])) ≠ some .dir) :
    d.Swaps (d.relocate (under base (outer ++ [m])) (under base (outer ++ [n]))) ∧
      ∀ loc, (d.relocate (under base (outer ++ [m])) (under base (outer ++ [n]))).at? loc =
        if loc = under base (outer ++ [n]) then some (.file bytes executable)
        else if loc = under base (outer ++ [m]) then none else d.at? loc := by
  have below : ∀ names, names ≠ [] → d.at? (names ++ under base (outer ++ [m])) = none := by
    intro names given
    have none := based.none_below (outer ++ [m])
      (fun empty => given (List.reverse_eq_nil_iff.mp empty)) (by rw [file]; simp)
    rw [under_append, under, List.reverse_reverse] at none
    exact none
  have leaf : IsLeaf (d.at? (under base (outer ++ [n]))) :=
    ⟨free, based.linkless (outer ++ [n]).reverse⟩
  have dir : d.at? (under base outer) = some .dir :=
    isDir_of_onWay through ⟨outer, inside, List.prefix_rfl, short_of_descend through, rfl⟩
  simp only [under_concat] at file below leaf ⊢
  have differ : m :: under base outer ≠ n :: under base outer := fun same =>
    apart (List.cons.inj same).1
  refine ⟨swaps_relocate home dir (List.cons_ne_nil _ _) differ file leaf below, fun loc => ?_⟩
  rw [at?_relocate (List.cons_ne_nil _ _) differ (List.cons_ne_nil _ _) below, file]

theorem through_of_there (based : d.Based r base) (short : Short outer)
    (there : d.at? (under base (outer ++ [n])) ≠ none) :
    d.descend base outer = .ok (under base outer) := by
  refine descend_of_onWay short fun loc ⟨front, _, ⟨back, split⟩, _, same⟩ => ?_
  subst same split
  refine Classical.byContradiction fun other => there ?_
  rw [List.append_assoc]
  exact based.none_below front (by simp) other

theorem locate_file (based : d.Based r base) (names : Names r path outer n)
    (through : d.descend base outer = .ok (under base outer))
    (bare : (Route.ofText path.toList).slash = false) (short : ¬ Route.maxName < n.utf8ByteSize)
    {bytes : ByteArray} {executable : Bool}
    (there : d.at? (under base (outer ++ [n])) = some (.file bytes executable)) :
    d.locate .existing path =
      .ok (under base (outer ++ [n]), some (.file bytes executable)) := by
  obtain ⟨left, locate⟩ := based.locate_eq names through .existing
  rw [under_concat] at there ⊢
  rw [locate, bare, explore_file short there]
  rfl

theorem read_file (based : d.Based r base) (names : Names r path outer n)
    (bare : (Route.ofText path.toList).slash = false) (short : Short (outer ++ [n]))
    {bytes : ByteArray} {executable : Bool}
    (there : d.at? (under base (outer ++ [n])) = some (.file bytes executable)) :
    d.read path = .ok bytes := by
  have through := based.through_of_there
    (fun m member => short m (List.mem_append_left _ member)) (by rw [there]; simp)
  have fits := short n (List.mem_append_right _ List.mem_cons_self)
  simp only [Disk.read, based.locate_file names through bare (Nat.not_lt_of_le fits) there]

theorem exists?_of_missing (based : d.Based r base) (names : Names r path outer n)
    (through : d.descend base outer = .ok (under base outer))
    (missing : d.at? (under base (outer ++ [n])) = none) : d.exists? path = false := by
  obtain ⟨left, locate⟩ := based.locate_eq names through .existing
  rw [under_concat] at missing
  simp only [exists?, status?, locate]
  rw [explore_eq, exploreWith_name, missing]
  by_cases long : Route.maxName < n.utf8ByteSize
  · rw [if_pos long]
    rfl
  · rw [if_neg long]
    rfl

end Based

end Spool.Disk
