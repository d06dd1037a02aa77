import Spool.Proofs.Disk.Below

/-!
Making a directory with those around it. Every directory on the way is there afterwards, as far as
names may be looked up, and nothing else has changed; a file on the way keeps all from being made.
-/

namespace Spool.Disk

variable {d e : Disk} {r : Route} {base : Loc} {path : String} {outer : List String} {n : String}

/-- The location is on the way that names lead from the base, and names up to it can be looked up. -/
def OnWay (base : Loc) (names : List String) (loc : Loc) : Prop :=
  ∃ front, front ≠ [] ∧ front <+: names ∧ (∀ n ∈ front, n.utf8ByteSize ≤ Route.maxName) ∧
    loc = under base front

theorem OnWay.mono {names more : List String} {loc : Loc} (onWay : OnWay base names loc)
    (isFront : names <+: more) : OnWay base more loc := by
  obtain ⟨front, some, before, short, rfl⟩ := onWay
  exact ⟨front, some, before.trans isFront, short, rfl⟩

theorem onWay_concat {loc : Loc} : OnWay base (outer ++ [n]) loc ↔ OnWay base outer loc ∨
    loc = under base (outer ++ [n]) ∧ ∀ m ∈ outer ++ [n], m.utf8ByteSize ≤ Route.maxName := by
  constructor
  · rintro ⟨front, some, before, short, rfl⟩
    rcases List.prefix_concat_iff.mp before with rfl | shorter
    · exact .inr ⟨rfl, short⟩
    · exact .inl ⟨front, some, shorter, short, rfl⟩
  · rintro (onWay | ⟨rfl, short⟩)
    · exact onWay.mono (List.prefix_append _ _)
    · exact ⟨_, by simp, List.prefix_rfl, short, rfl⟩

theorem isDir_of_onWay {loc there : Loc} (through : d.descend base outer = .ok there)
    (onWay : OnWay base outer loc) : d.at? loc = some .dir := by
  obtain ⟨front, some, before, _, rfl⟩ := onWay
  obtain ⟨init, last, rfl⟩ := (List.eq_nil_or_concat front).resolve_left some
  rw [List.concat_eq_append] at before ⊢
  exact (isDir_of_descend through before).2.1

/-- All the names can be looked up. -/
def Short (names : List String) : Prop :=
  ∀ n ∈ names, n.utf8ByteSize ≤ Route.maxName

instance (names : List String) : Decidable (Short names) :=
  inferInstanceAs (Decidable (∀ n ∈ names, _))

/-- How making the directories that names lead through ends. -/
inductive Made (d : Disk) (base : Loc) (names : List String) : Disk × Reply Unit → Prop
  /-- A file is on the way. -/
  | barred {loc : Loc} {bytes : ByteArray} {executable : Bool} : OnWay base names loc →
      d.at? loc = some (.file bytes executable) →
      Made d base names (d, .error (.system
        (if loc = under base names then Errno.entryExists else Errno.notDirectory)))
  | made {e : Disk} :
      (∀ loc, OnWay base names loc → ∀ bytes executable, d.at? loc ≠ some (.file bytes executable)) →
      e.here = d.here →
      (∀ loc, OnWay base names loc → e.at? loc = some .dir) →
      (∀ loc, ¬ OnWay base names loc → e.at? loc = d.at? loc) →
      Made d base names (e, if Short names then .ok () else .error (.system Errno.nameTooLong))

theorem not_short_of_long {names : List String} (member : n ∈ names)
    (long : Route.maxName < n.utf8ByteSize) : ¬ Short names := fun short =>
  absurd (short n member) (Nat.not_le_of_lt long)

theorem made_of_there (names : List String)
    (there : ∀ loc, OnWay base names loc → d.at? loc = some .dir) : Made d base names
      (d, if Short names then .ok () else .error (.system Errno.nameTooLong)) := by
  refine .made (fun loc onWay bytes executable file => ?_) rfl there fun _ _ => rfl
  rw [there loc onWay] at file
  cases file

theorem Based.none_below (based : d.Based r base) (front : List String) {back : List String}
    (more : back ≠ []) (other : d.at? (under base front) ≠ some .dir) :
    d.at? (under base (front ++ back)) = none := by
  induction back generalizing front with
  | nil => exact absurd rfl more
  | cons m rest ih =>
    have next : d.at? (under base (front ++ [m])) = none := by
      refine Classical.byContradiction fun there => other ?_
      rw [under_concat] at there
      exact based.rooted m front.reverse there
    cases rest with
    | nil => exact next
    | cons k rest =>
      rw [← List.singleton_append, ← List.append_assoc]
      exact ih (front ++ [m]) (by simp) (by rw [next]; simp)

theorem orPresent_makeDir (based : d.Based r base) (names : Names r path outer n) :
    d.orPresent path (d.makeDir path) =
      match d.descend base outer with
      | .error errno => (d, .error (.system errno))
      | .ok dir =>
        if Route.maxName < n.utf8ByteSize then (d, .error (.system Errno.nameTooLong))
        else
          match d.at? (n :: dir) with
          | some .dir => (d, .ok ())
          | some _ => (d, .error (.system Errno.entryExists))
          | none => (d.put (n :: dir) .dir, .ok ()) := by
  rw [based.makeDir_eq names]
  cases through : d.descend base outer with
  | error errno =>
    obtain ⟨front, m, back, _, _, dead⟩ := descend_eq_error through
    cases dead <;> rfl
  | ok dir =>
    by_cases long : Route.maxName < n.utf8ByteSize
    · simp only [long, if_true]
      rfl
    · have isDir := based.isDir_eq names through long
      simp only [long, if_false]
      cases entry : d.at? (n :: dir) with
      | none => rfl
      | some old =>
        rw [entry] at isDir
        cases old with
        | dir => simp only [orPresent, isDir.mpr rfl, and_true, if_true]
        | file _ _ | link _ =>
          have other : ¬ d.isDir path = true := fun here => by cases isDir.mp here
          simp [orPresent, other]

theorem onWay_split {front back : List String} {m : String} {loc : Loc}
    (onWay : OnWay base (front ++ m :: back) loc) : OnWay base front loc ∨
      ¬ Route.maxName < m.utf8ByteSize ∧
        ∃ more, more <+: back ∧ loc = under base (front ++ m :: more) := by
  obtain ⟨way, some, ⟨rest, split⟩, short, rfl⟩ := onWay
  rcases List.append_eq_append_iff.mp split with ⟨more, rfl, same⟩ | ⟨more, rfl, same⟩
  · exact .inl ⟨way, some, List.prefix_append _ _, short, rfl⟩
  · cases more with
    | nil =>
      rw [List.append_nil] at some short ⊢
      exact .inl ⟨front, some, List.prefix_rfl, short, rfl⟩
    | cons first more =>
      cases same
      exact .inr ⟨Nat.not_lt_of_le (short m (by simp)), more, List.prefix_append _ _, rfl⟩

theorem onWay_last (all : Short (outer ++ [n])) {loc : Loc} :
    OnWay base (outer ++ [n]) loc ↔ OnWay base outer loc ∨ loc = n :: under base outer := by
  rw [onWay_concat, under_concat]
  exact or_congr_right (and_iff_left all)

theorem made_of_long (through : d.descend base outer = .ok (under base outer))
    (long : Route.maxName < n.utf8ByteSize) (back : List String) :
    Made d base (outer ++ n :: back) (d, .error (.system Errno.nameTooLong)) := by
  have there : ∀ loc, OnWay base (outer ++ n :: back) loc → d.at? loc = some .dir := by
    intro loc onWay
    rcases onWay_split onWay with before | ⟨short, _⟩
    · exact isDir_of_onWay through before
    · exact absurd long short
  have made := made_of_there _ there
  rwa [if_neg (not_short_of_long (by simp) long)] at made

/-- A directory is made where nothing was, in a directory that is there. -/
theorem made_of_put (through : d.descend base outer = .ok (under base outer))
    (all : Short (outer ++ [n])) (none : d.at? (n :: under base outer) = none) :
    Made d base (outer ++ [n]) (d.put (n :: under base outer) .dir, .ok ()) := by
  have made : Made d base (outer ++ [n]) (d.put (n :: under base outer) .dir,
      if Short (outer ++ [n]) then .ok () else .error (.system Errno.nameTooLong)) := by
    refine .made ?_ rfl ?_ ?_
    · intro loc on bytes executable file
      rcases (onWay_last all).mp on with before | rfl
      · rw [isDir_of_onWay through before] at file
        cases file
      · rw [none] at file
        cases file
    · intro loc on
      by_cases here : loc = n :: under base outer
      · rw [here]
        exact at?_put_self d _
      · rw [at?_put_of_ne d _ here]
        exact isDir_of_onWay through (((onWay_last all).mp on).resolve_right here)
    · intro loc off
      exact at?_put_of_ne d _ fun here => off ((onWay_last all).mpr (.inr here))
  rwa [if_pos all] at made

theorem made_last (based : d.Based r base) (names : Names r path outer n)
    (through : d.descend base outer = .ok (under base outer)) (short : Short outer) :
    Made d base (outer ++ [n]) (d.orPresent path (d.makeDir path)) := by
  rw [orPresent_makeDir based names, through]
  by_cases long : Route.maxName < n.utf8ByteSize
  · simpa only [long, if_true] using made_of_long through long []
  · have all : Short (outer ++ [n]) := by
      intro m member
      rcases List.mem_append.mp member with before | last
      · exact short m before
      · rw [List.mem_singleton.mp last]
        exact Nat.le_of_not_lt long
    simp only [long, if_false]
    cases entry : d.at? (n :: under base outer) with
    | none => exact made_of_put through all entry
    | some old =>
      cases old with
      | dir =>
        have made := made_of_there (d := d) (outer ++ [n]) fun loc on => by
          rcases (onWay_last all).mp on with before | rfl
          · exact isDir_of_onWay through before
          · exact entry
        rwa [if_pos all] at made
      | file bytes executable =>
        have barred := Made.barred (onWay_concat.mpr (.inr ⟨rfl, all⟩))
          (under_concat base outer n ▸ entry)
        rwa [if_pos rfl] at barred
      | link target => exact absurd entry (based.linkless (n :: outer.reverse) target)

theorem short_of_descend {names : List String} {loc : Loc}
    (through : d.descend base names = .ok loc) : Short names := by
  intro n member
  obtain ⟨front, back, rfl⟩ := List.append_of_mem member
  have isFront : front ++ [n] <+: front ++ n :: back := ⟨back, by simp⟩
  exact Nat.le_of_not_lt (isDir_of_descend through isFront).1

theorem steady_of_made (based : d.Based r base) {names : List String} (here : e.here = d.here)
    (made : ∀ loc, OnWay base names loc → e.at? loc = some .dir)
    (kept : ∀ loc, ¬ OnWay base names loc → e.at? loc = d.at? loc) : d.Steady e := by
  have isDir : ∀ loc, d.at? loc = some .dir → e.at? loc = some .dir := by
    intro loc there
    by_cases on : OnWay base names loc
    · exact made loc on
    · rw [kept loc on, there]
  refine ⟨here, isDir, fun loc target => ?_, fun n dir none there => ?_⟩
  · by_cases on : OnWay base names loc
    · rw [made loc on]
      obtain ⟨front, _, _, _, rfl⟩ := on
      exact iff_of_false (by simp) (based.linkless _ target)
    · rw [kept loc on]
  · by_cases on : OnWay base names (n :: dir)
    · obtain ⟨front, some, before, short, same⟩ := on
      obtain ⟨init, last, rfl⟩ := (List.eq_nil_or_concat front).resolve_left some
      rw [List.concat_eq_append] at before short same
      rw [under_concat] at same
      injection same with _ outer
      rw [outer]
      by_cases none : init = []
      · rw [none]
        exact isDir _ based.isDir
      · exact made _ ⟨init, none, (List.prefix_append _ _).trans before,
          fun m member => short m (by simp [member]), rfl⟩
    · rw [kept _ on] at there
      exact absurd none there

theorem Names.parent (names : Names r path outer n) : ∃ parent, Path.parent? path = some parent ∧
    ∀ up m, outer = up ++ [m] → Names r parent up m := by
  obtain ⟨front, parent, isFront, leads⟩ := names.leads.parent
  rw [String.ofList_toList] at parent
  refine ⟨String.ofList front, parent, fun up m split => ?_⟩
  have inner := leads up m split
  have some : front ≠ [] := by
    rintro rfl
    obtain ⟨mid, steps, _⟩ := inner.steps
    simp [Route.ofText, Route.stepOf] at steps
  refine ⟨by rwa [String.toList_ofList], ?_⟩
  rw [String.toList_ofList]
  exact Route.read_of_prefix some isFront names.read

theorem descend_of_onWay {names : List String} (short : Short names)
    (there : ∀ loc, OnWay base names loc → d.at? loc = some .dir) :
    d.descend base names = .ok (under base names) := by
  cases through : d.descend base names with
  | ok loc => rw [descend_eq_ok through]
  | error errno =>
    obtain ⟨front, m, back, rfl, _, dead⟩ := descend_eq_error through
    have isFront : front ++ [m] <+: front ++ m :: back := ⟨back, by simp⟩
    have dir := there _ ⟨front ++ [m], by simp, isFront, fun k member => short k
      (isFront.subset member), rfl⟩
    cases dead with
    | long long => exact absurd (short m (by simp)) (Nat.not_le_of_lt long)
    | missing _ none => rw [none] at dir; cases dir
    | barred _ entry other => rw [entry] at dir; exact absurd (Option.some.inj dir) other

theorem none_of_missing (based : d.Based r base) {front back : List String} {m : String}
    (none : d.at? (under base (front ++ [m])) = none) :
    d.at? (under base (front ++ m :: back)) = Option.none := by
  cases back with
  | nil => exact none
  | cons k back =>
    have below := based.none_below (front ++ [m]) (List.cons_ne_nil k back)
      (by rw [none]; simp)
    rwa [List.append_assoc] at below

theorem Made.concat (based : d.Based r base) {res : Disk × Reply Unit} {m : String}
    {front back : List String} (split : outer = front ++ m :: back)
    (missing : d.at? (under base (front ++ [m])) = none)
    (clear : ∀ loc, OnWay base outer loc → ∀ bytes executable,
      d.at? loc ≠ some (.file bytes executable)) (here : e.here = d.here)
    (dirs : ∀ loc, OnWay base outer loc → e.at? loc = some .dir)
    (kept : ∀ loc, ¬ OnWay base outer loc → e.at? loc = d.at? loc)
    (last : Made e base (outer ++ [n]) res) : Made d base (outer ++ [n]) res := by
  have none : d.at? (under base (outer ++ [n])) = none := by
    rw [split, List.append_assoc]
    exact none_of_missing based missing
  have off : ¬ OnWay base outer (under base (outer ++ [n])) := by
    rintro ⟨way, _, ⟨rest, whole⟩, _, same⟩
    have length := congrArg List.length (under_inj.mp same)
    have shorter := congrArg List.length whole
    simp only [List.length_append, List.length_cons, List.length_nil] at length shorter
    omega
  have clean : ∀ loc, OnWay base (outer ++ [n]) loc → ∀ bytes executable,
      d.at? loc ≠ some (.file bytes executable) := by
    intro loc on bytes executable
    rcases onWay_concat.mp on with before | ⟨rfl, _⟩
    · exact clear loc before bytes executable
    · rw [none]
      simp
  cases last with
  | @barred loc bytes executable on file =>
    rcases onWay_concat.mp on with before | ⟨rfl, _⟩
    · rw [dirs loc before] at file
      cases file
    · rw [kept _ off, none] at file
      cases file
  | made _ same made rest =>
    refine .made clean (same.trans here) made fun loc off => ?_
    rw [rest loc off]
    exact kept loc fun on => off (onWay_concat.mpr (.inl on))

theorem settled_of_through (based : d.Based r base) (names : Names r path outer n) {dir : Loc}
    (through : d.descend base outer = .ok dir) :
    (d.orPresent path (d.makeDir path)).2 = .ok () ∨ ∃ errno, errno ≠ Errno.noEntry ∧
      d.orPresent path (d.makeDir path) = (d, .error (.system errno)) := by
  rw [orPresent_makeDir based names, through]
  by_cases long : Route.maxName < n.utf8ByteSize
  · exact .inr ⟨Errno.nameTooLong, by decide, by simp only [long, if_true]⟩
  · simp only [long, if_false]
    cases d.at? (n :: dir) with
    | none => exact .inl rfl
    | some old =>
      cases old with
      | dir => exact .inl rfl
      | file _ _ | link _ => exact .inr ⟨Errno.entryExists, by decide, rfl⟩

theorem made_of_barred (based : d.Based r base) {front back : List String} {m : String}
    (walked : d.descend base front = .ok (under base front))
    (short : ¬ Route.maxName < m.utf8ByteSize) {entry : Entry}
    (there : d.at? (under base (front ++ [m])) = some entry) (other : entry ≠ .dir) :
    Made d base (front ++ m :: back ++ [n]) (d, .error (.system Errno.notDirectory)) := by
  cases entry with
  | dir => exact absurd rfl other
  | link target => exact absurd there (based.linkless _ target)
  | file bytes executable =>
    have on : OnWay base (front ++ m :: back ++ [n]) (under base (front ++ [m])) := by
      refine ⟨front ++ [m], by simp, ⟨back ++ [n], by simp⟩, ?_, rfl⟩
      intro k member
      rcases List.mem_append.mp member with before | last
      · exact short_of_descend walked k before
      · rw [List.mem_singleton.mp last]
        exact Nat.le_of_not_lt short
    have barred := Made.barred on there
    rwa [if_neg fun same => by simpa using under_inj.mp same] at barred

theorem made_of_not_short (long : ¬ Short outer)
    (clear : ∀ loc, OnWay base outer loc → ∀ bytes executable,
      d.at? loc ≠ some (.file bytes executable)) (here : e.here = d.here)
    (dirs : ∀ loc, OnWay base outer loc → e.at? loc = some .dir)
    (kept : ∀ loc, ¬ OnWay base outer loc → e.at? loc = d.at? loc) :
    Made d base (outer ++ [n]) (e, .error (.system Errno.nameTooLong)) := by
  have same : ∀ loc, OnWay base (outer ++ [n]) loc ↔ OnWay base outer loc := by
    intro loc
    rw [onWay_concat]
    exact or_iff_left fun last => long fun k member => last.2 k (List.mem_append_left _ member)
  have rest : ¬ Short (outer ++ [n]) := fun short =>
    long fun k member => short k (List.mem_append_left _ member)
  have made : Made d base (outer ++ [n]) _ :=
    .made (e := e) (fun loc on => clear loc ((same loc).mp on)) here
      (fun loc on => dirs loc ((same loc).mp on))
      fun loc on => kept loc fun outer => on ((same loc).mpr outer)
  rwa [if_neg rest] at made

theorem made_of_missing (based : d.Based r base) (names : Names r path outer n)
    {front back : List String} {m : String} (split : outer = front ++ m :: back)
    (walked : d.descend base front = .ok (under base front))
    (none : d.at? (under base (front ++ [m])) = none) {e : Disk} {reply : Reply Unit}
    (around : Made d base outer (e, reply)) :
    Made d base (outer ++ [n]) (match (e, reply) with
      | (e, .error cause) => (e, .error cause)
      | (e, .ok ()) => e.orPresent path (e.makeDir path)) := by
  cases around with
  | barred on file =>
    subst split
    rcases onWay_split on with before | ⟨_, more, _, rfl⟩
    · rw [isDir_of_onWay walked before] at file
      cases file
    · rw [none_of_missing based none] at file
      cases file
  | made clear here dirs kept =>
    by_cases all : Short outer
    · rw [if_pos all]
      have after := descend_of_onWay all dirs
      have last := made_last ((steady_of_made based here dirs kept).based based) names after all
      exact last.concat based split none clear here dirs kept
    · rw [if_neg all]
      exact made_of_not_short all clear here dirs kept

theorem makeDirsFrom_made (based : d.Based r base) {fuel : Nat} (names : Names r path outer n)
    (enough : outer.length < fuel) : Made d base (outer ++ [n]) (d.makeDirsFrom fuel path) := by
  induction fuel generalizing path outer n with
  | zero => cases enough
  | succ fuel ih =>
    obtain ⟨parent, known, around⟩ := names.parent
    simp only [makeDirsFrom, known]
    cases through : d.descend base outer with
    | ok dir =>
      have same := descend_eq_ok through
      subst same
      have last := made_last based names through (short_of_descend through)
      rcases settled_of_through based names through with fine | ⟨errno, other, fails⟩
      · generalize d.orPresent path (d.makeDir path) = made at last fine
        obtain ⟨e, reply⟩ := made
        subst fine
        exact last
      · rw [fails] at last ⊢
        simpa only [other, if_false] using last
    | error errno =>
      have fails := orPresent_makeDir based names
      rw [through] at fails
      obtain ⟨front, m, back, rfl, walked, dead⟩ := descend_eq_error through
      rw [fails]
      cases dead with
      | long long =>
        rw [List.append_assoc, List.cons_append]
        exact made_of_long walked long (back ++ [n])
      | barred short there other => exact made_of_barred based walked short there other
      | missing short none =>
        dsimp only
        rw [if_pos rfl]
        obtain ⟨up, k, split⟩ :=
          (List.eq_nil_or_concat (front ++ m :: back)).resolve_left (by simp)
        rw [List.concat_eq_append] at split
        have made := ih (around up k split) (by
          have length := congrArg List.length split
          simp only [List.length_append, List.length_cons, List.length_nil] at length enough
          omega)
        rw [← split] at made
        exact made_of_missing based names rfl walked none made

theorem length_splitOn_le (cs : List Char) : (cs.splitOn '/').length ≤ cs.length + 1 := by
  induction cs with
  | nil => simp
  | cons c cs ih =>
    rw [List.splitOn_cons_eq_if_modifyHead]
    split
    · simpa using ih
    · simp only [List.length_modifyHead, List.length_cons]
      omega

theorem makeDirs_made (based : d.Based r base) (names : Names r path outer n) :
    Made d base (outer ++ [n]) (d.makeDirs path) := by
  refine makeDirsFrom_made based names ?_
  obtain ⟨mid, steps, spells⟩ := names.leads.steps
  have pieces := length_splitOn_le path.toList
  have fewer := List.length_filterMap_le Route.stepOf (path.toList.splitOn '/')
  have all := congrArg List.length steps
  have inner := spells.length_le
  simp only [Route.ofText, List.length_append, List.length_cons, List.length_nil] at all
  omega

theorem makeDirs_unread {cause : IoError} (leads : Route.Leads r path.toList outer n)
    (unread : Route.read path = .error cause) : d.makeDirs path = (d, .error cause) := by
  obtain ⟨front, parent, _, _⟩ := leads.parent
  rw [String.ofList_toList] at parent
  have made : d.makeDir path = (d, .error cause) := by simp only [makeDir, place, unread]
  have some : path.toList ≠ [] := by
    intro none
    obtain ⟨mid, steps, _⟩ := leads.steps
    simp [none, Route.ofText, Route.stepOf] at steps
  have known : cause = Route.unpassable ∨ cause = .system Errno.nameTooLong := by
    unfold Route.read at unread
    split at unread
    · cases unread
      exact .inl rfl
    · split at unread
      · cases unread
        exact .inr rfl
      · cases unread
  unfold makeDirs
  simp only [makeDirsFrom, parent, made]
  rcases known with rfl | rfl
  · rfl
  · rfl

end Spool.Disk
