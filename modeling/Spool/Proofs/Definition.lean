import Mathlib.Data.List.Basic
import Spool.Definition

/-!
Definition texts. A text is read exactly if it has the form
`<driver>:<description>,<endpoint>,<endpoint>` and there is room for a job, and what is read are its
parts. Every other text is refused for the first of its faults.
-/

namespace Spool

namespace Driver

/-- What the driver of a name is. -/
inductive Named : String → Driver → Prop
  | directory : Named "local" .directory
  | keyValue : Named "kv" .keyValue
  | riak : Named "riak" .keyValue

theorem named_name (driver : Driver) : Named driver.name driver := by
  cases driver with
  | directory => exact .directory
  | keyValue => exact .keyValue

theorem ofName?_eq_some_iff {name : String} {driver : Driver} :
    ofName? name = some driver ↔ Named name driver := by
  constructor
  · intro found
    obtain ⟨front, back, split, -⟩ := List.lookup_eq_some_iff.mp found
    have member : (name, driver) ∈ names := by simp [split]
    simp only [names, List.mem_cons, Prod.mk.injEq, List.not_mem_nil, or_false] at member
    rcases member with ⟨rfl, rfl⟩ | ⟨rfl, rfl⟩ | ⟨rfl, rfl⟩
    · exact .directory
    · exact .riak
    · exact .keyValue
  · intro named
    cases named <;> rfl

theorem ofName?_eq_none_iff {name : String} :
    ofName? name = none ↔ ∀ driver, ¬ Named name driver := by
  simp only [Option.eq_none_iff_forall_ne_some, ne_eq, ofName?_eq_some_iff]

theorem Named.apart {name : String} {driver : Driver} (named : Named name driver) :
    ':' ∉ name.toList ∧ ',' ∉ name.toList := by
  cases named <;> decide

end Driver

namespace Definition

/-- The text has three fields between its commas. -/
structure Fields (text first second third : String) : Prop where
  text_eq : text = s!"{first},{second},{third}"
  first : ',' ∉ first.toList
  second : ',' ∉ second.toList
  third : ',' ∉ third.toList

/-- The text says this of a definition. -/
inductive Spelled (text : String) (driver : Driver) (description pathsOut digestsIn : String) : Prop
  | mk {name : String} : driver.Named name →
      Fields text s!"{name}:{description}" pathsOut digestsIn →
      Spelled text driver description pathsOut digestsIn

/-- The error is the first thing that is wrong with the text and the capacity. -/
inductive Fault (text : String) (capacity : Nat) : DefinitionError → Prop
  | fieldCount : text.toList.count ',' ≠ 2 →
      Fault text capacity (.fieldCount text (text.toList.count ',' + 1))
  | malformedDriver {first second third : String} : Fields text first second third →
      ':' ∉ first.toList → Fault text capacity (.malformedDriver first)
  | unknownDriver {name description second third : String} :
      Fields text s!"{name}:{description}" second third → ':' ∉ name.toList →
      (∀ driver, ¬ Driver.Named name driver) → Fault text capacity (.unknownDriver name)
  | noCapacity {driver : Driver} {description pathsOut digestsIn : String} :
      Spelled text driver description pathsOut digestsIn → capacity = 0 →
      Fault text capacity (.noCapacity 0)

theorem toList_driverField (name description : String) :
    (s!"{name}:{description}").toList = name.toList ++ ':' :: description.toList := by
  simp [toString]

theorem toList_fields (first second third : String) : (s!"{first},{second},{third}").toList =
    first.toList ++ ',' :: (second.toList ++ ',' :: third.toList) := by
  simp [toString]

section Reading

variable {text first second third name description pathsOut digestsIn : String} {driver : Driver}
  {processors capacity : Nat} {e : DefinitionError}

theorem Fields.splitOn (fields : Fields text first second third) :
    text.toList.splitOn ',' = [first.toList, second.toList, third.toList] := by
  rw [fields.text_eq, toList_fields, List.splitOn_append_cons_self, List.splitOn_append_cons_self,
    List.splitOn_eq_singleton fields.first, List.splitOn_eq_singleton fields.second,
    List.splitOn_eq_singleton fields.third, List.singleton_append, List.singleton_append]

theorem exists_fields (two : text.toList.count ',' = 2) :
    ∃ first second third, Fields text first second third := by
  have three := Text.length_splitOn ',' text.toList
  rw [two] at three
  obtain ⟨first, second, third, pieces⟩ := List.length_eq_three.mp three
  have apart : ∀ piece ∈ text.toList.splitOn ',', ',' ∉ (String.ofList piece).toList := by
    intro piece member
    rw [String.toList_ofList]
    exact Text.not_mem_of_mem_splitOn member
  have joined : [','].intercalate (text.toList.splitOn ',') = text.toList :=
    List.intercalate_splitOn ','
  rw [pieces] at apart joined
  refine ⟨String.ofList first, String.ofList second, String.ofList third, ?_, apart _ (by simp),
    apart _ (by simp), apart _ (by simp)⟩
  apply String.toList_injective
  rw [toList_fields, ← joined]
  simp

theorem Fields.read_refused (fields : Fields text first second third)
    (refused : readDriver first = .error e) : read processors text capacity = .error e := by
  simp only [read, fields.splitOn, String.ofList_toList, refused]

theorem Fields.read_full (fields : Fields text first second third)
    (known : readDriver first = .ok (driver, description)) :
    read processors text 0 = .error (.noCapacity 0) := by
  simp only [read, fields.splitOn, String.ofList_toList, known, Nat.lt_irrefl, dite_false]

theorem read_fieldCount (count : text.toList.count ',' ≠ 2) : read processors text capacity =
    .error (.fieldCount text (text.toList.count ',' + 1)) := by
  have pieces := Text.length_splitOn ',' text.toList
  unfold read
  split
  · next three =>
    rw [three] at pieces
    exact absurd (Nat.succ.inj pieces).symm count
  · rw [pieces]

theorem readDriver_malformed (missing : ':' ∉ first.toList) :
    readDriver first = .error (.malformedDriver first) := by
  simp only [readDriver, Text.cutAt_eq_none_iff.mpr missing]

theorem readDriver_unknown (apart : ':' ∉ name.toList)
    (unknown : ∀ driver, ¬ Driver.Named name driver) :
    readDriver s!"{name}:{description}" = .error (.unknownDriver name) := by
  simp only [readDriver, toList_driverField, Text.cutAt_append apart, String.ofList_toList,
    Driver.ofName?_eq_none_iff.mpr unknown]

theorem readDriver_named (named : driver.Named name) :
    readDriver s!"{name}:{description}" = .ok (driver, description) := by
  simp only [readDriver, toList_driverField, Text.cutAt_append named.apart.1, String.ofList_toList,
    Driver.ofName?_eq_some_iff.mpr named]

theorem Fault.read_eq (fault : Fault text capacity e) :
    read processors text capacity = .error e := by
  cases fault with
  | fieldCount count => exact read_fieldCount count
  | malformedDriver fields missing => exact fields.read_refused (readDriver_malformed missing)
  | unknownDriver fields apart unknown =>
    exact fields.read_refused (readDriver_unknown apart unknown)
  | noCapacity spelled none =>
    obtain ⟨named, fields⟩ := spelled
    subst none
    exact fields.read_full (readDriver_named named)

theorem Spelled.read_eq (spelled : Spelled text driver description pathsOut digestsIn)
    (processors : Nat) (room : 0 < capacity) : ∃ d, read processors text capacity = .ok d ∧
      d.driver = driver ∧ d.description = description ∧ d.pathsOut = pathsOut ∧
      d.digestsIn = digestsIn ∧ d.maxPending = capacity ∧
      d.workers = defaultWorkers processors := by
  obtain ⟨named, fields⟩ := spelled
  simp only [read, fields.splitOn, String.ofList_toList, readDriver_named named, dif_pos room]
  exact ⟨_, rfl, rfl, rfl, rfl, rfl, rfl, rfl⟩

/-- The cases in the order in which the text is examined. -/
theorem spelled_or_fault (text : String) (capacity : Nat) :
    (0 < capacity ∧ ∃ driver description pathsOut digestsIn,
      Spelled text driver description pathsOut digestsIn) ∨ ∃ e, Fault text capacity e := by
  by_cases two : text.toList.count ',' = 2
  swap
  · exact .inr ⟨_, .fieldCount two⟩
  obtain ⟨first, second, third, fields⟩ := exists_fields two
  cases cut : Text.cutAt ':' first.toList with
  | none => exact .inr ⟨_, .malformedDriver fields (Text.cutAt_eq_none_iff.mp cut)⟩
  | some parts =>
    obtain ⟨spelling, apart⟩ := Text.cutAt_eq_some cut
    have joined : first = s!"{String.ofList parts.1}:{String.ofList parts.2}" := by
      apply String.toList_injective
      rw [toList_driverField, String.toList_ofList, String.toList_ofList, spelling]
    rw [joined] at fields
    cases known : Driver.ofName? (String.ofList parts.1) with
    | none =>
      refine .inr ⟨_, .unknownDriver fields ?_ (Driver.ofName?_eq_none_iff.mp known)⟩
      rwa [String.toList_ofList]
    | some driver =>
      have spelled := Spelled.mk (Driver.ofName?_eq_some_iff.mp known) fields
      rcases Nat.eq_zero_or_pos capacity with none | room
      · exact .inr ⟨_, .noCapacity spelled none⟩
      · exact .inl ⟨room, _, _, _, _, spelled⟩

theorem Spelled.render (spelled : Spelled text driver description pathsOut digestsIn) :
    Spelled s!"{driver.name}:{description},{pathsOut},{digestsIn}" driver description pathsOut
      digestsIn := by
  obtain ⟨named, fields⟩ := spelled
  have own := Driver.named_name driver
  refine ⟨own, ?_, ?_, fields.second, fields.third⟩
  · apply String.toList_injective
    simp [toString]
  · have free := fields.first
    rw [toList_driverField, List.mem_append, List.mem_cons, not_or, not_or] at free ⊢
    exact ⟨own.apart.2, free.2⟩

/-- No text spells two definitions, as each is what is read. -/
theorem read_eq_ok_iff {d : Definition} : read processors text capacity = .ok d ↔
    0 < capacity ∧ Spelled text d.driver d.description d.pathsOut d.digestsIn ∧
      d.maxPending = capacity ∧ d.workers = defaultWorkers processors := by
  constructor
  · intro answer
    rcases spelled_or_fault text capacity with ⟨room, _, _, _, _, spelled⟩ | ⟨e, fault⟩
    · obtain ⟨d', answer', rfl, rfl, rfl, rfl, rest⟩ := spelled.read_eq processors room
      cases Except.ok.inj (answer.symm.trans answer')
      exact ⟨room, spelled, rest⟩
    · cases answer.symm.trans fault.read_eq
  · rintro ⟨room, spelled, most, workers⟩
    obtain ⟨d', answer, same⟩ := spelled.read_eq processors room
    rw [answer]
    cases d
    cases d'
    simp_all only

theorem read_eq_error_iff : read processors text capacity = .error e ↔ Fault text capacity e := by
  constructor
  · intro answer
    rcases spelled_or_fault text capacity with ⟨room, _, _, _, _, spelled⟩ | ⟨e', fault⟩
    · obtain ⟨d, answer', -⟩ := spelled.read_eq processors room
      cases answer.symm.trans answer'
    · cases answer.symm.trans fault.read_eq
      exact fault
  · exact Fault.read_eq

end Reading

/-- Exactly the texts that spell a definition are read, where there is room, and nothing of them is
lost; for every other text the first fault is told. -/
theorem reads_spelled (processors : Nat) (text : String) (capacity : Nat) :
    ((∃ d, read processors text capacity = .ok d) ↔ 0 < capacity ∧
      ∃ driver description pathsOut digestsIn, Spelled text driver description pathsOut digestsIn) ∧
    (∀ d, read processors text capacity = .ok d ↔
      0 < capacity ∧ Spelled text d.driver d.description d.pathsOut d.digestsIn ∧
        d.maxPending = capacity ∧ d.workers = defaultWorkers processors) ∧
    (∀ e, read processors text capacity = .error e ↔ Fault text capacity e) ∧
    ∀ d, read processors text capacity = .ok d → read processors d.render d.maxPending = .ok d := by
  refine ⟨⟨?_, ?_⟩, fun d => read_eq_ok_iff, fun e => read_eq_error_iff, ?_⟩
  · rintro ⟨d, answer⟩
    obtain ⟨room, spelled, -⟩ := read_eq_ok_iff.mp answer
    exact ⟨room, _, _, _, _, spelled⟩
  · rintro ⟨room, _, _, _, _, spelled⟩
    obtain ⟨d, answer, -⟩ := spelled.read_eq processors room
    exact ⟨d, answer⟩
  · intro d answer
    obtain ⟨room, spelled, most, workers⟩ := read_eq_ok_iff.mp answer
    exact read_eq_ok_iff.mpr ⟨most ▸ room, spelled.render, rfl, workers⟩

/-- A description may hold colons. -/
theorem reads_spelled_riak : ∃ d, read 4 "riak:http://x:8098,o,i" 3 = .ok d ∧
    d.description = "http://x:8098" ∧ d.render = "kv:http://x:8098,o,i" ∧
    read 4 d.render 3 = .ok d := by
  have spelled : Spelled "riak:http://x:8098,o,i" .keyValue "http://x:8098" "o" "i" :=
    .mk .riak ⟨rfl, by decide, by decide, by decide⟩
  obtain ⟨d, answer, driver, description, pathsOut, digestsIn, most, -⟩ :=
    spelled.read_eq 4 (Nat.succ_pos 2)
  have again := (reads_spelled 4 _ 3).2.2.2 d answer
  rw [most] at again
  refine ⟨d, answer, description, ?_, again⟩
  rw [Definition.render, driver, description, pathsOut, digestsIn]
  rfl

end Definition

end Spool
