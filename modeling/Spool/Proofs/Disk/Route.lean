import Spool.Disk.Path
import Spool.Disk.Route

/-!
How the text of a path and its steps go together: joined paths, the enclosing directory, slashes at
the ends. Steps that stay where they are do not count.
-/

namespace Spool

def Step.name? : Step → Option String
  | .name n => some n
  | _ => none

namespace Route

/-- The steps lead down through directories of these names, and do nothing else. -/
inductive Spells : List Step → List String → Prop
  | nil : Spells [] []
  | stay {steps : List Step} {names : List String} : Spells steps names →
      Spells (.stay :: steps) names
  | name {n : String} {steps : List Step} {names : List String} : Spells steps names →
      Spells (.name n :: steps) (n :: names)

namespace Spells

theorem append {first second : List Step} {outer inner : List String} (here : Spells first outer)
    (there : Spells second inner) : Spells (first ++ second) (outer ++ inner) := by
  induction here with
  | nil => exact there
  | stay _ ih => exact .stay ih
  | name _ ih => exact .name ih

theorem single (n : String) : Spells [.name n] [n] := .name .nil

theorem last {steps : List Step} {step : Step} {names : List String}
    (spells : Spells (steps ++ [step]) names) : step = .stay ∧ Spells steps names ∨
      ∃ outer n, step = .name n ∧ names = outer ++ [n] ∧ Spells steps outer := by
  induction steps generalizing names with
  | nil =>
    cases spells with
    | stay rest => cases rest; exact .inl ⟨rfl, .nil⟩
    | name rest => cases rest; exact .inr ⟨[], _, rfl, rfl, .nil⟩
  | cons first steps ih =>
    cases spells with
    | stay rest =>
      exact (ih rest).imp (And.imp_right .stay) fun ⟨outer, n, same, split, spelt⟩ =>
        ⟨outer, n, same, split, .stay spelt⟩
    | name rest =>
      rcases ih rest with ⟨same, spelt⟩ | ⟨outer, n, same, split, spelt⟩
      · exact .inl ⟨same, .name spelt⟩
      · exact .inr ⟨_ :: outer, n, same, by rw [split]; rfl, .name spelt⟩

theorem length_le {steps : List Step} {names : List String} (spells : Spells steps names) :
    names.length ≤ steps.length := by
  induction spells with
  | nil => exact Nat.le_refl 0
  | stay _ ih => exact Nat.le_succ_of_le ih
  | name _ ih => exact Nat.succ_le_succ ih

end Spells

/-- The names that steps lead through. -/
def names (steps : List Step) : List String :=
  steps.filterMap Step.name?

theorem spells_names {steps : List Step} (down : Step.up ∉ steps) : Spells steps (names steps) := by
  induction steps with
  | nil => exact .nil
  | cons step steps ih =>
    have rest := ih fun member => down (.tail _ member)
    cases step with
    | stay => exact .stay rest
    | up => exact absurd List.mem_cons_self down
    | name n => exact .name rest

theorem eq_nil_of_stepOf {piece : List Char} (none : stepOf piece = none) : piece = [] := by
  unfold stepOf at none
  split at none
  · assumption
  · split at none
    · cases none
    · split at none <;> cases none

theorem steps_ne_nil {cs piece : List Char} (member : piece ∈ cs.splitOn '/') (some : piece ≠ []) :
    (ofText cs).steps ≠ [] := fun none =>
  some (eq_nil_of_stepOf (List.filterMap_eq_nil_iff.mp none piece member))

theorem up_not_mem_steps {cs : List Char} (plain : ['.', '.'] ∉ cs.splitOn '/') :
    Step.up ∉ (ofText cs).steps := by
  intro member
  obtain ⟨piece, inside, step⟩ := List.mem_filterMap.mp member
  have dots : piece = ['.', '.'] := by
    unfold stepOf at step
    split at step
    · cases step
    · split at step
      · cases step
      · split at step
        · next same => exact same
        · cases step
  exact plain (dots ▸ inside)

section Text

theorem steps_append (front back : List Char) :
    (ofText (front ++ '/' :: back)).steps = (ofText front).steps ++ (ofText back).steps := by
  simp only [ofText, List.splitOn_append_cons_self, List.filterMap_append]

theorem steps_slash (cs : List Char) : (ofText ('/' :: cs)).steps = (ofText cs).steps :=
  steps_append [] cs

theorem steps_piece {piece : List Char} (free : '/' ∉ piece) :
    (ofText piece).steps = (stepOf piece).toList := by
  simp only [ofText, List.splitOn_eq_singleton free, List.filterMap_cons, List.filterMap_nil]
  cases stepOf piece <;> rfl

theorem steps_dropSlashes (cs : List Char) :
    (ofText (Text.dropSlashes cs)).steps = (ofText cs).steps := by
  induction cs with
  | nil => rfl
  | cons c cs ih =>
    by_cases slash : c = '/'
    · have dropped : Text.dropSlashes (c :: cs) = Text.dropSlashes cs := by
        simp [Text.dropSlashes, slash]
      rw [dropped, ih, slash, steps_slash]
    · have kept : Text.dropSlashes (c :: cs) = c :: cs := by
        simp [Text.dropSlashes, slash]
      rw [kept]

theorem head_dropSlashes (cs : List Char) : (Text.dropSlashes cs).head? ≠ some '/' := by
  intro first
  have other := List.head?_dropWhile_not (· == '/') cs
  rw [show cs.dropWhile (· == '/') = Text.dropSlashes cs from rfl, first] at other
  simp at other

theorem dropEndSlashes_append (cs : List Char) :
    ∃ n, cs = Text.dropEndSlashes cs ++ List.replicate n '/' := by
  induction cs with
  | nil => exact ⟨0, rfl⟩
  | cons c cs ih =>
    obtain ⟨n, split⟩ := ih
    simp only [Text.dropEndSlashes]
    cases rest : Text.dropEndSlashes cs with
    | nil =>
      rw [rest, List.nil_append] at split
      by_cases slash : c = '/'
      · exact ⟨n + 1, by simp [slash, split, List.replicate_succ]⟩
      · exact ⟨n, by simp [slash, split]⟩
    | cons d more =>
      rw [rest] at split
      exact ⟨n, by simp [split]⟩

theorem steps_replicate (cs : List Char) (n : Nat) :
    (ofText (cs ++ List.replicate n '/')).steps = (ofText cs).steps := by
  induction n generalizing cs with
  | zero => simp
  | succ n ih =>
    have last : cs ++ List.replicate (n + 1) '/' = cs ++ List.replicate n '/' ++ '/' :: [] := by
      simp [List.replicate_succ']
    rw [last, steps_append, ih]
    exact List.append_nil _

theorem steps_dropEndSlashes (cs : List Char) :
    (ofText (Text.dropEndSlashes cs)).steps = (ofText cs).steps := by
  obtain ⟨n, split⟩ := dropEndSlashes_append cs
  conv => rhs; rw [split]
  rw [steps_replicate]

theorem join_plain {base rel : List Char} (below : rel.head? ≠ some '/') : Path.join base rel =
    if base = [] ∨ base.getLast? = some '/' then base ++ rel else base ++ '/' :: rel := by
  unfold Path.join
  split
  · exact absurd rfl below
  · rfl

/-- Joining takes the steps of the base and then those of the path below it. -/
theorem steps_join {base rel : List Char} (below : rel.head? ≠ some '/') :
    (ofText (Path.join base rel)).steps = (ofText base).steps ++ (ofText rel).steps := by
  rw [join_plain below]
  by_cases named : base = []
  · subst named
    rw [if_pos (.inl rfl)]
    rfl
  by_cases slash : base.getLast? = some '/'
  · obtain ⟨front, rfl⟩ := List.getLast?_eq_some_iff.mp slash
    rw [if_pos (.inr slash), List.append_assoc, List.singleton_append, steps_append]
    have same : (ofText (front ++ ['/'])).steps = (ofText front).steps := by
      rw [steps_append]
      exact List.append_nil _
    rw [same]
  · rw [if_neg (by simp [named, slash]), steps_append]

theorem absolute_join {base rel : List Char} (below : rel.head? ≠ some '/') :
    (ofText (Path.join base rel)).absolute = (ofText base).absolute := by
  cases base with
  | nil =>
    rw [join_plain below, if_pos (.inl rfl)]
    simp only [ofText, List.nil_append, List.head?_nil]
    exact beq_eq_false_iff_ne.mpr below
  | cons c base =>
    have first : (Path.join (c :: base) rel).head? = some c := by
      unfold Path.join
      split
      · exact absurd rfl below
      · split <;> rfl
    simp only [ofText, first, List.head?_cons]

end Text

section Parent

open Spool.Path

/-- A piece that names nothing. -/
def IsIdle (piece : List Char) : Prop := piece = [] ∨ piece = ['.']

theorem dropIdle_split (absolute : Bool) (pieces : List (List Char)) :
    ∃ idle, pieces = idle ++ Pieces.dropIdle absolute pieces ∧ ∀ piece ∈ idle, IsIdle piece := by
  induction pieces with
  | nil => exact ⟨[], rfl, fun _ member => by cases member⟩
  | cons piece front ih =>
    obtain ⟨idle, split, all⟩ := ih
    have drop : IsIdle piece → ∃ more, piece :: front = more ++ Pieces.dropIdle absolute front ∧
        ∀ p ∈ more, IsIdle p := fun here =>
      ⟨piece :: idle, by rw [List.cons_append, ← split], fun p member =>
        (List.mem_cons.mp member).elim (fun same => same ▸ here) (all p)⟩
    simp only [Pieces.dropIdle]
    split
    · next empty => exact drop (.inl empty)
    · split
      · next dot =>
        split
        · next alone =>
          simp only [Bool.and_eq_true, List.isEmpty_iff] at alone
          exact ⟨[], by rw [alone.2]; rfl, fun _ member => by cases member⟩
        · exact drop (.inr dot)
      · exact ⟨[], rfl, fun _ member => by cases member⟩

theorem head_dropIdle {absolute : Bool} {pieces front : List (List Char)} {piece : List Char}
    (left : Pieces.dropIdle absolute pieces = piece :: front) : ¬ IsIdle piece ∨ front = [] := by
  induction pieces with
  | nil => cases left
  | cons first rest ih =>
    simp only [Pieces.dropIdle] at left
    split at left
    · exact ih left
    · next some =>
      split at left
      · split at left
        · cases left
          exact .inr rfl
        · exact ih left
      · next other =>
        cases left
        exact .inl fun idle => idle.elim some other

theorem ne_nil_of_dropIdle {absolute : Bool} {pieces front : List (List Char)} {piece : List Char}
    (left : Pieces.dropIdle absolute pieces = piece :: front) : piece ≠ [] := by
  induction pieces with
  | nil => cases left
  | cons first rest ih =>
    simp only [Pieces.dropIdle] at left
    split at left
    · exact ih left
    · next some =>
      split at left
      · split at left
        · cases left
          exact some
        · exact ih left
      · cases left
        exact some

theorem steps_idle (idle : List (List Char)) (all : ∀ piece ∈ idle, IsIdle piece) :
    ∃ n, idle.filterMap stepOf = List.replicate n .stay := by
  induction idle with
  | nil => exact ⟨0, rfl⟩
  | cons piece idle ih =>
    obtain ⟨n, rest⟩ := ih fun p member => all p (.tail _ member)
    rcases all piece List.mem_cons_self with rfl | rfl
    · exact ⟨n, rest⟩
    · exact ⟨n + 1, by rw [List.filterMap_cons]; simp [stepOf, rest, List.replicate_succ]⟩

theorem steps_pieces (cs : List Char) :
    (ofText cs).steps = (Pieces.ofText cs).pieces.reverse.filterMap stepOf := by
  unfold Pieces.ofText
  split
  · simp only [List.reverse_reverse]
    exact steps_slash _
  · simp only [List.reverse_reverse]
    rfl

theorem text_ofText (cs : List Char) : (Pieces.ofText cs).text = cs := by
  unfold Pieces.ofText
  split <;> simp [Pieces.text]

theorem slash_not_mem_pieces (cs : List Char) :
    ∀ piece ∈ (Pieces.ofText cs).pieces, '/' ∉ piece := by
  intro piece member
  unfold Pieces.ofText at member
  split at member <;> exact Text.not_mem_of_mem_splitOn (List.mem_reverse.mp member)

theorem steps_fileName? {path n : String} (named : fileName? path = some n) :
    (ofText n.toList).steps = [.name n] := by
  unfold fileName? at named
  dsimp only at named
  split at named
  · cases named
  · next piece front left =>
    split at named
    · cases named
    · next other =>
      cases named
      obtain ⟨idle, split, _⟩ := dropIdle_split (Pieces.ofText path.toList).absolute
        (Pieces.ofText path.toList).pieces
      have member : piece ∈ (Pieces.ofText path.toList).pieces := by
        rw [split, left]
        exact List.mem_append_right _ List.mem_cons_self
      rw [String.toList_ofList, steps_piece (slash_not_mem_pieces _ piece member)]
      simp only [not_or] at other
      simp only [stepOf, ne_nil_of_dropIdle left, other, if_false, Option.toList_some]

theorem steps_text (absolute : Bool) {pieces : List (List Char)}
    (free : ∀ piece ∈ pieces, '/' ∉ piece) :
    (ofText (Pieces.text ⟨absolute, pieces⟩)).steps = pieces.reverse.filterMap stepOf := by
  have body : (ofText (['/'].intercalate pieces.reverse)).steps =
      pieces.reverse.filterMap stepOf := by
    cases pieces with
    | nil => rfl
    | cons piece pieces =>
      have apart : ∀ p ∈ (piece :: pieces).reverse, '/' ∉ p := fun p member =>
        free p (List.mem_reverse.mp member)
      rw [ofText, List.splitOn_intercalate '/' apart (by simp)]
  unfold Pieces.text
  split
  · rw [steps_slash, body]
  · exact body

theorem intercalate_append {first : List (List Char)} (some : first ≠ [])
    (rest : List (List Char)) :
    ['/'].intercalate first <+: ['/'].intercalate (first ++ rest) := by
  induction first with
  | nil => exact absurd rfl some
  | cons piece first ih =>
    cases first with
    | nil =>
      cases rest with
      | nil => exact List.prefix_rfl
      | cons next rest =>
        simp only [List.singleton_append, List.intercalate_singleton, List.intercalate_cons_cons]
        exact ⟨_, (List.append_assoc _ _ _).symm⟩
    | cons second first =>
      obtain ⟨more, split⟩ := ih (by simp)
      refine ⟨more, ?_⟩
      simp only [List.cons_append, List.intercalate_cons_cons] at split ⊢
      rw [List.append_assoc, List.append_assoc, split]
      simp

theorem text_prefix (absolute : Bool) (dropped kept : List (List Char)) :
    Pieces.text ⟨absolute, kept⟩ <+: Pieces.text ⟨absolute, dropped ++ kept⟩ := by
  have body : ['/'].intercalate kept.reverse <+: ['/'].intercalate (dropped ++ kept).reverse := by
    rw [List.reverse_append]
    by_cases none : kept = []
    · rw [none]
      exact List.nil_prefix
    · exact intercalate_append (by simpa using none) _
  unfold Pieces.text
  split
  · exact List.cons_prefix_cons.mpr ⟨rfl, body⟩
  · exact body

/-- The text of a path that leads from the end of a route through directories to a last name. -/
structure Leads (base : Route) (cs : List Char) (outer : List String) (n : String) : Prop where
  absolute : (ofText cs).absolute = base.absolute
  steps : ∃ mid, (ofText cs).steps = base.steps ++ mid ++ [.name n] ∧ Spells mid outer

theorem drop_stays {front base mid : List Step} {k : Nat} {names : List String}
    (same : front ++ List.replicate k .stay = base ++ mid) (spells : Spells mid names)
    (some : names ≠ []) : ∃ less, front = base ++ less ∧ Spells less names := by
  induction k generalizing mid with
  | zero => exact ⟨mid, by simpa using same, spells⟩
  | succ k ih =>
    rcases List.eq_nil_or_concat mid with rfl | ⟨less, step, rfl⟩
    · cases spells
      exact absurd rfl some
    · rw [List.replicate_succ', ← List.append_assoc, List.concat_eq_append, ← List.append_assoc]
        at same
      obtain ⟨shorter, last⟩ := List.append_inj' same rfl
      cases last
      rw [List.concat_eq_append] at spells
      rcases spells.last with ⟨_, spelt⟩ | ⟨_, _, impossible, _⟩
      · exact ih shorter spelt
      · cases impossible

theorem Spells.eq_nil {names : List String} {k : Nat}
    (spells : Spells (List.replicate k .stay) names) : names = [] := by
  induction k with
  | zero => cases spells; rfl
  | succ k ih =>
    cases spells with
    | stay rest => exact ih rest

theorem steps_reverse_cons (piece : List Char) (front : List (List Char)) :
    (piece :: front).reverse.filterMap stepOf =
      front.reverse.filterMap stepOf ++ (stepOf piece).toList := by
  rw [List.reverse_cons, List.filterMap_append, List.filterMap_cons]
  cases stepOf piece <;> rfl

theorem front_of_stay {absolute : Bool} {pieces : List (List Char)} {before : List Step}
    (steps : (Pieces.dropIdle absolute pieces).reverse.filterMap stepOf = before ++ [.stay]) :
    before = [] := by
  cases left : Pieces.dropIdle absolute pieces with
  | nil =>
    rw [left] at steps
    simp at steps
  | cons piece front =>
    rw [left, steps_reverse_cons] at steps
    rcases head_dropIdle left with named | rfl
    · unfold IsIdle at named
      unfold stepOf at steps
      split at steps
      · next empty => exact absurd (.inl empty) named
      · split at steps
        · next dot => exact absurd (.inr dot) named
        · split at steps <;> cases (List.append_inj' steps rfl).2
    · cases before with
      | nil => rfl
      | cons first before =>
        have length := congrArg List.length steps
        simp only [List.reverse_nil, List.filterMap_nil, List.nil_append, List.length_append,
          List.length_cons, List.length_nil] at length
        have one : (stepOf piece).toList.length ≤ 1 := by cases stepOf piece <;> simp
        omega

theorem front_of_steps (absolute : Bool) {pieces : List (List Char)} {before : List Step}
    {n : String} (steps : pieces.reverse.filterMap stepOf = before ++ [.name n]) :
    ∃ piece front, Pieces.dropIdle absolute pieces = piece :: front ∧
      stepOf piece = some (.name n) ∧ front.reverse.filterMap stepOf = before := by
  obtain ⟨idle, split, all⟩ := dropIdle_split absolute pieces
  obtain ⟨k, stays⟩ := steps_idle idle.reverse fun p member =>
    all p (List.mem_reverse.mp member)
  rw [split, List.reverse_append, List.filterMap_append, stays] at steps
  cases k with
  | succ k =>
    rw [List.replicate_succ', ← List.append_assoc] at steps
    cases (List.append_inj' steps rfl).2
  | zero =>
    rw [List.replicate_zero, List.append_nil] at steps
    cases left : Pieces.dropIdle absolute pieces with
    | nil =>
      rw [left] at steps
      simp at steps
    | cons piece front =>
      rw [left, steps_reverse_cons] at steps
      refine ⟨piece, front, rfl, ?_⟩
      cases step : stepOf piece with
      | some last =>
        rw [step, Option.toList_some] at steps
        obtain ⟨same, here⟩ := List.append_inj' steps rfl
        cases here
        exact ⟨rfl, same⟩
      | none =>
        -- an idle piece is kept only when it stands alone
        rcases head_dropIdle left with named | rfl
        · exact absurd (.inl (eq_nil_of_stepOf step)) named
        · rw [step] at steps
          simp at steps

theorem absolute_of_prefix {front cs : List Char} (isFront : front <+: cs)
    (some : (ofText front).steps ≠ []) : (ofText front).absolute = (ofText cs).absolute := by
  obtain ⟨rest, rfl⟩ := isFront
  cases front with
  | nil => exact absurd rfl some
  | cons c front => rfl

theorem prefix_of_dropIdle {cs piece : List Char} {front : List (List Char)}
    (left : Pieces.dropIdle (Pieces.ofText cs).absolute (Pieces.ofText cs).pieces = piece :: front) :
    Pieces.text ⟨(Pieces.ofText cs).absolute, Pieces.dropIdle (Pieces.ofText cs).absolute front⟩ <+:
      cs := by
  obtain ⟨skipped, whole, _⟩ := dropIdle_split (Pieces.ofText cs).absolute (Pieces.ofText cs).pieces
  obtain ⟨idle, split, _⟩ := dropIdle_split (Pieces.ofText cs).absolute front
  have shorter := text_prefix (Pieces.ofText cs).absolute (skipped ++ piece :: idle)
    (Pieces.dropIdle (Pieces.ofText cs).absolute front)
  rw [List.append_assoc, List.cons_append, ← split, ← left, ← whole] at shorter
  rwa [text_ofText cs] at shorter

theorem slash_not_mem_kept {cs piece : List Char} {front : List (List Char)}
    (left : Pieces.dropIdle (Pieces.ofText cs).absolute (Pieces.ofText cs).pieces = piece :: front) :
    ∀ p ∈ Pieces.dropIdle (Pieces.ofText cs).absolute front, '/' ∉ p := by
  obtain ⟨skipped, whole, _⟩ := dropIdle_split (Pieces.ofText cs).absolute (Pieces.ofText cs).pieces
  obtain ⟨idle, split, _⟩ := dropIdle_split (Pieces.ofText cs).absolute front
  intro p member
  refine slash_not_mem_pieces cs p ?_
  rw [whole, left, split]
  simp [member]

theorem steps_of_parent? {path parent : String} (known : Path.parent? path = some parent) :
    parent.toList <+: path.toList ∧ ∃ rest, rest ≠ [] ∧
      (ofText path.toList).steps = (ofText parent.toList).steps ++ rest := by
  unfold Path.parent? at known
  dsimp only at known
  split at known
  · cases known
  · next piece front left =>
    cases known
    rw [String.toList_ofList]
    refine ⟨prefix_of_dropIdle left, ?_⟩
    obtain ⟨skipped, whole, _⟩ :=
      dropIdle_split (Pieces.ofText path.toList).absolute (Pieces.ofText path.toList).pieces
    obtain ⟨idle, split, _⟩ := dropIdle_split (Pieces.ofText path.toList).absolute front
    have kept := slash_not_mem_kept left
    refine ⟨(skipped ++ piece :: idle).reverse.filterMap stepOf, ?_, ?_⟩
    · intro none
      exact ne_nil_of_dropIdle left
        (eq_nil_of_stepOf (List.filterMap_eq_nil_iff.mp none piece (by simp)))
    · rw [steps_pieces, steps_text _ kept, ← List.filterMap_append, ← List.reverse_append,
        List.append_assoc, List.cons_append, ← split, ← left, ← whole]

/-- The parent's text is an initial part of the path. It takes the steps in front of the last name, but
for some that stay where they are; and it ends in such a step only if it has no other. -/
theorem steps_parent {cs : List Char} {before : List Step} {n : String}
    (steps : (ofText cs).steps = before ++ [.name n]) : ∃ front k,
      Path.parent? (String.ofList cs) = some (String.ofList front) ∧ front <+: cs ∧
        before = (ofText front).steps ++ List.replicate k .stay ∧
          ∀ mid, (ofText front).steps = mid ++ [.stay] → mid = [] := by
  rw [steps_pieces] at steps
  obtain ⟨piece, front, left, _, before⟩ :=
    front_of_steps (Pieces.ofText cs).absolute steps
  obtain ⟨idle, split, all⟩ := dropIdle_split (Pieces.ofText cs).absolute front
  have isFront := prefix_of_dropIdle left
  have kept := slash_not_mem_kept left
  obtain ⟨k, stays⟩ := steps_idle idle.reverse fun p member =>
    all p (List.mem_reverse.mp member)
  rw [split, List.reverse_append, List.filterMap_append, stays,
    ← steps_text (Pieces.ofText cs).absolute kept] at before
  refine ⟨_, k, ?_, isFront, before.symm, fun mid last => ?_⟩
  · simp only [Path.parent?, String.toList_ofList, left]
  · rw [steps_text _ kept] at last
    exact front_of_stay last

theorem Leads.parent {base : Route} {cs : List Char} {outer : List String} {n : String}
    (leads : Leads base cs outer n) : ∃ front, Path.parent? (String.ofList cs) =
      some (String.ofList front) ∧ front <+: cs ∧
        ∀ up m, outer = up ++ [m] → Leads base front up m := by
  obtain ⟨mid, steps, spells⟩ := leads.steps
  obtain ⟨front, k, known, isFront, before, alone⟩ := steps_parent steps
  refine ⟨front, known, isFront, ?_⟩
  rintro up m rfl
  obtain ⟨less, steps, spelt⟩ := drop_stays before.symm spells (by simp)
  have last : ∃ most, less = most ++ [.name m] ∧ Spells most up := by
    rcases List.eq_nil_or_concat less with rfl | ⟨most, step, rfl⟩
    · cases up <;> cases spelt
    · rw [List.concat_eq_append] at steps spelt ⊢
      rcases spelt.last with ⟨rfl, _⟩ | ⟨_, _, rfl, same, inner⟩
      · rw [← List.append_assoc] at steps
        have none := alone _ steps
        rw [List.append_eq_nil_iff] at none
        rw [none.2] at spelt
        have empty := Spells.eq_nil (k := 1) spelt
        simp at empty
      · obtain ⟨rfl, last⟩ := List.append_inj' same rfl
        cases last
        exact ⟨most, rfl, inner⟩
  obtain ⟨most, rfl, inner⟩ := last
  rw [← List.append_assoc] at steps
  refine ⟨?_, most, steps, inner⟩
  rw [← leads.absolute]
  exact absolute_of_prefix isFront (by rw [steps]; simp)

/-- A path with a last name directly in the base has a parent that takes the base's steps, but for
some that stay where they are. -/
theorem Leads.parent_base {base : Route} {cs : List Char} {n : String} (leads : Leads base cs [] n) :
    ∃ front stays, Path.parent? (String.ofList cs) = some (String.ofList front) ∧ front <+: cs ∧
      Spells stays [] ∧ ∃ k, base.steps ++ stays = (ofText front).steps ++ List.replicate k .stay := by
  obtain ⟨mid, steps, spells⟩ := leads.steps
  obtain ⟨front, k, known, isFront, before, _⟩ := steps_parent steps
  exact ⟨front, mid, known, isFront, spells, k, before⟩

end Parent

theorem read_of_prefix {path : String} {front : List Char} (some : front ≠ [])
    (isFront : front <+: path.toList) (passed : read path = .ok (ofText path.toList)) :
    read (String.ofList front) = .ok (ofText front) := by
  obtain ⟨rest, whole⟩ := isFront
  have text : path = String.ofList front ++ String.ofList rest := by
    rw [← String.ofList_append, whole, String.ofList_toList]
  unfold read at passed ⊢
  split at passed
  · cases passed
  · next passable =>
    split at passed
    · cases passed
    · split at passed
      · cases passed
      · next fits =>
        have clean : ¬ isUnpassable (String.ofList front) = true := by
          intro bad
          refine passable ?_
          simp only [isUnpassable, String.toList_ofList, List.contains_iff_mem] at bad ⊢
          rw [← whole]
          exact List.mem_append_left _ bad
        have shorter : ¬ maxPath ≤ (String.ofList front).utf8ByteSize := by
          rw [text, String.utf8ByteSize_append] at fits
          omega
        rw [if_neg clean, if_neg (by rwa [String.toList_ofList]), if_neg shorter,
          String.toList_ofList]

end Route

end Spool
