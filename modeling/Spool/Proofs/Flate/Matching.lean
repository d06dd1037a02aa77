import Mathlib.Tactic.Common
import Spool.Flate.Segment
import Spool.Proofs.Flate.Blocks

/-!
The tokens of some content stand for it, however the chains are filled: what is copied was compared.
Cut into segments, they still do.
-/

namespace Spool.Flate

variable {src : ByteArray} {a b c pos : Nat}

theorem get!_eq (inside : pos < src.size) : src.get! pos = src[pos] :=
  getElem!_pos src.data pos inside

theorem get!_extract {last : Nat} (before : pos < last) (inside : last ≤ src.size) :
    (src.extract 0 last).get! pos = src.get! pos := by
  have there : pos < (src.extract 0 last).size := by
    rw [ByteArray.size_extract]
    omega
  rw [get!_eq there, get!_eq (Nat.lt_of_lt_of_le before inside), ByteArray.getElem_extract]
  simp only [Nat.zero_add]

theorem extract_push (inside : pos < src.size) :
    (src.extract 0 pos).push (src.get! pos) = src.extract 0 (pos + 1) := by
  rw [get!_eq inside, ByteArray.extract_eq_extract_append_extract pos (Nat.zero_le _) (Nat.le_succ pos),
    ByteArray.extract_add_one inside, ByteArray.append_toByteArray_singleton]

/-- Equal bytes, so many of them, from two positions on. -/
def SameFrom (src : ByteArray) (a b count : Nat) : Prop :=
  ∀ i < count, src.get! (a + i) = src.get! (b + i)

theorem copyBack_extract {distance count : Nat} (away : 0 < distance) (most : distance ≤ pos)
    (inside : pos + count ≤ src.size) (same : SameFrom src (pos - distance) pos count) :
    Token.copyBack (src.extract 0 pos) distance count = src.extract 0 (pos + count) := by
  induction count generalizing pos with
  | zero => rfl
  | succ count ih =>
    have size : (src.extract 0 pos).size = pos := by
      rw [ByteArray.size_extract]
      omega
    have byte : (src.extract 0 pos).get! (pos - distance) = src.get! pos := by
      rw [get!_extract (by omega) (by omega)]
      exact same 0 (Nat.succ_pos count)
    rw [Token.copyBack, size, byte, extract_push (by omega), ih (by omega) (by omega), Nat.add_right_comm,
      Nat.add_assoc]
    intro i less
    have next := same (i + 1) (Nat.succ_lt_succ less)
    rw [show pos + 1 - distance + i = pos - distance + (i + 1) by omega,
      show pos + 1 + i = pos + (i + 1) by omega]
    exact next

/-- Tokens stand for the content between two positions. -/
structure Spans (src : ByteArray) (a : Nat) (tokens : List Token) (b : Nat) : Prop where
  fits : ∀ t ∈ tokens, t.Fits
  expands : Token.expandAll? (src.extract 0 a) tokens = some (src.extract 0 b)
  size : a + (tokens.map Token.size).sum = b
  inside : b ≤ src.size

theorem expandAll?_append (out : ByteArray) (ts us : List Token) :
    Token.expandAll? out (ts ++ us) =
      (Token.expandAll? out ts).bind fun out => Token.expandAll? out us := by
  induction ts generalizing out with
  | nil => rfl
  | cons t ts ih =>
    simp only [List.cons_append, Token.expandAll?]
    cases t.expand? out with
    | none => rfl
    | some out => exact ih out

namespace Spans

theorem nil (inside : a ≤ src.size) : Spans src a [] a where
  fits _ member := by cases member
  expands := rfl
  size := rfl
  inside := inside

theorem append {ts us : List Token} (first : Spans src a ts b) (second : Spans src b us c) :
    Spans src a (ts ++ us) c where
  fits t member := (List.mem_append.mp member).elim (first.fits t) (second.fits t)
  expands := by rw [expandAll?_append, first.expands, Option.bind_some, second.expands]
  size := by rw [List.map_append, List.sum_append, ← Nat.add_assoc, first.size, second.size]
  inside := second.inside

theorem literal (inside : pos < src.size) : Spans src pos [.literal (src.get! pos)] (pos + 1) where
  fits t member := by
    cases List.mem_singleton.mp member
    trivial
  expands := by simp only [Token.expandAll?, Token.expand?, Option.bind_some, extract_push inside]
  size := rfl
  inside := inside

end Spans

namespace Matching

/-- What was found can be copied. -/
structure Found.Holds (src : ByteArray) (pos : Nat) (f : Found) : Prop where
  least : Token.minLength ≤ f.length
  most : f.length ≤ Token.maxLength
  away : 0 < f.distance
  within : f.distance ≤ Token.maxDistance
  behind : f.distance ≤ pos
  inside : pos + f.length ≤ src.size
  same : SameFrom src (pos - f.distance) pos f.length

theorem Found.Holds.spans {f : Found} (holds : f.Holds src pos) :
    Spans src pos [.copy f.length f.distance] (pos + f.length) where
  fits t member := by
    cases List.mem_singleton.mp member
    exact ⟨holds.least, holds.most, holds.away, holds.within⟩
  expands := by
    have size : (src.extract 0 pos).size = pos := by
      have inside := holds.inside
      rw [ByteArray.size_extract]
      omega
    simp only [Token.expandAll?, Token.expand?, size, holds.away, holds.behind, and_self, if_true,
      Option.bind_some, copyBack_extract holds.away holds.behind holds.inside holds.same]
  size := rfl
  inside := holds.inside

theorem matchLength_le (src : ByteArray) (a b limit : Nat) : matchLength src a b limit ≤ limit := by
  induction limit generalizing a b with
  | zero => exact Nat.le_refl 0
  | succ limit ih =>
    unfold matchLength
    split
    · exact Nat.succ_le_succ (ih ..)
    · exact Nat.zero_le _

theorem sameFrom_matchLength (src : ByteArray) (a b limit : Nat) :
    SameFrom src a b (matchLength src a b limit) := by
  induction limit generalizing a b with
  | zero => exact fun i less => absurd less (Nat.not_lt_zero i)
  | succ limit ih =>
    unfold matchLength
    split
    · next alike =>
      intro i less
      cases i with
      | zero => exact eq_of_beq alike
      | succ i =>
        have later := ih (a + 1) (b + 1) i (Nat.lt_of_succ_lt_succ less)
        rwa [Nat.add_assoc, Nat.add_assoc, Nat.add_comm 1 i] at later
    · exact fun i less => absurd less (Nat.not_lt_zero i)

/-- A measured match that is long enough can be copied. -/
theorem holds_of_matchLength {distance least : Nat} (two : 2 ≤ least) (some : distance ≠ 0)
    (reached : distance ≤ reach src pos)
    (longer : least < matchLength src (pos - distance) pos (lookahead src pos)) :
    Found.Holds src pos ⟨matchLength src (pos - distance) pos (lookahead src pos), distance⟩ where
  least := Nat.lt_of_le_of_lt two longer
  most := Nat.le_trans (matchLength_le ..) (Nat.min_le_left ..)
  away := Nat.pos_of_ne_zero some
  within := Nat.le_trans reached (Nat.le_trans (Nat.min_le_right ..) (Nat.sub_le ..))
  behind := Nat.le_trans reached (Nat.min_le_left ..)
  inside := by
    have most := Nat.le_trans (matchLength_le src (pos - distance) pos (lookahead src pos))
      (Nat.min_le_right ..)
    simp only
    omega
  same := sameFrom_matchLength src (pos - distance) pos (lookahead src pos)

theorem search_holds {chains : Chains} {left entry best : Nat} {found : Option Found}
    (two : 2 ≤ best) (holds : ∀ f, found = some f → f.Holds src pos) {f : Found}
    (finds : search src chains pos left entry best found = some f) : f.Holds src pos := by
  fun_induction search src chains pos left entry best found with
  | case1 | case2 => exact holds f finds
  | case3 left entry best found _ distance near _ length longer =>
    obtain ⟨-, some, reached⟩ : entry ≠ 0 ∧ distance ≠ 0 ∧ ¬ reach src pos < distance := by
      simpa only [not_or] using near
    cases finds
    exact holds_of_matchLength two some (Nat.not_lt.mp reached) longer
  | case4 left entry best found _ distance near _ length longer _ ih =>
    obtain ⟨-, some, reached⟩ : entry ≠ 0 ∧ distance ≠ 0 ∧ ¬ reach src pos < distance := by
      simpa only [not_or] using near
    refine ih (Nat.le_trans two (Nat.le_of_lt longer)) (fun g same => ?_) finds
    cases same
    exact holds_of_matchLength two some (Nat.not_lt.mp reached) longer
  | case5 _ _ _ _ _ _ _ _ _ _ ih => exact ih two holds finds
  | case6 _ _ _ _ _ _ _ _ ih => exact ih two holds finds

theorem longest_holds {chains : Chains} {held : Nat} {f : Found}
    (finds : longest src chains pos held = some f) : f.Holds src pos := by
  simp only [longest] at finds
  split at finds
  · cases finds
  · split at finds
    · next found searched =>
      split at finds
      · cases finds
      · split at finds
        · cases finds
        · cases finds
          exact search_holds (Nat.le_max_right ..) (fun _ impossible => by cases impossible) searched
    · cases finds

/-- Up to where the content is settled when the search has come to `pos`: a match that is held
begins one position before. -/
def settled (pos : Nat) : Option Found → Nat
  | none => pos
  | some _ => pos - 1

/-- A match that is held was found at the position before. -/
def Keeps (src : ByteArray) (pos : Nat) (held : Option Found) : Prop :=
  ∀ f, held = some f → 0 < pos ∧ f.Holds src (pos - 1)

theorem keeps_none (src : ByteArray) (pos : Nat) : Keeps src pos none :=
  fun _ impossible => by cases impossible

theorem keeps_some {f : Found} (holds : f.Holds src pos) : Keeps src (pos + 1) (some f) := by
  rintro _ ⟨⟩
  exact ⟨Nat.succ_pos pos, holds⟩

/-- A step goes on, and its tokens stand for what it settles. -/
theorem step_spans {held next : Option Found} (inside : pos < src.size) (keeps : Keeps src pos held)
    (holds : ∀ f, next = some f → f.Holds src pos) :
    0 < (step src pos held next).2.1 ∧
      Keeps src (pos + (step src pos held next).2.1) (step src pos held next).2.2 ∧
      Spans src (settled pos held) (step src pos held next).1
        (settled (pos + (step src pos held next).2.1) (step src pos held next).2.2) := by
  have skipped : 0 < pos → Spans src (pos - 1) [.literal (src.get! (pos - 1))] pos := by
    intro some
    have spans := Spans.literal (Nat.lt_of_le_of_lt (Nat.sub_le pos 1) inside)
    rwa [Nat.sub_add_cancel some] at spans
  cases held with
  | none =>
    cases next with
    | none => exact ⟨Nat.one_pos, keeps_none src _, .literal inside⟩
    | some f =>
      have found := holds f rfl
      simp only [step]
      split
      · exact ⟨Nat.lt_of_lt_of_le (by decide) found.least, keeps_none src _, found.spans⟩
      · exact ⟨Nat.one_pos, keeps_some found, .nil (Nat.le_of_lt inside)⟩
  | some h =>
    obtain ⟨pos0, kept⟩ := keeps h rfl
    cases next with
    | none =>
      have least : 3 ≤ h.length := kept.least
      have place : pos + (h.length - 1) = pos - 1 + h.length := by omega
      refine ⟨Nat.sub_pos_of_lt (Nat.lt_of_lt_of_le (by decide) least), keeps_none src _, ?_⟩
      simp only [step, settled, place]
      exact kept.spans
    | some f =>
      have found := holds f rfl
      simp only [step]
      split
      · exact ⟨Nat.lt_of_lt_of_le (by decide) found.least, keeps_none src _,
          (skipped pos0).append found.spans⟩
      · exact ⟨Nat.one_pos, keeps_some found, skipped pos0⟩

/-- A match that is held does not end at the end of the content only. -/
theorem le_of_settled {held : Option Found} (keeps : Keeps src pos held)
    (inside : settled pos held ≤ src.size) :
    pos ≤ src.size ∧ (src.size ≤ pos → settled pos held = src.size) := by
  cases held with
  | none => exact ⟨inside, fun past => Nat.le_antisymm inside past⟩
  | some h =>
    obtain ⟨some, kept⟩ := keeps h rfl
    have least : 3 ≤ h.length := kept.least
    have within := kept.inside
    exact ⟨by omega, fun past => by omega⟩

/-- Steps whose tokens stand for the content from a position on. -/
inductive Leads (src : ByteArray) : Nat → List Step → Prop
  | done : Leads src src.size []
  | step {a b : Nat} {s : Step} {rest : List Step} : Spans src a s.tokens b → Leads src b rest →
      Leads src a (s :: rest)

theorem leads_stepsFrom {fuel : Nat} {held : Option Found} {chains : Chains} (done : List Step)
    (enough : src.size ≤ pos + fuel) (keeps : Keeps src pos held)
    (inside : settled pos held ≤ src.size) :
    ∃ steps, stepsFrom src fuel pos held chains done = done.reverse ++ steps ∧
      Leads src (settled pos held) steps := by
  obtain ⟨bounded, all⟩ := le_of_settled keeps inside
  induction fuel generalizing pos held chains done with
  | zero =>
    refine ⟨[], (List.append_nil _).symm, ?_⟩
    rw [all enough]
    exact .done
  | succ fuel ih =>
    rw [stepsFrom]
    split
    · next past =>
      refine ⟨[], (List.append_nil _).symm, ?_⟩
      rw [all past]
      exact .done
    · next more =>
      dsimp only
      generalize found : longest src (chains.insert src pos) pos ((held.map (·.length)).getD 0) = next
      obtain ⟨some, kept, spans⟩ := step_spans (Nat.not_le.mp more) keeps fun f finds =>
        longest_holds (found.trans finds)
      generalize step src pos held next = result at *
      obtain ⟨tokens, count, held⟩ := result
      obtain ⟨within, ends⟩ := le_of_settled kept spans.inside
      simp only at some kept spans within ends
      let now : Step := ⟨tokens, pos + count, min (reach src pos + count) Token.maxDistance⟩
      obtain ⟨steps, same, leads⟩ := ih (now :: done) (by omega) kept spans.inside within ends
      refine ⟨now :: steps, ?_, .step spans leads⟩
      rw [same, List.reverse_cons, List.append_assoc, List.singleton_append]

theorem leads_steps (src : ByteArray) : Leads src 0 (steps src) := by
  obtain ⟨all, same, leads⟩ := leads_stepsFrom [] (Nat.le_of_eq (Nat.zero_add src.size).symm)
    (keeps_none src 0) (Nat.zero_le _)
  rw [steps, same]
  exact leads

end Matching

namespace Segment

open Matching

theorem Draft.foldl_add (d : Draft) (ts : List Token) :
    (ts.foldl Draft.add d).start = d.start ∧
      (ts.foldl Draft.add d).size = d.size + (ts.map Token.size).sum := by
  induction ts generalizing d with
  | nil => exact ⟨rfl, rfl⟩
  | cons t ts ih =>
    obtain ⟨start, size⟩ := ih (d.add t)
    refine ⟨start, size.trans ?_⟩
    rw [List.map_cons, List.sum_cons, ← Nat.add_assoc]
    rfl

/-- What was collected stands for the content from its start on, and then so does what is added. -/
theorem spans_add {d : Draft} {ts : List Token} {a b : Nat}
    (spans : Spans src d.start d.tokens.reverse a) (now : Spans src a ts b)
    (place : d.start + d.size = a) {e : Draft} (added : ts.foldl Draft.add d = e) :
    e.start = d.start ∧ e.start + e.size = b ∧ Spans src e.start e.tokens.reverse b := by
  subst added
  obtain ⟨start, size⟩ := Draft.foldl_add d ts
  refine ⟨start, ?_, ?_⟩
  · rw [start, size, ← Nat.add_assoc, place, now.size]
  · rw [start, Draft.tokens_foldl_add, List.reverse_append, List.reverse_reverse]
    exact spans.append now

theorem parts_segment {d : Draft} {next window pos : Nat} {rest : List Segment}
    (spans : Spans src d.start d.tokens.reverse pos) (place : d.start + d.size = pos)
    (parts : Parts src pos rest) : Parts src d.start (d.segment next window :: rest) := by
  subst place
  exact Parts.cons (s := d.segment next window) spans.fits spans.expands spans.inside parts

theorem parts_cutFrom {d : Draft} {next window pos : Nat} {steps : List Step}
    (spans : Spans src d.start d.tokens.reverse pos) (place : d.start + d.size = pos)
    (leads : Leads src pos steps) : Parts src d.start (cutFrom d next window steps) := by
  induction leads generalizing d next window with
  | done =>
    unfold cutFrom
    split
    · next empty =>
      have all := spans.size
      rw [List.isEmpty_iff.mp empty] at all
      rw [show d.start = src.size from all]
      exact .nil
    · exact parts_segment spans place .nil
  | @step a b s rest now leads ih =>
    obtain ⟨e, added⟩ : ∃ e, s.tokens.foldl Draft.add d = e := ⟨_, rfl⟩
    obtain ⟨start, grown, collected⟩ := spans_add spans now place added
    simp only [cutFrom, added]
    cases e.isComplete with
    | true =>
      rw [← start]
      refine parts_segment collected grown ?_
      have empty : Spans src ({ start := b } : Draft).start [] b := .nil now.inside
      have later : Parts src b (cutFrom { start := b } s.next s.window rest) := ih empty rfl
      rw [grown]
      exact later
    | false =>
      rw [← start]
      exact ih collected grown

/-- The segments of some content make up all of it. -/
theorem parts_cut (src : ByteArray) : Parts src 0 (cut (steps src)) := by
  have spans : Spans src 0 [] 0 := .nil (Nat.zero_le _)
  have parts : Parts src ({} : Draft).start (cutFrom {} 0 0 (steps src)) :=
    parts_cutFrom spans rfl (leads_steps src)
  exact parts

end Segment

end Spool.Flate
