import Spool.Proofs.Pool.Errands
import Spool.Proofs.Pool.Handling

/-!
Jobs that a store is at. While a worker waits for its store, nothing else happens to its job; nobody
else has a job for the same submission, as long as every submission is made once.
-/

namespace Spool

variable {κ : Type}

theorem rel_or_of_pairwise {α : Type} {R : α → α → Prop} {a b : α} {l : List α}
    (all : l.Pairwise R) (first : a ∈ l) (second : b ∈ l) (apart : a ≠ b) : R a b ∨ R b a := by
  induction all with
  | nil => cases first
  | cons head _ ih =>
    rcases List.mem_cons.mp first with rfl | inside
    · exact .inl (head b ((List.mem_cons.mp second).resolve_left apart.symm))
    · rcases List.mem_cons.mp second with rfl | within
      · exact .inr (head a inside)
      · exact ih inside within

namespace Pool

variable {p q : Pool κ} {events deeds : List (Event κ)}

theorem starting_of_started {c n : Nat} {phase : CallPhase κ} {next : Option (CallPhase κ)}
    (turn : CallerTurn p c phase next q events) (member : .started n ∈ events) :
    ∃ next, phase = .starting next ∧ next < p.size.workers := by
  cases turn with
  | started more => exact ⟨_, rfl, more⟩
  | _ => simp [not_heard] at member

theorem not_started_worker {w n : Nat} {worker new : Worker} {phase : WorkerPhase}
    (turn : WorkerTurn p w worker phase new q events) : .started n ∉ events := by
  cases turn <;> simp

theorem not_pushed_caller {c n : Nat} {ticket : Ticket} {outcome : Outcome} {phase : CallPhase κ}
    {next : Option (CallPhase κ)} (turn : CallerTurn p c phase next q events) :
    .pushed n ticket outcome ∉ events := by
  cases turn <;> simp [not_heard]

theorem pushing_of_pushed {w n : Nat} {ticket : Ticket} {outcome : Outcome} {worker new : Worker}
    {phase : WorkerPhase} (turn : WorkerTurn p w worker phase new q events)
    (member : .pushed n ticket outcome ∈ events) : n = w ∧ phase = .pushing ticket := by
  cases turn with
  | pushed =>
    cases List.mem_singleton.mp member
    exact ⟨rfl, rfl⟩
  | _ => simp at member

theorem Inner.not_pushed {c n : Nat} {ticket : Ticket} {outcome : Outcome}
    (inner : p.Inner (.caller c) events q) : .pushed n ticket outcome ∉ events := by
  cases inner with
  | caller _ turn => exact not_pushed_caller turn
  | dozed => exact List.not_mem_nil

/-- A turn inside in which no worker is started and no call of a store ends. -/
structure Calm (p : Pool κ) (events : List (Event κ)) (q : Pool κ) : Prop where
  move : ∃ move, p.step? move = some (q, events)
  inner : ∃ thread, p.Inner thread events q
  started : ∀ n, .started n ∉ events
  pushed : ∀ n ticket outcome, .pushed n ticket outcome ∉ events

theorem calm_of_callerStep? {c : Nat} {woken : Option Thread}
    (building : ∀ next, p.call? c = some (.starting next) → ¬ next < p.size.workers)
    (made : p.callerStep? c woken = some (q, events)) : p.Calm events q := by
  have inner := inner_of_callerStep? made
  refine ⟨⟨.caller c woken, made⟩, ⟨_, inner⟩, fun n member => ?_, fun _ _ _ => inner.not_pushed⟩
  cases inner with
  | caller there turn =>
    obtain ⟨next, rfl, more⟩ := starting_of_started turn member
    exact building next there more
  | dozed => cases member

theorem Inner.calm {w : Nat} (inner : p.Inner (.worker w) events q) {move : Move κ}
    (made : p.step? move = some (q, events))
    (idle : ∀ ticket, p.phase? w ≠ some (.pushing ticket)) : p.Calm events q := by
  refine ⟨⟨move, made⟩, ⟨_, inner⟩, ?_, ?_⟩
  · intro n member
    cases inner with
    | worker there turn => exact not_started_worker turn member
    | dozed => cases member
  · intro n ticket outcome member
    cases inner with
    | worker there turn =>
      obtain ⟨_, pushing⟩ := pushing_of_pushed turn member
      exact idle ticket (pushing ▸ phase?_of_worker? there)
    | dozed => cases member

theorem calm_of_rouse? {thread : Thread} (made : p.rouse? thread = some (q, events)) :
    p.Calm events q := by
  have inner := inner_of_rouse? made
  have silent : events = [] := by
    unfold rouse? at made
    split at made
    · cases made
      rfl
    · split at made
      · cases made
      · split at made <;> cases made
        rfl
  exact ⟨⟨.rouse thread, made⟩, ⟨_, inner⟩, by simp [silent], by simp [silent]⟩

theorem startReply?_isSome {c next : Nat} (there : p.call? c = some (.starting next))
    (more : next < p.size.workers) (reply : Except WorkerError Unit) :
    ∃ change, p.startReply? c reply = some change := by
  unfold startReply?
  rw [there]
  dsimp only
  rw [if_pos more]
  cases reply <;> exact ⟨_, rfl⟩

theorem heard_of_begin? {c : Nat} {call : Call κ} (made : p.begin? c call = some (q, events)) :
    events = [.called c call] := by
  unfold begin? at made
  split at made
  · cases made
  · split at made
    · split at made <;> cases made
      rfl
    · cases made
      rfl

theorem startReply?_ok {c : Nat} (made : p.startReply? c (.ok ()) = some (q, events)) :
    q.workers ≠ [] := by
  unfold startReply? at made
  split at made
  · split at made <;> cases made
    simp
  · cases made

theorem startReply?_error {c : Nat} {error : WorkerError}
    (made : p.startReply? c (.error error) = some (q, events)) :
    q.workers = p.workers ∧ ∀ next, q.call? c ≠ some (.starting next) := by
  unfold startReply? at made
  split at made
  · next next there =>
    split at made
    · dsimp only at made
      rw [terminations_eq] at made
      cases made
      refine ⟨goOn_workers .., fun other found => ?_⟩
      rw [call?_goOn, if_pos rfl, there] at found
      cases left : p.workers.length <;> rw [left] at found <;> cases found
    · cases made
  · cases made

theorem workers_of_phase? {w : Nat} {phase : WorkerPhase} (there : p.phase? w = some phase) :
    p.workers ≠ [] := by
  intro none
  simp [phase?, worker?, none] at there

section Starting

variable {thread : Thread} (inner : p.Inner thread events q) (none : ∀ n, .started n ∉ events)

include inner none

theorem Inner.workers : q.workers = [] ↔ p.workers = [] := by
  have same : q.workers.length = p.workers.length := by
    cases inner with
    | caller _ made =>
      rw [goOn_workers]
      cases made with
      | started => exact absurd (List.mem_cons_of_mem _ (List.mem_singleton_self _)) (none _)
      | _ => rfl
    | worker _ made => rw [setWorker_workers, List.length_set, (frame_of_workerTurn made).2]
    | dozed => rfl
  rw [← List.length_eq_zero_iff, same, List.length_eq_zero_iff]

theorem Inner.starting {c next : Nat} (there : q.call? c = some (.starting next)) :
    p.call? c = some (.starting next) := by
  cases inner with
  | caller found made =>
    rw [call?_caller found made] at there
    split at there
    · generalize known : some (CallPhase.starting next) = later at there made
      subst there
      cases made with
      | started => exact absurd (List.mem_cons_of_mem _ (List.mem_singleton_self _)) (none _)
      | abandoned | put | closed => cases (Goal.goal?_of_next known.symm).2
      | _ => cases known
    · exact there
  | worker _ made =>
    rcases call?_worker made c with same | woken
    · exact same ▸ there
    · rw [woken] at there
      obtain ⟨old, known, same⟩ := Option.map_eq_some_iff.mp there
      cases old <;> cases same
      exact known
  | dozed => exact there

end Starting

section Tickets

variable {n m : Nat} {ticket other : Ticket} {outcome : Outcome} {phase : WorkerPhase}

theorem Inner.pushing {thread : Thread} (inner : p.Inner thread events q)
    (there : p.phase? n = some (.pushing ticket))
    (goesOn : ∀ outcome, .pushed n ticket outcome ∉ events) :
    q.phase? n = some (.pushing ticket) := by
  cases inner with
  | @caller c phase next r _ found made =>
    rcases workers_of_callerTurn made with same | ⟨_, more⟩
    · rw [← there]
      simp only [phase?, worker?, goOn_workers, same]
    · simp only [phase?, worker?, goOn_workers, more]
      rw [phase?_started, if_neg, there]
      rintro rfl
      obtain ⟨worker, inside, _⟩ := worker?_of_phase? there
      exact Nat.lt_irrefl _ (List.getElem?_eq_some_iff.mp inside).1
  | @worker w worker new r _ found made =>
    rw [phase?_worker found made]
    split
    · next same =>
      subst same
      rw [phase?_of_worker? found] at there
      rw [Option.some.inj there] at made
      cases made
      exact absurd (List.mem_singleton_self _) (goesOn _)
    · exact there
  | dozed => exact there

theorem pushed_of_account (account : Account n ticket phase deeds)
    (member : .pushed m other outcome ∈ deeds) : other = ticket := by
  cases account <;> simp [execution] at member <;> first
    | exact member.2.1
    | (rcases member with same | told
       · exact same.2.1
       · obtain ⟨_, _, _, _, impossible | impossible⟩ := mem_told told <;> cases impossible)

theorem pushed_of_closed (closed : Closed n ticket deeds)
    (member : .pushed m other outcome ∈ deeds) : other = ticket := by
  cases closed with
  | handled =>
    simp [handling, execution] at member
    rcases member with same | told
    · exact same.2.1
    · obtain ⟨_, _, _, _, impossible | impossible⟩ := mem_told told <;> cases impossible
  | stopped => simp [stopping] at member

theorem Sound.record_of_pushing (sound : Sound events p)
    (there : p.phase? n = some (.pushing ticket)) : ∃ c kind, ticket.Asks kind ∧
      about ticket.serial events =
        [.counted c ticket, .appended c ticket, .removed n ticket, .began n kind ticket] := by
  obtain ⟨c, first, deeds, _, record, account⟩ := sound.recorded.held n _ ticket there rfl
  cases account with
  | @pushing kind asks => exact ⟨c, kind, asks, record⟩

theorem Sound.record_of_pushed (sound : Sound events p)
    (member : .pushed m ticket outcome ∈ events) : ∃ c deeds,
      about ticket.serial events = .counted c ticket :: .appended c ticket :: deeds ∧
        .pushed m ticket outcome ∈ deeds := by
  obtain ⟨c, n, first, deeds, _, record, deed, closed | ⟨phase, _, account⟩⟩ :=
    sound.record_of_deed member rfl ⟨rfl, rfl⟩
  · cases pushed_of_closed closed deed
    exact ⟨c, deeds, record, deed⟩
  · cases pushed_of_account account deed
    exact ⟨c, deeds, record, deed⟩

theorem counted_of_record {c : Nat} (record : about ticket.serial events =
    .counted c ticket :: deeds) : ticket ∈ countedTickets events := by
  refine List.mem_filterMap.mpr ⟨.counted c ticket, ?_, rfl⟩
  refine (List.mem_filter.mp (?_ : _ ∈ about ticket.serial events)).1
  rw [record]
  exact List.mem_cons_self

theorem eq_of_submission? (once : (submissions events).Nodup) (first : ticket ∈ countedTickets events)
    (second : other ∈ countedTickets events) {submission : Submission}
    (here : ticket.job.submission? = some submission)
    (there : other.job.submission? = some submission) : ticket = other := by
  refine Decidable.byContradiction fun apart => ?_
  have pairs := List.pairwise_filterMap.mp once
  rcases rel_or_of_pairwise pairs first second apart with different | different
  · exact different _ here _ there rfl
  · exact different _ there _ here rfl

theorem Sound.submission_of_pushing (sound : Sound events p)
    (there : p.phase? n = some (.pushing ticket)) : ∃ submission move,
      submission ∈ submissions events ∧ ticket.job = submission.job move := by
  obtain ⟨c, kind, asks, record⟩ := sound.record_of_pushing there
  cases known : ticket.job.submission? with
  | none =>
    have work := asks.work
    cases job : ticket.job with
    | transfer | transform => rw [job] at known; cases known
    | termination => rw [job] at work; cases work
  | some submission =>
    obtain ⟨move, same⟩ := Job.eq_of_submission? asks.1 known
    exact ⟨submission, move,
      List.mem_filterMap.mpr ⟨ticket, counted_of_record record, known⟩, same⟩

theorem Sound.pushing_unique (sound : Sound events p) (once : (submissions events).Nodup)
    (first : p.phase? n = some (.pushing ticket)) (second : p.phase? m = some (.pushing other))
    {submission : Submission} (here : ticket.job.submission? = some submission)
    (there : other.job.submission? = some submission) : n = m := by
  obtain ⟨_, _, _, record⟩ := sound.record_of_pushing first
  obtain ⟨_, _, _, record'⟩ := sound.record_of_pushing second
  cases eq_of_submission? once (counted_of_record record) (counted_of_record record') here there
  refine Decidable.byContradiction fun apart => ?_
  have most := weigh_le_one sound.accounted ticket.serial
  have two := weight_two (heldWeight (serialIs ticket.serial)) first second apart
  simp only [heldWeight, WorkerPhase.held?, Option.map_some, Option.getD_some, serialIs,
    if_true] at two
  unfold weigh at most
  omega

theorem Sound.not_pushed_of_pushing (sound : Sound events p) (once : (submissions events).Nodup)
    (first : p.phase? n = some (.pushing ticket)) {submission : Submission}
    (here : ticket.job.submission? = some submission)
    (there : other.job.submission? = some submission) : .pushed m other outcome ∉ events := by
  intro member
  obtain ⟨_, _, _, record⟩ := sound.record_of_pushing first
  obtain ⟨_, deeds, record', deed⟩ := sound.record_of_pushed member
  cases eq_of_submission? once (counted_of_record record) (counted_of_record record') here there
  rw [record] at record'
  cases record'
  simp at deed

end Tickets

end Pool

end Spool
