import Spool.Proofs.Pool.Story

/-!
The record of every job fits the place where the job is: counted while a put holds it, counted and
appended in the queue, handled up to the worker's phase with a worker, and handled to the end once
no one holds it. Jobs have different numbers, so that what happens to one leaves the records of the
others alone.
-/

namespace Spool

variable {κ : Type}

namespace Pool

variable {p q : Pool κ} {events more : List (Event κ)}

def serialIs (serial : Nat) (ticket : Ticket) : Nat :=
  if ticket.serial = serial then 1 else 0

theorem settled_serialIs (serial : Nat) : Settled (serialIs serial) := fun _ _ _ => rfl

theorem tally_range (s n : Nat) :
    tally (fun m => if m = s then 1 else 0) (List.range n) = if s < n then 1 else 0 := by
  induction n with
  | zero => rfl
  | succ n ih =>
    rw [List.range_succ, tally_append, ih]
    simp only [tally_cons, tally_nil]
    split <;> split <;> split <;> omega

theorem tally_counted (books : Accounted events p) (s : Nat) :
    tally (serialIs s) (countedTickets events) = if s < p.issued then 1 else 0 := by
  have mapped := tally_map (fun m => if m = s then 1 else 0) Ticket.serial (countedTickets events)
  rw [books.serials, tally_range] at mapped
  exact mapped.symm

theorem weigh_le_one (books : Accounted events p) (s : Nat) : p.weigh (serialIs s) ≤ 1 := by
  have all := books.weight _ (settled_serialIs s)
  rw [tally_counted books] at all
  split at all <;> omega

section Apart

variable {ticket other : Ticket} {w : Nat} {phase : WorkerPhase}

theorem weight_held (there : p.phase? w = some phase) (holds : phase.held? = some ticket) :
    1 ≤ p.workerSum (heldWeight (serialIs ticket.serial)) := by
  refine Nat.le_trans ?_ (le_workerSum there)
  simp [heldWeight, holds, serialIs]

theorem weight_item (member : ticket ∈ p.queue.items) :
    1 ≤ tally (serialIs ticket.serial) p.queue.items := by
  refine Nat.le_trans ?_ (le_tally _ member)
  simp [serialIs]

theorem weight_putter {putter : Putter Thread Ticket} (member : putter ∈ p.queue.putters) :
    1 ≤ tally (fun r => serialIs putter.item.serial r.item) p.queue.putters := by
  refine Nat.le_trans ?_ (le_tally (fun r => serialIs putter.item.serial r.item) member)
  simp [serialIs]

theorem serial_of_serialIs {serial : Nat} (pos : 0 < serialIs serial ticket) :
    ticket.serial = serial := by
  unfold serialIs at pos
  split at pos
  · assumption
  · cases pos

theorem held_of_weigh {serial : Nat} (pos : 0 < p.weigh (serialIs serial)) :
    (∃ putter ∈ p.queue.putters, putter.item.serial = serial) ∨
      (∃ item ∈ p.queue.items, item.serial = serial) ∨
      ∃ w phase now, p.phase? w = some phase ∧ phase.held? = some now ∧
        now.serial = serial := by
  unfold weigh at pos
  rcases Nat.eq_zero_or_pos (tally (fun putter => serialIs serial putter.item) p.queue.putters)
    with none | here
  · rcases Nat.eq_zero_or_pos (tally (serialIs serial) p.queue.items) with empty | here
    · have busy : 0 < tally (fun worker : Worker => heldWeight (serialIs serial) worker.phase)
          p.workers := by
        simp only [workerSum] at pos
        omega
      obtain ⟨worker, member, pos⟩ := exists_of_tally_pos _ busy
      obtain ⟨w, there⟩ := List.getElem?_of_mem member
      cases holds : worker.phase.held? with
      | none => simp [heldWeight, holds] at pos
      | some now =>
        simp only [heldWeight, holds, Option.map_some, Option.getD_some] at pos
        exact .inr (.inr ⟨w, worker.phase, now, phase?_of_worker? there, holds,
          serial_of_serialIs pos⟩)
    · obtain ⟨item, member, pos⟩ := exists_of_tally_pos _ here
      exact .inr (.inl ⟨item, member, serial_of_serialIs pos⟩)
  · obtain ⟨putter, member, pos⟩ := exists_of_tally_pos _ here
    exact .inl ⟨putter, member, serial_of_serialIs pos⟩

end Apart

theorem weight_two {v w : Nat} {a b : WorkerPhase} (f : WorkerPhase → Nat)
    (first : p.phase? v = some a) (second : p.phase? w = some b) (apart : v ≠ w) :
    f a + f b ≤ p.workerSum f := by
  obtain ⟨x, there, rfl⟩ := worker?_of_phase? first
  obtain ⟨y, here, rfl⟩ := worker?_of_phase? second
  exact tally_two (fun worker : Worker => f worker.phase) there here apart

/-!
Two holders have two numbers, since a number that both held would weigh two.
-/

section Holders

variable {putter : Putter Thread Ticket} {ticket now : Ticket} {w : Nat} {phase : WorkerPhase}

theorem serial_ne_of_putter_item (books : Accounted events p)
    (waits : putter ∈ p.queue.putters) (lies : ticket ∈ p.queue.items) :
    putter.item.serial ≠ ticket.serial := by
  intro same
  have one := weigh_le_one books putter.item.serial
  have waiting := weight_putter waits
  have lying := weight_item lies
  rw [← same] at lying
  simp only [weigh] at one
  omega

theorem serial_ne_of_putter_held (books : Accounted events p)
    (waits : putter ∈ p.queue.putters) (there : p.phase? w = some phase)
    (holds : phase.held? = some now) : putter.item.serial ≠ now.serial := by
  intro same
  have one := weigh_le_one books putter.item.serial
  have waiting := weight_putter waits
  have busy := weight_held there holds
  rw [← same] at busy
  simp only [weigh] at one
  omega

theorem serial_ne_of_item_held (books : Accounted events p)
    (lies : ticket ∈ p.queue.items) (there : p.phase? w = some phase)
    (holds : phase.held? = some now) : ticket.serial ≠ now.serial := by
  intro same
  have one := weigh_le_one books ticket.serial
  have lying := weight_item lies
  have busy := weight_held there holds
  rw [← same] at busy
  simp only [weigh] at one
  omega

theorem serial_ne_of_putters (books : Accounted events p) (linked : p.Linked)
    (waits : putter ∈ p.queue.putters) {other : Putter Thread Ticket}
    (stays : other ∈ p.queue.putters.filter fun r => r.thread ≠ putter.thread) :
    putter.item.serial ≠ other.item.serial := by
  intro same
  have one := weigh_le_one books putter.item.serial
  have left := tally_filter (fun r => serialIs putter.item.serial r.item)
    linked.distinct.putters waits
  have counts := le_tally (fun r => serialIs putter.item.serial r.item) stays
  simp only [serialIs, same, if_true, weigh] at left counts one
  omega

theorem serial_ne_of_front (books : Accounted events p) {rest : List Ticket}
    (front : p.queue.items = ticket :: rest) {other : Ticket} (behind : other ∈ rest) :
    ticket.serial ≠ other.serial := by
  intro same
  have one := weigh_le_one books ticket.serial
  have counts := le_tally (serialIs ticket.serial) behind
  simp only [weigh, front, tally_cons, serialIs, same, if_true] at counts one
  omega

theorem serial_ne_of_workers (books : Accounted events p) (there : p.phase? w = some phase)
    (holds : phase.held? = some now) {v : Nat} {after : WorkerPhase} {later : Ticket}
    (found : p.phase? v = some after) (holding : after.held? = some later) (apart : v ≠ w) :
    now.serial ≠ later.serial := by
  intro same
  have one := weigh_le_one books now.serial
  have both := weight_two (heldWeight (serialIs now.serial)) found there apart
  have mine : heldWeight (serialIs now.serial) after = 1 := by
    simp [heldWeight, holding, serialIs, same]
  have its : heldWeight (serialIs now.serial) phase = 1 := by
    simp [heldWeight, holds, serialIs]
  simp only [weigh] at one
  omega

end Holders

structure Recorded (events : List (Event κ)) (p : Pool κ) : Prop where
  unknown : ∀ s, p.issued ≤ s → about s events = []
  waiting : ∀ putter ∈ p.queue.putters, ∃ c, putter.thread = .caller c ∧
    about putter.item.serial events = [.counted c putter.item]
  queued : ∀ ticket ∈ p.queue.items, ∃ c,
    about ticket.serial events = [.counted c ticket, .appended c ticket]
  held : ∀ w phase now, p.phase? w = some phase → phase.held? = some now → ∃ c ticket deeds,
    ticket.serial = now.serial ∧
      about now.serial events = .counted c ticket :: .appended c ticket :: deeds ∧
      Account w ticket phase deeds
  gone : ∀ s, s < p.issued → p.weigh (serialIs s) = 0 → ∃ c w ticket deeds,
    ticket.serial = s ∧ about s events = .counted c ticket :: .appended c ticket :: deeds ∧
      Closed w ticket deeds

theorem recorded_new (size : PoolSize) : Recorded [] (new size : Pool κ) := by
  refine ⟨fun _ _ => rfl, ?_, ?_, ?_, ?_⟩
  · intro putter member
    cases member
  · intro ticket member
    cases member
  · intro w phase now there
    cases there
  · intro s few
    cases few

theorem recorded_of_same (recorded : Recorded events p) (silent : ∀ s, about s more = [])
    (issued : q.issued = p.issued) (putters : p.queue.SamePutters q.queue)
    (items : q.queue.items = p.queue.items)
    (phases : ∀ w phase now, q.phase? w = some phase → phase.held? = some now →
      p.phase? w = some phase)
    (weights : ∀ s, q.weigh (serialIs s) = p.weigh (serialIs s)) :
    Recorded (events ++ more) q := by
  have same : ∀ s, about s (events ++ more) = about s events := fun s => by
    rw [about_append, silent, List.append_nil]
  refine ⟨?_, ?_, ?_, ?_, ?_⟩
  · intro s few
    rw [same]
    exact recorded.unknown s (issued ▸ few)
  · intro putter member
    obtain ⟨old, known, thread, item⟩ := mem_of_samePutters putters member
    rw [same, ← item, ← thread]
    exact recorded.waiting old known
  · intro ticket member
    rw [same]
    exact recorded.queued ticket (items ▸ member)
  · intro w phase now there holds
    rw [same]
    exact recorded.held w phase now (phases w phase now there holds) holds
  · intro s few none
    rw [same]
    exact recorded.gone s (issued ▸ few) (weights s ▸ none)

theorem Recorded.lt_issued (recorded : Recorded events p) {s : Nat}
    (known : about s events ≠ []) : s < p.issued :=
  Nat.lt_of_not_le fun few => known (recorded.unknown s few)

/-- One job is heard of, and the others keep their records: what is left to show is that its own
record fits where it is now. -/
theorem recorded_of_one (recorded : Recorded events p) {s : Nat} (known : about s events ≠ [])
    (silent : ∀ t, s ≠ t → about t more = []) (issued : q.issued = p.issued)
    (waiting : ∀ putter ∈ q.queue.putters, ∃ old ∈ p.queue.putters,
      s ≠ old.item.serial ∧ old.thread = putter.thread ∧ old.item = putter.item)
    (queued : ∀ ticket ∈ q.queue.items, (ticket ∈ p.queue.items ∧ s ≠ ticket.serial) ∨
      ∃ c, about ticket.serial (events ++ more) = [.counted c ticket, .appended c ticket])
    (held : ∀ w phase now, q.phase? w = some phase → phase.held? = some now →
      (p.phase? w = some phase ∧ s ≠ now.serial) ∨ ∃ c ticket deeds, ticket.serial = now.serial ∧
        about now.serial (events ++ more) = .counted c ticket :: .appended c ticket :: deeds ∧
        Account w ticket phase deeds)
    (gone : ∀ t, q.weigh (serialIs t) = 0 → (p.weigh (serialIs t) = 0 ∧ s ≠ t) ∨
      ∃ c w ticket deeds, ticket.serial = t ∧
        about t (events ++ more) = .counted c ticket :: .appended c ticket :: deeds ∧
        Closed w ticket deeds) :
    Recorded (events ++ more) q := by
  have same : ∀ t, s ≠ t → about t (events ++ more) = about t events := by
    intro t other
    rw [about_append, silent t other, List.append_nil]
  refine ⟨?_, ?_, ?_, ?_, ?_⟩
  · intro t few
    have before := recorded.unknown t (issued ▸ few)
    rw [same t (fun found => known (found ▸ before)), before]
  · intro putter member
    obtain ⟨old, before, other, thread, item⟩ := waiting putter member
    rw [← thread, ← item, same _ other]
    exact recorded.waiting old before
  · intro ticket member
    rcases queued ticket member with ⟨before, other⟩ | now
    · rw [same _ other]
      exact recorded.queued ticket before
    · exact now
  · intro w phase now there holds
    rcases held w phase now there holds with ⟨before, other⟩ | new
    · rw [same _ other]
      exact recorded.held w phase now before holds
    · exact new
  · intro t few none
    rcases gone t none with ⟨before, other⟩ | now
    · rw [same t other]
      exact recorded.gone t (issued ▸ few) before
    · exact now

theorem recorded_counted (recorded : Recorded events p) {c : Nat} {job : Job}
    (issued : q.issued = p.issued + 1)
    (putters : q.queue.putters = p.queue.putters ++ [⟨.caller c, ⟨p.issued, job⟩, .arriving⟩])
    (items : q.queue.items = p.queue.items) (phases : ∀ w, q.phase? w = p.phase? w)
    (weights : ∀ s, q.weigh (serialIs s) = p.weigh (serialIs s) + serialIs s ⟨p.issued, job⟩) :
    Recorded (events ++ [.counted c ⟨p.issued, job⟩]) q := by
  have same : ∀ s, s ≠ p.issued →
      about s (events ++ [.counted c ⟨p.issued, job⟩]) = about s events := by
    intro s other
    rw [about_append]
    simp [about, Event.serial?, Ne.symm other]
  have old : ∀ s, about s events ≠ [] →
      about s (events ++ [.counted c ⟨p.issued, job⟩]) = about s events := fun s known =>
    same s (Nat.ne_of_lt (recorded.lt_issued known))
  refine ⟨?_, ?_, ?_, ?_, ?_⟩
  · intro s few
    rw [same s (by omega)]
    exact recorded.unknown s (by omega)
  · intro putter member
    rw [putters] at member
    rcases List.mem_append.mp member with before | new
    · obtain ⟨d, thread, known⟩ := recorded.waiting putter before
      refine ⟨d, thread, ?_⟩
      rw [old _ (known ▸ List.cons_ne_nil _ _), known]
    · rw [List.mem_singleton.mp new]
      refine ⟨c, rfl, ?_⟩
      rw [about_append, recorded.unknown _ (Nat.le_refl _)]
      simp [about, Event.serial?]
  · intro ticket member
    obtain ⟨d, known⟩ := recorded.queued ticket (items ▸ member)
    refine ⟨d, ?_⟩
    rw [old _ (known ▸ List.cons_ne_nil _ _), known]
  · intro w phase now there holds
    obtain ⟨d, ticket, deeds, serial, known, account⟩ :=
      recorded.held w phase now (phases w ▸ there) holds
    refine ⟨d, ticket, deeds, serial, ?_, account⟩
    rw [old _ (known ▸ List.cons_ne_nil _ _), known]
  · intro s few none
    rw [weights] at none
    have other : s ≠ p.issued := by
      intro impossible
      simp [serialIs, impossible] at none
    rw [same s other]
    exact recorded.gone s (by omega) (by omega)

theorem recorded_put (books : Accounted events p) (linked : p.Linked)
    (recorded : Recorded events p) {c : Nat} {putter : Putter Thread Ticket}
    (found : p.queue.putter? (.caller c) = some putter)
    (heard : ∀ s, about s more = if putter.item.serial = s then [.appended c putter.item] else [])
    (issued : q.issued = p.issued)
    (putters : q.queue.putters = p.queue.putters.filter fun r => r.thread ≠ putter.thread)
    (items : q.queue.items = p.queue.items ++ [putter.item])
    (phases : ∀ w, q.phase? w = p.phase? w)
    (weights : ∀ s, q.weigh (serialIs s) = p.weigh (serialIs s)) :
    Recorded (events ++ more) q := by
  obtain ⟨member, thread⟩ := Queue.mem_of_putter? found
  obtain ⟨d, caller, record⟩ := recorded.waiting putter member
  refine recorded_of_one recorded (s := putter.item.serial) (record ▸ List.cons_ne_nil _ _)
    (fun s other => by rw [heard, if_neg other]) issued ?_ ?_ ?_ ?_
  · intro r stays
    rw [putters] at stays
    exact ⟨r, (List.mem_filter.mp stays).1, serial_ne_of_putters books linked member stays, rfl,
      rfl⟩
  · intro ticket lies
    rw [items] at lies
    rcases List.mem_append.mp lies with before | new
    · exact .inl ⟨before, serial_ne_of_putter_item books member before⟩
    · rw [List.mem_singleton.mp new]
      rw [thread] at caller
      cases caller
      refine .inr ⟨c, ?_⟩
      rw [about_append, heard, if_pos rfl, record]
      rfl
  · intro w phase now there holds
    rw [phases] at there
    exact .inl ⟨there, serial_ne_of_putter_held books member there holds⟩
  · intro s none
    rw [weights] at none
    refine .inl ⟨none, fun same => ?_⟩
    have here := weight_putter member
    rw [same] at here
    simp only [weigh] at none
    omega

theorem recorded_fetched (books : Accounted events p) (recorded : Recorded events p) {w : Nat}
    {ticket : Ticket} {rest : List Ticket} (front : p.queue.items = ticket :: rest)
    {new : WorkerPhase} {deeds : List (Event κ)} (account : Account w ticket new deeds)
    (heard : ∀ s, about s more = if ticket.serial = s then deeds else [])
    (issued : q.issued = p.issued) (putters : p.queue.SamePutters q.queue)
    (items : q.queue.items = rest)
    (phases : ∀ v, q.phase? v = if v = w then some new else p.phase? v)
    (weights : ∀ s, q.weigh (serialIs s) = p.weigh (serialIs s)) :
    Recorded (events ++ more) q := by
  have member : ticket ∈ p.queue.items := front ▸ List.mem_cons_self
  obtain ⟨c, record⟩ := recorded.queued ticket member
  refine recorded_of_one recorded (s := ticket.serial) (record ▸ List.cons_ne_nil _ _)
    (fun s other => by rw [heard, if_neg other]) issued ?_ ?_ ?_ ?_
  · intro putter waits
    obtain ⟨old, before, thread, item⟩ := mem_of_samePutters putters waits
    exact ⟨old, before, (serial_ne_of_putter_item books before member).symm, thread, item⟩
  · intro other lies
    rw [items] at lies
    exact .inl ⟨front ▸ List.mem_cons_of_mem _ lies, serial_ne_of_front books front lies⟩
  · intro v phase now there holds
    rw [phases] at there
    split at there
    · next same =>
      cases there
      obtain ⟨held, known, serial⟩ := held?_of_account account
      rw [holds] at known
      cases known
      refine .inr ⟨c, ticket, deeds, serial.symm, ?_, same ▸ account⟩
      rw [serial, about_append, heard, if_pos rfl, record]
      rfl
    · exact .inl ⟨there, serial_ne_of_item_held books member there holds⟩
  · intro s none
    rw [weights] at none
    refine .inl ⟨none, fun same => ?_⟩
    have here := weight_item member
    rw [same] at here
    simp only [weigh] at none
    omega

theorem tally_released {s : Nat} (silent : about s more = []) :
    tally (serialIs s) (releasedTickets more) = 0 := by
  refine tally_eq_zero _ fun ticket member => ?_
  obtain ⟨event, known, released⟩ := List.mem_filterMap.mp member
  have apart := List.filter_eq_nil_iff.mp silent event known
  cases event with
  | released w other =>
    cases released
    simp only [Event.serial?, Option.some.injEq, decide_eq_true_eq] at apart
    exact if_neg apart
  | _ => cases released

theorem recorded_handled (books : Accounted events p) (recorded : Recorded events p) {w : Nat}
    {phase new : WorkerPhase} {now : Ticket} (there : p.phase? w = some phase)
    (holds : phase.held? = some now)
    (silent : ∀ s, now.serial ≠ s → about s more = [])
    (next : ∀ ticket deeds, Account w ticket phase deeds →
      Account w ticket new (deeds ++ about ticket.serial more) ∨
        new.held? = none ∧ Closed w ticket (deeds ++ about ticket.serial more))
    (issued : q.issued = p.issued) (putters : q.queue.putters = p.queue.putters)
    (items : q.queue.items = p.queue.items)
    (phases : ∀ v, q.phase? v = if v = w then some new else p.phase? v)
    (weights : ∀ s, q.weigh (serialIs s) + tally (serialIs s) (releasedTickets more) =
      p.weigh (serialIs s)) : Recorded (events ++ more) q := by
  obtain ⟨c, ticket, deeds, serial, record, account⟩ := recorded.held w phase now there holds
  have story : about now.serial (events ++ more) =
      .counted c ticket :: .appended c ticket :: (deeds ++ about now.serial more) := by
    rw [about_append, record]
    rfl
  have chapter := next ticket deeds account
  rw [serial] at chapter
  refine recorded_of_one recorded (s := now.serial) (record ▸ List.cons_ne_nil _ _) silent issued
    ?_ ?_ ?_ ?_
  · intro putter waits
    rw [putters] at waits
    exact ⟨putter, waits, (serial_ne_of_putter_held books waits there holds).symm, rfl, rfl⟩
  · intro other lies
    rw [items] at lies
    exact .inl ⟨lies, (serial_ne_of_item_held books lies there holds).symm⟩
  · intro v after later found holding
    rw [phases] at found
    split at found
    · next same =>
      cases found
      rcases chapter with going | ⟨none, _⟩
      · obtain ⟨held, known, number⟩ := held?_of_account going
        rw [holding] at known
        cases known
        refine .inr ⟨c, ticket, _, number.symm, ?_, same ▸ going⟩
        rw [number, serial]
        exact story
      · rw [holding] at none
        cases none
    · next apart =>
      exact .inl ⟨found, serial_ne_of_workers books there holds found holding apart⟩
  · intro s none
    by_cases mine : now.serial = s
    · subst mine
      rcases chapter with going | ⟨_, closed⟩
      · obtain ⟨held, known, number⟩ := held?_of_account going
        have busy := weight_held (show q.phase? w = some new by rw [phases, if_pos rfl]) known
        rw [number, serial] at busy
        simp only [weigh] at none
        omega
      · exact .inr ⟨c, w, ticket, _, serial, story, closed⟩
    · have before := weights s
      rw [none, tally_released (silent s mine)] at before
      exact .inl ⟨before.symm, mine⟩

@[simp] theorem about_heard (s : Nat) (goal : Goal) (c left : Nat) :
    about s (goal.heard (κ := κ) c left) = [] := by
  rcases heard_cases goal c left with same | same <;> rw [same] <;> rfl

theorem phase?_of_caller {c : Nat} {phase : CallPhase κ} {next : Option (CallPhase κ)}
    (turn : CallerTurn p c phase next q more) (w : Nat) (after : WorkerPhase) (now : Ticket)
    (there : (q.goOn c next).phase? w = some after) (holds : after.held? = some now) :
    p.phase? w = some after := by
  rcases workers_of_callerTurn turn with same | ⟨_, started⟩
  · simpa only [phase?, worker?, goOn_workers, same] using there
  · simp only [phase?, worker?, goOn_workers, started] at there
    rw [phase?_started] at there
    split at there
    · cases there
      cases holds
    · exact there

theorem recorded_caller (books : Accounted events p) (linked : p.Linked)
    (recorded : Recorded events p) {c : Nat} {phase : CallPhase κ} {next : Option (CallPhase κ)}
    (turn : CallerTurn p c phase next q more) : Recorded (events ++ more) (q.goOn c next) := by
  have weights := fun s => weigh_caller (serialIs s) linked turn
  have workers := phase?_caller turn
  have held := phase?_of_caller turn
  cases turn with
  | counted =>
    refine recorded_counted recorded (by simp) (by simp) (by simp) (workers rfl) fun s => ?_
    have weight := weights s
    simpa [Event.released?, Event.counted?] using weight
  | @put left goal putter _ found =>
    refine recorded_put books linked recorded found (fun s => ?_) (by simp) (by simp) (by simp)
      (workers rfl) fun s => ?_
    · rw [about_cons, about_heard]
      simp only [Event.serial?, Option.some.injEq]
    · have weight := weights s
      simpa [Event.released?, Event.counted?] using weight
  | abandoned | closed =>
    refine recorded_of_same recorded (fun s => about_heard s _ _ _) (by simp) ?_ (by simp) held
      fun s => ?_
    · simp [Queue.SamePutters]
    · have weight := weights s
      simpa [Event.released?, Event.counted?] using weight
  | _ =>
    refine recorded_of_same recorded (fun s => rfl) (by simp) ?_ (by simp) held fun s => ?_
    · simp [Queue.SamePutters]
    · have weight := weights s
      simpa [Event.released?, Event.counted?] using weight

theorem about_worker {w : Nat} {worker new : Worker} {phase : WorkerPhase} {now : Ticket}
    (turn : WorkerTurn p w worker phase new q more) (holds : phase.held? = some now) (s : Nat)
    (other : now.serial ≠ s) : about s more = [] := by
  cases turn with
  | stopped | fetched | locked | wokeExit | woke => cases holds
  | _ => cases holds; simp [about, Event.serial?, other]

theorem queue_of_workerTurn {w : Nat} {worker new : Worker} {phase : WorkerPhase}
    (turn : WorkerTurn p w worker phase new q more) (busy : phase ≠ .fetching) :
    q.queue.putters = p.queue.putters ∧ q.queue.items = p.queue.items ∧ q.issued = p.issued := by
  cases turn with
  | stopped | fetched => exact absurd rfl busy
  | _ => exact ⟨rfl, rfl, rfl⟩

theorem recorded_worker (books : Accounted events p) (proper : p.Proper)
    (recorded : Recorded events p) {w : Nat} {worker new : Worker}
    (there : p.worker? w = some worker)
    (turn : WorkerTurn p w worker worker.phase new q more) :
    Recorded (events ++ more) (q.setWorker w new) := by
  have weights := fun s => (weigh_worker (settled_serialIs s) there turn).1
  have phases := phase?_worker there turn
  have found := phase?_of_worker? there
  generalize worker.phase = phase at turn found
  cases holds : phase.held? with
  | some now =>
    have busy : phase ≠ .fetching := fun same => by rw [same] at holds; cases holds
    obtain ⟨putters, items, issued⟩ := queue_of_workerTurn turn busy
    exact recorded_handled books recorded found holds (about_worker turn holds)
      (fun ticket deeds account => account_worker account turn) issued putters items phases weights
  | none =>
    cases turn with
    | @stopped ticket rest front none =>
      have stop := Job.push?_eq_none_iff.mp none
      refine recorded_fetched books recorded front (.stopHanding stop) (fun s => ?_) rfl
        (Queue.samePutters_remove _ _ _) (by simp) phases fun s => ?_
      · simp only [about_cons, about_nil, Event.serial?, Option.some.injEq]
      · simpa [Event.released?] using weights s
    | @fetched ticket rest kind front some =>
      have asks : ticket.Asks kind :=
        ⟨proper.items ticket (front ▸ List.mem_cons_self), Job.push?_eq_some_iff.mp some⟩
      refine recorded_fetched books recorded front (.pushing asks) (fun s => ?_) rfl
        (Queue.samePutters_remove _ _ _) (by simp) phases fun s => ?_
      · simp only [about_cons, about_nil, Event.serial?, Option.some.injEq]
        split <;> rfl
      · simpa [Event.released?] using weights s
    | locked | wokeExit | woke =>
      refine recorded_of_same recorded (fun s => rfl) rfl rfl rfl ?_ fun s => ?_
      · intro v after now there holding
        rw [phases] at there
        split at there
        · cases there
          cases holding
        · exact there
      · simpa [Event.released?] using weights s
    | _ => cases holds

theorem recorded_turn (books : Accounted events p) (linked : p.Linked) (proper : p.Proper)
    (recorded : Recorded events p) (turn : p.Turn more q) : Recorded (events ++ more) q := by
  cases turn with
  | called | dropped =>
    exact recorded_of_same recorded (fun s => rfl) rfl rfl rfl (fun _ _ _ there _ => there)
      fun s => rfl
  | caller _ made => exact recorded_caller books linked recorded made
  | worker there made => exact recorded_worker books proper recorded there made
  | dozed doze =>
    have weights := fun s => weigh_turn (settled_serialIs s) linked (.dozed doze)
    refine recorded_of_same recorded (fun s => rfl) rfl (Queue.samePutters_of_doze doze)
      (Queue.items_of_doze doze) (fun _ _ _ there _ => there) fun s => ?_
    simpa using weights s

end Pool

end Spool
