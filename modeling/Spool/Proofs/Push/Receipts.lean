import Spool.Proofs.ObjectKey
import Spool.Push.Memory
import Spool.Push.Store

/-!
Pushes into a key-value store, call by call. Between two calls of a push the world may become any
other. Whatever it does, and whatever the store answers, a push puts one value at most, and it
removes its source only for a value that was taken.
-/

namespace Spool

variable {ρ σ : Type} {keys : KeyStore σ}

/-- What a program asks of the world. -/
inductive Ask
  | read (path : String)
  | size (path : String)
  | act (action : Action)
  | put (key : String) (value : ByteArray)

namespace Ask

def isPut : Ask → Bool
  | put _ _ => true
  | read _ | size _ | act _ => false

end Ask

namespace Program

/-- The program can make these calls, each on the world beside it, and end in this result. -/
inductive Makes (keys : KeyStore σ) : Program ρ → List (World σ × Ask) → ρ → Prop
  | done (result : ρ) : Makes keys (.done result) [] result
  | read {path : String} {next : Disk.Reply ByteArray → Program ρ} {asks : List (World σ × Ask)}
      {result : ρ} (w : World σ) :
      Makes keys (next (w.disk.read path)) asks result →
      Makes keys (.read path next) ((w, .read path) :: asks) result
  | size {path : String} {next : Option Nat → Program ρ} {asks : List (World σ × Ask)} {result : ρ}
      (w : World σ) :
      Makes keys (next (w.disk.size? path)) asks result →
      Makes keys (.size path next) ((w, .size path) :: asks) result
  | act {action : Action} {next : Disk.Reply Unit → Program ρ} {asks : List (World σ × Ask)}
      {result : ρ} (w : World σ) :
      Makes keys (next (w.disk.act action).2) asks result →
      Makes keys (.act action next) ((w, .act action) :: asks) result
  | put {key : String} {value : ByteArray} {next : Except PushError Unit → Program ρ}
      {asks : List (World σ × Ask)} {result : ρ} (w : World σ) :
      Makes keys (next (keys.put w.keys key value).2) asks result →
      Makes keys (.put key value next) ((w, .put key value) :: asks) result

def history (keys : KeyStore σ) (w : World σ) : Program ρ → List (World σ × Ask)
  | done _ => []
  | read path next => (w, .read path) :: history keys w (next (w.disk.read path))
  | size path next => (w, .size path) :: history keys w (next (w.disk.size? path))
  | act action next =>
    let (disk, reply) := w.disk.act action
    (w, .act action) :: history keys { w with disk } (next reply)
  | put key value next =>
    let (state, reply) := keys.put w.keys key value
    (w, .put key value) :: history keys { w with keys := state } (next reply)

theorem makes_history (p : Program ρ) (w : World σ) :
    p.Makes keys (p.history keys w) (p.run keys w).2 := by
  induction p generalizing w with
  | done result => exact .done result
  | read path next ih => exact .read w (ih _ w)
  | size path next ih => exact .size w (ih _ w)
  | act action next ih => exact .act w (ih _ _)
  | put key value next ih => exact .put w (ih _ _)

end Program

namespace Job

def moves : Job → Bool
  | transfer job => job.move
  | transform job => job.move
  | termination => false

/-- The value that a job puts, and its key, once this is the content of the source. -/
inductive Stores : Job → ByteArray → String → ByteArray → Prop
  | transfer (job : Transfer) (content : ByteArray) :
      Stores (.transfer job) content job.remote content
  | transform {job : Transform} {content : ByteArray} {key : String} :
      ObjectKey.ofDigest? job.dir (Sha256.hex (Flate.Stream.compress content)) job.suffix =
        some key →
      Stores (.transform job) content key (Flate.Stream.compress content)

theorem execute_error {job : Job} (fresh : job.verdict? = none) (e : PushError) :
    ∃ done, job.execute (.ofResult (.error e)) = .ok (done, false) ∧ done.code = e.code := by
  cases job with
  | termination => cases fresh
  | transfer job =>
    obtain ⟨source, remote, move, verdict⟩ := job
    cases fresh
    exact ⟨_, rfl, rfl⟩
  | transform job =>
    obtain ⟨source, dir, suffix, move, verdict, hash⟩ := job
    cases fresh
    exact ⟨_, rfl, rfl⟩

end Job

namespace KeyValue

open Program

variable {job : Job} {asks : List (World σ × Ask)} {result : Except PushError String}

/-- What is left of a push once its value was answered. -/
inductive Answered (job : Job) (source : String) :
    Except PushError Unit → List (World σ × Ask) → Except PushError String → Prop
  | refused (e : PushError) : Answered job source (.error e) [] (.error e)
  | kept (hash : String) : job.moves = false → Answered job source (.ok ()) [] (.ok hash)
  | removed (u : World σ) (result : Except PushError String) : job.moves = true →
      Answered job source (.ok ()) [(u, .act (.unlink source))] result

/-- All that a push can go through. -/
inductive Course (keys : KeyStore σ) (job : Job) (source : String) :
    List (World σ × Ask) → Except PushError String → Prop
  | unread {w : World σ} {cause : IoError} : w.disk.read source = .error cause →
      Course keys job source [(w, .read source)] (.error (.io source cause))
  | read {w v : World σ} {content value : ByteArray} {key : String} {rest : List (World σ × Ask)}
      {result : Except PushError String} :
      w.disk.read source = .ok content → job.Stores content key value →
      Answered job source (keys.put v.keys key value).2 rest result →
      Course keys job source ((w, .read source) :: (v, .put key value) :: rest) result

theorem answered_of_finish {source hash : String}
    (makes : (Push.finish job.moves source hash).Makes keys asks result) :
    Answered job source (.ok ()) asks result := by
  unfold Push.finish at makes
  cases moves : job.moves with
  | false =>
    rw [moves] at makes
    cases makes
    exact .kept hash moves
  | true =>
    rw [moves] at makes
    cases makes with
    | act u makes =>
      generalize (u.disk.act (.unlink source)).2 = reply at makes
      cases reply <;> (cases makes; exact .removed u _ moves)

theorem course_of_store {source key hash : String} {content value : ByteArray} {w : World σ}
    (read : w.disk.read source = .ok content) (stores : job.Stores content key value)
    (makes : (store key value job.moves source hash).Makes keys asks result) :
    Course keys job source ((w, .read source) :: asks) result := by
  cases makes with
  | put v makes =>
    refine .read read stores ?_
    cases reply : (keys.put v.keys key value).2 with
    | error e =>
      rw [reply] at makes
      cases makes
      exact .refused e
    | ok =>
      rw [reply] at makes
      exact answered_of_finish makes

theorem push_eq_read {source : String} (given : job.source? = some source) : ∃ next,
    Store.keyValue.push job = .read source next ∧
      (∀ cause, next (.error cause) = Push.failIo source cause) ∧
      ∀ content, ∃ key value hash, job.Stores content key value ∧
        next (.ok content) = store key value job.moves source hash := by
  cases job with
  | termination => cases given
  | transfer job =>
    cases given
    refine ⟨_, rfl, fun cause => rfl, fun content => ?_⟩
    exact ⟨job.remote, content, "", .transfer job content, rfl⟩
  | transform job =>
    cases given
    refine ⟨_, rfl, fun cause => rfl, fun content => ?_⟩
    have digest : ObjectKey.IsDigest (Packed.ofContent content).hash := ObjectKey.isDigest_hex _
    exact ⟨_, _, _, .transform (digest.ofDigest?_eq job.dir job.suffix), rfl⟩

theorem course_of_push {source : String} (given : job.source? = some source)
    (makes : (Store.keyValue.push job).Makes keys asks result) :
    Course keys job source asks result := by
  obtain ⟨next, push, failed, goesOn⟩ := push_eq_read given
  rw [push] at makes
  cases makes with
  | read w makes =>
    cases reply : w.disk.read source with
    | error cause =>
      rw [reply, failed] at makes
      cases makes
      exact .unread reply
    | ok content =>
      obtain ⟨key, value, hash, stores, rest⟩ := goesOn content
      rw [reply, rest] at makes
      exact course_of_store reply stores makes

/-- The source goes for a stored value only, and what failed before leaves it. -/
structure Secured (keys : KeyStore σ) (job : Job) (source : String) (asks : List (World σ × Ask))
    (result : Except PushError String) : Prop where
  once : asks.countP (·.2.isPut) ≤ 1
  stored : ∀ before after v key value, asks = before ++ (v, .put key value) :: after →
    ∃ w content, (w, .read source) ∈ before ∧ w.disk.read source = .ok content ∧
      job.Stores content key value
  removed : ∀ before after u action, asks = before ++ (u, .act action) :: after →
    action = .unlink source ∧ job.moves = true ∧ ∃ w content v key value,
      (w, .read source) ∈ before ∧ w.disk.read source = .ok content ∧
      job.Stores content key value ∧
      (v, .put key value) ∈ before ∧ (keys.put v.keys key value).2 = .ok ()
  unread : ∀ w cause, (w, .read source) ∈ asks → w.disk.read source = .error cause →
    asks = [(w, .read source)] ∧ result = .error (.io source cause)
  refused : ∀ v key value e, (v, .put key value) ∈ asks →
    (keys.put v.keys key value).2 = .error e →
      (∀ u action, (u, .act action) ∉ asks) ∧ result = .error e ∧
        (job.verdict? = none → ∃ done, job.execute (.ofResult result) = .ok (done, false) ∧
          done.code = e.code)

theorem Answered.eq_of_mem {source : String} {reply : Except PushError Unit} {ask : World σ × Ask}
    (answered : Answered job source reply asks result) (member : ask ∈ asks) :
    reply = .ok () ∧ job.moves = true ∧ ask.2 = .act (.unlink source) := by
  cases answered with
  | refused | kept => cases member
  | removed u result moves =>
    cases List.mem_singleton.mp member
    exact ⟨rfl, moves, rfl⟩

theorem Answered.of_error {source : String} {e : PushError}
    (answered : Answered job source (.error e) asks result) : asks = [] ∧ result = .error e := by
  cases answered
  exact ⟨rfl, rfl⟩

theorem split_cases {a b x : World σ × Ask} {rest before after : List (World σ × Ask)}
    (split : a :: b :: rest = before ++ x :: after) :
    x = a ∨ x = b ∧ before = [a] ∨ x ∈ rest ∧ a ∈ before ∧ b ∈ before := by
  rcases List.cons_eq_append_iff.mp split with ⟨-, first⟩ | ⟨front, rfl, behind⟩
  · exact .inl (List.cons.inj first).1
  · rcases List.cons_eq_append_iff.mp behind with ⟨rfl, second⟩ | ⟨front, rfl, later⟩
    · exact .inr (.inl ⟨(List.cons.inj second).1, rfl⟩)
    · exact .inr (.inr ⟨by simp [later], by simp, by simp⟩)

theorem secured_of_unread {source : String} {w : World σ} {cause : IoError}
    (failed : w.disk.read source = .error cause) :
    Secured keys job source [(w, .read source)] (.error (.io source cause)) := by
  constructor
  · exact Nat.zero_le 1
  · intro before after v key value split
    simp [List.cons_eq_append_iff] at split
  · intro before after u action split
    simp [List.cons_eq_append_iff] at split
  · intro w' cause' member failed'
    simp only [List.mem_singleton, Prod.mk.injEq] at member
    obtain ⟨rfl, -⟩ := member
    cases failed.symm.trans failed'
    exact ⟨rfl, rfl⟩
  · intro v key value e member
    simp at member

theorem secured_of_read {source key : String} {content value : ByteArray} {w v : World σ}
    (read : w.disk.read source = .ok content) (stores : job.Stores content key value)
    (answered : Answered job source (keys.put v.keys key value).2 asks result) :
    Secured keys job source ((w, .read source) :: (v, .put key value) :: asks) result := by
  -- whatever comes behind the put is the removal of the source
  have noPut : ∀ u key' value', (u, Ask.put key' value') ∉ asks := by
    intro u key' value' member
    cases (answered.eq_of_mem member).2.2
  have noRead : ∀ u path, (u, Ask.read path) ∉ asks := by
    intro u path member
    cases (answered.eq_of_mem member).2.2
  constructor
  · have none : asks.countP (·.2.isPut) = 0 := by
      apply List.countP_eq_zero.mpr
      intro ask member
      rw [(answered.eq_of_mem member).2.2]
      exact Bool.false_ne_true
    rw [List.countP_cons, List.countP_cons, none]
    exact Nat.le_refl 1
  · intro before after v' key' value' split
    rcases split_cases split with first | ⟨second, rfl⟩ | ⟨later, -⟩
    · cases first
    · cases second
      exact ⟨w, content, List.mem_singleton_self _, read, stores⟩
    · exact absurd later (noPut v' key' value')
  · intro before after u action split
    rcases split_cases split with first | ⟨second, -⟩ | ⟨later, wasRead, wasPut⟩
    · cases first
    · cases second
    · obtain ⟨taken, moves, removal⟩ := answered.eq_of_mem later
      exact ⟨Ask.act.inj removal, moves, w, content, v, key, value, wasRead, read, stores, wasPut,
        taken⟩
  · intro w' cause' member failed
    simp only [List.mem_cons, Prod.mk.injEq, noRead, or_false] at member
    rcases member with ⟨rfl, -⟩ | ⟨-, impossible⟩
    · cases read.symm.trans failed
    · cases impossible
  · intro v' key' value' e member refused
    simp only [List.mem_cons, Prod.mk.injEq, Ask.put.injEq, noPut, or_false] at member
    rcases member with ⟨-, impossible⟩ | ⟨rfl, rfl, rfl⟩
    · cases impossible
    · rw [refused] at answered
      obtain ⟨rfl, rfl⟩ := answered.of_error
      refine ⟨fun u action member => ?_, rfl, fun fresh => Job.execute_error fresh e⟩
      simp at member

theorem Course.secured {source : String} (course : Course keys job source asks result) :
    Secured keys job source asks result := by
  cases course with
  | unread failed => exact secured_of_unread failed
  | read read stores answered => exact secured_of_read read stores answered

/-- How a push that is alone with the world leaves it: changed in nothing but the store, and in the
source where the value was taken. -/
inductive Leaves (keys : KeyStore σ) (job : Job) (source : String) (w : World σ) :
    World σ → Except PushError String → Prop
  | unread {cause : IoError} : w.disk.read source = .error cause →
      Leaves keys job source w w (.error (.io source cause))
  | refused {content value : ByteArray} {key : String} {e : PushError} :
      w.disk.read source = .ok content → job.Stores content key value →
      (keys.put w.keys key value).2 = .error e →
      Leaves keys job source w { w with keys := (keys.put w.keys key value).1 } (.error e)
  | stored {content value : ByteArray} {key : String} (result : Except PushError String) :
      w.disk.read source = .ok content → job.Stores content key value →
      (keys.put w.keys key value).2 = .ok () →
      Leaves keys job source w
        ⟨if job.moves then (w.disk.unlink source).1 else w.disk, (keys.put w.keys key value).1⟩
        result

theorem world_finish (keys : KeyStore σ) (w : World σ) (move : Bool) (source hash : String) :
    ((Push.finish move source hash).run keys w).1 =
      { w with disk := if move then (w.disk.unlink source).1 else w.disk } := by
  cases move with
  | false => rfl
  | true =>
    simp only [Push.finish, if_true, Program.run, Disk.act]
    cases (w.disk.unlink source).2 <;> rfl

theorem leaves_store {source key hash : String} {content value : ByteArray} {w : World σ}
    (read : w.disk.read source = .ok content) (stores : job.Stores content key value) :
    Leaves keys job source w ((store key value job.moves source hash).run keys w).1
      ((store key value job.moves source hash).run keys w).2 := by
  simp only [store, Program.run]
  cases reply : (keys.put w.keys key value).2 with
  | error e => exact .refused read stores reply
  | ok =>
    rw [world_finish]
    exact .stored _ read stores reply

theorem leaves_push {source : String} (given : job.source? = some source) (w : World σ) :
    Leaves keys job source w ((Store.keyValue.push job).run keys w).1
      ((Store.keyValue.push job).run keys w).2 := by
  obtain ⟨next, push, failed, goesOn⟩ := push_eq_read given
  rw [push, Program.run]
  cases reply : w.disk.read source with
  | error cause =>
    rw [failed]
    exact .unread reply
  | ok content =>
    obtain ⟨key, value, hash, stores, rest⟩ := goesOn content
    rw [rest]
    exact leaves_store reply stores

/-- Whatever the store answers and whatever happens between the calls, the source goes for a stored
value only; an error of the store changes no file and is the code of the job. -/
theorem removes_only_stored (keys : KeyStore σ) (job : Job) {source : String}
    (given : job.source? = some source) :
    (∀ asks result, (Store.keyValue.push job).Makes keys asks result →
      Secured keys job source asks result) ∧
    ∀ w, (Store.keyValue.push job).Makes keys ((Store.keyValue.push job).history keys w)
        ((Store.keyValue.push job).run keys w).2 ∧
      Leaves keys job source w ((Store.keyValue.push job).run keys w).1
        ((Store.keyValue.push job).run keys w).2 := by
  constructor
  · intro asks result makes
    exact (course_of_push given makes).secured
  · intro w
    exact ⟨makes_history _ w, leaves_push given w⟩

def waiting : World Memory := ⟨⟨[(["a"], .file ⟨#[120]⟩ false)], []⟩, []⟩

def denied : Job := .transfer ⟨"a", "denied/a", true, none⟩

theorem removes_only_stored_denied :
    (Store.keyValue.push denied).run (Memory.keyStore Memory.playedFault) waiting =
      (waiting, .error (.refused "denied/a" 403)) ∧
    ∃ done, denied.execute (.ofResult (.error (.refused "denied/a" 403))) = .ok (done, false) ∧
      done.code = 403 := by
  have ran : (Store.keyValue.push denied).run (Memory.keyStore Memory.playedFault) waiting =
      (waiting, .error (.refused "denied/a" 403)) := rfl
  obtain ⟨secured, alone⟩ := removes_only_stored (Memory.keyStore Memory.playedFault) denied
    (rfl : denied.source? = some "a")
  have made := (alone waiting).1
  rw [ran] at made
  have put : (waiting, Ask.put "denied/a" ⟨#[120]⟩) ∈
      (Store.keyValue.push denied).history (Memory.keyStore Memory.playedFault) waiting :=
    List.mem_cons_of_mem _ List.mem_cons_self
  obtain ⟨-, -, code⟩ := (secured _ _ made).refused waiting "denied/a" _ _ put rfl
  exact ⟨ran, code rfl⟩

end KeyValue

end Spool
