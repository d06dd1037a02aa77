import Spool.Disk.Volume
import Spool.Job

/-!
Pushes as finite programs. A program is done, or it makes one call and goes on with the reply; so
calls of several programs can be interleaved, and what a program touches can be read off it.
-/

namespace Spool

inductive Action
  | makeDirs (path : String)
  | copy (source dest : String)
  | write (path : String) (bytes : ByteArray)
  | rename (old new : String)
  | unlink (path : String)

def Disk.act (d : Disk) : Action → Disk × Disk.Reply Unit
  | .makeDirs path => d.makeDirs path
  | .copy source dest => d.copy source dest
  | .write path bytes => d.write path bytes
  | .rename old new => d.rename old new
  | .unlink path => d.unlink path

def Volume.act (v : Volume) : Action → Volume × Disk.Reply Unit
  | .makeDirs path => v.makeDirs path
  | .copy source dest => v.copy source dest
  | .write path bytes => v.write path bytes
  | .rename old new => v.rename old new
  | .unlink path => v.unlink path

structure KeyStore (σ : Type) where
  /-- Stores a value in place of any other under the key. -/
  put : σ → String → ByteArray → σ × Except PushError Unit
  has : σ → String → Except PushError Bool

structure World (σ : Type) where
  disk : Disk
  keys : σ

/-- A world in which files can have several names. -/
structure Mount (σ : Type) where
  volume : Volume
  keys : σ

inductive Program (ρ : Type)
  | done (result : ρ)
  | read (path : String) (next : Disk.Reply ByteArray → Program ρ)
  | size (path : String) (next : Option Nat → Program ρ)
  | act (action : Action) (next : Disk.Reply Unit → Program ρ)
  | put (key : String) (value : ByteArray) (next : Except PushError Unit → Program ρ)

namespace Program

variable {ρ σ τ : Type}

def result? : Program ρ → Option ρ
  | done r => some r
  | _ => none

def step (store : KeyStore σ) (w : World σ) : Program ρ → World σ × Program ρ
  | done r => (w, done r)
  | read path next => (w, next (w.disk.read path))
  | size path next => (w, next (w.disk.size? path))
  | act action next =>
    let (disk, reply) := w.disk.act action
    ({ w with disk }, next reply)
  | put key value next =>
    let (keys, reply) := store.put w.keys key value
    ({ w with keys }, next reply)

def run (store : KeyStore σ) (w : World σ) : Program ρ → World σ × ρ
  | done r => (w, r)
  | read path next => run store w (next (w.disk.read path))
  | size path next => run store w (next (w.disk.size? path))
  | act action next =>
    let (disk, reply) := w.disk.act action
    run store { w with disk } (next reply)
  | put key value next =>
    let (keys, reply) := store.put w.keys key value
    run store { w with keys } (next reply)

def runOn (store : KeyStore σ) (m : Mount σ) : Program ρ → Mount σ × ρ
  | done r => (m, r)
  | read path next => runOn store m (next (m.volume.disk.read path))
  | size path next => runOn store m (next (m.volume.disk.size? path))
  | act action next =>
    let (volume, reply) := m.volume.act action
    runOn store { m with volume } (next reply)
  | put key value next =>
    let (keys, reply) := store.put m.keys key value
    runOn store { m with keys } (next reply)

/-- One program, and then another that depends on what came out. -/
def bind : Program ρ → (ρ → Program τ) → Program τ
  | done r, next => next r
  | read path rest, next => .read path fun reply => (rest reply).bind next
  | size path rest, next => .size path fun reply => (rest reply).bind next
  | act action rest, next => .act action fun reply => (rest reply).bind next
  | put key value rest, next => .put key value fun reply => (rest reply).bind next

/-- The program's next call alone; what comes out is the rest of the program. -/
def first : Program ρ → Program (Program ρ)
  | done r => .done (done r)
  | read path next => .read path fun reply => .done (next reply)
  | size path next => .size path fun reply => .done (next reply)
  | act action next => .act action fun reply => .done (next reply)
  | put key value next => .put key value fun reply => .done (next reply)

/-- Running a program is making its first call and running what is left. -/
theorem run_step (store : KeyStore σ) (w : World σ) (p : Program ρ) :
    (p.step store w).2.run store (p.step store w).1 = p.run store w := by
  cases p <;> rfl

theorem run_first (store : KeyStore σ) (w : World σ) (p : Program ρ) :
    p.first.run store w = p.step store w := by
  cases p <;> rfl

theorem run_bind (store : KeyStore σ) (w : World σ) (p : Program ρ) (next : ρ → Program τ) :
    (p.bind next).run store w = (next (p.run store w).2).run store (p.run store w).1 := by
  induction p generalizing w with
  | done r => rfl
  | read path rest ih => exact ih (w.disk.read path) w
  | size path rest ih => exact ih (w.disk.size? path) w
  | act action rest ih => exact ih (w.disk.act action).2 { w with disk := (w.disk.act action).1 }
  | put key value rest ih =>
    exact ih (store.put w.keys key value).2 { w with keys := (store.put w.keys key value).1 }

end Program

/-- A push ends with the digest of the stored object, empty for a transfer, or with an error. -/
abbrev Push := Program (Except PushError String)

namespace Push

def failIo (path : String) (cause : IoError) : Push :=
  .done (.error (.io path cause))

/-- Removes the source of a job that asks for it, and ends. -/
def finish (move : Bool) (source result : String) : Push :=
  if move then
    .act (.unlink source) fun
      | .ok () => .done (.ok result)
      | .error cause => failIo source cause
  else .done (.ok result)

end Push

/-- How the end of a push looks to the one who asked for it. -/
def Outcome.ofResult : Except PushError String → Outcome
  | .ok hash => .stored hash
  | .error e => .failed e

end Spool
