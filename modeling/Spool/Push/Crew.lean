import Spool.Push.Directory

/-!
Programs at work side by side. Any of them may make the next call; that they leave what they would
leave one after the other is a property of its own.
-/

namespace Spool

/-- The same is at every location, and relative paths begin at the same place. -/
structure Disk.Alike (d e : Disk) : Prop where
  here : d.here = e.here
  entries : ∀ loc, d.at? loc = e.at? loc

/-- Programs on one world, each at a place of its own. -/
structure Crew (σ ρ : Type) where
  world : World σ
  programs : List (Program ρ)

namespace Crew

variable {σ ρ : Type}

/-- The program at a position makes its next call, if it has one left. -/
def step (store : KeyStore σ) (c : Crew σ ρ) (i : Nat) : Crew σ ρ :=
  match c.programs[i]? with
  | none => c
  | some p => ⟨(p.step store c.world).1, c.programs.set i (p.step store c.world).2⟩

def follow (store : KeyStore σ) (c : Crew σ ρ) (turns : List Nat) : Crew σ ρ :=
  turns.foldl (step store) c

def finish (store : KeyStore σ) (c : Crew σ ρ) (i : Nat) : Crew σ ρ :=
  match c.programs[i]? with
  | none => c
  | some p => ⟨(p.run store c.world).1, c.programs.set i (.done (p.run store c.world).2)⟩

def inTurn (store : KeyStore σ) (c : Crew σ ρ) (order : List Nat) : Crew σ ρ :=
  order.foldl (finish store) c

def results (c : Crew σ ρ) : List (Option ρ) :=
  c.programs.map Program.result?

def Over (c : Crew σ ρ) : Prop :=
  none ∉ c.results

/-- The same came out of both, and the worlds cannot be told apart. -/
structure Like (c e : Crew σ ρ) : Prop where
  results : c.results = e.results
  disk : c.world.disk.Alike e.world.disk
  keys : c.world.keys = e.world.keys

/-- However the calls are interleaved, the programs end as they would one after the other, in some
order. -/
def Serializable (store : KeyStore σ) (c : Crew σ ρ) : Prop :=
  ∀ turns, (c.follow store turns).Over →
    ∃ order, order.Perm (List.range c.programs.length) ∧
      (c.follow store turns).Like (c.inTurn store order)

end Crew

namespace Directory

/-- Workers that each have a transform of their own and store into the same directory. -/
def crew {σ : Type} (base : String) (w : World σ) (jobs : List Transform) :
    Crew σ (Except PushError String) :=
  ⟨w, jobs.map (transform base)⟩

end Directory

end Spool
