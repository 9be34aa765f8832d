import SubstLisp.Environment
import SubstLisp.Event
import SubstLisp.Form.Template

/-!
# Machines

What a run changes: the environment, the supply of labels, the state of the host and the events so
far. A run ends with a value, with a failure, or because it has used up the depth that was granted
to it; in each case what has been changed until then stays.
-/

namespace SubstLisp

/-- The state of a run. -/
structure Machine (ι σ : Type) where
  /-- The global table of names. -/
  environment : Environment ι σ
  /-- What host functions act on. -/
  world : World σ
  /-- What has happened, in order. -/
  events : Array (Event ι)

/-- How a run ends without a value. -/
inductive Stop where
  /-- By a failure. -/
  | failed (failure : Failure)
  /-- Because the granted depth is used up. -/
  | outOfFuel
  deriving DecidableEq

/-- A computation on a machine. -/
abbrev Run (ι σ : Type) := EStateM Stop (Machine ι σ)

variable {ι σ α : Type}

/-- The machine on which nothing has happened, for a host in a given state. -/
def Machine.initial (host : σ) : Machine ι σ := ⟨.empty, ⟨0, host⟩, #[]⟩

namespace Run

/-- Ends by an error. -/
def fail (error : Error) : Run ι σ α := throw (.failed ⟨error, none⟩)

/-- The outcome of a check or a computation that may end by an error. -/
def ofExcept : Except Error α → Run ι σ α
  | .ok a => pure a
  | .error error => fail error

/-- The environment. -/
def environment : Run ι σ (Environment ι σ) := fun m => .ok m.environment m

/-- What a name is bound to. -/
def find? (name : String) : Run ι σ (Option (Binding ι)) := fun m =>
  .ok (m.environment.find? name) m

/-- The host function of a name. -/
def host? (name : String) : Run ι σ (Option (HostFunction ι σ)) := fun m =>
  .ok (m.environment.hosts.find? name) m

/-- Tells the observer of an event. -/
def emit (event : Event ι) : Run ι σ Unit := fun m =>
  .ok () { m with events := m.events.push event }

/-- Binds a name. -/
def define (name : String) (binding : Binding ι) : Run ι σ Unit := do
  emit (.defined name binding (← find? name))
  fun m => .ok () { m with environment := m.environment.define name binding }

/-- Registers a host function. -/
def register (name : String) (function : HostFunction ι σ) : Run ι σ Unit := do
  emit (.registered name)
  fun m => .ok () { m with environment := m.environment.register name function }

/-- Limits the depth of evaluation, or lifts the limit. -/
def setMaxDepth (maxDepth : Option Nat) : Run ι σ Unit := fun m =>
  .ok () { m with environment := { m.environment with maxDepth } }

/-- Does what takes labels from the supply. -/
def minting (x : Minting α) : Run ι σ α := fun m =>
  let (a, next) := x m.world.next
  .ok a { m with world := { m.world with next } }

/-- Expands a template and tells the observer of every list made, whether or not it succeeds. -/
def expanding (x : Template.Expanding α) : Run ι σ α := fun m =>
  let after (trail : Template.Trail) : Machine ι σ :=
    { m with
      world := { m.world with next := trail.next }
      events := m.events ++ trail.sizes.map Event.listExpanded }
  match x ⟨m.world.next, #[]⟩ with
  | .ok a trail => .ok a (after trail)
  | .error fault trail => .error (.failed ⟨.template fault, none⟩) (after trail)

/-- Lets a host function act. -/
def acting (x : EStateM Error (World σ) α) : Run ι σ α := fun m =>
  match x m.world with
  | .ok a world => .ok a { m with world }
  | .error error world => .error (.failed ⟨error, none⟩) { m with world }

/-- The computation with every failure of it changed. -/
def mapFailure (g : Failure → Failure) (x : Run ι σ α) : Run ι σ α := fun m =>
  match x m with
  | .error (.failed failure) m' => .error (.failed (g failure)) m'
  | other => other

/-- The computation with its failure as an outcome. -/
def attempt (x : Run ι σ α) : Run ι σ (Except Failure α) := fun m =>
  match x m with
  | .ok a m' => .ok (.ok a) m'
  | .error (.failed failure) m' => .ok (.error failure) m'
  | .error .outOfFuel m' => .error .outOfFuel m'

end Run

end SubstLisp
