import SubstLisp.Proofs.Simulation

/-!
# Watched evaluation

To say what happens when an error is raised, evaluation is watched: the state of the host is joined
by a `Watch`, on which the application of an operator is entered when it begins and struck off when
it has given a value, and on which every error is recorded where it is raised, with the applications
in progress there and with what the run has changed until then.

Errors are raised by the checks of operands, by what computes with values, by templates that do not
expand, by names that stand for nothing, by the depth limit, and by host functions. Watched
evaluation is written out layer by layer, so that each of these places is seen. It handles no error
and notes nothing of it: once an error is raised, whatever is still to be recorded would be recorded
after it.
-/

namespace SubstLisp

variable {ι σ α : Type}

/-! ### What is seen -/

/-- What is seen of an error that is raised. -/
structure Raised (ι σ : Type) where
  /-- The error. -/
  error : Error
  /-- The names whose application is in progress, innermost first. -/
  inProgress : List String
  /-- What the run has changed until then. -/
  machine : Machine ι σ

/-- What is seen of a run. -/
structure Watch (ι σ : Type) where
  /-- The names whose application is in progress, innermost first. -/
  inProgress : List String := []
  /-- The errors that have been raised, the last one first. -/
  raised : List (Raised ι σ) := []

namespace Watch

/-- What is seen when further applications are in progress inside. -/
def within (names : List String) (watch : Watch ι σ) : Watch ι σ :=
  { watch with inProgress := names ++ watch.inProgress }

/-- What is seen when an error has been raised, on a machine. -/
def raise (error : Error) (m : Machine ι σ) (watch : Watch ι σ) : Watch ι σ :=
  { watch with raised := ⟨error, watch.inProgress, m⟩ :: watch.raised }

@[simp]
theorem within_nil (watch : Watch ι σ) : watch.within [] = watch := rfl

@[simp]
theorem within_within (watch : Watch ι σ) (inner outer : List String) :
    (watch.within outer).within inner = watch.within (inner ++ outer) := by
  simp [within]

end Watch

/-! ### Hosts and machines that are watched -/

/-- The world of a host that is watched. -/
def World.watched (world : World σ) (watch : Watch ι σ) : World (σ × Watch ι σ) :=
  ⟨world.next, world.host, watch⟩

/-- The world without the watch. -/
def World.unwatched (world : World (σ × Watch ι σ)) : World σ := ⟨world.next, world.host.1⟩

namespace HostFunction

/-- A host function knows nothing of the watch. -/
def watched (f : HostFunction ι σ) : HostFunction ι (σ × Watch ι σ) := fun v world =>
  match f v world.unwatched with
  | .ok result world' => .ok result (world'.watched world.host.2)
  | .error error world' => .error error (world'.watched world.host.2)

/-- A host function without the watch. -/
def unwatched (f : HostFunction ι (σ × Watch ι σ)) : HostFunction ι σ := fun v world =>
  match f v (world.watched {}) with
  | .ok result world' => .ok result world'.unwatched
  | .error error world' => .error error world'.unwatched

@[simp]
theorem unwatched_watched (f : HostFunction ι σ) : unwatched (watched f) = f := by
  funext v world
  have hworld : ((world.watched {} : World (σ × Watch ι σ)).unwatched : World σ) = world := rfl
  simp only [unwatched, watched, hworld]
  cases f v world <;> rfl

end HostFunction

namespace Machine

/-- The machine for a host that is watched. -/
def watched (m : Machine ι σ) (watch : Watch ι σ) : Machine ι (σ × Watch ι σ) where
  environment :=
    ⟨m.environment.bindings, m.environment.hosts.map HostFunction.watched, m.environment.maxDepth⟩
  world := m.world.watched watch
  events := m.events

/-- The machine without the watch. -/
def unwatched (m : Machine ι (σ × Watch ι σ)) : Machine ι σ where
  environment :=
    ⟨m.environment.bindings, m.environment.hosts.map HostFunction.unwatched, m.environment.maxDepth⟩
  world := m.world.unwatched
  events := m.events

/-- Changes what is seen. -/
def rewatch (g : Watch ι σ → Watch ι σ) (m : Machine ι (σ × Watch ι σ)) :
    Machine ι (σ × Watch ι σ) :=
  { m with world := m.world.unwatched.watched (g m.world.host.2) }

@[simp]
theorem unwatched_watched (m : Machine ι σ) (watch : Watch ι σ) :
    (m.watched watch).unwatched = m := by
  have hhosts : (m.environment.hosts.map HostFunction.watched).map HostFunction.unwatched =
      m.environment.hosts := by
    refine Table.ext fun name => ?_
    rw [Table.find?_map, Table.find?_map, Option.map_map]
    have hid : (HostFunction.unwatched ∘ HostFunction.watched : HostFunction ι σ → _) = id :=
      funext HostFunction.unwatched_watched
    rw [hid, Option.map_id, id]
  show Machine.mk ⟨_, (m.environment.hosts.map HostFunction.watched).map HostFunction.unwatched, _⟩
    _ _ = m
  rw [hhosts]
  rfl

@[simp]
theorem rewatch_watched (g : Watch ι σ → Watch ι σ) (m : Machine ι σ) (watch : Watch ι σ) :
    (m.watched watch).rewatch g = m.watched (g watch) := rfl

@[simp]
theorem maxDepth_watched (m : Machine ι σ) (watch : Watch ι σ) :
    (m.watched watch).environment.maxDepth = m.environment.maxDepth := rfl

@[simp]
theorem host?_watched (m : Machine ι σ) (watch : Watch ι σ) (name : String) :
    (m.watched watch).environment.hosts.find? name =
      (m.environment.hosts.find? name).map HostFunction.watched :=
  Table.find?_map _ _ _

end Machine

/-- The same ending, without the watch. -/
def Ending.unwatched : Ending ι (σ × Watch ι σ) α → Ending ι σ α
  | .ok a m => .ok a m.unwatched
  | .error stop m => .error stop m.unwatched

/-! ### Entering and recording -/

namespace Run

/-- The computation as part of the application of a name: it is struck off once there is an
outcome. -/
def entering (name : String) (x : Run ι (σ × Watch ι σ) α) : Run ι (σ × Watch ι σ) α := fun m =>
  match x (m.rewatch (Watch.within [name])) with
  | .ok a m' => .ok a (m'.rewatch fun watch => { watch with inProgress := watch.inProgress.tail })
  | .error stop m' => .error stop m'

/-- A step of which the error is recorded, if it ends by one. -/
def recording (x : Run ι (σ × Watch ι σ) α) : Run ι (σ × Watch ι σ) α := fun m =>
  match x m with
  | .error (.failed failure) m' =>
    .error (.failed failure) (m'.rewatch (Watch.raise failure.error m'.unwatched))
  | other => other

/-- Raises an error, which is recorded. -/
def raise (error : Error) : Run ι (σ × Watch ι σ) α := recording (fail error)

end Run

/-! ### Watched evaluation -/

namespace Watched

variable (convention : Convention ι) (inner : Evaluator ι (σ × Watch ι σ)) (depth : Nat)

open Run (recording raise)

/-- The operands that an operator takes. -/
def takeOperands (op : Operator) (operands : List (Form ι)) :
    Run ι (σ × Watch ι σ) (List (Form ι)) := do
  recording (Run.ofExcept (op.checkArity operands.length))
  let surplus := op.arity.surplus operands.length
  if 0 < surplus then Run.emit (.surplusOperands op.name surplus)
  return op.select operands

/-- The body of a definition with the arguments of a call put in. -/
def applyDefinition (name : String) (d : Definition ι) (operands : List (Form ι)) :
    Run ι (σ × Watch ι σ) (Form ι) := do
  if operands.length < d.arity then raise (.arity name d.arity operands.length)
  if d.arity < operands.length then
    Run.emit (.surplusArguments name (operands.length - d.arity))
  Run.minting (convention.apply d operands)

/-- Calls the function or macro that a name is bound to. -/
def call (name : String) (operands : List (Form ι)) : Run ι (σ × Watch ι σ) (Value ι) := do
  match ← Run.find? name with
  | some (.functionDef d) =>
    let body ← applyDefinition convention name d operands
    Run.emit (.called name body)
    inner (depth + 1) body
  | some (.macroDef d) =>
    let body ← applyDefinition convention name d operands
    let code ← recording (Run.expanding (Template.expand convention.label body))
    Run.emit (.macroExpanded name code)
    inner (depth + 1) code
  | some (.value v) => raise (.typing (.notCallable name v.kind))
  | none => raise (.unknownOperator name)

/-- The value of an atom. -/
def evalAtom (text : String) : Run ι (σ × Watch ι σ) (Value ι) :=
  match Numeral.word? text with
  | some n => pure (.number n)
  | none => do
    match ← Run.find? text with
    | some (.value v) => pure v
    | some _ => call convention inner depth text []
    | none => raise (.unboundSymbol text)

/-- Defines a function or a macro, as `bind` says. -/
def defineBy (bind : Definition ι → Binding ι) (op : Operator) (operands : List (Form ι)) :
    Run ι (σ × Watch ι σ) (Value ι) := do
  let (symbol, parameters, body) ← recording (Evaluation.threeOperands op operands)
  let name ← recording (Evaluation.symbolOperand op symbol)
  match parameters.items? with
  | none => raise (.typing (.parametersNotList op.name name))
  | some parameters =>
    let d ← recording (Run.ofExcept (Definition.make convention.tie name parameters body))
    Run.define name (bind d)
    return .nil

/-- Calls a host function. -/
def callHost (op : Operator) (operands : List (Form ι)) : Run ι (σ × Watch ι σ) (Value ι) := do
  let (target, argument) ← recording (Evaluation.twoOperands op operands)
  let name ← recording (Evaluation.hostName op target)
  match ← Run.host? name with
  | none => raise (.unboundSymbol name)
  | some function =>
    let v ← inner depth argument
    Run.emit (.hostCalled name v)
    let result ← recording (Run.acting (function v))
    Run.emit (.hostReturned name result)
    return result

/-- Does what an operator does with the operands it takes. -/
def operate (op : Operator) (operands : List (Form ι)) : Run ι (σ × Watch ι σ) (Value ι) :=
  match op.form with
  | .arithmetic sign => do
    let (a, b) ← recording (Evaluation.twoOperands op operands)
    let a ← inner depth a
    let b ← inner depth b
    recording (Run.ofExcept (sign.apply a b))
  | .equality expected => do
    let (a, b) ← recording (Evaluation.twoOperands op operands)
    let a ← inner depth a
    let b ← inner depth b
    return .ofBool (a.same b == expected)
  | .connective decisive => do
    let (a, b) ← recording (Evaluation.twoOperands op operands)
    let first := (← inner depth a).truthy
    if first = decisive then return .ofBool first
    return .ofBool (← inner depth b).truthy
  | .constant b => return .ofBool b
  | .conditional => do
    let (condition, thenBranch, elseBranch) ← recording (Evaluation.threeOperands op operands)
    if (← inner depth condition).truthy then inner depth thenBranch else inner depth elseBranch
  | .quote => return .quote (← recording (Evaluation.oneOperand op operands))
  | .list => return .list (← operands.mapM (inner depth))
  | .evaluate => do
    match ← inner depth (← recording (Evaluation.oneOperand op operands)) with
    | .quote code => inner depth code
    | v => return v
  | .concat => do
    let (a, b) ← recording (Evaluation.twoOperands op operands)
    let a ← inner depth a
    let b ← inner depth b
    recording (Run.ofExcept (a.concat b))
  | .defineFunction => defineBy convention .functionDef op operands
  | .defineMacro => defineBy convention .macroDef op operands
  | .assign => do
    let (symbol, operand) ← recording (Evaluation.twoOperands op operands)
    let name ← recording (Evaluation.symbolOperand op symbol)
    let v ← inner depth operand
    Run.define name (.value v)
    return v
  | .sequence => operands.foldlM (fun _ operand => inner depth operand) .nil
  | .host => callHost inner depth op operands

/-- What a name stands for, applied to operands. -/
def application (name : String) (operands : List (Form ι)) : Run ι (σ × Watch ι σ) (Value ι) :=
  match Operator.find? name with
  | some op => do operate convention inner (depth + 1) op (← takeOperands op operands)
  | none => call convention inner depth name operands

/-- Applies what a name stands for, as an application that is entered. -/
def applyNamed (name : String) (operands : List (Form ι)) : Run ι (σ × Watch ι σ) (Value ι) :=
  Run.entering name (application convention inner depth name operands)

/-- The value of a list. -/
def evalList : List (Form ι) → Run ι (σ × Watch ι σ) (Value ι)
  | [] => return .nil
  | .atom _ name :: operands => applyNamed convention inner depth name operands
  | .string _ text :: _ => raise (.unknownOperator ("\"" ++ text ++ "\""))
  | .list label items :: operands => do
    let v ← inner (depth + 1) (.list label items)
    if operands.isEmpty then return v
    applyNamed convention inner depth
      (← recording (Run.ofExcept (Evaluation.operatorName v))) operands

/-- Evaluates a form, given a way to evaluate the forms inside. -/
def evalForm : Evaluator ι (σ × Watch ι σ) := fun depth form => do
  recording (Evaluation.checkDepth depth)
  match form with
  | .string _ text => return .string text
  | .atom _ text => evalAtom convention inner depth text
  | .list _ items => evalList convention inner depth items

/-- Evaluates a form with so many levels of evaluation granted. -/
def eval : (fuel : Nat) → Evaluator ι (σ × Watch ι σ)
  | 0 => fun _ _ => throw .outOfFuel
  | fuel + 1 => evalForm convention (eval fuel)

end Watched

end SubstLisp
