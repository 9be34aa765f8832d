import SubstLisp.Computation
import SubstLisp.Machine

/-!
# Evaluation

How forms are evaluated, by the layers of the language: atoms, applications, calls of functions and
macros, operators. Each layer is given a way to evaluate the forms inside, so it is no recursion;
`eval` ties the knot over the depth that a run is granted.

What depends on how parameters are tied to a body is in a `Convention`.

* `Convention.byIdentity` is that of the language: a body's occurrences of a parameter carry its
  label, a call copies the definition with fresh labels and puts one argument after another in the
  place of the nodes that carry the label of its parameter.
* `Convention.byName` needs no labels: a call puts all arguments at once in the place of the atoms
  that are spelled like their parameters.
-/

namespace SubstLisp

/-- How parameters are tied to a body and arguments put in for them. -/
structure Convention (ι : Type) where
  /-- Makes a label out of a number of the supply. -/
  label : Nat → ι
  /-- Ties a body to parameters when a definition is made. -/
  tie : List (Form ι) → Form ι → Form ι
  /-- The body of a definition with arguments in the place of its parameters. -/
  apply : Definition ι → List (Form ι) → Minting (Form ι)
  /-- What becomes of a failure on its way out of the application of an operator. -/
  note : String → Failure → Failure

namespace Convention

/-- Parameters are known by their labels. -/
def byIdentity : Convention Nat where
  label := id
  tie := Form.tie
  apply d operands := do
    let (labels, body) ← Node.instantiate d.parameters d.body
    return Form.substituteEach (labels.zip operands) body
  note := Failure.within

/-- Parameters are known by their spelling. -/
def byName : Convention Unit where
  label _ := ()
  tie _ body := body
  apply d operands := return d.body.replace fun text => (d.parameterNames.zip operands).lookup text
  note := Failure.within

/-- The convention by which failures do not note the operator in progress. -/
def withoutNotes {ι : Type} (convention : Convention ι) : Convention ι :=
  { convention with note := fun _ failure => failure }

end Convention

/-- A way to evaluate a form at a depth. -/
abbrev Evaluator (ι σ : Type) := (depth : Nat) → Form ι → Run ι σ (Value ι)

namespace Evaluation

variable {ι σ : Type}

/-! ### Operands -/

/-- The operands that an operator takes from those of a call: too few are an error, and surplus
ones are reported. -/
def takeOperands (op : Operator) (operands : List (Form ι)) : Run ι σ (List (Form ι)) := do
  Run.ofExcept (op.checkArity operands.length)
  let surplus := op.arity.surplus operands.length
  if 0 < surplus then Run.emit (.surplusOperands op.name surplus)
  return op.select operands

/-- The error of an operator that finds an operand missing although their number was sufficient. -/
def missingOperand (op : Operator) : Error := .arity op.name op.arity.required 0

/-- The only operand. -/
def oneOperand (op : Operator) : List (Form ι) → Run ι σ (Form ι)
  | [a] => pure a
  | _ => Run.fail (missingOperand op)

/-- The two operands. -/
def twoOperands (op : Operator) : List (Form ι) → Run ι σ (Form ι × Form ι)
  | [a, b] => pure (a, b)
  | _ => Run.fail (missingOperand op)

/-- The three operands. -/
def threeOperands (op : Operator) : List (Form ι) → Run ι σ (Form ι × Form ι × Form ι)
  | [a, b, c] => pure (a, b, c)
  | _ => Run.fail (missingOperand op)

/-- The symbol that an operand is. -/
def symbolOperand (op : Operator) (operand : Form ι) : Run ι σ String :=
  match operand.atomText? with
  | some name => pure name
  | none => Run.fail (.typing (.expectsSymbol op.name operand.erase))

/-! ### Calls -/

/-- The body of a definition with the arguments of a call put in: too few are an error, and surplus
ones are reported. The name is the one the definition is called by. -/
def applyDefinition (convention : Convention ι) (name : String) (d : Definition ι)
    (operands : List (Form ι)) : Run ι σ (Form ι) := do
  if operands.length < d.arity then Run.fail (.arity name d.arity operands.length)
  if d.arity < operands.length then
    Run.emit (.surplusArguments name (operands.length - d.arity))
  Run.minting (convention.apply d operands)

/-- Calls the function or macro that a name is bound to. -/
def call (convention : Convention ι) (inner : Evaluator ι σ) (depth : Nat) (name : String)
    (operands : List (Form ι)) : Run ι σ (Value ι) := do
  match ← Run.find? name with
  | some (.functionDef d) =>
    let body ← applyDefinition convention name d operands
    Run.emit (.called name body)
    inner (depth + 1) body
  | some (.macroDef d) =>
    let body ← applyDefinition convention name d operands
    let code ← Run.expanding (Template.expand convention.label body)
    Run.emit (.macroExpanded name code)
    inner (depth + 1) code
  | some (.value v) => Run.fail (.typing (.notCallable name v.kind))
  | none => Run.fail (.unknownOperator name)

/-- The value of an atom: the number it spells, the value it is bound to, or the outcome of a call
without operands. -/
def evalAtom (convention : Convention ι) (inner : Evaluator ι σ) (depth : Nat) (text : String) :
    Run ι σ (Value ι) :=
  match Numeral.word? text with
  | some n => pure (.number n)
  | none => do
    match ← Run.find? text with
    | some (.value v) => pure v
    | some _ => call convention inner depth text []
    | none => Run.fail (.unboundSymbol text)

/-! ### Operators -/

/-- Defines a function or a macro, as `bind` says. -/
def defineBy (convention : Convention ι) (bind : Definition ι → Binding ι) (op : Operator)
    (operands : List (Form ι)) : Run ι σ (Value ι) := do
  let (symbol, parameters, body) ← threeOperands op operands
  let name ← symbolOperand op symbol
  match parameters.items? with
  | none => Run.fail (.typing (.parametersNotList op.name name))
  | some parameters =>
    let d ← Run.ofExcept (Definition.make convention.tie name parameters body)
    Run.define name (bind d)
    return .nil

/-- The name of the host function that an operand stands for. -/
def hostName (op : Operator) : Form ι → Run ι σ String
  | .atom _ name => pure name
  | .string _ name => pure name
  | target => Run.fail (.typing (.expectsHostName op.name target.erase))

/-- Calls a host function; its name is settled before its argument is evaluated. -/
def callHost (inner : Evaluator ι σ) (depth : Nat) (op : Operator) (operands : List (Form ι)) :
    Run ι σ (Value ι) := do
  let (target, argument) ← twoOperands op operands
  let name ← hostName op target
  match ← Run.host? name with
  | none => Run.fail (.unboundSymbol name)
  | some function =>
    let v ← inner depth argument
    Run.emit (.hostCalled name v)
    let result ← Run.acting (function v)
    Run.emit (.hostReturned name result)
    return result

/-- Does what an operator does with the operands it takes, evaluating them at the given depth. -/
def operate (convention : Convention ι) (inner : Evaluator ι σ) (depth : Nat) (op : Operator)
    (operands : List (Form ι)) : Run ι σ (Value ι) :=
  match op.form with
  | .arithmetic sign => do
    let (a, b) ← twoOperands op operands
    let a ← inner depth a
    let b ← inner depth b
    Run.ofExcept (sign.apply a b)
  | .equality expected => do
    let (a, b) ← twoOperands op operands
    let a ← inner depth a
    let b ← inner depth b
    return .ofBool (a.same b == expected)
  | .connective decisive => do
    let (a, b) ← twoOperands op operands
    let first := (← inner depth a).truthy
    if first = decisive then return .ofBool first
    return .ofBool (← inner depth b).truthy
  | .constant b => return .ofBool b
  | .conditional => do
    let (condition, thenBranch, elseBranch) ← threeOperands op operands
    if (← inner depth condition).truthy then inner depth thenBranch else inner depth elseBranch
  | .quote => return .quote (← oneOperand op operands)
  | .list => return .list (← operands.mapM (inner depth))
  | .evaluate => do
    match ← inner depth (← oneOperand op operands) with
    | .quote code => inner depth code
    | v => return v
  | .concat => do
    let (a, b) ← twoOperands op operands
    let a ← inner depth a
    let b ← inner depth b
    Run.ofExcept (a.concat b)
  | .defineFunction => defineBy convention .functionDef op operands
  | .defineMacro => defineBy convention .macroDef op operands
  | .assign => do
    let (symbol, operand) ← twoOperands op operands
    let name ← symbolOperand op symbol
    let v ← inner depth operand
    Run.define name (.value v)
    return v
  | .sequence => operands.foldlM (fun _ operand => inner depth operand) .nil
  | .host => callHost inner depth op operands

/-! ### Applications -/

/-- Applies what a name stands for to operands: an operator of the language if there is one of this
name, and what the name is bound to otherwise. -/
def applyNamed (convention : Convention ι) (inner : Evaluator ι σ) (depth : Nat) (name : String)
    (operands : List (Form ι)) : Run ι σ (Value ι) :=
  Run.mapFailure (convention.note name)
    (match Operator.find? name with
    | some op => do operate convention inner (depth + 1) op (← takeOperands op operands)
    | none => call convention inner depth name operands)

/-- The name of the operator that a value in operator position stands for. -/
def operatorName (v : Value ι) : Except Error String :=
  match v with
  | .string name => .ok name
  | .quote (.atom _ name) => .ok name
  | _ => .error (.typing (.notOperator v.erase))

/-- The value of a list. The empty list has none. A list in operator position is evaluated; alone
it is just a value, and in front of operands its value has to name an operator. -/
def evalList (convention : Convention ι) (inner : Evaluator ι σ) (depth : Nat) :
    List (Form ι) → Run ι σ (Value ι)
  | [] => return .nil
  | .atom _ name :: operands => applyNamed convention inner depth name operands
  | .string _ text :: _ => Run.fail (.unknownOperator ("\"" ++ text ++ "\""))
  | .list label items :: operands => do
    let v ← inner (depth + 1) (.list label items)
    if operands.isEmpty then return v
    applyNamed convention inner depth (← Run.ofExcept (operatorName v)) operands

/-- Fails when the depth limit of the environment is reached. -/
def checkDepth (depth : Nat) : Run ι σ Unit := do
  match (← Run.environment).maxDepth with
  | some limit => if limit ≤ depth then Run.fail (.depthLimit limit)
  | none => return ()

/-- Evaluates a form, given a way to evaluate the forms inside. -/
def evalForm (convention : Convention ι) (inner : Evaluator ι σ) : Evaluator ι σ := fun depth form =>
  do
    checkDepth depth
    match form with
    | .string _ text => return .string text
    | .atom _ text => evalAtom convention inner depth text
    | .list _ items => evalList convention inner depth items

/-- Evaluates a form with so many levels of evaluation granted. -/
def eval (convention : Convention ι) : (fuel : Nat) → Evaluator ι σ
  | 0 => fun _ _ => throw .outOfFuel
  | fuel + 1 => evalForm convention (eval convention fuel)

end Evaluation

end SubstLisp
