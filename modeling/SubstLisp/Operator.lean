import SubstLisp.Error

/-!
# Operators

The operators of the language and how each takes its operands. An operator sees its operands
unevaluated, through a window on the operands of the call: so many from the front or from the back,
all of them, or none. Operands outside the window are surplus and ignored; too few are an error.

`operators` is the registry; some operators are known by two names.
-/

namespace SubstLisp

/-! ### What operators do -/

/-- The arithmetic operators. -/
inductive Arithmetic where
  /-- The sum. -/
  | add
  /-- The difference. -/
  | sub
  /-- The product. -/
  | mul
  /-- The quotient, rounded toward zero. -/
  | div
  deriving DecidableEq, Repr

/-- What an operator does. -/
inductive SpecialForm where
  /-- Computes with two numbers. -/
  | arithmetic (op : Arithmetic)
  /-- Compares two values: is it the case or not that they are equal? -/
  | equality (expected : Bool)
  /-- Joins two truth values; a first one that is `decisive` decides alone. -/
  | connective (decisive : Bool)
  /-- A truth value. -/
  | constant (b : Bool)
  /-- Evaluates one of two branches. -/
  | conditional
  /-- Leaves a form unevaluated. -/
  | quote
  /-- Makes a list of values. -/
  | list
  /-- Evaluates a form once more when its value is a quoted form. -/
  | evaluate
  /-- Joins the texts of two values. -/
  | concat
  /-- Defines a function. -/
  | defineFunction
  /-- Defines a macro. -/
  | defineMacro
  /-- Binds a symbol to a value. -/
  | assign
  /-- Evaluates forms in order. -/
  | sequence
  /-- Calls a host function. -/
  | host
  deriving DecidableEq, Repr

/-- The sign of an arithmetic operator. -/
def Arithmetic.symbol : Arithmetic → String
  | add => "+"
  | sub => "-"
  | mul => "*"
  | div => "/"

/-- The first name of what an operator does. -/
def SpecialForm.symbol : SpecialForm → String
  | arithmetic op => op.symbol
  | equality true => "="
  | equality false => "!="
  | connective false => "and"
  | connective true => "or"
  | constant true => "true"
  | constant false => "false"
  | conditional => "if"
  | quote => "quote"
  | list => "list"
  | evaluate => "eval"
  | concat => "concat"
  | defineFunction => "defun"
  | defineMacro => "defmacro"
  | assign => "setq"
  | sequence => "progn"
  | host => "php"

/-! ### How operators take operands -/

/-- How many operands an operator takes. -/
inductive Arity where
  /-- So many; further ones are ignored. -/
  | exactly (n : Nat)
  /-- All there are. -/
  | any
  deriving DecidableEq, Repr

/-- The least number of operands. -/
def Arity.required : Arity → Nat
  | exactly n => n
  | any => 0

/-- How many of a number of operands are ignored. -/
def Arity.surplus (got : Nat) : Arity → Nat
  | exactly n => got - n
  | any => 0

/-- Where among the operands of a call an operator takes its own. -/
inductive Window where
  /-- At the front. -/
  | front
  /-- At the back. -/
  | back
  /-- Everywhere. -/
  | all
  /-- Nowhere. -/
  | nothing
  deriving DecidableEq, Repr

/-- The operands in a window of the given size, in the order of the call. -/
def Window.select {α : Type} (size : Nat) (operands : List α) : Window → List α
  | front => operands.take size
  | back => operands.drop (operands.length - size)
  | all => operands
  | nothing => []

/-- An operator: its name, what it does, and how it takes its operands. -/
structure Operator where
  /-- The name it is called by. -/
  name : String
  /-- What it does. -/
  form : SpecialForm
  /-- How many operands it takes. -/
  arity : Arity
  /-- Where it takes them. -/
  window : Window
  deriving DecidableEq, Repr

/-- The operators of the language. -/
def operators : List Operator := [
  ⟨"+", .arithmetic .add, .exactly 2, .front⟩,
  ⟨"-", .arithmetic .sub, .exactly 2, .front⟩,
  ⟨"*", .arithmetic .mul, .exactly 2, .front⟩,
  ⟨"/", .arithmetic .div, .exactly 2, .front⟩,
  ⟨"=", .equality true, .exactly 2, .back⟩,
  ⟨"!=", .equality false, .exactly 2, .back⟩,
  ⟨"and", .connective false, .exactly 2, .back⟩,
  ⟨"or", .connective true, .exactly 2, .back⟩,
  ⟨"true", .constant true, .exactly 0, .nothing⟩,
  ⟨"false", .constant false, .exactly 0, .nothing⟩,
  ⟨"if", .conditional, .exactly 3, .back⟩,
  ⟨"quote", .quote, .exactly 1, .front⟩,
  ⟨"'", .quote, .exactly 1, .front⟩,
  ⟨"list", .list, .any, .all⟩,
  ⟨"eval", .evaluate, .exactly 1, .front⟩,
  ⟨"concat", .concat, .exactly 2, .front⟩,
  ⟨"defun", .defineFunction, .exactly 3, .front⟩,
  ⟨"defmacro", .defineMacro, .exactly 3, .front⟩,
  ⟨"setq", .assign, .exactly 2, .back⟩,
  ⟨"define", .assign, .exactly 2, .back⟩,
  ⟨"progn", .sequence, .any, .all⟩,
  ⟨"php", .host, .exactly 2, .front⟩,
  ⟨"host", .host, .exactly 2, .front⟩]

namespace Operator

/-- The operator of a name. -/
def find? (name : String) : Option Operator := operators.find? fun op => op.name == name

/-- Refuses a number of operands that is too small. -/
def checkArity (op : Operator) (got : Nat) : Except Error Unit :=
  if got < op.arity.required then .error (.arity op.name op.arity.required got) else .ok ()

/-- The operands of a call that an operator takes. -/
def select {α : Type} (op : Operator) (operands : List α) : List α :=
  op.window.select op.arity.required operands

/-- An operator is found under its own name. -/
theorem name_of_find? {name : String} {op : Operator} (h : find? name = some op) :
    op.name = name := by
  simpa using List.find?_some h

end Operator

end SubstLisp
