import SubstLisp.Form.Diagnosis
import SubstLisp.Value.Basic

/-!
# Errors

Why reading or evaluation ends without a value. An error holds its cause, and this module alone
puts causes into words.

A `Failure` is an error together with the operator whose application it came out of first. Type
and evaluation errors take such a note once: the innermost application writes it, and no outer one
changes it. An error whose wording already holds the mark of a note takes none.
-/

namespace SubstLisp

/-- What is wrong with a value or form of the wrong kind. -/
inductive TypeFault where
  /-- The value in operator position names no operator. -/
  | notOperator (value : Value Unit)
  /-- The name in operator position is bound to a plain value. -/
  | notCallable (name : String) (kind : Value.Kind)
  /-- An operator that needs a symbol is given another form. -/
  | expectsSymbol (operator : String) (form : Tree)
  /-- The parameters in a definition are no list. -/
  | parametersNotList (operator name : String)
  /-- A parameter in a definition is no symbol. -/
  | parameterNotSymbol (name : String) (parameter : Tree)
  /-- A parameter occurs twice in a definition. -/
  | duplicateParameter (parameter name : String)
  /-- An arithmetic operator is given a value that is no number. -/
  | expectsNumbers (operator : String) (kind : Value.Kind)
  /-- Concatenation is given a value that has no plain text. -/
  | expectsText (kind : Value.Kind)
  /-- A form that calls a host function names it by a list. -/
  | expectsHostName (operator : String) (form : Tree)
  /-- A number is needed. -/
  | expectedNumber (kind : Value.Kind)
  /-- A string is needed. -/
  | expectedString (kind : Value.Kind)
  /-- A quoted form is to be written as JSON. -/
  | quotedInJson (form : Tree)
  /-- A JSON value nests too deeply. -/
  | deepJson (limit : Nat)
  /-- A JSON number is no integer of 64 bits. -/
  | jsonNumber (number : String)
  /-- A JSON object is to be read as a value. -/
  | jsonObject
  /-- A cause that a host function states in words. -/
  | stated (text : String)
  deriving DecidableEq

/-- What goes wrong in a computation. -/
inductive EvaluationFault where
  /-- A division by zero. -/
  | divisionByZero
  /-- The outcome of an arithmetic operator needs more than 64 bits. -/
  | overflow (operator : String)
  /-- A cause that a host function states in words. -/
  | stated (text : String)
  deriving DecidableEq, Repr

/-- What is wrong with a macro template. -/
inductive TemplateFault where
  /-- A quotation in a template quotes nothing. -/
  | emptyQuote
  /-- A list in a template begins with neither `list` nor a quotation. -/
  | unknownHead (head : Tree)
  /-- A cause stated in words. -/
  | stated (text : String)
  deriving DecidableEq

/-- Why there is no value. -/
inductive Error where
  /-- The text cannot be read. -/
  | unreadable (diagnosis : Diagnosis)
  /-- A symbol has no binding. -/
  | unboundSymbol (name : String)
  /-- A form is applied to operands and is no operator. -/
  | unknownOperator (name : String)
  /-- There are too few operands. -/
  | arity (form : String) (expected got : Nat)
  /-- A macro template cannot be expanded. -/
  | template (fault : TemplateFault)
  /-- Something is of the wrong kind. -/
  | typing (fault : TypeFault)
  /-- A computation fails. -/
  | evaluation (fault : EvaluationFault)
  /-- A host function fails. -/
  | host (text : String)
  /-- Evaluation nests too deeply. -/
  | depthLimit (limit : Nat)
  deriving DecidableEq

/-! ### Wording -/

/-- A type fault in words. -/
def TypeFault.detail : TypeFault → String
  | notOperator (.quote form) => "cannot use '" ++ form.text ++ " as an operator"
  | notOperator value => "cannot use " ++ value.kind.name ++ " " ++ value.text ++ " as an operator"
  | notCallable name kind => name ++ " is bound to a " ++ kind.name ++ " and cannot be called"
  | expectsSymbol operator form => operator ++ " expects a symbol, got " ++ form.text
  | parametersNotList operator name => operator ++ " " ++ name ++ ": parameters must be a list"
  | parameterNotSymbol name parameter =>
    "parameter of " ++ name ++ " must be a symbol, got " ++ parameter.text
  | duplicateParameter parameter name => "duplicate parameter " ++ parameter ++ " in " ++ name
  | expectsNumbers operator kind => operator ++ " expects numbers, got " ++ kind.name
  | expectsText kind => "concat expects strings or numbers, got " ++ kind.name
  | expectsHostName operator form => operator ++ " expects a host function name, got " ++ form.text
  | expectedNumber kind => "expected number, got " ++ kind.name
  | expectedString kind => "expected string, got " ++ kind.name
  | quotedInJson form => "quoted code '" ++ form.text ++ " has no JSON representation"
  | deepJson limit => s!"JSON value too deeply nested (max depth: {limit})"
  | jsonNumber number => "number too large or not integer: " ++ number
  | jsonObject => "JSON objects have no value representation"
  | stated text => text

/-- An evaluation fault in words. -/
def EvaluationFault.detail : EvaluationFault → String
  | divisionByZero => "division by zero"
  | overflow operator => "integer overflow in " ++ operator
  | stated text => text

/-- A template fault in words. -/
def TemplateFault.detail : TemplateFault → String
  | emptyQuote => "quote in macro template needs an operand"
  | unknownHead head =>
    "cannot expand " ++ head.text ++ " in macro template, expected list or quote"
  | stated text => text

/-- An error in words, with the name of its class in front. -/
def Error.message : Error → String
  | unreadable diagnosis => "SyntaxError: " ++ diagnosis.message
  | unboundSymbol name => "UnboundSymbolError: " ++ name
  | unknownOperator name => "UnsupportedOperationError: " ++ name
  | arity form expected got => s!"ArityError: {form} expected {expected} arguments, got {got}"
  | template fault => "MacroExpansionError: " ++ fault.detail
  | typing fault => "TypeError: " ++ fault.detail
  | evaluation fault => "EvaluationError: " ++ fault.detail
  | host text => "HostError: " ++ text
  | depthLimit limit => s!"EvaluationError: depth limit exceeded (max: {limit})"

/-! ### The operator in progress -/

/-- What a note about the operator in progress begins with. -/
def contextMark : String := "\n  Context: "

/-- The note that an operator was being applied. -/
def contextNote (operator : String) : String :=
  contextMark ++ "while evaluating (" ++ operator ++ " ...)"

/-- Whether a text occurs within another. -/
def occursIn (part : List Char) : List Char → Bool
  | [] => part.isEmpty
  | c :: cs => part.isPrefixOf (c :: cs) || occursIn part cs

/-- Whether an error takes a note about the operator in progress: type and evaluation errors do,
unless their wording already holds the mark of one. -/
def Error.takesContext : Error → Bool
  | typing fault => !occursIn contextMark.toList fault.detail.toList
  | evaluation fault => !occursIn contextMark.toList fault.detail.toList
  | _ => false

/-- An error and the operator it came out of first, where that is noted. -/
structure Failure where
  /-- The error that was raised. -/
  error : Error
  /-- The operator that was being applied. -/
  operator? : Option String := none
  deriving DecidableEq

namespace Failure

/-- A failure on its way out of the application of an operator. -/
def within (operator : String) (failure : Failure) : Failure :=
  if failure.operator?.isNone && failure.error.takesContext then
    { failure with operator? := some operator }
  else failure

/-- A failure in words: its error, and on a further line the operator in progress. -/
def message (failure : Failure) : String :=
  failure.error.message ++ failure.operator?.elim "" contextNote

/-- A note stands on a line of its own. -/
theorem message_some (error : Error) (operator : String) :
    (Failure.mk error (some operator)).message =
      error.message ++ "\n  Context: while evaluating (" ++ operator ++ " ...)" := by
  have hnote : "\n  Context: while evaluating (" = contextMark ++ "while evaluating (" := by decide
  rw [hnote]
  simp only [message, Option.elim, contextNote, String.append_assoc]

@[simp]
theorem error_within (operator : String) (failure : Failure) :
    (failure.within operator).error = failure.error := by
  unfold within
  split <;> rfl

/-- Once a failure has come out of an application, further ones leave it as it is. -/
@[simp]
theorem within_within (outer inner : String) (failure : Failure) :
    (failure.within inner).within outer = failure.within inner := by
  unfold within
  grind

end Failure

end SubstLisp
