import SubstLisp.Definition

/-!
# Events

What happens in a run, in order: what it reads, defines, calls and ignores. An event holds the
things it is about. `Event.report?` puts it into words for a log; what a host function gives back
is no matter for the log.
-/

namespace SubstLisp

/-- Something that happens in a run. -/
inductive Event (ι : Type) where
  /-- A text has been read as so many forms. -/
  | read (forms : Nat)
  /-- A name is bound, and may have been bound before. -/
  | defined (name : String) (binding : Binding ι) (previous : Option (Binding ι))
  /-- A host function is registered. -/
  | registered (name : String)
  /-- So many arguments of a function or macro are ignored. -/
  | surplusArguments (name : String) (count : Nat)
  /-- So many operands of an operator are ignored. -/
  | surplusOperands (operator : String) (count : Nat)
  /-- A list template has been expanded to so many items. -/
  | listExpanded (size : Nat)
  /-- A macro has been expanded to this code. -/
  | macroExpanded (name : String) (code : Form ι)
  /-- A function is called, and this is its body with the arguments put in. -/
  | called (name : String) (body : Form ι)
  /-- A host function is called. -/
  | hostCalled (name : String) (argument : Value ι)
  /-- A host function has given back a value. -/
  | hostReturned (name : String) (result : Value ι)
  /-- A form of a program has failed; forms are counted from one. -/
  | formFailed (index : Nat) (failure : Failure)

/-- How closely one has to look to see an event. -/
inductive Event.Level where
  /-- Of interest when looking for mistakes. -/
  | debug
  /-- Of interest when following every step. -/
  | trace
  deriving DecidableEq, Repr

/-- A line of a log. -/
structure Event.Report where
  /-- How closely one has to look. -/
  level : Event.Level
  /-- The event in words. -/
  message : String
  deriving DecidableEq, Repr

namespace Event

variable {ι κ : Type}

/-- An event as a line of a log. -/
def report? : Event ι → Option Report
  | read forms => some ⟨.trace, s!"read {forms} top-level form(s)"⟩
  | defined name _ none => some ⟨.debug, "defining " ++ name⟩
  | defined name _ (some previous) =>
    some ⟨.debug, "redefining " ++ name ++ " (was " ++ previous.text ++ ")"⟩
  | registered name => some ⟨.debug, "registering host function " ++ name⟩
  | surplusArguments name count =>
    some ⟨.debug, s!"{name}: ignoring {count} surplus argument(s)"⟩
  | surplusOperands operator count =>
    some ⟨.debug, s!"{operator}: ignoring {count} surplus operand(s)"⟩
  | listExpanded size => some ⟨.trace, s!"expanded list template into {size} element(s)"⟩
  | macroExpanded name code => some ⟨.trace, "macro " ++ name ++ " expanded to " ++ code.text⟩
  | called name body => some ⟨.trace, "calling " ++ name ++ ": " ++ body.text⟩
  | hostCalled name argument =>
    some ⟨.debug, "calling host function " ++ name ++ " with " ++ argument.text⟩
  | hostReturned _ _ => none
  | formFailed index failure => some ⟨.debug, s!"form #{index} failed: " ++ failure.message⟩

/-- The event with every label replaced by its image. -/
def map (g : ι → κ) : Event ι → Event κ
  | read forms => read forms
  | defined name binding previous => defined name (binding.map g) (previous.map (Binding.map g))
  | registered name => registered name
  | surplusArguments name count => surplusArguments name count
  | surplusOperands operator count => surplusOperands operator count
  | listExpanded size => listExpanded size
  | macroExpanded name code => macroExpanded name (code.map g)
  | called name body => called name (body.map g)
  | hostCalled name argument => hostCalled name (argument.map g)
  | hostReturned name result => hostReturned name (result.map g)
  | formFailed index failure => formFailed index failure

/-- The event without labels. -/
def erase (event : Event ι) : Event Unit := event.map fun _ => ()

end Event

end SubstLisp
