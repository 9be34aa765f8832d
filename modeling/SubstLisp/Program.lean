import SubstLisp.Evaluation

/-!
# Programs

A program is a text: its top-level forms are evaluated in order.

* `Program.run` stops at the first failure and gives the value of the last form.
* `Program.runAll` gives the outcome of every form that is evaluated, under a policy that says
  whether to go on after a failure.

A text that cannot be read fails before anything is evaluated.
-/

namespace SubstLisp

/-- What to do after a form has failed. -/
inductive Policy where
  /-- Evaluate no further form. -/
  | halt
  /-- Go on with the next form. -/
  | keepGoing
  deriving DecidableEq, Repr, Inhabited

/-- The outcomes of the forms of a program. -/
structure Outcome (ι : Type) where
  /-- One outcome for each form evaluated, in order. -/
  results : List (Except Failure (Value ι))
  /-- The number of forms of the program. -/
  formCount : Nat

namespace Outcome

variable {ι : Type}

/-- The value that an outcome of a form is. -/
def valueOf? : Except Failure (Value ι) → Option (Value ι)
  | .ok v => some v
  | .error _ => none

/-- The failure that an outcome of a form is. -/
def failureOf? : Except Failure (Value ι) → Option Failure
  | .ok _ => none
  | .error failure => some failure

/-- The value of the last form evaluated, unless it has failed. -/
def lastValue? (outcome : Outcome ι) : Option (Value ι) := outcome.results.getLast?.bind valueOf?

/-- The failures in order. -/
def failures (outcome : Outcome ι) : List Failure := outcome.results.filterMap failureOf?

/-- Whether every form of the program has been evaluated to a value. -/
def isSuccess (outcome : Outcome ι) : Bool :=
  outcome.results.all (fun result => (valueOf? result).isSome) &&
    outcome.results.length == outcome.formCount

end Outcome

namespace Program

variable {ι σ : Type}

/-- The levels of evaluation granted to a run that should not run out of them: more than the
memory of a computer can hold. -/
def ampleFuel : Nat := 1000000000000000

/-- The forms of a text, each node with a fresh label. -/
def read (convention : Convention ι) (source : String) : Run ι σ (List (Form ι)) := do
  match Reader.read Reader.defaultLimit source with
  | .error diagnosis => Run.fail (.unreadable diagnosis)
  | .ok trees =>
    let forms ← Run.minting (Form.freshenAll convention.label trees)
    Run.emit (.read forms.length)
    return forms

/-- Evaluates a top-level form. -/
def evalTop (convention : Convention ι) (fuel : Nat) (form : Form ι) : Run ι σ (Value ι) :=
  Evaluation.eval convention fuel 0 form

/-- Reads a text and evaluates its forms up to the first failure; the value is that of the last
form. -/
def run (convention : Convention ι) (fuel : Nat) (source : String) : Run ι σ (Value ι) := do
  let forms ← read convention source
  forms.foldlM (fun _ form => evalTop convention fuel form) .nil

/-- The outcomes of forms evaluated in order under a policy; `index` is the number of the first
of them. -/
def evalForms (evaluate : Form ι → Run ι σ (Value ι)) (policy : Policy) :
    (index : Nat) → List (Form ι) → Run ι σ (List (Except Failure (Value ι)))
  | _, [] => return []
  | index, form :: forms => do
    match ← Run.attempt (evaluate form) with
    | .ok v => return .ok v :: (← evalForms evaluate policy (index + 1) forms)
    | .error failure =>
      Run.emit (.formFailed index failure)
      match policy with
      | .halt => return [.error failure]
      | .keepGoing => return .error failure :: (← evalForms evaluate policy (index + 1) forms)

/-- Reads a text and evaluates its forms under a policy. -/
def runAll (convention : Convention ι) (fuel : Nat) (policy : Policy) (source : String) :
    Run ι σ (Outcome ι) := do
  let forms ← read convention source
  return ⟨← evalForms (evalTop convention fuel) policy 1 forms, forms.length⟩

end Program

end SubstLisp
