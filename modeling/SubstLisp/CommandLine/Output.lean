import SubstLisp.Host
import SubstLisp.Program
import SubstLisp.Value.Json

/-!
# Output

What programs run from the command line can print, and how values are shown to a user. The state
of the host is the transcript: who has printed what so far.
-/

namespace SubstLisp.CommandLine

/-- Who prints. -/
inductive Speaker where
  /-- The program that is run, by the printing functions. -/
  | program
  /-- The command itself. -/
  | command
  deriving DecidableEq, Repr

/-- A piece of output. -/
structure Utterance where
  /-- Who has printed it. -/
  speaker : Speaker
  /-- What has been printed. -/
  text : String
  deriving DecidableEq, Repr

/-- What has been printed, in order. -/
abbrev Transcript := Array Utterance

/-- The text that has been printed. -/
def Transcript.text (transcript : Transcript) : String :=
  String.join (transcript.toList.map Utterance.text)

variable {ι : Type}

/-- A value as the printing functions write it: a string without its quotation marks. -/
def plainText : Value ι → String
  | .string text => text
  | v => v.text

/-- Prints a text on behalf of a program. -/
def write (text : String) : EStateM Error (World Transcript) Unit :=
  modify fun world => { world with host := world.host.push ⟨.program, text⟩ }

/-- Prints a value. -/
def printValue : HostFunction ι Transcript := .ofAction fun v : Value ι => write (plainText v)

/-- Prints a value and ends the line. -/
def printLine : HostFunction ι Transcript :=
  .ofAction fun v : Value ι => write (plainText v ++ "\n")

/-- The environment that programs start in. -/
def startEnvironment (maxDepth? : Option Nat) : Environment ι Transcript :=
  ({ Environment.empty with maxDepth := maxDepth? } |>.register "printf" printValue)
    |>.register "print" printLine

/-- The machine that programs start on. -/
def startMachine (maxDepth? : Option Nat) : Machine ι Transcript :=
  { Machine.initial #[] with environment := startEnvironment maxDepth? }

/-- A value as it is shown: as JSON where this is asked for and possible. -/
def shown (json : Bool) (v : Value ι) : String :=
  match json, v.jsonText with
  | true, .ok text => text
  | _, _ => v.text

/-- A failure as it is reported, on lines of its own. -/
def reported (failure : Failure) : String := "Error: " ++ failure.message ++ "\n"

/-- What a run that has used up its levels of evaluation reports. -/
def exhausted : String := "Error: evaluation has used up the levels granted to it\n"

end SubstLisp.CommandLine
