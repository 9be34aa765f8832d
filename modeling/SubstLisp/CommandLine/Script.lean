import SubstLisp.CommandLine.Options
import SubstLisp.CommandLine.Output

/-!
# Scripts

Running a program from a file or from the standard input. The report holds what goes to the two
output streams and the exit code: zero exactly when the text can be read and every form has a
value.
-/

namespace SubstLisp.CommandLine

/-- What a command leaves: an exit code and the text on the two output streams. -/
structure Report where
  /-- The exit code. -/
  code : Nat
  /-- What is written to the standard output. -/
  output : String
  /-- What is written to the standard error stream. -/
  complaints : String
  deriving DecidableEq, Repr

/-- Why the text of a program cannot be had. -/
inductive SourceFault where
  /-- There is no such file. -/
  | missing
  /-- A directory is no program. -/
  | directory
  /-- The bytes are no UTF-8. -/
  | notText
  /-- A cause that the system states in words. -/
  | stated (text : String)
  deriving DecidableEq, Repr

/-- A source fault in words. -/
def SourceFault.message : SourceFault → String
  | missing => "No such file or directory (os error 2)"
  | directory => "Is a directory (os error 21)"
  | notText => "stream did not contain valid UTF-8"
  | stated text => text

/-- The text of bytes in UTF-8. -/
def decode (bytes : ByteArray) : Except SourceFault String :=
  match String.fromUTF8? bytes with
  | some text => .ok text
  | none => .error .notText

namespace Script

/-- The policy that the options ask for. -/
def policy (options : Options) : Policy := if options.keepGoing then .keepGoing else .halt

/-- What is shown of the outcome of a program besides what it has printed. -/
def shownResult (options : Options) (outcome : Outcome Nat) : String :=
  match options.json, outcome.lastValue? with
  | true, some v => shown true v ++ "\n"
  | _, _ => ""

/-- The report on a program that has been read and evaluated, after it has printed a text. -/
def report (options : Options) (printed : String) (outcome : Outcome Nat) : Report where
  code := if outcome.isSuccess then 0 else 1
  output := printed ++ shownResult options outcome
  complaints := String.join (outcome.failures.map reported)

/-- Runs the program of a text, with so many levels of evaluation granted. -/
def run (fuel : Nat) (options : Options) (source : String) : Report :=
  match (Program.runAll Convention.byIdentity fuel (policy options) source).run
      (startMachine options.maxDepth?) with
  | .ok outcome m => report options m.world.host.text outcome
  | .error (.failed failure) m => ⟨1, m.world.host.text, reported failure⟩
  | .error .outOfFuel m => ⟨1, m.world.host.text, exhausted⟩

/-- Runs the program of a path, once its bytes have been fetched or it is known why they cannot
be. -/
def runBytes (fuel : Nat) (options : Options) (path : String)
    (bytes : Except SourceFault ByteArray) : Report :=
  match bytes.bind decode with
  | .ok source => run fuel options source
  | .error fault => ⟨1, "", path ++ ": " ++ fault.message ++ "\n"⟩

end Script

end SubstLisp.CommandLine
