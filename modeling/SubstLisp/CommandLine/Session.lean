import SubstLisp.CommandLine.Options
import SubstLisp.CommandLine.Output
import SubstLisp.Text.Blank

/-!
# Sessions

A dialogue in which each line is a program or a command. Lines share one environment; the values
of the forms of a line are shown, except those that are nothing, and a line ends with its first
failure. Commands begin with a colon.
-/

namespace SubstLisp.CommandLine

/-- The name and version of the program. -/
def versionText : String := "sexpr 0.1.0"

/-- A session after some lines. -/
structure Session where
  /-- The machine; the state of its host is what has been printed. -/
  machine : Machine Nat Transcript
  /-- Whether values are shown as JSON. -/
  json : Bool
  /-- Whether the session goes on. -/
  isOpen : Bool

/-- What a line may be. -/
inductive Line where
  /-- Text. -/
  | text (line : String)
  /-- Bytes that are no UTF-8. -/
  | undecodable
  deriving DecidableEq, Repr

namespace Session

/-! ### Texts -/

/-- Said at the start. -/
def banner : List String := [
  versionText,
  "Enter S-expressions like: (defun double (x) (+ x x)) (double 21)",
  "Type :help for more commands, or Ctrl+C to exit.",
  ""]

/-- Said on the command for help. -/
def helpLines : List String := [
  "Commands:",
  "  :help  - Show this help message",
  "  :env   - Show current bindings and host functions",
  "  :json  - Toggle JSON output of results",
  "  :quit  - Exit the interpreter",
  "  :exit  - Exit the interpreter",
  "  Ctrl+C - Exit the interpreter",
  "",
  "Forms:",
  "  Arithmetic: + - * /",
  "  Comparison: = !=",
  "  Logic: and or true false if",
  "  Data: quote 'x list concat eval",
  "  Definitions: defun defmacro setq progn",
  "  Host calls: (php print \"hello\")",
  "",
  "Examples:",
  "  (+ 1 (* 2 3))",
  "  (defmacro inc (var) (list 'setq var (list '+ var 1)))",
  "  (if (= 1 1) \"yes\" \"no\")",
  ""]

/-- Said at the end. -/
def farewell : String := "Goodbye!"

/-- Said of a line that is no text. -/
def undecodableText : String :=
  "Error: Io(Error \x7b kind: InvalidData, message: \"stream did not contain valid UTF-8\" \x7d)"

/-- A binding as the environment command shows it. -/
def bindingLine : String × Binding Nat → String
  | (name, .value v) => "  " ++ name ++ " = " ++ v.text
  | (_, binding) => "  " ++ binding.text

/-- Said on the command for the environment. -/
def environmentLines (env : Environment Nat Transcript) : List String :=
  let hosts := env.hosts.names
  let bindings := env.bindings.entries
  if bindings.isEmpty && hosts.isEmpty then ["Environment is empty."]
  else
    (if hosts.isEmpty then []
      else [s!"Host functions ({hosts.length}):", "  " ++ " ".intercalate hosts, ""]) ++
    (if bindings.isEmpty then []
      else s!"Bindings ({bindings.length}):" :: bindings.map bindingLine)

/-! ### Steps -/

/-- What has been printed. -/
def transcript (session : Session) : Transcript := session.machine.world.host

/-- The session with another transcript. -/
def withTranscript (session : Session) (transcript : Transcript) : Session :=
  { session with
    machine := { session.machine with
      world := { session.machine.world with host := transcript } } }

/-- Prints a text on behalf of the command. -/
def print (session : Session) (text : String) : Session :=
  session.withTranscript (session.transcript.push ⟨.command, text⟩)

/-- Prints lines. -/
def say (session : Session) (lines : List String) : Session :=
  session.print (String.join (lines.map (· ++ "\n")))

/-- The session that the options ask for. -/
def start (options : Options) : Session :=
  say ⟨startMachine options.maxDepth?, options.json, true⟩ banner

/-- Ends a session that goes on. -/
def close (session : Session) : Session :=
  if session.isOpen then { session.say [farewell] with isOpen := false } else session

/-- What is shown of the outcome of a form. -/
def shownResult (json : Bool) : Except Failure (Value Nat) → String
  | .ok v => if v.isNil then "" else shown json v ++ "\n"
  | .error failure => reported failure

/-- Runs the program of a line. -/
def runLine (fuel : Nat) (session : Session) (line : String) : Session :=
  match (Program.runAll Convention.byIdentity fuel .halt line).run session.machine with
  | .ok outcome machine =>
    print { session with machine } (String.join (outcome.results.map (shownResult session.json)))
  | .error (.failed failure) machine => print { session with machine } (reported failure)
  | .error .outOfFuel machine => print { session with machine } exhausted

/-- Does what a line without blanks at its ends asks for. -/
def obey (fuel : Nat) (session : Session) (line : String) : Session :=
  match line with
  | "" => session
  | ":help" => session.say helpLines
  | ":env" => session.say (environmentLines session.machine.environment)
  | ":json" =>
    say { session with json := !session.json }
      [if session.json then "JSON output disabled" else "JSON output enabled"]
  | ":quit" => session.close
  | ":exit" => session.close
  | _ => runLine fuel session line

/-- The session after one more line; when it is closed nothing is done. -/
def step (fuel : Nat) (session : Session) (line : Line) : Session :=
  if session.isOpen then
    match line with
    | .text line => session.obey fuel (String.ofList (Text.trim line.toList))
    | .undecodable => { session.say [undecodableText] with isOpen := false }
  else session

/-- The session of all lines, closed at their end. -/
def run (fuel : Nat) (options : Options) (lines : List Line) : Session :=
  (lines.foldl (step fuel) (start options)).close

/-! ### Lines of bytes -/

/-- The lines of a stream of bytes, each without its line feed. -/
def splitLines : List UInt8 → List (List UInt8)
  | [] => []
  | 10 :: rest => [] :: splitLines rest
  | byte :: rest =>
    match splitLines rest with
    | [] => [[byte]]
    | line :: lines => (byte :: line) :: lines

/-- The line of given bytes. -/
def decodeLine (bytes : List UInt8) : Line :=
  match String.fromUTF8? ⟨bytes.toArray⟩ with
  | some line => .text line
  | none => .undecodable

end Session

end SubstLisp.CommandLine
