import SubstLisp.CommandLine.Script
import SubstLisp.CommandLine.Session

/-!
# Commands

The whole command as a function: from its arguments, the files it may look into and the bytes on
its standard input to its report.
-/

namespace SubstLisp.CommandLine

/-- Said on the request for help. -/
def helpText : String := String.join ([
  "Evaluate S-expression programs",
  "",
  "Usage: sexpr [OPTIONS] [FILE]",
  "",
  "Arguments:",
  "  [FILE]  Program to run, or - for stdin; starts a REPL when omitted",
  "",
  "Options:",
  "      --keep-going     Keep evaluating after a form fails",
  "      --max-depth <N>  Limit evaluation nesting depth",
  "      --json           Print results as JSON",
  "  -h, --help           Print help",
  "  -V, --version        Print version"].map (· ++ "\n"))

/-- A mistake in the arguments, in words. -/
def Misuse.message : Misuse → String
  | unexpected argument => "unexpected argument '" ++ argument ++ "' found"
  | repeated option => "the argument '" ++ option ++ "' cannot be used multiple times"
  | unneededValue option => "unexpected value for '" ++ option ++ "' found; no more were expected"
  | missingValue option => "a value is required for '" ++ option ++ " <N>' but none was supplied"
  | badValue option value => "invalid value '" ++ value ++ "' for '" ++ option ++ " <N>'"

/-- The report on a mistake in the arguments. -/
def Misuse.report (misuse : Misuse) : Report :=
  ⟨2, "", "error: " ++ misuse.message ++ "\n\nFor more information, try '--help'.\n"⟩

/-- The path that stands for the standard input. -/
def standardInput : String := "-"

/-- The report of a command. -/
def execute (fuel : Nat) (arguments : List String) (files : String → Except SourceFault ByteArray)
    (input : ByteArray) : Report :=
  match request arguments with
  | .error misuse => misuse.report
  | .ok .version => ⟨0, versionText ++ "\n", ""⟩
  | .ok .help => ⟨0, helpText, ""⟩
  | .ok (.run options) =>
    match options.file? with
    | some path =>
      Script.runBytes fuel options path (if path = standardInput then .ok input else files path)
    | none =>
      let lines := (Session.splitLines input.toList).map Session.decodeLine
      ⟨0, (Session.run fuel options lines).transcript.text, ""⟩

end SubstLisp.CommandLine
