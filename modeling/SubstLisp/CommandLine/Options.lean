import SubstLisp.Text.Numeral

/-!
# Options

What the arguments of a command line ask for. Arguments are taken from left to right: the first
mistake counts, and a request for the version or for help is met as soon as it is reached.

* Options stand before, after and between other arguments, up to an argument `--`.
* An option is given once. `--max-depth` takes a number, as the next argument or after `=`; the
  other options take none.
* One other argument may name the program to run; `-` is the standard input.
-/

namespace SubstLisp.CommandLine

/-- What a run is asked to do. -/
structure Options where
  /-- The program to run; a session is started when there is none. -/
  file? : Option String
  /-- Whether to go on after a form fails. -/
  keepGoing : Bool
  /-- The limit on the depth of evaluation. -/
  maxDepth? : Option Nat
  /-- Whether to print results as JSON. -/
  json : Bool
  deriving DecidableEq, Repr

/-- The options when there are no arguments. -/
def Options.default : Options := ⟨none, false, none, false⟩

/-- A mistake in the arguments. -/
inductive Misuse where
  /-- There is no such option, or no place for a further argument. -/
  | unexpected (argument : String)
  /-- An option is given twice. -/
  | repeated (option : String)
  /-- An option is given a value and takes none. -/
  | unneededValue (option : String)
  /-- An option is given no value and takes one. -/
  | missingValue (option : String)
  /-- The value of an option is no number in range. -/
  | badValue (option value : String)
  deriving DecidableEq, Repr

/-- What the arguments ask for. -/
inductive Request where
  /-- To run a program or a session. -/
  | run (options : Options)
  /-- To print the version. -/
  | version
  /-- To print help. -/
  | help
  deriving DecidableEq, Repr

namespace Options

/-- The options with a program to run. -/
def withFile (options : Options) (path : String) : Except Misuse Options :=
  if options.file?.isSome then .error (.unexpected path)
  else .ok { options with file? := some path }

/-- The options with those after `--`, none of which is read as an option. -/
def withFiles (options : Options) : List String → Except Misuse Options
  | [] => .ok options
  | path :: paths => do (← options.withFile path).withFiles paths

/-- The greatest depth limit. -/
def maxLimit : Nat := UInt64.size - 1

/-- The options with a depth limit. -/
def withMaxDepth (options : Options) (value : String) : Except Misuse Options :=
  match Numeral.unsigned? value.toList with
  | some n =>
    if maxLimit < n then .error (.badValue "--max-depth" value)
    else if options.maxDepth?.isSome then .error (.repeated "--max-depth")
    else .ok { options with maxDepth? := some n }
  | none => .error (.badValue "--max-depth" value)

/-- The options with JSON output. -/
def withJson (options : Options) : Except Misuse Options :=
  if options.json then .error (.repeated "--json") else .ok { options with json := true }

/-- The options with which a run goes on after a failure. -/
def withKeepGoing (options : Options) : Except Misuse Options :=
  if options.keepGoing then .error (.repeated "--keep-going")
  else .ok { options with keepGoing := true }

end Options

/-- A long option without its dashes: its name and the value after `=`. -/
def splitOption (option : List Char) : String × Option String :=
  (String.ofList (option.takeWhile (· != '=')),
    match option.dropWhile (· != '=') with
    | [] => none
    | _ :: value => some (String.ofList value))

/-- Refuses a value for an option that takes none. -/
def refuseValue (option : String) : Option String → Except Misuse Unit
  | none => .ok ()
  | some _ => .error (.unneededValue option)

/-- Whether an argument is read as an option, so that it is no value of an option before it. -/
def looksLikeOption (argument : String) : Bool :=
  match argument.toList with
  | '-' :: _ :: _ => true
  | _ => false

/-- What further arguments ask for, after those that have led to the given options. -/
def Options.request (options : Options) : List String → Except Misuse Request
  | [] => .ok (.run options)
  | argument :: rest =>
    match argument.toList with
    | ['-', '-'] => do return .run (← options.withFiles rest)
    | '-' :: '-' :: option =>
      match splitOption option with
      | ("json", value) => do
        refuseValue "--json" value
        (← options.withJson).request rest
      | ("keep-going", value) => do
        refuseValue "--keep-going" value
        (← options.withKeepGoing).request rest
      | ("version", value) => do
        refuseValue "--version" value
        return .version
      | ("help", value) => do
        refuseValue "--help" value
        return .help
      | ("max-depth", some value) => do (← options.withMaxDepth value).request rest
      | ("max-depth", none) =>
        match rest with
        | [] => .error (.missingValue "--max-depth")
        | value :: rest =>
          if looksLikeOption value then .error (.missingValue "--max-depth")
          else do (← options.withMaxDepth value).request rest
      | _ => .error (.unexpected argument)
    | '-' :: 'V' :: _ => .ok .version
    | '-' :: 'h' :: _ => .ok .help
    | '-' :: _ :: _ => .error (.unexpected argument)
    | _ => do (← options.withFile argument).request rest

/-- What the arguments of a command line ask for. -/
def request (arguments : List String) : Except Misuse Request := Options.default.request arguments

end SubstLisp.CommandLine
