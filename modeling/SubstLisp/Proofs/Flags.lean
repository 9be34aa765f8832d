import SubstLisp.CommandLine.Command
import SubstLisp.Proofs.JsonText
import SubstLisp.Proofs.Policies
import SubstLisp.Proofs.Scanning
import SubstLisp.Proofs.Transcripts

/-!
# Flags

The flags `--json` and `--keep-going` of a command that runs a script. Either may be added to the
arguments where it is not given yet, and changes nothing in what is asked for but itself. The first
then adds a line to the standard output at most. The second lets the run go on where it would have
halted: what either stream has received by then is the start of what it receives.

## What is proved

* `Options.request_cons` — an argument leads on by a step that passes flags by, whatever was given
  before it.
* `Flag.request_argument_cons` — a flag that is not given can be given.
* `execute_flags` — what the flags change in the report of a command, and what the exit code means.
-/

namespace SubstLisp

/-! ### Arguments -/

namespace CommandLine

theorem bind_eq_ok_iff {ε α β : Type} {x : Except ε α} {k : α → Except ε β} {b : β} :
    (x >>= k) = .ok b ↔ ∃ a, x = .ok a ∧ k a = .ok b := by
  cases x with
  | error e => exact ⟨fun h => (nomatch h), fun ⟨_, h, _⟩ => (nomatch h)⟩
  | ok a => exact ⟨fun h => ⟨a, rfl, h⟩, fun ⟨_, ha, h⟩ => by cases ha; exact h⟩

/-- The options that are given or not, and take no value. -/
inductive Flag where
  /-- To print results as JSON. -/
  | json
  /-- To go on after a form fails. -/
  | keepGoing
  deriving DecidableEq, Repr

namespace Flag

/-- The argument that gives a flag. -/
def argument : Flag → String
  | json => "--json"
  | keepGoing => "--keep-going"

/-- Whether a flag is among the options. -/
def isSet (options : Options) : Flag → Bool
  | json => options.json
  | keepGoing => options.keepGoing

/-- The options with a flag. -/
def set (options : Options) : Flag → Options
  | json => { options with json := true }
  | keepGoing => { options with keepGoing := true }

/-- A step from options to options passes a flag by: it does not take it back, and where it does not
give it itself, it does the same when the flag has been given before. -/
structure Passes (flag : Flag) (step : Options → Options → Prop) : Prop where
  isSet : ∀ {options options'}, step options options' → flag.isSet options = true →
    flag.isSet options' = true
  set : ∀ {options options'}, step options options' → flag.isSet options' = false →
    step (flag.set options) (flag.set options')

theorem Passes.comp {flag : Flag} {step step' : Options → Options → Prop} (h : flag.Passes step)
    (h' : flag.Passes step') : flag.Passes fun options options'' =>
      ∃ options', step options options' ∧ step' options' options'' where
  isSet := fun ⟨_, hstep, hstep'⟩ hset => h'.isSet hstep' (h.isSet hstep hset)
  set := by
    rintro options options'' ⟨options', hstep, hstep'⟩ hunset
    have hunset' : flag.isSet options' = false :=
      Bool.eq_false_iff.2 fun hset => Bool.eq_false_iff.1 hunset (h'.isSet hstep' hset)
    exact ⟨flag.set options', h.set hstep hunset', h'.set hstep' hunset⟩

section

variable (flag : Flag)

/-- A change of the options is passed by, unless it is refused. -/
theorem passes_unless {refused : Options → Bool} {change : Options → Options} {misuse : Misuse}
    (hkept : ∀ options, flag.isSet options = true → flag.isSet (change options) = true)
    (hset : ∀ options, flag.isSet (change options) = false →
      refused (flag.set options) = refused options ∧
        change (flag.set options) = flag.set (change options)) :
    flag.Passes fun options options' =>
      (if refused options then .error misuse else .ok (change options)) = Except.ok options' where
  isSet := by
    intro options options' h
    split at h <;> cases h
    exact hkept options
  set := by
    intro options options' h hunset
    split at h <;> cases h
    next hallowed =>
      obtain ⟨hrefused, hchange⟩ := hset options hunset
      rw [hrefused, hchange, if_neg hallowed]

theorem passes_withFile (path : String) :
    flag.Passes fun options options' => options.withFile path = .ok options' := by
  cases flag <;> exact passes_unless _ (fun _ h => h) fun _ _ => ⟨rfl, rfl⟩

theorem passes_withFiles (paths : List String) :
    flag.Passes fun options options' => options.withFiles paths = .ok options' := by
  induction paths with
  | nil =>
    refine ⟨fun h hset => ?_, fun h _ => ?_⟩ <;> cases h
    · exact hset
    · rfl
  | cons path paths ih =>
    have hstep := (passes_withFile flag path).comp ih
    simpa only [Options.withFiles, bind_eq_ok_iff] using hstep

theorem passes_withMaxDepth (value : String) :
    flag.Passes fun options options' => options.withMaxDepth value = .ok options' := by
  have hrefused : ∀ misuse : Misuse,
      flag.Passes fun _ options' => .error misuse = Except.ok options' :=
    fun _ => ⟨fun h => (nomatch h), fun h => (nomatch h)⟩
  unfold Options.withMaxDepth
  split
  · split
    · exact hrefused _
    · cases flag <;> exact passes_unless _ (fun _ h => h) fun _ _ => ⟨rfl, rfl⟩
  · exact hrefused _

theorem passes_withJson :
    flag.Passes fun options options' => options.withJson = .ok options' := by
  cases flag
  · exact passes_unless _ (fun _ _ => rfl) fun _ h => nomatch h
  · exact passes_unless _ (fun _ h => h) fun _ _ => ⟨rfl, rfl⟩

theorem passes_withKeepGoing :
    flag.Passes fun options options' => options.withKeepGoing = .ok options' := by
  cases flag
  · exact passes_unless _ (fun _ h => h) fun _ _ => ⟨rfl, rfl⟩
  · exact passes_unless _ (fun _ _ => rfl) fun _ h => nomatch h

end

end Flag

namespace Options

/-- An argument leads on by a step that passes flags by, whatever was given before it, or it asks
for no run. -/
theorem request_cons (argument : String) (rest : List String) :
    (∃ (step : Options → Except Misuse Options) (rest' : List String),
      (∀ flag : Flag, flag.Passes fun options options' => step options = .ok options') ∧
      rest'.length ≤ rest.length ∧ ∀ options : Options,
        options.request (argument :: rest) = (do (← step options).request rest')) ∨
    ∀ options options' : Options, options.request (argument :: rest) ≠ .ok (.run options') := by
  have hrequest := fun options => request.eq_def options (argument :: rest)
  have hnot : ∀ {asked : Except Misuse Request},
      (∀ options : Options, options.request (argument :: rest) = asked) →
      (∀ options' : Options, asked ≠ .ok (.run options')) →
      ∀ options options' : Options, options.request (argument :: rest) ≠ .ok (.run options') :=
    fun h hasked options options' hok => hasked options' ((h options).symm.trans hok)
  -- which case applies depends on the argument alone, so the splits are under the quantifier
  simp only at hrequest
  split at hrequest
  · -- `--`: the arguments behind it are files
    exact .inl ⟨(withFiles · rest), [], fun flag => flag.passes_withFiles rest, Nat.zero_le _,
      hrequest⟩
  · -- a long option
    split at hrequest
    · next value _ =>
      cases value with
      | none =>
        exact .inl ⟨withJson, rest, fun flag => flag.passes_withJson, Nat.le_refl _, hrequest⟩
      | some value => exact .inr (hnot hrequest nofun)
    · next value _ =>
      cases value with
      | none =>
        exact .inl ⟨withKeepGoing, rest, fun flag => flag.passes_withKeepGoing, Nat.le_refl _,
          hrequest⟩
      | some value => exact .inr (hnot hrequest nofun)
    · next value _ => exact .inr (hnot hrequest (by cases value <;> nofun))
    · next value _ => exact .inr (hnot hrequest (by cases value <;> nofun))
    · next value _ =>
      exact .inl ⟨(withMaxDepth · value), rest, fun flag => flag.passes_withMaxDepth value,
        Nat.le_refl _, hrequest⟩
    · split at hrequest
      · exact .inr (hnot hrequest nofun)
      · next value rest =>
        split at hrequest
        · exact .inr (hnot hrequest nofun)
        · exact .inl ⟨(withMaxDepth · value), rest, fun flag => flag.passes_withMaxDepth value,
            Nat.le_succ _, hrequest⟩
    · exact .inr (hnot hrequest nofun)
  · exact .inr (hnot hrequest nofun)
  · exact .inr (hnot hrequest nofun)
  · exact .inr (hnot hrequest nofun)
  · -- a file
    exact .inl ⟨(withFile · argument), rest, fun flag => flag.passes_withFile argument,
      Nat.le_refl _, hrequest⟩

/-- The arguments pass flags by. -/
theorem passes_request (flag : Flag) (arguments : List String) :
    flag.Passes fun options options' => options.request arguments = .ok (.run options') := by
  match arguments with
  | [] =>
    refine ⟨fun h hset => ?_, fun h _ => ?_⟩ <;> cases h
    · exact hset
    · rfl
  | argument :: rest =>
    rcases request_cons argument rest with ⟨step, rest', hstep, hlength, hrequest⟩ | hnot
    · have hrest := passes_request flag rest'
      simpa only [hrequest, bind_eq_ok_iff] using (hstep flag).comp hrest
    · exact ⟨fun h => absurd h (hnot _ _), fun h => absurd h (hnot _ _)⟩
termination_by arguments.length

end Options

/-- A flag that is not given can be given. -/
theorem Flag.request_argument_cons {flag : Flag} {arguments : List String} {options : Options}
    (h : request arguments = .ok (.run options)) (hunset : flag.isSet options = false) :
    request (flag.argument :: arguments) = .ok (.run (flag.set options)) := by
  have hset : request (flag.argument :: arguments) =
      (flag.set Options.default).request arguments := by
    cases flag <;> rfl
  rw [hset]
  exact (Options.passes_request flag arguments).set h hunset

/-- A flag may stand elsewhere, but not between an option and its value. -/
example :
    request ["--max-depth", "3", "--json", "-"] = .ok (.run ⟨some "-", false, some 3, true⟩) ∧
      request ["--max-depth", "--json", "3", "-"] = .error (.missingValue "--max-depth") := by
  decide

end CommandLine

/-! ### Policies -/

namespace Program

variable {ι σ : Type} {c : Convention ι} {fuel : Nat} {source : String} {m : Machine ι σ}

/-- A run that goes on leads the host on from where a run halts. -/
theorem Course.led {R : σ → σ → Prop} [Std.Refl R] [IsTrans σ R]
    {halted going : Ending ι σ (Outcome ι)} {ran : Ending ι σ (Value ι)}
    (h : Course c fuel source m halted going ran) (hm : (Ending.machine halted).HostsLead R) :
    (Ending.machine halted).Led R (Ending.machine going) := by
  cases h with
  | unreadable _ => exact .of_world_eq rfl rfl
  | success _ _ => exact .of_world_eq rfl rfl
  | @failed _ _ after _ _ m₂ vs failure =>
    exact (led_evalForms hm c fuel .keepGoing (1 + vs.length + 1) after).bind fun _ _ _ =>
      .of_world_eq rfl rfl
  | outOfFuel => exact .of_world_eq rfl rfl

end Program

/-! ### Reports -/

namespace CommandLine

namespace Script

/-- The report on a program that has ended. -/
def reportOn (options : Options) : Ending Nat Transcript (Outcome Nat) → Report
  | .ok outcome m => report options m.world.host.text outcome
  | .error (.failed failure) m => ⟨1, m.world.host.text, reported failure⟩
  | .error .outOfFuel m => ⟨1, m.world.host.text, exhausted⟩

theorem run_eq_reportOn (fuel : Nat) (options : Options) (source : String) :
    run fuel options source = reportOn options (Program.runAll .byIdentity fuel (policy options)
      source (startMachine options.maxDepth?)) := by
  unfold run EStateM.run
  cases Program.runAll .byIdentity fuel (policy options) source _ with
  | ok outcome m => rfl
  | error stop m => cases stop <;> rfl

/-- A line shows a value. If the value quotes nothing, the line is a JSON text: read as JSON it is the
value, and so it is when a program reads it, as deep as its reader lets lists nest. A value that
quotes something has no JSON and is shown as it is printed. -/
structure Shows (v : Value Nat) (line : String) : Prop where
  json : v.quotations = [] → ∃ text, line = text ++ "\n" ∧ text = v.json.text ∧
    Json.parse? v.nesting text = some v.json ∧
    (v.nesting ≤ Json.maxNesting → Value.ofJsonText text = .ok v)
  printed : v.quotations ≠ [] → line = v.text ++ "\n"

/-- What is shown of a result: a line for a value, and nothing for a failure or for no result. -/
def ShowsResult : Option (Except Failure (Value Nat)) → String → Prop
  | some (.ok v), text => Shows v text
  | some (.error _), text | none, text => text = ""

/-- The result of the last form evaluated. -/
def lastResult? : Ending Nat Transcript (Outcome Nat) → Option (Except Failure (Value Nat))
  | .ok outcome _ => outcome.results.getLast?
  | .error _ _ => none

/-- What `--json` does to the report on a program that ends so. -/
structure AddsRendering (ending : Ending Nat Transcript (Outcome Nat)) (plain json : Report) :
    Prop where
  code_eq : json.code = plain.code
  complaints_eq : json.complaints = plain.complaints
  /-- Without it there is the output of the program. -/
  plain_output : plain.output = (Ending.machine ending).world.host.text
  /-- With it the last value follows, if the last form evaluated has one. -/
  json_output : ∃ more, json.output = plain.output ++ more ∧ ShowsResult (lastResult? ending) more

/-- What is written to the standard error stream about a program that is run on after failures and
ends so, and what is written about it without `--keep-going`: the failures in order, and the first
of them at most. A run that has used up the granted depth tells that instead. -/
def Complaints (halted going : String) : Ending Nat Transcript (Outcome Nat) → Prop
  | .ok outcome _ => going = String.join (outcome.failures.map reported) ∧
      halted = String.join ((outcome.failures.take 1).map reported)
  | .error (.failed failure) _ => going = reported failure ∧ halted = reported failure
  | .error .outOfFuel _ => going = exhausted ∧
      (halted = exhausted ∨ ∃ failure, halted = reported failure)

/-- What `--keep-going` does to the report on a program that then ends so. -/
structure GoesOn (ending : Ending Nat Transcript (Outcome Nat)) (halted going : Report) : Prop where
  code_eq : going.code = halted.code
  output_prefix : ∃ more, going.output = halted.output ++ more
  complaints : Complaints halted.complaints going.complaints ending
  complaints_prefix : (∀ m, ending ≠ .error .outOfFuel m) →
    ∃ more, going.complaints = halted.complaints ++ more

section

variable {options : Options} {ending : Ending Nat Transcript (Outcome Nat)}

theorem output_of_not_json (h : options.json = false) :
    (reportOn options ending).output = (Ending.machine ending).world.host.text := by
  cases ending with
  | ok outcome m =>
    show m.world.host.text ++ shownResult options outcome = m.world.host.text
    rw [shownResult, h, String.append_empty]
  | error stop m => cases stop <;> rfl

/-- A value is shown as JSON where it has any. -/
theorem shows_shown (v : Value Nat) : Shows v (shown true v ++ "\n") where
  json hquote := by
    refine ⟨v.json.text, ?_, rfl, ?_, Value.ofJsonText_text_json hquote⟩
    · simp only [shown, Value.jsonText_of_quotations_eq_nil hquote]
    · rw [Value.parse?_text_json hquote, if_pos (Nat.le_refl _)]
  printed hquote := by
    obtain ⟨f, rest, hquote⟩ := List.exists_cons_of_ne_nil hquote
    simp only [shown, Value.jsonText_of_quotations_eq_cons hquote]

theorem showsResult_json (outcome : Outcome Nat) :
    ShowsResult outcome.results.getLast? (shownResult (Flag.json.set options) outcome) := by
  unfold shownResult Outcome.lastValue?
  cases outcome.results.getLast? with
  | none => rfl
  | some result =>
    cases result with
    | error failure => rfl
    | ok v => exact shows_shown v

theorem addsRendering (h : options.json = false) (ending : Ending Nat Transcript (Outcome Nat)) :
    AddsRendering ending (reportOn options ending) (reportOn (Flag.json.set options) ending) := by
  have hplain := @output_of_not_json options ending h
  cases ending with
  | ok outcome m =>
    refine ⟨rfl, rfl, hplain, _, ?_, @showsResult_json options outcome⟩
    rw [hplain]
    rfl
  | error stop m => cases stop <;> exact ⟨rfl, rfl, rfl, "", (String.append_empty).symm, rfl⟩

theorem code_report_of_failure (printed : String) (vs : List (Value Nat)) (failure : Failure)
    (rest : List (Except Failure (Value Nat))) (formCount : Nat) :
    (report options printed ⟨vs.map .ok ++ .error failure :: rest, formCount⟩).code = 1 := by
  rw [report, Outcome.isSuccess_of_failure]
  rfl

theorem Complaints.exists_append {halted going : String} (h : Complaints halted going ending)
    (hends : ∀ m, ending ≠ .error .outOfFuel m) : ∃ more, going = halted ++ more := by
  cases ending with
  | ok outcome m =>
    obtain ⟨hgoing, hhalted⟩ := h
    refine ⟨String.join ((outcome.failures.drop 1).map reported), ?_⟩
    rw [hgoing, hhalted, ← String.join_append, ← List.map_append, List.take_append_drop]
  | error stop m =>
    cases stop with
    | failed failure =>
      obtain ⟨hgoing, hhalted⟩ := h
      exact ⟨"", by rw [hgoing, hhalted, String.append_empty]⟩
    | outOfFuel => exact absurd rfl (hends m)

variable {options' : Options} {fuel : Nat} {source : String} {m : Machine Nat Transcript}
  {halted going : Ending Nat Transcript (Outcome Nat)} {ran : Ending Nat Transcript (Value Nat)}

theorem code_eq_of_course (h : Program.Course .byIdentity fuel source m halted going ran) :
    (reportOn options' going).code = (reportOn options halted).code := by
  cases h with
  | unreadable _ => rfl
  | success _ _ => rfl
  | @failed _ _ after _ _ m₂ vs failure =>
    rw [reportOn, code_report_of_failure]
    simp only [bind, EStateM.bind]
    cases Program.evalForms (Program.evalTop .byIdentity fuel) .keepGoing _ after _ with
    | ok rest m₃ => exact code_report_of_failure _ vs failure rest _
    | error stop m₃ => cases stop <;> rfl
  | outOfFuel => rfl

theorem complaints_of_course (h : Program.Course .byIdentity fuel source m halted going ran) :
    Complaints (reportOn options halted).complaints (reportOn options' going).complaints going := by
  cases h with
  | unreadable _ => exact ⟨rfl, rfl⟩
  | @success forms _ m₁ vs _ _ =>
    have hnone : (Outcome.mk (vs.map .ok) forms.length).failures = [] := Outcome.failures_values vs
    refine ⟨rfl, ?_⟩
    rw [reportOn, report, hnone]
    rfl
  | @failed _ _ after _ _ m₂ vs failure =>
    have hhalted : ∀ formCount m₁, (reportOn options
        (.ok ⟨vs.map .ok ++ [.error failure], formCount⟩ m₁)).complaints = reported failure := by
      intro formCount m₁
      rw [reportOn, report, Outcome.failures_of_failure]
      exact String.empty_append
    rw [hhalted]
    simp only [bind, EStateM.bind]
    cases hrest : Program.evalForms (Program.evalTop .byIdentity fuel) .keepGoing _ after _ with
    | ok rest m₃ =>
      refine ⟨rfl, ?_⟩
      rw [Outcome.failures_of_failure]
      exact String.empty_append.symm
    | error stop m₃ =>
      obtain rfl := Program.stop_eq_of_evalForms hrest
      exact ⟨rfl, .inr ⟨failure, rfl⟩⟩
  | outOfFuel => exact ⟨rfl, .inl rfl⟩

/-- The exit code is zero when all forms have values. -/
theorem code_eq_zero_of_gives {forms : List Node} {m₀ m₁ : Machine Nat Transcript}
    {vs : List (Value Nat)} (h : Program.Gives (Program.evalTop .byIdentity fuel) forms m₀ vs m₁) :
    (reportOn options (.ok ⟨vs.map .ok, forms.length⟩ m₁)).code = 0 := by
  rw [reportOn, report, ← h.length_eq, Outcome.isSuccess_values]
  rfl

/-- When the exit code of a halting run is zero all forms have values. -/
theorem gives_of_code_eq_zero (h : Program.Course .byIdentity fuel source m halted going ran)
    (hcode : (reportOn options halted).code = 0) :
    ∃ forms m₀ vs m₁, Program.read .byIdentity source m = .ok forms m₀ ∧
      Program.Gives (Program.evalTop .byIdentity fuel) forms m₀ vs m₁ := by
  cases h with
  | unreadable _ => cases hcode
  | success hread hgives => exact ⟨_, _, _, _, hread, hgives⟩
  | failed _ _ _ =>
    rw [reportOn, code_report_of_failure] at hcode
    cases hcode
  | outOfFuel => cases hcode

theorem goesOn (h : options.json = false) (h' : options'.json = false)
    (hm : m.HostsLead Transcript.Adds)
    (hled : m.Led Transcript.Adds (Ending.machine halted))
    (hcourse : Program.Course .byIdentity fuel source m halted going ran) :
    GoesOn going (reportOn options halted) (reportOn options' going) := by
  have hadds := (hcourse.led (hm.of_hosts_eq hled.hosts)).host
  obtain ⟨more, hmore⟩ := Transcript.exists_text_of_adds hadds
  have hcomplaints := @complaints_of_course options options' _ _ _ _ _ _ hcourse
  refine ⟨code_eq_of_course hcourse, ⟨more, ?_⟩, hcomplaints, hcomplaints.exists_append⟩
  rw [output_of_not_json h, output_of_not_json h', hmore]

end

/-- The exit code is zero exactly when the text can be read and all forms have values. -/
theorem code_run_eq_zero_iff (fuel : Nat) (options : Options) (source : String) :
    (run fuel options source).code = 0 ↔ ∃ forms m₀ vs m₁,
      Program.read .byIdentity source (startMachine options.maxDepth?) = .ok forms m₀ ∧
        Program.Gives (Program.evalTop .byIdentity fuel) forms m₀ vs m₁ := by
  rw [run_eq_reportOn]
  have hcourse := Program.course .byIdentity fuel source
    (startMachine options.maxDepth? : Machine Nat Transcript)
  constructor
  · intro hcode
    -- a run that goes on has the exit code of the halting one
    refine @gives_of_code_eq_zero options _ _ _ _ _ _ hcourse ?_
    unfold policy at hcode
    split at hcode
    · rwa [code_eq_of_course hcourse] at hcode
    · exact hcode
  · rintro ⟨forms, m₀, vs, m₁, hread, hgives⟩
    rw [Program.runAll_of_gives hread hgives]
    exact code_eq_zero_of_gives hgives

end Script

/-! ### Commands -/

section

variable {fuel : Nat} {arguments : List String} {options : Options}
  {files : String → Except SourceFault ByteArray} {input : ByteArray} {path source : String}

/-- The report of a command that runs a script is that of the script. -/
theorem execute_eq_run (hrequest : request arguments = .ok (.run options))
    (hfile : options.file? = some path)
    (hsource : (if path = standardInput then .ok input else files path).bind decode = .ok source) :
    execute fuel arguments files input = Script.run fuel options source := by
  simp only [execute, hrequest, hfile, Script.runBytes, hsource]

/-- **Flags change what they say and nothing else.** For a command that runs a script:

1. A flag that is not given can be given.
2. However `--json` is given besides, it adds a line that shows the last value to the output, if
   the last form evaluated has one, and nothing otherwise.
3. However `--keep-going` is given besides and there is no `--json`, the exit code is the same, and
   each of the streams starts as it is without.
4. The exit code is zero exactly when the text can be read and all of its forms have values. -/
theorem execute_flags (fuel : Nat) (hrequest : request arguments = .ok (.run options))
    (hfile : options.file? = some path)
    (hsource : (if path = standardInput then .ok input else files path).bind decode = .ok source) :
    let start : Machine Nat Transcript := startMachine options.maxDepth?
    let ending (policy : Policy) := Program.runAll .byIdentity fuel policy source start
    let report (arguments : List String) := execute fuel arguments files input
    (∀ flag : Flag, flag.isSet options = false →
      request (flag.argument :: arguments) = .ok (.run (flag.set options))) ∧
    (options.json = false → ∀ more, request more = .ok (.run (Flag.json.set options)) →
      Script.AddsRendering (ending (Script.policy options)) (report arguments) (report more)) ∧
    (options.json = false → options.keepGoing = false →
      ∀ more, request more = .ok (.run (Flag.keepGoing.set options)) →
        Script.GoesOn (ending .keepGoing) (report arguments) (report more)) ∧
    ((report arguments).code = 0 ↔ ∃ forms m₀ vs m₁, Program.read .byIdentity source start =
      .ok forms m₀ ∧ Program.Gives (Program.evalTop .byIdentity fuel) forms m₀ vs m₁) := by
  intro start ending report
  have hreport : report arguments = Script.run fuel options source :=
    execute_eq_run hrequest hfile hsource
  have hmore : ∀ flag more, request more = .ok (.run (Flag.set options flag)) →
      report more = Script.run fuel (flag.set options) source := fun flag more h =>
    execute_eq_run h (by cases flag <;> exact hfile) hsource
  refine ⟨fun flag => Flag.request_argument_cons hrequest, ?_, ?_, ?_⟩
  · intro hjson more h
    rw [hreport, hmore _ more h, Script.run_eq_reportOn, Script.run_eq_reportOn]
    exact Script.addsRendering hjson _
  · intro hjson hkeepGoing more h
    have hhalts : Script.policy options = .halt := if_neg (by simp [hkeepGoing])
    rw [hreport, hmore _ more h, Script.run_eq_reportOn, Script.run_eq_reportOn, hhalts]
    exact Script.goesOn hjson hjson startMachine_hostsLead
      (Program.led_runAll startMachine_hostsLead .byIdentity fuel .halt source)
      (Program.course .byIdentity fuel source start)
  · rw [hreport]
    exact Script.code_run_eq_zero_iff fuel options source

/-- Text is had from its bytes. -/
theorem decode_toUTF8 (text : String) : decode text.toUTF8 = .ok text := by
  have hvalid : String.fromUTF8? text.toUTF8 = some text := dif_pos text.isValidUTF8
  rw [decode, hvalid]

/-- A program of forms that print, forms that fail, and a last one with a value. -/
def mixed : String := "(php print 1) (car) (php print \"b\") x (list 2 \"a\")"

/-- What the program is read as. -/
def mixedTrees : List Tree := [.list () [.atom () "php", .atom () "print", .atom () "1"],
  .list () [.atom () "car"], .list () [.atom () "php", .atom () "print", .string () "b"],
  .atom () "x", .list () [.atom () "list", .atom () "2", .string () "a"]]

/-- What the program comes to once it has been read. -/
def evalMixed (policy : Policy) : Ending Nat Transcript (Outcome Nat) :=
  (do
    return ⟨← Program.evalForms (Program.evalTop .byIdentity 5) policy 1
      (Form.freshenAll id mixedTrees 0).1, 5⟩ : Run Nat Transcript (Outcome Nat))
    ((startMachine none).afterReading 15 5)

/-- The report of a command that runs the program from the standard input. -/
theorem execute_mixed (hrequest : request arguments = .ok (.run options))
    (hfile : options.file? = some standardInput) (hdepth : options.maxDepth? = none) :
    execute 5 arguments files mixed.toUTF8 =
      Script.reportOn options (evalMixed (Script.policy options)) := by
  have hread : Reader.read Reader.defaultLimit mixed = .ok mixedTrees := Scanner.read_of_scan rfl
  have hforms : Program.read .byIdentity mixed (startMachine none : Machine Nat Transcript) =
      .ok (Form.freshenAll id mixedTrees 0).1 ((startMachine none).afterReading 15 5) :=
    Program.read_eq_of_read .byIdentity hread (startMachine none)
  have hsource : (if standardInput = standardInput then .ok mixed.toUTF8
      else files standardInput).bind decode = .ok mixed := decode_toUTF8 mixed
  rw [execute_eq_run hrequest hfile hsource, Script.run_eq_reportOn, hdepth,
    Program.runAll_of_read hforms]
  rfl

end

/-- The program is on the standard input. What it prints and the failures are reported in the same
way with `--json` and without; the first failure ends the run unless it is to go on, and only a run
that goes on comes to the last form and has a value to show. -/
theorem execute_flags_failure_between :
    let start : Machine Nat Transcript := startMachine none
    let ending (policy : Policy) := Program.runAll .byIdentity 5 policy mixed start
    let files : String → Except SourceFault ByteArray := fun _ => .error .missing
    let report (arguments : List String) := execute 5 arguments files mixed.toUTF8
    let first := "Error: UnsupportedOperationError: car\n"
    let second := "Error: UnboundSymbolError: x\n"
    request ["-"] = .ok (.run ⟨some "-", false, none, false⟩) ∧
      Script.AddsRendering (ending .halt) (report ["-"]) (report ["--json", "-"]) ∧
      Script.GoesOn (ending .keepGoing) (report ["-"]) (report ["--keep-going", "-"]) ∧
      Script.AddsRendering (ending .keepGoing) (report ["--keep-going", "-"])
        (report ["--json", "--keep-going", "-"]) ∧
      ((report ["-"]).code = 0 ↔ ∃ forms m₀ vs m₁, Program.read .byIdentity mixed start =
        .ok forms m₀ ∧ Program.Gives (Program.evalTop .byIdentity 5) forms m₀ vs m₁) ∧
      report ["-"] = ⟨1, "1\n", first⟩ ∧ report ["--json", "-"] = ⟨1, "1\n", first⟩ ∧
      report ["--keep-going", "-"] = ⟨1, "1\nb\n", first ++ second⟩ ∧
      report ["--json", "--keep-going", "-"] = ⟨1, "1\nb\n[2,\"a\"]\n", first ++ second⟩ := by
  intro start ending files report first second
  have hrequest : request ["-"] = .ok (.run ⟨some "-", false, none, false⟩) := by decide
  have hsource : (if "-" = standardInput then .ok mixed.toUTF8 else files "-").bind decode =
      .ok mixed := decode_toUTF8 mixed
  obtain ⟨hadded, hjson, hkeepGoing, hcode⟩ := execute_flags 5 hrequest rfl hsource
  have hgoing := hadded .keepGoing rfl
  obtain ⟨hadded', hjson', -, -⟩ := execute_flags 5 hgoing rfl hsource
  refine ⟨hrequest, hjson rfl _ (hadded .json rfl), hkeepGoing rfl rfl _ hgoing,
    hjson' rfl _ (hadded' .json rfl), hcode, ?_, ?_, ?_, ?_⟩
  · exact (execute_mixed hrequest rfl rfl).trans (by decide +kernel)
  · exact (execute_mixed (hadded .json rfl) rfl rfl).trans (by decide +kernel)
  · exact (execute_mixed hgoing rfl rfl).trans (by decide +kernel)
  · exact (execute_mixed (hadded' .json rfl) rfl rfl).trans (by decide +kernel)

end CommandLine

end SubstLisp
