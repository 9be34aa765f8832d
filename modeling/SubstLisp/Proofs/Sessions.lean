import SubstLisp.CommandLine.Session
import SubstLisp.Proofs.Lines
import SubstLisp.Proofs.Transcripts

/-!
# Sessions and scripts

A session whose lines are programs of one form at most comes to the same as the program of all its
lines that is run on after failures. The session reads the lines one at a time and without the
blanks at their ends, and runs each up to its first failure; that is all the same for one form.
What the session says in between is left out of account, and so are the lines that only ask it to
say something.

The machine of the session and that of the program are twins from line to line.

## What is proved

* `Session.agrees_step` — a line of a session agrees with the forms that are read of it.
* `Session.agrees_lines` — and lines agree with the forms that are read of those that are programs.
* `Session.run_agrees` — a session agrees with the program of its lines.
-/

namespace SubstLisp.CommandLine.Session

/-! ### Lines -/

/-- A line without the blanks at its ends. -/
def trimmed (line : String) : String := String.ofList (Text.trim line.toList)

/-- The commands that ask the session to say something. -/
def notices : List String := [":help", ":env", ":json"]

/-- All commands. -/
def commands : List String := notices ++ [":quit", ":exit"]

/-- The line asks the session to say something. -/
def IsNotice (line : String) : Prop := trimmed line ∈ notices

instance (line : String) : Decidable (IsNotice line) := inferInstanceAs (Decidable (_ ∈ _))

/-- The line is no command, and can be read as one form or none. -/
structure IsProgram (line : String) : Prop where
  notCommand : trimmed line ∉ commands
  reads : ∃ trees, Reader.read Reader.defaultLimit line = .ok trees ∧ trees.length ≤ 1

/-- The lines that ask for nothing to be said. -/
def programLines (lines : List String) : List String := lines.filter fun line => ¬ IsNotice line

/-- The results of the forms that a session evaluates on account of a line, as it shows them; there
are none if the granted depth is used up. -/
def evaluated (fuel : Nat) (session : Session) (line : String) :
    Option (List (Except Failure (Value Nat))) :=
  if session.isOpen = false ∨ trimmed line ∈ "" :: commands then some []
  else
    match Program.runAll Convention.byIdentity fuel .halt (trimmed line) session.machine with
    | .ok outcome _ => some outcome.results
    | .error (.failed _) _ => some []
    | .error .outOfFuel _ => none

/-- The results of the forms that a session evaluates on account of lines. -/
def results (fuel : Nat) : Session → List String → Option (List (Except Failure (Value Nat)))
  | _, [] => some []
  | session, line :: lines => do
    let first ← session.evaluated fuel line
    let rest ← results fuel (session.step fuel (.text line)) lines
    return first ++ rest

/-! ### Steps -/

section

variable {fuel : Nat} {session : Session} {line : String}

theorem step_of_isOpen (h : session.isOpen = true) :
    session.step fuel (.text line) = session.obey fuel (trimmed line) := by
  rw [step, if_pos h]
  rfl

theorem obey_of_isProgram (h : IsProgram line) : session.obey fuel (trimmed line) =
    if trimmed line = "" then session else session.runLine fuel (trimmed line) := by
  have hcommand := h.notCommand
  unfold commands notices at hcommand
  unfold obey
  split <;> simp_all

theorem exists_saying_of_isNotice (h : IsNotice line) :
    ∃ text, (session.obey fuel (trimmed line)).machine = saying text session.machine ∧
      (session.obey fuel (trimmed line)).isOpen = session.isOpen := by
  unfold IsNotice notices at h
  simp only [List.mem_cons, List.not_mem_nil, or_false] at h
  rcases h with h | h | h <;> rw [h] <;> exact ⟨_, rfl, rfl⟩

/-- A line that can be run shows the results of its forms, after what its program has printed. -/
theorem runLine_of_runAll {outcome : Outcome Nat} {m : Machine Nat Transcript}
    (h : Program.runAll Convention.byIdentity fuel .halt line session.machine = .ok outcome m) :
    session.runLine fuel line = { session with
      machine := saying (String.join (outcome.results.map (shownResult session.json))) m } := by
  unfold runLine EStateM.run
  rw [h]
  rfl

end

/-! ### Agreement -/

/-- A session after some lines, of which the results are given, agrees with a program that has
ended in some way: it goes on, the results are the same but for labels, and the machines are twins.
Or both have used up the granted depth. -/
def Agrees (start start' : Machine Nat Transcript) (ℓ' : Labelling) (session : Session)
    (evaluated : Option (List (Except Failure (Value Nat)))) :
    Ending Nat Transcript (List (Except Failure (Value Nat))) → Prop
  | .ok results m => session.isOpen = true ∧ ∃ shown ℓ ℓ₁', evaluated = some shown ∧
      shown.map (Except.map Value.erase) = results.map (Except.map Value.erase) ∧
      ℓ' <+: ℓ₁' ∧ Twins start start' ℓ ℓ₁' session.machine m
  | .error stop _ => stop = .outOfFuel ∧ evaluated = none

/-- For one form the policies do not differ. -/
theorem evalForms_of_length_le_one (evaluate : Node → Run Nat Transcript (Value Nat))
    (index : Nat) {forms : List Node} (h : forms.length ≤ 1) :
    Program.evalForms evaluate .halt index forms =
      Program.evalForms evaluate .keepGoing index forms := by
  match forms with
  | [] => rfl
  | [form] => rfl

section

variable {start start' m' : Machine Nat Transcript} {ℓ ℓ' : Labelling} {session : Session}
  {fuel index : Nat} {forms : List Node}

/-- A line of a session agrees with the forms that are read of it. -/
theorem agrees_step (hopen : session.isOpen = true)
    (htwins : Twins start start' ℓ ℓ' session.machine m') (hforms : ∀ f ∈ forms, f.Respects ℓ')
    {line : String} (hline : IsProgram line)
    (hread : Reader.read Reader.defaultLimit line = .ok (forms.map Form.erase)) :
    Agrees start start' ℓ' (session.step fuel (.text line)) (session.evaluated fuel line)
      (Program.evalForms (Program.evalTop .byIdentity fuel) .keepGoing index forms m') := by
  have htrimmed : Reader.read Reader.defaultLimit (trimmed line) = .ok (forms.map Form.erase) :=
    Reader.read_trim hread
  rw [step_of_isOpen hopen, obey_of_isProgram hline]
  by_cases hempty : trimmed line = ""
  · have hnone : [] = forms.map Form.erase := by
      have hread : Reader.read Reader.defaultLimit "" = .ok [] := Scanner.read_of_scan rfl
      rw [hempty, hread] at htrimmed
      exact Except.ok.inj htrimmed
    obtain rfl : forms = [] := List.map_eq_nil_iff.1 hnone.symm
    rw [if_pos hempty, evaluated, if_pos (.inr (hempty ▸ List.mem_cons_self))]
    exact ⟨hopen, [], ℓ, ℓ', rfl, rfl, List.prefix_rfl, htwins⟩
  · rw [if_neg hempty, evaluated, if_neg (by simp [hopen, hempty, hline.notCommand])]
    obtain ⟨own, m₁, ℓ₁, hown, htrees, -, hrespects, htwins⟩ := htwins.read_left htrimmed
    have hlength : own.length ≤ 1 := by
      obtain ⟨trees, htrees', hle⟩ := hline.reads
      have hequal := htrees.trans (Except.ok.inj (hread.symm.trans htrees'))
      rwa [← hequal, List.length_map] at hle
    have hrun := Program.runAll_of_read hown fuel .halt
    rw [evalForms_of_length_le_one _ _ hlength] at hrun
    have hends := htwins.evalForms hrespects hforms htrees fuel .keepGoing 1 index
    cases he : Program.evalForms (Program.evalTop .byIdentity fuel) .keepGoing 1 own m₁ with
    | ok results m₂ =>
      rw [he] at hends
      generalize Program.evalForms _ .keepGoing index forms m' = e' at hends ⊢
      simp only [bind, EStateM.bind, he] at hrun
      rw [runLine_of_runAll hrun, hrun]
      cases hends with
      | ok _ hℓ' htwins hresults =>
        exact ⟨hopen, results, _, _, rfl, hresults, hℓ', twins_saying htwins _⟩
    | error stop m₂ =>
      rw [he] at hends
      generalize Program.evalForms _ .keepGoing index forms m' = e' at hends ⊢
      simp only [bind, EStateM.bind, he] at hrun
      obtain rfl := Program.stop_eq_of_evalForms he
      rw [hrun]
      cases hends with
      | error => exact ⟨rfl, rfl⟩

/-- A line that asks for something to be said agrees with no form. -/
theorem agrees_notice (hopen : session.isOpen = true)
    (htwins : Twins start start' ℓ ℓ' session.machine m') {line : String} (hline : IsNotice line) :
    Agrees start start' ℓ' (session.step fuel (.text line)) (session.evaluated fuel line)
      (.ok [] m') := by
  obtain ⟨text, hmachine, hstays⟩ := @exists_saying_of_isNotice fuel session line hline
  have hcommand : trimmed line ∈ "" :: commands :=
    List.mem_cons_of_mem _ (List.mem_append_left _ hline)
  rw [step_of_isOpen hopen, evaluated, if_pos (.inr hcommand)]
  refine ⟨hstays.trans hopen, [], ℓ, ℓ', rfl, rfl, List.prefix_rfl, ?_⟩
  rw [hmachine]
  exact twins_saying htwins text

/-- A first line that agrees with the first forms, and lines that agree with the others. -/
theorem Agrees.append {line : String} {lines : List String}
    {x y : Run Nat Transcript (List (Except Failure (Value Nat)))}
    (hx : Agrees start start' ℓ' (session.step fuel (.text line)) (session.evaluated fuel line)
      (x m'))
    (hy : ∀ ℓ₁ ℓ₁' m₁', ℓ' <+: ℓ₁' → (session.step fuel (.text line)).isOpen = true →
      Twins start start' ℓ₁ ℓ₁' (session.step fuel (.text line)).machine m₁' →
      Agrees start start' ℓ₁' ((lines.map Line.text).foldl (step fuel)
        (session.step fuel (.text line))) (results fuel (session.step fuel (.text line)) lines)
        (y m₁')) :
    Agrees start start' ℓ' (((line :: lines).map Line.text).foldl (step fuel) session)
      (session.results fuel (line :: lines))
      ((do
        let first ← x
        return first ++ (← y) : Run Nat Transcript _) m') := by
  simp only [bind, EStateM.bind]
  rw [results]
  cases hxm : x m' with
  | error stop m₁' =>
    rw [hxm] at hx
    obtain ⟨rfl, hnone⟩ := hx
    rw [hnone]
    exact ⟨rfl, rfl⟩
  | ok first m₁' =>
    rw [hxm] at hx
    obtain ⟨hopen, shown, ℓ₁, ℓ₁', hsome, hshown, hℓ', htwins⟩ := hx
    have hrest := hy ℓ₁ ℓ₁' m₁' hℓ' hopen htwins
    rw [hsome]
    dsimp only
    cases hym : y m₁' with
    | error stop m₂' =>
      rw [hym] at hrest
      obtain ⟨rfl, hnone⟩ := hrest
      rw [hnone]
      exact ⟨rfl, rfl⟩
    | ok rest m₂' =>
      rw [hym] at hrest
      obtain ⟨hopen, shown', ℓ₂, ℓ₂', hsome', hshown', hℓ₁', htwins⟩ := hrest
      rw [hsome']
      refine ⟨hopen, shown ++ shown', ℓ₂, ℓ₂', rfl, ?_, hℓ'.trans hℓ₁', htwins⟩
      rw [List.map_append, List.map_append, hshown, hshown']

/-- Lines of a session agree with the forms that are read of those that are programs. -/
theorem agrees_lines {lines : List String} {parts : List (List Tree)}
    (hlines : ∀ line ∈ lines, IsNotice line ∨ IsProgram line)
    (hparts : List.Forall₂ (fun line trees => Reader.read Reader.defaultLimit line = .ok trees)
      (programLines lines) parts) (hopen : session.isOpen = true)
    (htwins : Twins start start' ℓ ℓ' session.machine m') (hforms : ∀ f ∈ forms, f.Respects ℓ')
    (herase : forms.map Form.erase = parts.flatten) :
    Agrees start start' ℓ' ((lines.map Line.text).foldl (step fuel) session)
      (session.results fuel lines)
      (Program.evalForms (Program.evalTop .byIdentity fuel) .keepGoing index forms m') := by
  induction lines generalizing session parts forms ℓ ℓ' m' index with
  | nil =>
    cases hparts
    obtain rfl : forms = [] := List.map_eq_nil_iff.1 herase
    exact ⟨hopen, [], ℓ, ℓ', rfl, rfl, List.prefix_rfl, htwins⟩
  | cons line lines ih =>
    obtain ⟨hline, hlines⟩ := List.forall_mem_cons.1 hlines
    by_cases hnotice : IsNotice line
    · rw [programLines, List.filter_cons_of_neg (by simpa using hnotice)] at hparts
      have hmore := Agrees.append (x := pure [])
        (y := Program.evalForms (Program.evalTop .byIdentity fuel) .keepGoing index forms)
        (agrees_notice hopen htwins hnotice) fun _ _ _ hℓ' hopen htwins =>
          ih hlines hparts hopen htwins (fun f hf => (hforms f hf).mono hℓ') herase
      simpa using hmore
    · have hprogram := hline.resolve_left hnotice
      rw [programLines, List.filter_cons_of_pos (by simpa using hnotice)] at hparts
      cases hparts with
      | @cons _ trees _ parts hread hparts =>
        obtain ⟨first, rest, rfl, rfl, hrest⟩ := List.map_eq_append_iff.1 herase
        obtain ⟨hleft, hright⟩ := List.forall_mem_append.1 hforms
        rw [Program.keepGoing_append]
        exact (agrees_step hopen htwins hleft hprogram hread).append fun _ _ _ hℓ' hopen htwins =>
          ih hlines hparts hopen htwins (fun f hf => (hright f hf).mono hℓ') hrest

end

/-! ### Sessions -/

/-- The lines that are programs, each with what is read of it. -/
theorem exists_parts {lines : List String}
    (hlines : ∀ line ∈ lines, IsNotice line ∨ IsProgram line) :
    ∃ parts, List.Forall₂ (fun line trees => Reader.read Reader.defaultLimit line = .ok trees)
      (programLines lines) parts := by
  induction lines with
  | nil => exact ⟨[], .nil⟩
  | cons line lines ih =>
    obtain ⟨hline, hlines⟩ := List.forall_mem_cons.1 hlines
    obtain ⟨parts, hparts⟩ := ih hlines
    by_cases hnotice : IsNotice line
    · rw [programLines, List.filter_cons_of_neg (by simpa using hnotice)]
      exact ⟨parts, hparts⟩
    · obtain ⟨trees, hread, -⟩ := (hline.resolve_left hnotice).reads
      rw [programLines, List.filter_cons_of_pos (by simpa using hnotice)]
      exact ⟨trees :: parts, .cons hread hparts⟩

/-- **Sessions and scripts agree.** A session whose lines are programs of one form at most, with
lines anywhere among them that only ask it to say something, has the results of the program of
those lines, joined by newlines, that goes on after failures: the same values and failures by the
same steps, the same output of the program in the same order, and the same bindings at the end. If
one of them uses up the granted depth the other does. -/
theorem run_agrees (fuel : Nat) (options : Options) {lines : List String}
    (hlines : ∀ line ∈ lines, IsNotice line ∨ IsProgram line) :
    let start : Machine Nat Transcript := startMachine options.maxDepth?
    let session := Session.run fuel options (lines.map Line.text)
    match Program.runAll .byIdentity fuel .keepGoing ("\n".intercalate (programLines lines)) start with
    | .ok outcome m => ∃ shown, results fuel (Session.start options) lines = some shown ∧
        shown.map (Except.map Value.erase) = outcome.results.map (Except.map Value.erase) ∧
        session.transcript.ofProgram = m.world.host ∧
        session.machine.Alike Transcript.ofProgram m ∧ start.SameSteps session.machine start m
    | .error stop _ => stop = .outOfFuel ∧ results fuel (Session.start options) lines = none := by
  intro start session
  obtain ⟨parts, hparts⟩ := exists_parts hlines
  have hread := Reader.read_intercalate hparts
  have htwins : Twins start start [] [] (Session.start options).machine start :=
    twins_saying startMachine_twins _
  obtain ⟨forms, m₁, ℓ₁, hforms, herase, -, hrespects, htwins⟩ := htwins.read_right hread
  have hagrees := @agrees_lines _ _ _ _ _ (Session.start options) fuel 1 _ _ _ hlines hparts rfl
    htwins hrespects herase
  have hled := Program.led_runAll (@startMachine_hostsLead options.maxDepth? Nat) .byIdentity fuel
    .keepGoing ("\n".intercalate (programLines lines))
  rw [Program.runAll_of_read hforms] at hled ⊢
  simp only [bind, EStateM.bind] at hled ⊢
  cases he : Program.evalForms (Program.evalTop .byIdentity fuel) .keepGoing 1 forms m₁ with
  | error stop m =>
    rw [he] at hagrees
    exact hagrees
  | ok outcomes m =>
    rw [he] at hagrees hled
    obtain ⟨hopen, shown, ℓ, ℓ', hshown, hequal, -, htwins⟩ := hagrees
    have hsession : session.machine =
        saying (String.join ([farewell].map (· ++ "\n"))) ((lines.map Line.text).foldl (step fuel)
          (Session.start options)).machine := by
      show (close _).machine = _
      rw [close, if_pos hopen]
      rfl
    have htwins := twins_saying htwins (String.join ([farewell].map (· ++ "\n")))
    rw [← hsession] at htwins
    obtain ⟨n, hn, hn'⟩ := htwins.alike
    have hhost : session.transcript.ofProgram = Transcript.ofProgram m.world.host :=
      hn.host.symm.trans hn'.host
    exact ⟨shown, hshown, hequal, hhost.trans (Transcript.ofProgram_of_adds hled.host),
      htwins.alike, htwins.steps⟩

/-- A comment behind a form, a line with nothing on it, a question in between, and a form that
prints. -/
theorem run_agrees_question :
    let lines := [" (setq x 2) ; two", ":env ", "", "(php print x)"]
    let start : Machine Nat Transcript := startMachine none
    let session := Session.run 5 Options.default (lines.map Line.text)
    (∀ line ∈ lines, IsNotice line ∨ IsProgram line) ∧
      "\n".intercalate (programLines lines) = " (setq x 2) ; two\n\n(php print x)" ∧
      ∃ outcome m shown,
        Program.runAll .byIdentity 5 .keepGoing ("\n".intercalate (programLines lines)) start =
          .ok outcome m ∧
        outcome.results.map (Except.map Value.erase) = [.ok (.number 2), .ok .nil] ∧
        m.world.host = #[⟨.program, "2\n"⟩] ∧
        results 5 (Session.start Options.default) lines = some shown ∧
        shown.map (Except.map Value.erase) = outcome.results.map (Except.map Value.erase) ∧
        session.transcript.ofProgram = m.world.host ∧
        session.machine.Alike Transcript.ofProgram m ∧ start.SameSteps session.machine start m := by
  intro lines start session
  have hassign : IsProgram " (setq x 2) ; two" :=
    ⟨by decide +kernel, _, Scanner.read_of_scan rfl, by decide⟩
  have hempty : IsProgram "" := ⟨by decide +kernel, _, Scanner.read_of_scan rfl, by decide⟩
  have hprint : IsProgram "(php print x)" :=
    ⟨by decide +kernel, _, Scanner.read_of_scan rfl, by decide⟩
  have hlines : ∀ line ∈ lines, IsNotice line ∨ IsProgram line := by
    intro line hline
    simp only [lines, List.mem_cons, List.not_mem_nil, or_false] at hline
    rcases hline with rfl | rfl | rfl | rfl
    · exact .inr hassign
    · exact .inl (by decide +kernel)
    · exact .inr hempty
    · exact .inr hprint
  have hjoined : "\n".intercalate (programLines lines) = " (setq x 2) ; two\n\n(php print x)" := by
    decide +kernel
  have hread : Reader.read Reader.defaultLimit " (setq x 2) ; two\n\n(php print x)" =
      .ok [.list () [.atom () "setq", .atom () "x", .atom () "2"],
        .list () [.atom () "php", .atom () "print", .atom () "x"]] := Scanner.read_of_scan rfl
  have hran : (Ending.success? (Program.runAll .byIdentity 5 .keepGoing
      " (setq x 2) ; two\n\n(php print x)" start)).map
        (fun p => (p.1.results.map (Except.map Value.erase), p.2.world.host)) =
          some ([.ok (.number 2), .ok .nil], #[⟨.program, "2\n"⟩]) := by
    rw [Program.runAll_of_read (Program.read_eq_of_read .byIdentity hread start)]
    decide +kernel
  obtain ⟨outcome, m, hend, hfacts⟩ := Ending.of_success?_map hran
  obtain ⟨hresults, hprinted⟩ := Prod.mk.inj hfacts
  rw [← hjoined] at hend
  have hagrees := run_agrees 5 Options.default hlines
  have hstart : startMachine Options.default.maxDepth? = start := rfl
  simp only [hstart, hend] at hagrees
  obtain ⟨shown, hagrees⟩ := hagrees
  exact ⟨hlines, hjoined, outcome, m, shown, hend, hresults, hprinted, hagrees⟩

end SubstLisp.CommandLine.Session
