import SubstLisp.Proofs.Reference

/-!
# Ways to run a program

A program can be run up to its first failure, for the value of its last form or for the outcomes of
its forms, and it can be run on after failures. The three ways are written apart from one another,
and evaluate the same forms on the same machines until a form fails.

A run that goes on after failures is the run that halts, followed by the forms that are left. So
the halting run is what everything is compared with, and it is compared whether or not one of the
forms behind the first failure ever ends.

## What is proved

* `Program.read_of_read`, `Program.read_of_read_error` — what reading a text does to a machine.
* `Program.course` — the ways in which running a text can end.
* `Program.runs_agree` — the three ways to run a text agree.
-/

namespace SubstLisp

variable {ι σ : Type}

/-! ### Reading -/

/-- The machine after so many forms have been read; `next` is the next number of the supply. -/
def Machine.afterReading (m : Machine ι σ) (next count : Nat) : Machine ι σ :=
  { m with
    world := ⟨next, m.world.host⟩
    events := m.events.push (.read count) }

/-- The machine after it has been reported that a form has failed. -/
def Machine.afterFailure (m : Machine ι σ) (index : Nat) (failure : Failure) : Machine ι σ :=
  { m with events := m.events.push (.formFailed index failure) }

namespace Program

/-- What a text is read as gets fresh labels, and the reading is reported. -/
theorem read_eq_of_read (c : Convention ι) {source : String} {trees : List Tree}
    (h : Reader.read Reader.defaultLimit source = .ok trees) (m : Machine ι σ) :
    let (forms, next) := Form.freshenAll c.label trees m.world.next
    read c source m = .ok forms (m.afterReading next forms.length) := by
  simp only [read, h]
  rfl

theorem read_of_read (c : Convention ι) {source : String} {trees : List Tree}
    (h : Reader.read Reader.defaultLimit source = .ok trees) (m : Machine ι σ) :
    ∃ forms next, forms.map Form.erase = trees ∧
      read c source m = .ok forms (m.afterReading next forms.length) :=
  ⟨_, _, Form.erase_freshenAll_trees c.label trees m.world.next, read_eq_of_read c h m⟩

/-- A text that cannot be read changes nothing. -/
theorem read_of_read_error (c : Convention ι) {source : String} {d : Diagnosis}
    (h : Reader.read Reader.defaultLimit source = .error d) (m : Machine ι σ) :
    read c source m = .error (.failed ⟨.unreadable d, none⟩) m := by
  simp only [read, h]
  rfl

section

variable {c : Convention ι} {source : String} {forms : List (Form ι)} {m m₀ : Machine ι σ}

theorem runAll_of_read (h : read c source m = .ok forms m₀) (fuel : Nat) (policy : Policy) :
    runAll c fuel policy source m = (do
      return ⟨← evalForms (evalTop c fuel) policy 1 forms, forms.length⟩ : Run ι σ _) m₀ := by
  simp only [runAll, bind, EStateM.bind, h]

theorem run_eq_of_read (h : read c source m = .ok forms m₀) (fuel : Nat) :
    run c fuel source m = forms.foldlM (fun _ form => evalTop c fuel form) .nil m₀ := by
  simp only [run, bind, EStateM.bind, h]

end

end Program

/-! ### Results -/

namespace Outcome

/-- The results up to the first failure, which is the last of them. -/
def upToFailure : List (Except Failure (Value ι)) → List (Except Failure (Value ι))
  | [] => []
  | .ok v :: results => .ok v :: upToFailure results
  | .error failure :: _ => [.error failure]

theorem upToFailure_values (vs : List (Value ι)) :
    upToFailure (vs.map .ok) = vs.map .ok := by
  induction vs with
  | nil => rfl
  | cons v vs ih => rw [List.map_cons, upToFailure, ih]

theorem upToFailure_values_append (vs : List (Value ι)) (failure : Failure)
    (rest : List (Except Failure (Value ι))) :
    upToFailure (vs.map .ok ++ .error failure :: rest) = vs.map .ok ++ [.error failure] := by
  induction vs with
  | nil => rfl
  | cons v vs ih => rw [List.map_cons, List.cons_append, upToFailure, ih, List.cons_append]

theorem failures_values (vs : List (Value ι)) :
    (vs.map .ok).filterMap failureOf? = [] := by
  induction vs with
  | nil => rfl
  | cons v vs ih => exact ih

theorem failures_of_failure (vs : List (Value ι)) (failure : Failure)
    (rest : List (Except Failure (Value ι))) (formCount : Nat) :
    (Outcome.mk (vs.map .ok ++ .error failure :: rest) formCount).failures =
      failure :: rest.filterMap failureOf? := by
  rw [failures, List.filterMap_append, failures_values]
  rfl

/-- Values for all forms are a success. -/
theorem isSuccess_values (vs : List (Value ι)) :
    (Outcome.mk (vs.map .ok) vs.length).isSuccess = true := by
  simp [isSuccess, valueOf?]

/-- With a failure among the results there is none. -/
theorem isSuccess_of_failure (vs : List (Value ι)) (failure : Failure)
    (rest : List (Except Failure (Value ι))) (formCount : Nat) :
    (Outcome.mk (vs.map .ok ++ .error failure :: rest) formCount).isSuccess = false := by
  simp [isSuccess, valueOf?]

/-- Whether a result is a value does not depend on labels. -/
theorem valueOf?_eq_none_congr {e e' : Except Failure (Value ι)}
    (h : e.map Value.erase = e'.map Value.erase) : valueOf? e = none ↔ valueOf? e' = none := by
  cases e <;> cases e' <;> first | exact Iff.rfl | cases h | simp [valueOf?]

/-- The value of the last form, if there is any. -/
theorem lastValue?_values (vs : List (Value ι)) (formCount : Nat) :
    (Outcome.mk (vs.map .ok) formCount).lastValue? = vs.getLast? := by
  rw [lastValue?, List.getLast?_map]
  cases vs.getLast? <;> rfl

end Outcome

/-! ### One form after another -/

/-- Computations that end the same on two machines go on in the same way. -/
theorem Run.bind_of_eq {α β : Type} {x y : Run ι σ α} {m m' : Machine ι σ} (h : x m = y m')
    (k : α → Run ι σ β) : (x >>= k) m = (y >>= k) m' := by
  simp only [bind, EStateM.bind, h]

/-- What comes out of two computations comes out of the second one. -/
theorem Run.of_bind_eq_ok {α β : Type} {x : Run ι σ α} {k : α → Run ι σ β} {m m' : Machine ι σ}
    {b : β} (h : (x >>= k) m = .ok b m') : ∃ a m₁, x m = .ok a m₁ ∧ k a m₁ = .ok b m' := by
  simp only [bind, EStateM.bind] at h
  split at h
  · next a m₁ hx => exact ⟨a, m₁, hx, h⟩
  · cases h

/-- What stops two computations stops the first or the second one. -/
theorem Run.of_bind_eq_error {α β : Type} {x : Run ι σ α} {k : α → Run ι σ β}
    {m m' : Machine ι σ} {stop : Stop} (h : (x >>= k) m = .error stop m') :
    x m = .error stop m' ∨ ∃ a m₁, x m = .ok a m₁ ∧ k a m₁ = .error stop m' := by
  simp only [bind, EStateM.bind] at h
  split at h
  · next a m₁ hx => exact .inr ⟨a, m₁, hx, h⟩
  · next hx =>
    cases h
    exact .inl hx

namespace Program

variable {evaluate : Form ι → Run ι σ (Value ι)} {policy : Policy} {index : Nat} {form : Form ι}
  {forms : List (Form ι)} {m m' : Machine ι σ}

theorem evalForms_of_ok {v : Value ι} (h : evaluate form m = .ok v m') :
    evalForms evaluate policy index (form :: forms) m =
      (do return Except.ok v :: (← evalForms evaluate policy (index + 1) forms)) m' := by
  simp only [evalForms, Run.attempt, bind, EStateM.bind, h]

theorem evalForms_halt_of_failed {failure : Failure}
    (h : evaluate form m = .error (.failed failure) m') :
    evalForms evaluate .halt index (form :: forms) m =
      .ok [.error failure] (m'.afterFailure index failure) := by
  simp only [evalForms, Run.attempt, bind, EStateM.bind, h]
  rfl

theorem evalForms_keepGoing_of_failed {failure : Failure}
    (h : evaluate form m = .error (.failed failure) m') :
    evalForms evaluate .keepGoing index (form :: forms) m =
      (do return Except.error failure :: (← evalForms evaluate .keepGoing (index + 1) forms))
        (m'.afterFailure index failure) := by
  simp only [evalForms, Run.attempt, bind, EStateM.bind, h]
  rfl

theorem evalForms_of_outOfFuel (h : evaluate form m = .error .outOfFuel m') :
    evalForms evaluate policy index (form :: forms) m = .error .outOfFuel m' := by
  simp only [evalForms, Run.attempt, bind, EStateM.bind, h]

/-- The result of the form with a number, which is reported if it is a failure. -/
def resultOf (evaluate : Form ι → Run ι σ (Value ι)) (index : Nat) (form : Form ι) :
    Run ι σ (Except Failure (Value ι)) := do
  match ← Run.attempt (evaluate form) with
  | .ok v => return .ok v
  | .error failure =>
    Run.emit (.formFailed index failure)
    return .error failure

/-- A halting run ends with the first form if that fails; every other run goes on. -/
theorem evalForms_cons (evaluate : Form ι → Run ι σ (Value ι)) (policy : Policy) (index : Nat)
    (form : Form ι) (forms : List (Form ι)) :
    evalForms evaluate policy index (form :: forms) = (do
      let first ← resultOf evaluate index form
      if policy = .halt ∧ Outcome.valueOf? first = none then return [first]
      else return first :: (← evalForms evaluate policy (index + 1) forms)) := by
  rw [evalForms, resultOf, bind_assoc]
  refine bind_congr fun first => ?_
  cases first with
  | ok v => simp [Outcome.valueOf?]
  | error failure => cases policy <;> simp [Outcome.valueOf?]

/-- The forms of a list have values, one after another: from one machine to another. -/
inductive Gives (evaluate : Form ι → Run ι σ (Value ι)) :
    List (Form ι) → Machine ι σ → List (Value ι) → Machine ι σ → Prop where
  /-- There are no forms. -/
  | nil (m : Machine ι σ) : Gives evaluate [] m [] m
  /-- The first form has a value, and so have the others on the machine that it leaves. -/
  | cons {form : Form ι} {forms : List (Form ι)} {m m' m'' : Machine ι σ} {v : Value ι}
      {vs : List (Value ι)} : evaluate form m = .ok v m' → Gives evaluate forms m' vs m'' →
      Gives evaluate (form :: forms) m (v :: vs) m''

variable {vs : List (Value ι)} {before after : List (Form ι)}

theorem Gives.length_eq (h : Gives evaluate forms m vs m') : vs.length = forms.length := by
  induction h with
  | nil => rfl
  | cons _ _ ih => rw [List.length_cons, List.length_cons, ih]

/-- Forms have values up to the first that has none. -/
theorem gives_or_stops (evaluate : Form ι → Run ι σ (Value ι)) (forms : List (Form ι))
    (m : Machine ι σ) :
    (∃ vs m', Gives evaluate forms m vs m') ∨
      ∃ before form after vs m' stop m'', forms = before ++ form :: after ∧
        Gives evaluate before m vs m' ∧ evaluate form m' = .error stop m'' := by
  induction forms generalizing m with
  | nil => exact .inl ⟨[], m, .nil m⟩
  | cons form forms ih =>
    cases h : evaluate form m with
    | error stop m' => exact .inr ⟨[], form, forms, [], m, stop, m', rfl, .nil m, h⟩
    | ok v m' =>
      rcases ih m' with ⟨vs, m'', hvs⟩ | ⟨before, stopped, after, vs, m₁, stop, m₂, rfl, hvs, hstop⟩
      · exact .inl ⟨v :: vs, m'', .cons h hvs⟩
      · exact .inr ⟨form :: before, stopped, after, v :: vs, m₁, stop, m₂, rfl, .cons h hvs, hstop⟩

/-- Forms that have values are behind a run under any policy, which is then at the others. -/
theorem Gives.evalForms (h : Gives evaluate before m vs m') (policy : Policy) (index : Nat)
    (after : List (Form ι)) : evalForms evaluate policy index (before ++ after) m = (do
      let results ← evalForms evaluate policy (index + vs.length) after
      return vs.map Except.ok ++ results) m' := by
  induction h generalizing index with
  | nil m =>
    show _ = (Program.evalForms evaluate policy index after >>= pure) m
    rw [bind_pure, List.nil_append]
  | @cons _ _ _ _ _ v vs hform _ ih =>
    rw [List.cons_append, evalForms_of_ok hform, List.length_cons, Nat.add_comm vs.length,
      ← Nat.add_assoc]
    simp only [bind, EStateM.bind, ih]
    cases Program.evalForms evaluate policy (index + 1 + vs.length) after _ <;> rfl

/-- Forms that have values are behind a run for the value of the last form. -/
theorem Gives.foldlM (h : Gives evaluate before m vs m') (init : Value ι)
    (after : List (Form ι)) : (before ++ after).foldlM (fun _ form => evaluate form) init m =
      after.foldlM (fun _ form => evaluate form) (vs.getLastD init) m' := by
  induction h generalizing init with
  | nil => rfl
  | @cons _ _ _ _ _ v vs hform _ ih =>
    rw [List.cons_append, List.foldlM_cons, List.getLastD_cons, ← ih v]
    simp only [bind, EStateM.bind, hform]

/-- Forms that all have values. -/
theorem Gives.evalForms_all (h : Gives evaluate forms m vs m') (policy : Policy) (index : Nat) :
    Program.evalForms evaluate policy index forms m = .ok (vs.map .ok) m' := by
  have hall := h.evalForms policy index []
  rwa [List.append_nil, Program.evalForms, pure_bind, List.append_nil] at hall

/-- The value of the last of forms that all have values. -/
theorem Gives.foldlM_all (h : Gives evaluate forms m vs m') (init : Value ι) :
    forms.foldlM (fun _ form => evaluate form) init m = .ok (vs.getLastD init) m' := by
  have hall := h.foldlM init []
  rwa [List.append_nil] at hall

section

variable {m₂ : Machine ι σ} {failure : Failure} (h : Gives evaluate before m vs m')

include h

/-- A halting run, when a form fails. -/
theorem Gives.halt_of_failed (hform : evaluate form m' = .error (.failed failure) m₂)
    (index : Nat) : Program.evalForms evaluate .halt index (before ++ form :: after) m =
      .ok (vs.map .ok ++ [.error failure]) (m₂.afterFailure (index + vs.length) failure) := by
  rw [h.evalForms]
  simp only [bind, EStateM.bind, evalForms_halt_of_failed hform]
  rfl

/-- A run that goes on, when a form fails. -/
theorem Gives.keepGoing_of_failed (hform : evaluate form m' = .error (.failed failure) m₂)
    (index : Nat) : Program.evalForms evaluate .keepGoing index (before ++ form :: after) m = (do
      let rest ← Program.evalForms evaluate .keepGoing (index + vs.length + 1) after
      return vs.map Except.ok ++ Except.error failure :: rest)
        (m₂.afterFailure (index + vs.length) failure) := by
  rw [h.evalForms]
  simp only [bind, EStateM.bind, evalForms_keepGoing_of_failed hform]
  cases Program.evalForms evaluate .keepGoing (index + vs.length + 1) after _ <;> rfl

/-- The value of the last form, when a form has none. -/
theorem Gives.foldlM_of_error {stop : Stop} (hform : evaluate form m' = .error stop m₂)
    (init : Value ι) :
    (before ++ form :: after).foldlM (fun _ form => evaluate form) init m = .error stop m₂ := by
  rw [h.foldlM, List.foldlM_cons]
  simp only [bind, EStateM.bind, hform]

/-- Any run, when a form uses up the granted depth. -/
theorem Gives.evalForms_of_outOfFuel (hform : evaluate form m' = .error .outOfFuel m₂)
    (policy : Policy) (index : Nat) :
    Program.evalForms evaluate policy index (before ++ form :: after) m = .error .outOfFuel m₂ := by
  rw [h.evalForms]
  simp only [bind, EStateM.bind, Program.evalForms_of_outOfFuel hform]

end

/-- A run that goes on has as many results as there are forms. -/
theorem length_of_keepGoing {results : List (Except Failure (Value ι))}
    (h : evalForms evaluate .keepGoing index forms m = .ok results m') :
    results.length = forms.length := by
  induction forms generalizing index m results m' with
  | nil =>
    cases h
    rfl
  | cons form forms ih =>
    rw [evalForms_cons] at h
    obtain ⟨first, m₁, -, h⟩ := Run.of_bind_eq_ok h
    rw [if_neg (by simp)] at h
    obtain ⟨rest, m₂, hrest, h⟩ := Run.of_bind_eq_ok h
    cases h
    rw [List.length_cons, List.length_cons, ih hrest]

theorem stop_eq_of_resultOf {stop : Stop} (h : resultOf evaluate index form m = .error stop m') :
    stop = .outOfFuel := by
  simp only [resultOf, Run.attempt, bind, EStateM.bind] at h
  generalize evaluate form m = e at h
  cases e with
  | ok v m₁ => cases h
  | error stop' m₁ =>
    cases stop' with
    | failed failure => cases h
    | outOfFuel =>
      cases h
      rfl

/-- A run ends without results only by using up the granted depth. -/
theorem stop_eq_of_evalForms {stop : Stop}
    (h : evalForms evaluate policy index forms m = .error stop m') : stop = .outOfFuel := by
  induction forms generalizing index m m' with
  | nil => cases h
  | cons form forms ih =>
    rw [evalForms_cons] at h
    rcases Run.of_bind_eq_error h with h | ⟨first, m₁, -, h⟩
    · exact stop_eq_of_resultOf h
    · split at h
      · cases h
      · rcases Run.of_bind_eq_error h with h | ⟨rest, m₂, -, h⟩
        · exact ih h
        · cases h

/-! ### The three ways -/

/-- Forms that all have values, under any policy. -/
theorem runAll_of_gives {c : Convention ι} {fuel : Nat} {source : String} {m₀ m₁ : Machine ι σ}
    (hread : read c source m = .ok forms m₀) (h : Gives (evalTop c fuel) forms m₀ vs m₁)
    (policy : Policy) : runAll c fuel policy source m = .ok ⟨vs.map .ok, forms.length⟩ m₁ := by
  rw [runAll_of_read hread]
  simp only [bind, EStateM.bind, h.evalForms_all]
  rfl

/-- How the three ways to run a text end: the halting run, the run that goes on, and the run for the
value of the last form. The first two part only behind the first failure. -/
inductive Course (c : Convention ι) (fuel : Nat) (source : String) (m : Machine ι σ) :
    Ending ι σ (Outcome ι) → Ending ι σ (Outcome ι) → Ending ι σ (Value ι) → Prop where
  /-- The text cannot be read. -/
  | unreadable {failure : Failure} : read c source m = .error (.failed failure) m →
    Course c fuel source m (.error (.failed failure) m) (.error (.failed failure) m)
      (.error (.failed failure) m)
  /-- All forms have values. -/
  | success {forms : List (Form ι)} {m₀ m₁ : Machine ι σ} {vs : List (Value ι)} :
    read c source m = .ok forms m₀ → Gives (evalTop c fuel) forms m₀ vs m₁ →
    Course c fuel source m (.ok ⟨vs.map .ok, forms.length⟩ m₁) (.ok ⟨vs.map .ok, forms.length⟩ m₁)
      (.ok (vs.getLastD .nil) m₁)
  /-- A form fails, with values for the forms before it and others to go on with. -/
  | failed {before : List (Form ι)} {form : Form ι} {after : List (Form ι)}
    {m₀ m₁ m₂ : Machine ι σ} {vs : List (Value ι)} {failure : Failure} :
    read c source m = .ok (before ++ form :: after) m₀ →
    Gives (evalTop c fuel) before m₀ vs m₁ → evalTop c fuel form m₁ = .error (.failed failure) m₂ →
    Course c fuel source m
      (.ok ⟨vs.map .ok ++ [.error failure], (before ++ form :: after).length⟩
        (m₂.afterFailure (1 + vs.length) failure))
      ((do
        let rest ← evalForms (evalTop c fuel) .keepGoing (1 + vs.length + 1) after
        return ⟨vs.map Except.ok ++ Except.error failure :: rest,
          (before ++ form :: after).length⟩ : Run ι σ (Outcome ι))
            (m₂.afterFailure (1 + vs.length) failure))
      (.error (.failed failure) m₂)
  /-- The granted depth is used up before a form fails. -/
  | outOfFuel {m' : Machine ι σ} :
    Course c fuel source m (.error .outOfFuel m') (.error .outOfFuel m') (.error .outOfFuel m')

theorem course (c : Convention ι) (fuel : Nat) (source : String) (m : Machine ι σ) :
    Course c fuel source m (runAll c fuel .halt source m) (runAll c fuel .keepGoing source m)
      (run c fuel source m) := by
  cases hread : Reader.read Reader.defaultLimit source with
  | error diagnosis =>
    have h := read_of_read_error c hread m
    simp only [runAll, run, bind, EStateM.bind, h]
    exact .unreadable h
  | ok trees =>
    obtain ⟨forms, next, -, h⟩ := read_of_read c hread m
    have hrunAll := runAll_of_read h fuel
    have hrun := run_eq_of_read h fuel
    rcases gives_or_stops (evalTop c fuel) forms (m.afterReading next forms.length) with
      ⟨vs, m₁, hgives⟩ | ⟨before, form, after, vs, m₁, stop, m₂, rfl, hgives, hstop⟩
    · rw [runAll_of_gives h hgives, runAll_of_gives h hgives, hrun, hgives.foldlM_all]
      exact .success h hgives
    · rw [hgives.foldlM_of_error hstop] at hrun
      cases stop with
      | failed failure =>
        have hhalted := hrunAll .halt
        have hgoing := hrunAll .keepGoing
        simp only [bind, EStateM.bind, hgives.halt_of_failed hstop] at hhalted
        rw [Run.bind_of_eq (hgives.keepGoing_of_failed hstop 1), bind_assoc] at hgoing
        rw [hhalted, hgoing, hrun]
        exact .failed h hgives hstop
      | outOfFuel =>
        simp only [bind, EStateM.bind, hgives.evalForms_of_outOfFuel hstop] at hrunAll
        rw [hrunAll, hrunAll, hrun]
        exact .outOfFuel

/-- What the three ways to run a program make of its forms, read as `forms` on the machine `m₀`: the
halting run ends with an outcome on the machine `m₁`, the run that goes on as `going`, and the run
for the value of the last form as `ran`. -/
structure Agree (c : Convention ι) (fuel : Nat) (forms : List (Form ι)) (m₀ : Machine ι σ)
    (halted : Outcome ι) (m₁ : Machine ι σ) (going : Ending ι σ (Outcome ι))
    (ran : Ending ι σ (Value ι)) : Prop where
  /-- The number of forms is that of the program. -/
  formCount : halted.formCount = forms.length
  /-- The run that goes on has the same results on the same machine after as many forms. -/
  reached : evalForms (evalTop c fuel) .keepGoing 1 (forms.take halted.results.length) m₀ =
    .ok halted.results m₁
  /-- From there it goes on with the other forms, however that ends. -/
  continued : going = (do
    let rest ← evalForms (evalTop c fuel) .keepGoing (1 + halted.results.length)
      (forms.drop halted.results.length)
    return ⟨halted.results ++ rest, forms.length⟩ : Run ι σ (Outcome ι)) m₁
  /-- If it ends it has a result for every form, of which the halting run has those up to the first
  failure; and both are a success or neither is. -/
  truncated : ∀ o m', going = .ok o m' →
    o.formCount = forms.length ∧ o.results.length = forms.length ∧
      halted.results = Outcome.upToFailure o.results ∧ o.isSuccess = halted.isSuccess
  /-- The third run ends by the first failure, which the halting run reports besides, or with the
  value of the last form. -/
  ran_eq : match halted.failures.head? with
    | some failure => ∃ m₂, ran = .error (.failed failure) m₂ ∧
        m₁ = m₂.afterFailure halted.results.length failure
    | none => ran = .ok (halted.lastValue?.getD .nil) m₁
  /-- It has a value if the halting run is a success, and only then. -/
  isSuccess_iff : halted.isSuccess = true ↔ ∃ v m', ran = .ok v m'
  /-- The value is that of the last form if there is any. -/
  lastValue?_eq : forms ≠ [] → ∀ v m', ran = .ok v m' → halted.lastValue? = some v

variable {c : Convention ι} {fuel : Nat} {m₀ m₁ : Machine ι σ}

theorem Gives.agree (h : Gives (evalTop c fuel) forms m₀ vs m₁) :
    Agree c fuel forms m₀ ⟨vs.map .ok, forms.length⟩ m₁
      (.ok ⟨vs.map .ok, forms.length⟩ m₁) (.ok (vs.getLastD .nil) m₁) := by
  have hlength : (vs.map (Except.ok : Value ι → Except Failure (Value ι))).length =
      forms.length := by
    rw [List.length_map, h.length_eq]
  have hsuccess : (Outcome.mk (vs.map .ok) forms.length).isSuccess = true := by
    rw [← h.length_eq]
    exact Outcome.isSuccess_values vs
  have hlast := Outcome.lastValue?_values vs forms.length
  refine ⟨rfl, ?_, ?_, ?_, ?_, ?_, ?_⟩
  · rw [hlength, List.take_length, h.evalForms_all]
  · rw [hlength, List.drop_length, Program.evalForms, pure_bind, List.append_nil]
    rfl
  · intro o m' ho
    cases ho
    exact ⟨rfl, hlength, (Outcome.upToFailure_values vs).symm, rfl⟩
  · rw [hlast, Outcome.failures, Outcome.failures_values, ← List.getLastD_eq_getLast?]
    rfl
  · exact ⟨fun _ => ⟨_, _, rfl⟩, fun _ => hsuccess⟩
  · intro hne v m' hv
    cases hv
    have hvs : vs ≠ [] := by
      rintro rfl
      exact hne (List.eq_nil_of_length_eq_zero h.length_eq.symm)
    rw [hlast, List.getLastD_eq_getLast?, List.getLast?_eq_some_getLast hvs]
    rfl

theorem Gives.agree_of_failed {failure : Failure} {m₂ : Machine ι σ}
    (h : Gives (evalTop c fuel) before m₀ vs m₁)
    (hform : evalTop c fuel form m₁ = .error (.failed failure) m₂) :
    Agree c fuel (before ++ form :: after) m₀
      ⟨vs.map .ok ++ [.error failure], (before ++ form :: after).length⟩
      (m₂.afterFailure (1 + vs.length) failure)
      ((do
        let rest ← Program.evalForms (evalTop c fuel) .keepGoing (1 + vs.length + 1) after
        return ⟨vs.map Except.ok ++ Except.error failure :: rest,
          (before ++ form :: after).length⟩ : Run ι σ (Outcome ι))
            (m₂.afterFailure (1 + vs.length) failure))
      (.error (.failed failure) m₂) := by
  have hlength := h.length_eq
  have hcount : (vs.map Except.ok ++ [Except.error failure]).length =
      (before ++ [form]).length := by simp [hlength]
  have hsplit : before ++ form :: after = (before ++ [form]) ++ after := by simp
  have hhalted : (Outcome.mk (vs.map .ok ++ [.error failure])
      (before ++ form :: after).length).isSuccess = false :=
    Outcome.isSuccess_of_failure vs failure [] _
  refine ⟨rfl, ?_, ?_, ?_, ?_, ?_, ?_⟩
  · rw [hcount, hsplit, List.take_left, h.keepGoing_of_failed hform]
    rfl
  · rw [hcount, hsplit, List.drop_left, ← hcount]
    simp [Nat.add_assoc]
  · intro o m' ho
    simp only [bind, EStateM.bind] at ho
    split at ho
    · next rest _ hrest =>
      cases ho
      refine ⟨rfl, ?_, (Outcome.upToFailure_values_append vs failure rest).symm, ?_⟩
      · simp [hlength, length_of_keepGoing hrest]
      · rw [hhalted, Outcome.isSuccess_of_failure]
    · cases ho
  · rw [Outcome.failures_of_failure]
    exact ⟨m₂, rfl, by simp [Nat.add_comm]⟩
  · rw [hhalted]
    exact ⟨fun h => absurd h Bool.false_ne_true, fun ⟨_, _, h⟩ => nomatch h⟩
  · intro _ v m' hv
    cases hv

/-- **The three ways to run a program agree.** A text that cannot be read is the same failure for
all of them and changes nothing. Otherwise the forms that are read are evaluated up to the first
failure by all of them, with the same values on the same machines, and the run that goes on
evaluates the others from there; where this runs out of levels all of them do. -/
theorem runs_agree (c : Convention ι) (fuel : Nat) (source : String) (m : Machine ι σ) :
    match Reader.read Reader.defaultLimit source with
    | .error diagnosis =>
      (∀ policy, runAll c fuel policy source m = .error (.failed ⟨.unreadable diagnosis, none⟩) m) ∧
        run c fuel source m = .error (.failed ⟨.unreadable diagnosis, none⟩) m
    | .ok trees => ∃ forms next, forms.map Form.erase = trees ∧
      match runAll c fuel .halt source m with
      | .ok halted m₁ =>
        Agree c fuel forms (m.afterReading next forms.length) halted m₁
          (runAll c fuel .keepGoing source m) (run c fuel source m)
      | .error stop m₁ => stop = .outOfFuel ∧
          runAll c fuel .keepGoing source m = .error stop m₁ ∧ run c fuel source m = .error stop m₁ := by
  cases hread : Reader.read Reader.defaultLimit source with
  | error diagnosis =>
    have h := read_of_read_error c hread m
    refine ⟨fun policy => ?_, ?_⟩ <;> simp only [runAll, run, bind, EStateM.bind, h]
  | ok trees =>
    obtain ⟨forms, next, htrees, h⟩ := read_of_read c hread m
    refine ⟨forms, next, htrees, ?_⟩
    have hcourse := course c fuel source m
    generalize runAll c fuel .halt source m = halted at hcourse ⊢
    generalize runAll c fuel .keepGoing source m = going at hcourse ⊢
    generalize run c fuel source m = ran at hcourse ⊢
    cases hcourse with
    | unreadable hfailed => cases h.symm.trans hfailed
    | success hforms hgives =>
      cases h.symm.trans hforms
      exact hgives.agree
    | failed hforms hgives hform =>
      cases h.symm.trans hforms
      exact hgives.agree_of_failed hform
    | outOfFuel => exact ⟨rfl, rfl, rfl⟩

end Program

end SubstLisp
