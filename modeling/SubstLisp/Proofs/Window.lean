import SubstLisp.Proofs.Copies
import SubstLisp.Proofs.History

/-!
# The window on operands

The registry says how many operands an operator takes and where among those of a call it takes
them; what an operator does with them is said elsewhere, and asks for a number of operands of its
own. The two agree: an operator finds in its window exactly as many operands as it asks for. A call
of a function or macro takes its arguments through a window in front.

Operands outside the window are reported and play no other part. As no run looks at what has been
reported, a call with surplus operands comes to the end that it comes to without them.

## What is proved

* `Operator.arity_of_mem`, `Operator.suits_of_mem` — the registry agrees with what operators do.
* `Evaluation.applyNamed_seesWindow` — operators see their operands through their window.
* `Evaluation.call_seesWindow` — calls see as many arguments in front as there are parameters.
-/

namespace SubstLisp

variable {ι σ α : Type}

/-! ### Windows -/

/-- Windows go with arities: those at an end hold a number of operands, `all` any number. -/
def Window.suits : Window → Arity → Bool
  | front, .exactly _ => true
  | back, .exactly _ => true
  | all, .any => true
  | nothing, .exactly 0 => true
  | _, _ => false

/-- The reports of surplus among a number of operands: one, if there is any. -/
def Arity.notices (notice : Nat → Event ι) (got : Nat) (arity : Arity) : Array (Event ι) :=
  if 0 < arity.surplus got then #[notice (arity.surplus got)] else #[]

namespace Window

/-- Looking through a window once more leaves what is in it. -/
@[simp]
theorem select_select (size : Nat) (operands : List α) (window : Window) :
    window.select size (window.select size operands) = window.select size operands := by
  cases window with
  | front => simp [select, List.take_take]
  | back =>
    simp only [select, List.length_drop, List.drop_drop]
    congr 1
    omega
  | all => rfl
  | nothing => rfl

/-- A window holds all operands but the surplus. -/
theorem length_select {window : Window} {arity : Arity} (hsuits : window.suits arity)
    {operands : List α} (h : arity.required ≤ operands.length) :
    (window.select arity.required operands).length =
      operands.length - arity.surplus operands.length := by
  unfold suits at hsuits
  split at hsuits
  · simp only [select, Arity.required, Arity.surplus, List.length_take] at h ⊢
    omega
  · simp only [select, Arity.required, Arity.surplus, List.length_drop]
  · rfl
  · simp [select, Arity.surplus]
  · cases hsuits

variable {window : Window} {arity : Arity} (hsuits : window.suits arity) {operands : List α}
  (h : arity.required ≤ operands.length)

include hsuits h

theorem required_le_length_select :
    arity.required ≤ (window.select arity.required operands).length := by
  rw [length_select hsuits h]
  cases arity with
  | exactly n => simp only [Arity.required, Arity.surplus] at h ⊢; omega
  | any => exact Nat.zero_le _

/-- There is no surplus in a window. -/
theorem surplus_length_select :
    arity.surplus (window.select arity.required operands).length = 0 := by
  rw [length_select hsuits h]
  cases arity with
  | exactly n => simp only [Arity.required, Arity.surplus] at h ⊢; omega
  | any => rfl

theorem notices_length_select (notice : Nat → Event ι) :
    arity.notices notice (window.select arity.required operands).length = #[] := by
  rw [Arity.notices, surplus_length_select hsuits h]
  rfl

end Window

/-! ### The registry -/

/-- How many operands an operator asks for by what it does. -/
def SpecialForm.arity : SpecialForm → Arity
  | arithmetic _ => .exactly 2
  | equality _ => .exactly 2
  | connective _ => .exactly 2
  | constant _ => .exactly 0
  | conditional => .exactly 3
  | quote => .exactly 1
  | list => .any
  | evaluate => .exactly 1
  | concat => .exactly 2
  | defineFunction => .exactly 3
  | defineMacro => .exactly 3
  | assign => .exactly 2
  | sequence => .any
  | host => .exactly 2

namespace Operator

/-- Every operator of the language takes as many operands as it asks for. -/
theorem arity_of_mem : ∀ op ∈ operators, op.arity = op.form.arity := by decide

theorem suits_of_mem : ∀ op ∈ operators, op.window.suits op.arity := by decide

theorem find?_of_mem : ∀ op ∈ operators, find? op.name = some op := by decide

end Operator

/-! ### Seeing a window -/

/-- The machine with further events after its own. -/
def Machine.noting (m : Machine ι σ) (notices : Array (Event ι)) : Machine ι σ :=
  { m with events := m.events ++ notices }

/-- The machine without its events. -/
def Machine.forgetful (m : Machine ι σ) : Machine ι σ := { m with events := #[] }

theorem Machine.noting_eq_after (m : Machine ι σ) (notices : Array (Event ι)) :
    m.noting notices = m.forgetful.after (m.events ++ notices) := by
  simp [noting, forgetful, after]

theorem Machine.eq_after (m : Machine ι σ) : m = m.forgetful.after m.events := by
  simp [forgetful, after]

@[simp]
theorem Machine.noting_empty (m : Machine ι σ) : m.noting #[] = m := by
  simp [noting]

/-- What a list of operands is applied by, given a way to evaluate forms. -/
abbrev Application (ι σ : Type) := Evaluator ι σ → (depth : Nat) → List (Form ι) → Run ι σ (Value ι)

namespace Evaluation

/-- On a machine an application sees of its operands what is in a window. Too few are an error
before anything else happens, under the given name. With enough of them it comes to the end that
it comes to with those in the window alone: the outcome, the machine and what happens until then
are the same, but for the report of a surplus in front of what happens. -/
structure SeesWindow (m : Machine Nat σ) (apply : Application Nat σ) (name : String) (arity : Arity)
    (window : Window) (notice : Nat → Event Nat) : Prop where
  tooFew : ∀ (inner : Evaluator Nat σ) (depth : Nat) (operands : List (Form Nat)),
    operands.length < arity.required → apply inner depth operands m =
      .error (.failed ⟨.arity name arity.required operands.length, none⟩) m
  enough : ∀ (fuel depth : Nat) (operands : List (Form Nat)), arity.required ≤ operands.length →
    ∃ ending : Ending Nat σ (Value Nat),
      apply (eval .byIdentity fuel) depth (window.select arity.required operands) m =
        ending.after m.events ∧
      apply (eval .byIdentity fuel) depth operands m =
        ending.after (m.events ++ arity.notices notice operands.length)

/-- What becomes of operands in a window on a machine with the report of the others, becomes of all
operands, if the history plays no part. -/
theorem SeesWindow.of_blind {m : Machine Nat σ} {apply : Application Nat σ} {name : String}
    {arity : Arity} {window : Window} {notice : Nat → Event Nat}
    (htooFew : ∀ inner depth operands, operands.length < arity.required → apply inner depth operands m =
      .error (.failed ⟨.arity name arity.required operands.length, none⟩) m)
    (hwindow : ∀ inner depth operands, arity.required ≤ operands.length →
      apply inner depth operands m = apply inner depth (window.select arity.required operands)
        (m.noting (arity.notices notice operands.length)))
    (hblind : ∀ fuel depth operands, Run.Blind (apply (eval .byIdentity fuel) depth operands)) :
    SeesWindow m apply name arity window notice := by
  refine ⟨htooFew, fun fuel depth operands h => ?_⟩
  let inWindow := window.select arity.required operands
  refine ⟨apply (eval .byIdentity fuel) depth inWindow m.forgetful, ?_, ?_⟩
  · calc apply (eval .byIdentity fuel) depth inWindow m
        = apply (eval .byIdentity fuel) depth inWindow (m.forgetful.after m.events) := by
          rw [← m.eq_after]
      _ = _ := hblind fuel depth inWindow m.events m.forgetful
  · rw [hwindow _ _ _ h, m.noting_eq_after, hblind]

/-! ### Operators -/

theorem takeOperands_of_lt {op : Operator} {operands : List (Form ι)}
    (h : operands.length < op.arity.required) (m : Machine ι σ) : takeOperands op operands m =
      .error (.failed ⟨.arity op.name op.arity.required operands.length, none⟩) m := by
  simp only [takeOperands, Operator.checkArity, if_pos h]
  rfl

/-- With enough operands an operator takes those in its window, and reports the others. -/
theorem takeOperands_of_le {op : Operator} {operands : List (Form ι)}
    (h : op.arity.required ≤ operands.length) (m : Machine ι σ) : takeOperands op operands m =
      .ok (op.select operands)
        (m.noting (op.arity.notices (.surplusOperands op.name) operands.length)) := by
  simp only [takeOperands, Operator.checkArity, if_neg (Nat.not_lt.2 h), Arity.notices]
  split
  · show EStateM.Result.ok (op.select operands) (Machine.mk _ _ (m.events.push _)) = _
    simp [Machine.noting]
  · rw [Machine.noting_empty]
    rfl

section

variable {c : Convention ι} {inner : Evaluator ι σ} {depth : Nat} {op : Operator}
  {operands : List (Form ι)}

/-- Too few operands are an error, and it takes no note. -/
theorem applyNamed_of_lt (hc : c.note = Failure.within) (hop : op ∈ operators)
    (h : operands.length < op.arity.required) (m : Machine ι σ) :
    applyNamed c inner depth op.name operands m =
      .error (.failed ⟨.arity op.name op.arity.required operands.length, none⟩) m := by
  simp only [applyNamed, Operator.find?_of_mem op hop, hc, Run.mapFailure, bind, EStateM.bind,
    takeOperands_of_lt h]
  rfl

/-- An operator is applied to what is in its window, on a machine with the report of the rest. -/
theorem applyNamed_of_le (hop : op ∈ operators) (h : op.arity.required ≤ operands.length)
    (m : Machine ι σ) : applyNamed c inner depth op.name operands m =
      Run.mapFailure (c.note op.name) (operate c inner (depth + 1) op (op.select operands))
        (m.noting (op.arity.notices (.surplusOperands op.name) operands.length)) := by
  simp only [applyNamed, Operator.find?_of_mem op hop, Run.mapFailure, bind, EStateM.bind,
    takeOperands_of_le h]

/-- An operator is applied to all operands as it is to those in its window. -/
theorem applyNamed_select (hop : op ∈ operators) (h : op.arity.required ≤ operands.length)
    (m : Machine ι σ) : applyNamed c inner depth op.name operands m =
      applyNamed c inner depth op.name (op.select operands)
        (m.noting (op.arity.notices (.surplusOperands op.name) operands.length)) := by
  have hsuits := Operator.suits_of_mem op hop
  have hselect : op.select (op.select operands) = op.select operands :=
    Window.select_select op.arity.required operands op.window
  have hle : op.arity.required ≤ (op.select operands).length :=
    Window.required_le_length_select hsuits h
  have hnotices : op.arity.notices (Event.surplusOperands op.name : Nat → Event ι)
      (op.select operands).length = #[] := Window.notices_length_select hsuits h _
  rw [applyNamed_of_le hop h, applyNamed_of_le hop hle, hnotices, hselect, Machine.noting_empty]

end

/-- **Operators see a window**, the one that the registry says. -/
theorem applyNamed_seesWindow {op : Operator} (hop : op ∈ operators) (m : Machine Nat σ) :
    SeesWindow m (applyNamed .byIdentity · · op.name ·) op.name op.arity op.window
      (.surplusOperands op.name) :=
  .of_blind (fun _ _ _ h => applyNamed_of_lt rfl hop h m)
    (fun _ _ _ h => applyNamed_select hop h m)
    fun fuel depth operands => applyNamed_blind _ fuel depth op.name operands

/-! ### Calls -/

/-- Elements without a partner do not matter. -/
theorem zip_take_length {β : Type} (as : List α) (bs : List β) :
    as.zip (bs.take as.length) = as.zip bs := by
  induction as generalizing bs with
  | nil => rfl
  | cons a as ih => cases bs <;> simp [ih]

/-- Arguments that have no parameter are put in nowhere. -/
theorem apply_take (d : Definition Nat) (operands : List (Form Nat)) :
    Convention.byIdentity.apply d (operands.take d.arity) =
      Convention.byIdentity.apply d operands := by
  funext next
  obtain ⟨rename, -, hcopy⟩ := Node.instantiate_spec d.parameters d.body next
  let made := Node.instantiate d.parameters d.body next
  have hlength : made.1.1.length = d.arity := by simp [made, hcopy, Definition.arity]
  have hzip := zip_take_length made.1.1 operands
  rw [hlength] at hzip
  exact congrArg (fun rs => (Form.substituteEach rs made.1.2, made.2)) hzip

section

variable {inner : Evaluator Nat σ} {depth : Nat} {name : String} {d : Definition Nat}
  {operands : List (Form Nat)} {m : Machine Nat σ}

theorem applyDefinition_of_lt (h : operands.length < d.arity) :
    applyDefinition .byIdentity name d operands m =
      .error (.failed ⟨.arity name d.arity operands.length, none⟩) m := by
  simp only [applyDefinition, if_pos h]
  rfl

/-- A body gets the arguments that have parameters, and the others are reported. -/
theorem applyDefinition_of_le (h : d.arity ≤ operands.length) :
    applyDefinition .byIdentity name d operands m =
      applyDefinition .byIdentity name d (operands.take d.arity)
        (m.noting ((Arity.exactly d.arity).notices (.surplusArguments name) operands.length)) := by
  have htake : (operands.take d.arity).length = d.arity := by
    rw [List.length_take]
    omega
  simp only [applyDefinition, if_neg (Nat.not_lt.2 h), htake, Nat.lt_irrefl, if_false, apply_take,
    Arity.notices, Arity.surplus, Nat.sub_pos_iff_lt]
  split
  · show Run.minting _ (Machine.mk _ _ (m.events.push _)) = _
    simp [Machine.noting]
  · rw [Machine.noting_empty]

variable (hd : m.environment.find? name = some (.functionDef d) ∨
  m.environment.find? name = some (.macroDef d))

include hd

theorem call_of_lt (h : operands.length < d.arity) : call .byIdentity inner depth name operands m =
    .error (.failed ⟨.arity name d.arity operands.length, none⟩) m := by
  rcases hd with hd | hd <;>
    simp only [call, Run.find?, bind, EStateM.bind, hd, applyDefinition_of_lt h]

/-- A function or macro is called with all arguments as it is with those that have parameters. -/
theorem call_take (h : d.arity ≤ operands.length) : call .byIdentity inner depth name operands m =
    call .byIdentity inner depth name (operands.take d.arity)
      (m.noting ((Arity.exactly d.arity).notices (.surplusArguments name) operands.length)) := by
  have hfind : ∀ notices, (m.noting notices).environment.find? name = m.environment.find? name :=
    fun _ => rfl
  rcases hd with hd | hd <;>
    simp only [call, Run.find?, bind, EStateM.bind, hfind, hd, applyDefinition_of_le h]

/-- **Calls see a window**: a function or macro takes its arguments in front. -/
theorem call_seesWindow : SeesWindow m (call .byIdentity · · name ·) name (.exactly d.arity) .front
    (.surplusArguments name) :=
  .of_blind (fun _ _ _ => call_of_lt hd) (fun _ _ _ => call_take hd)
    fun fuel depth operands => call_blind _ fuel depth name operands

/-- So does the application of a name that no operator has. -/
theorem applyNamed_seesWindow_of_find?_eq_none (hname : Operator.find? name = none) :
    SeesWindow m (applyNamed .byIdentity · · name ·) name (.exactly d.arity) .front
      (.surplusArguments name) := by
  have happly : ∀ (inner : Evaluator Nat σ) depth operands m,
      applyNamed .byIdentity inner depth name operands m =
        Run.mapFailure (Failure.within name) (call .byIdentity inner depth name operands) m := by
    intro inner depth operands m
    simp only [applyNamed, hname]
    rfl
  refine .of_blind (fun inner depth operands h => ?_) (fun inner depth operands h => ?_) ?_
  · rw [happly, Run.mapFailure, call_of_lt hd h]
    rfl
  · rw [happly, happly, Run.mapFailure, Run.mapFailure, call_take hd h]
    rfl
  · exact fun fuel depth operands => applyNamed_blind _ fuel depth name operands

end

end Evaluation

end SubstLisp
