import SubstLisp.Proofs.Window

/-!
# Which operands are evaluated

An operator evaluates some of the operands in its window, one after another, and makes of their
values what it comes to. `SpecialForm.evaluated` are these operands in the order of the call and
`Operator.conclude` is what is made of the values: no form is evaluated there, with one exception.
The value of the operand of `eval` may be quoted code, and `SpecialForm.resume` evaluates it.

Only the two branches of a conditional and the second operand of a connective are left out on
account of a value, the one of the first operand. Otherwise an operand is left out because it
serves as it stands: as a name, as a parameter list or a body, or as quoted code.

## What is proved

* `Evaluation.operate_eq` — what an operator does with as many operands as it asks for is to
  evaluate these, and then to conclude.
* `Evaluation.evaluatesInOrder` — so an application of an operator evaluates operands in order, and
  with enough of them finds none missing.
* `Evaluation.every_application_seesWindow` — what applications make of their operands, those of
  operators as well as those of functions and macros.
-/

namespace SubstLisp

variable {ι σ α β : Type}

/-! ### Operands and conclusions -/

/-- The host function that an operand names. -/
def Machine.hostFunction? (m : Machine ι σ) : Form ι → Option (HostFunction ι σ)
  | .atom _ name => m.environment.hosts.find? name
  | .string _ name => m.environment.hosts.find? name
  | .list _ _ => none

/-- The window holds as many operands as are asked for. -/
def SpecialForm.Fits (form : SpecialForm) (window : List (Form ι)) : Prop :=
  ∀ n, form.arity = .exactly n → window.length = n

/-- The operands that are evaluated out of those in a window, in the order of evaluation; `first`
is the truth of the value of the first one. Where a name is no name nothing is evaluated. -/
def SpecialForm.evaluated (m : Machine ι σ) (first : Bool) (form : SpecialForm)
    (window : List (Form ι)) : List (Form ι) :=
  match form with
  | arithmetic _ | equality _ | list | evaluate | concat | sequence => window
  | connective decisive => if first = decisive then window.take 1 else window
  | conditional => if first then window.take 2 else window.eraseIdx 1
  | assign => if (window.head?.bind Form.atomText?).isSome then window.drop 1 else []
  | host => if (window.head?.bind m.hostFunction?).isSome then window.drop 1 else []
  | constant _ | quote | defineFunction | defineMacro => []

/-- What an operator makes of the values of the operands that it evaluates. -/
def Operator.conclude (c : Convention ι) (m : Machine ι σ) (op : Operator) (window : List (Form ι))
    (values : List (Value ι)) : Run ι σ (Value ι) :=
  let first := values.headD .nil
  let last := values.getLastD .nil
  match op.form with
  | .arithmetic sign => Run.ofExcept (sign.apply first last)
  | .equality expected => return .ofBool (first.same last == expected)
  | .connective _ => return .ofBool last.truthy
  | .constant b => return .ofBool b
  | .conditional => return last
  | .quote => return .quote (← Evaluation.oneOperand op window)
  | .list => return .list values
  | .evaluate => return last
  | .concat => Run.ofExcept (first.concat last)
  | .defineFunction => Evaluation.defineBy c .functionDef op window
  | .defineMacro => Evaluation.defineBy c .macroDef op window
  | .assign => do
    let (symbol, _) ← Evaluation.twoOperands op window
    let name ← Evaluation.symbolOperand op symbol
    Run.define name (.value last)
    return last
  | .sequence => return last
  | .host => do
    let (target, _) ← Evaluation.twoOperands op window
    let name ← Evaluation.hostName op target
    match m.hostFunction? target with
    | none => Run.fail (.unboundSymbol name)
    | some function =>
      Run.emit (.hostCalled name last)
      let result ← Run.acting (function last)
      Run.emit (.hostReturned name result)
      return result

/-- What `eval` goes on to with the value of its operand; other operators stay with theirs. -/
def SpecialForm.resume (inner : Evaluator ι σ) (depth : Nat) :
    SpecialForm → Value ι → Run ι σ (Value ι)
  | evaluate, .quote code => inner depth code
  | _, v => return v

section

variable (m : Machine ι σ) (notices : Array (Event ι))

@[simp]
theorem Machine.hostFunction?_noting : (m.noting notices).hostFunction? = m.hostFunction? := by
  funext target
  cases target <;> rfl

@[simp]
theorem SpecialForm.evaluated_noting (first : Bool) (form : SpecialForm) (window : List (Form ι)) :
    form.evaluated (m.noting notices) first window = form.evaluated m first window := by
  simp only [evaluated, Machine.hostFunction?_noting]

@[simp]
theorem Operator.conclude_noting (c : Convention ι) (op : Operator) (window : List (Form ι)) :
    op.conclude c (m.noting notices) window = op.conclude c m window := by
  funext values
  simp only [conclude, Machine.hostFunction?_noting]

end

/-- Operands are evaluated in the order of the call, and each at most once. -/
theorem SpecialForm.evaluated_sublist (m : Machine ι σ) (first : Bool) (form : SpecialForm)
    (window : List (Form ι)) : (form.evaluated m first window).Sublist window := by
  unfold evaluated
  split
  any_goals exact List.Sublist.refl _
  any_goals exact List.nil_sublist _
  · split
    · exact List.take_sublist 1 _
    · exact List.Sublist.refl _
  · split
    · exact List.take_sublist 2 _
    · exact List.eraseIdx_sublist _ 1
  all_goals
    split
    · exact List.drop_sublist 1 _
    · exact List.nil_sublist _

/-! ### An operator evaluates, then concludes -/

/-- What goes on matters only for the outcomes that there may be. -/
theorem Run.bind_congr {x : Run ι σ α} {k k' : α → Run ι σ β} {m : Machine ι σ}
    (h : ∀ a m', x m = .ok a m' → k a m' = k' a m') : (x >>= k) m = (x >>= k') m := by
  simp only [bind, EStateM.bind]
  cases hx : x m with
  | ok a m' => exact h a m' hx
  | error s m' => rfl

/-- Nothing runs after an error. -/
theorem Run.fail_bind (error : Error) (k : α → Run ι σ β) :
    (Run.fail error >>= k) = Run.fail error := rfl

theorem Run.host?_bind (name : String) (k : Option (HostFunction ι σ) → Run ι σ α)
    (m : Machine ι σ) : (Run.host? name >>= k) m = k (m.environment.hosts.find? name) m := rfl

namespace Evaluation

/-- Forms evaluated in order come to the value of the last. -/
theorem foldlM_eq_mapM (inner : Form ι → Run ι σ (Value ι)) (forms : List (Form ι)) (v : Value ι) :
    forms.foldlM (fun _ f => inner f) v =
      (do let vs ← forms.mapM inner; return vs.getLastD v) := by
  induction forms generalizing v with
  | nil => simp
  | cons f fs ih => simp [List.mapM_cons, ih, List.getLast?_cons]

section

variable {c : Convention ι} {inner : Evaluator ι σ} {depth : Nat} {op : Operator}
  {window : List (Form ι)} {m : Machine ι σ} {first : Bool}

/-- The value of a first form is there before the forms after it are evaluated. -/
theorem mapM_cons_bind (f : Form ι) (fs : List (Form ι)) (k : List (Value ι) → Run ι σ α) :
    (do let vs ← (f :: fs).mapM (inner depth); k vs) =
      (do let v ← inner depth f; let vs ← fs.mapM (inner depth); k (v :: vs)) := by
  simp [List.mapM_cons]

/-- **What an operator does**: with as many operands as it asks for it evaluates those that
`evaluated` says, in order, and concludes from their values. -/
theorem operate_eq (hfits : op.form.Fits window)
    (hfirst : ∀ a rest, window = a :: rest → ∀ v m', inner depth a m = .ok v m' → v.truthy = first) :
    operate c inner depth op window m =
      (do
        let values ← (op.form.evaluated m first window).mapM (inner depth)
        op.form.resume inner depth (← op.conclude c m window values)) m := by
  unfold operate Operator.conclude
  -- Where no value is waited for to know what else is evaluated, both sides are the same program.
  cases hform : op.form <;> rw [hform] at hfits
  case arithmetic sign =>
    obtain ⟨a, b, rfl⟩ := List.length_eq_two.1 (hfits 2 rfl)
    simp [twoOperands, SpecialForm.evaluated, SpecialForm.resume, List.mapM_cons]
  case equality expected =>
    obtain ⟨a, b, rfl⟩ := List.length_eq_two.1 (hfits 2 rfl)
    simp [twoOperands, SpecialForm.evaluated, SpecialForm.resume, List.mapM_cons]
  case connective decisive =>
    obtain ⟨a, b, rfl⟩ := List.length_eq_two.1 (hfits 2 rfl)
    have hfirst := hfirst a [b] rfl
    simp only [twoOperands, pure_bind, SpecialForm.evaluated, SpecialForm.resume]
    by_cases hdecisive : first = decisive
    · rw [if_pos hdecisive, List.take_succ_cons, mapM_cons_bind]
      refine Run.bind_congr ?_
      intro v m' hv
      simp [hfirst v m' hv, hdecisive]
    · rw [if_neg hdecisive, mapM_cons_bind]
      refine Run.bind_congr ?_
      intro v m' hv
      simp [hfirst v m' hv, hdecisive]
  case constant b => simp [SpecialForm.evaluated, SpecialForm.resume]
  case conditional =>
    obtain ⟨a, b, d, rfl⟩ := List.length_eq_three.1 (hfits 3 rfl)
    have hevaluated : SpecialForm.conditional.evaluated m first [a, b, d] =
        [a, if first then b else d] := by cases first <;> rfl
    simp only [threeOperands, pure_bind, hevaluated, SpecialForm.resume, mapM_cons_bind]
    refine Run.bind_congr ?_
    intro v m' hv
    rw [hfirst a [b, d] rfl v m' hv]
    cases first <;> simp
  case quote =>
    obtain ⟨a, rfl⟩ := List.length_eq_one_iff.1 (hfits 1 rfl)
    simp [oneOperand, SpecialForm.evaluated, SpecialForm.resume]
  case list => simp [SpecialForm.evaluated, SpecialForm.resume]
  case evaluate =>
    obtain ⟨a, rfl⟩ := List.length_eq_one_iff.1 (hfits 1 rfl)
    simp only [oneOperand, pure_bind, SpecialForm.evaluated, mapM_cons_bind]
    refine Run.bind_congr ?_
    intro v m' _
    cases v <;> rfl
  case concat =>
    obtain ⟨a, b, rfl⟩ := List.length_eq_two.1 (hfits 2 rfl)
    simp [twoOperands, SpecialForm.evaluated, SpecialForm.resume, List.mapM_cons]
  case defineFunction => simp [SpecialForm.evaluated, SpecialForm.resume]
  case defineMacro => simp [SpecialForm.evaluated, SpecialForm.resume]
  case assign =>
    obtain ⟨symbol, operand, rfl⟩ := List.length_eq_two.1 (hfits 2 rfl)
    simp only [twoOperands, symbolOperand, pure_bind, SpecialForm.evaluated, SpecialForm.resume]
    obtain hname | ⟨name, hname⟩ := Option.eq_none_or_eq_some symbol.atomText?
    · simp [hname, Run.fail_bind]
    · simp [hname, List.mapM_cons]
  case sequence => simp [SpecialForm.evaluated, SpecialForm.resume, foldlM_eq_mapM]
  case host =>
    obtain ⟨target, argument, rfl⟩ := List.length_eq_two.1 (hfits 2 rfl)
    simp only [callHost, twoOperands, pure_bind, SpecialForm.evaluated, SpecialForm.resume]
    cases target with
    | list label items => simp [hostName, Machine.hostFunction?, Run.fail_bind]
    | _ label name =>
      simp only [hostName, pure_bind, Run.host?_bind, Machine.hostFunction?]
      obtain hnone | ⟨function, hsome⟩ :=
        Option.eq_none_or_eq_some (m.environment.hosts.find? name)
      · simp [hnone, Machine.hostFunction?]
      · simp [hsome, Machine.hostFunction?, List.mapM_cons]

end

end Evaluation

/-! ### No operand is missing -/

/-- Whether an error says that there are too few operands. -/
def Error.isArity : Error → Bool
  | arity _ _ _ => true
  | _ => false

theorem Error.isArity_of_isFault {error : Error} (h : error.isFault) : error.isArity = false := by
  cases error <;> first | rfl | cases h

/-- The computation never fails for want of operands. -/
def Run.Supplied (x : Run ι σ α) : Prop :=
  ∀ m failure m', x m = .error (.failed failure) m' → failure.error.isArity = false

namespace Run

theorem Supplied.pure (a : α) : Supplied (Pure.pure a : Run ι σ α) := by
  rintro m failure m' hm
  cases hm

theorem Supplied.fail {error : Error} (h : error.isArity = false) :
    Supplied (Run.fail error : Run ι σ α) := by
  rintro m failure m' hm
  cases hm
  exact h

theorem Supplied.bind {x : Run ι σ α} {k : α → Run ι σ β} (hx : x.Supplied)
    (hk : ∀ a, (k a).Supplied) : (x >>= k).Supplied := by
  intro m failure m' hm
  simp only [Bind.bind, EStateM.bind] at hm
  split at hm
  · next a m₁ ha => exact hk a m₁ failure m' hm
  · next s m₁ hs => cases hm; exact hx m failure m' hs

theorem Supplied.ofExcept {e : Except Error α} (h : ∀ error, e = .error error → error.isFault) :
    Supplied (Run.ofExcept e : Run ι σ α) := by
  cases e with
  | ok a => exact .pure a
  | error error => exact .fail (Error.isArity_of_isFault (h error rfl))

theorem Supplied.emit (event : Event ι) : Supplied (Run.emit event : Run ι σ Unit) := by
  rintro m failure m' hm
  cases hm

theorem Supplied.define (name : String) (binding : Binding ι) :
    Supplied (Run.define name binding : Run ι σ Unit) := by
  rintro m failure m' hm
  cases hm

theorem Supplied.mapM {inner : Form ι → Run ι σ (Value ι)} (h : ∀ f, (inner f).Supplied)
    (forms : List (Form ι)) : Supplied (forms.mapM inner) := by
  induction forms with
  | nil => exact .pure []
  | cons f fs ih =>
    rw [List.mapM_cons]
    exact .bind (h f) fun v => .bind ih fun vs => .pure (v :: vs)

theorem Supplied.note {x : Run ι σ α} (hx : x.Supplied) (name : String) :
    (Run.mapFailure (Failure.within name) x).Supplied := by
  intro m failure m' hm
  unfold Run.mapFailure at hm
  split at hm
  · next failure₁ m₁ hfailure =>
    cases hm
    rw [Failure.error_within]
    exact hx m _ _ hfailure
  · next other => exact hx m failure m' hm

end Run

/-- No host function of the machine fails for want of operands. -/
def Machine.HostsSupplied (m : Machine ι σ) : Prop :=
  ∀ name f, m.environment.hosts.find? name = some f → ∀ v world error world',
    f v world = .error error world' → error.isArity = false

namespace Evaluation

variable {c : Convention ι} {op : Operator} {window : List (Form ι)} {m : Machine ι σ}

theorem symbolOperand_supplied (operand : Form ι) :
    (symbolOperand op operand : Run ι σ String).Supplied := by
  unfold symbolOperand
  split
  · exact .pure _
  · exact .fail rfl

theorem hostName_supplied (target : Form ι) :
    (hostName op target : Run ι σ String).Supplied := by
  unfold hostName
  split
  · exact .pure _
  · exact .pure _
  · exact .fail rfl

theorem make_supplied (tie : List (Form ι) → Form ι → Form ι) (name : String)
    (parameters : List (Form ι)) (body : Form ι) :
    (Run.ofExcept (Definition.make tie name parameters body) : Run ι σ _).Supplied := by
  refine .ofExcept ?_
  intro error herror
  cases hcheck : Definition.checkParameters name [] parameters with
  | error fault =>
    rw [Definition.make, hcheck] at herror
    cases herror
    exact Definition.isFault_of_checkParameters hcheck
  | ok _ =>
    rw [Definition.make, hcheck] at herror
    cases herror

/-- A definition finds its three operands. -/
theorem defineBy_supplied (bind : Definition ι → Binding ι) (h : window.length = 3) :
    (defineBy c bind op window : Run ι σ (Value ι)).Supplied := by
  obtain ⟨symbol, parameters, body, rfl⟩ := List.length_eq_three.1 h
  unfold defineBy
  refine .bind (.pure _) fun _ => .bind (symbolOperand_supplied _) fun name => ?_
  split
  · exact .fail rfl
  · exact .bind (make_supplied _ _ _ _) fun d => .bind (.define _ _) fun _ => .pure _

theorem acting_supplied {f : HostFunction ι σ} (h : ∀ v world error world',
    f v world = .error error world' → error.isArity = false) (v : Value ι) :
    (Run.acting (f v) : Run ι σ (Value ι)).Supplied := by
  intro m failure m' hm
  unfold Run.acting at hm
  split at hm <;> cases hm
  next hf => exact h _ _ _ _ hf

theorem hosts_of_hostFunction? {target : Form ι} {f : HostFunction ι σ}
    (h : m.hostFunction? target = some f) : ∃ name, m.environment.hosts.find? name = some f := by
  cases target with
  | atom label name => exact ⟨name, h⟩
  | string label name => exact ⟨name, h⟩
  | list label items => cases h

/-- No conclusion is drawn from too few operands. -/
theorem conclude_supplied (hfits : op.form.Fits window) (hhosts : m.HostsSupplied)
    (values : List (Value ι)) : (op.conclude c m window values).Supplied := by
  unfold Operator.conclude
  cases hform : op.form <;> rw [hform] at hfits
  case arithmetic sign => exact .ofExcept fun _ => Arithmetic.isFault_of_apply
  case concat => exact .ofExcept fun _ => Value.isFault_of_concat
  case defineFunction => exact defineBy_supplied _ (hfits 3 rfl)
  case defineMacro => exact defineBy_supplied _ (hfits 3 rfl)
  case quote =>
    obtain ⟨a, rfl⟩ := List.length_eq_one_iff.1 (hfits 1 rfl)
    exact .bind (.pure a) fun _ => .pure _
  case assign =>
    obtain ⟨symbol, operand, rfl⟩ := List.length_eq_two.1 (hfits 2 rfl)
    exact .bind (.pure _) fun _ => .bind (symbolOperand_supplied _) fun name =>
      .bind (.define name _) fun _ => .pure _
  case host =>
    obtain ⟨target, argument, rfl⟩ := List.length_eq_two.1 (hfits 2 rfl)
    refine .bind (.pure _) fun _ => .bind (hostName_supplied _) fun name => ?_
    split
    · exact .fail rfl
    · next function hfunction =>
      obtain ⟨name', hname'⟩ := hosts_of_hostFunction? hfunction
      exact .bind (.emit _) fun _ => .bind (acting_supplied (hhosts _ _ hname') _) fun result =>
        .bind (.emit _) fun _ => .pure result
  all_goals exact .pure _

theorem resume_supplied {inner : Evaluator ι σ} {depth : Nat}
    (hinner : ∀ f, (inner depth f).Supplied) (form : SpecialForm) (v : Value ι) :
    (form.resume inner depth v).Supplied := by
  unfold SpecialForm.resume
  split
  · exact hinner _
  · exact .pure _

/-! ### Applications of operators -/

/-- How an operator goes about the operands of an application on a machine. -/
structure EvaluatesInOrder (m : Machine Nat σ) (op : Operator) : Prop where
  /-- The operands that it evaluates are operands in its window, in their order and each at most
  once. -/
  sublist : ∀ (first : Bool) (operands : List (Form Nat)),
    (op.form.evaluated m first (op.select operands)).Sublist (op.select operands)
  /-- With enough operands it evaluates these, one after another, and concludes. -/
  applyNamed_eq : ∀ (inner : Evaluator Nat σ) (depth : Nat) (operands : List (Form Nat))
    (first : Bool), op.arity.required ≤ operands.length →
    (∀ a rest, op.select operands = a :: rest → ∀ v m', inner (depth + 1) a
      (m.noting (op.arity.notices (.surplusOperands op.name) operands.length)) = .ok v m' →
        v.truthy = first) →
    applyNamed .byIdentity inner depth op.name operands m =
      Run.mapFailure (Failure.within op.name)
        (do
          let values ← (op.form.evaluated m first (op.select operands)).mapM (inner (depth + 1))
          op.form.resume inner (depth + 1)
            (← op.conclude .byIdentity m (op.select operands) values))
        (m.noting (op.arity.notices (.surplusOperands op.name) operands.length))
  /-- With enough operands it finds none missing: where operands are too few, they are so for an
  evaluation inside or for a host function. -/
  supplied : ∀ (inner : Evaluator Nat σ) (depth : Nat) (operands : List (Form Nat)),
    op.arity.required ≤ operands.length → (∀ f, (inner (depth + 1) f).Supplied) →
    m.HostsSupplied → ∀ failure m', applyNamed .byIdentity inner depth op.name operands m =
      .error (.failed failure) m' → failure.error.isArity = false

/-- A first operand that has a value has the truth of that value. -/
theorem exists_first (inner : Evaluator ι σ) (depth : Nat) (window : List (Form ι))
    (m : Machine ι σ) : ∃ first, ∀ a rest, window = a :: rest → ∀ v m',
      inner depth a m = .ok v m' → v.truthy = first := by
  cases window with
  | nil => exact ⟨false, nofun⟩
  | cons a rest =>
    cases h : inner depth a m with
    | error s m' =>
      refine ⟨false, ?_⟩
      rintro _ _ ⟨⟩ v m' hv
      cases h.symm.trans hv
    | ok v m' =>
      refine ⟨v.truthy, ?_⟩
      rintro _ _ ⟨⟩ v' m'' hv
      cases h.symm.trans hv
      rfl

/-- What the registry lets an operator take is what it asks for. -/
theorem fits_select (hop : op ∈ operators) {operands : List (Form ι)}
    (h : op.arity.required ≤ operands.length) : op.form.Fits (op.select operands) := by
  intro n hn
  have hlength : (op.select operands).length = _ :=
    Window.length_select (Operator.suits_of_mem op hop) h
  rw [Operator.arity_of_mem op hop, hn] at hlength h
  simp only [Arity.required, Arity.surplus] at hlength h
  omega

theorem applyNamed_eq (hop : op ∈ operators) {m : Machine Nat σ} {inner : Evaluator Nat σ}
    {depth : Nat} {operands : List (Form Nat)} {first : Bool}
    (h : op.arity.required ≤ operands.length)
    (hfirst : ∀ a rest, op.select operands = a :: rest → ∀ v m', inner (depth + 1) a
      (m.noting (op.arity.notices (.surplusOperands op.name) operands.length)) = .ok v m' →
        v.truthy = first) :
    applyNamed .byIdentity inner depth op.name operands m =
      Run.mapFailure (Failure.within op.name)
        (do
          let values ← (op.form.evaluated m first (op.select operands)).mapM (inner (depth + 1))
          op.form.resume inner (depth + 1)
            (← op.conclude .byIdentity m (op.select operands) values))
        (m.noting (op.arity.notices (.surplusOperands op.name) operands.length)) := by
  rw [applyNamed_of_le hop h, Run.mapFailure, operate_eq (fits_select hop h) hfirst]
  simp only [SpecialForm.evaluated_noting, Operator.conclude_noting]
  rfl

/-- **Operators evaluate in order**: what they do with their operands is to evaluate those that
`evaluated` says and to conclude, and they have the operands that they ask for. -/
theorem evaluatesInOrder (hop : op ∈ operators) (m : Machine Nat σ) : EvaluatesInOrder m op := by
  refine ⟨fun first operands => op.form.evaluated_sublist m first _,
    fun inner depth operands first => applyNamed_eq hop, ?_⟩
  intro inner depth operands h hinner hhosts failure m' hfailure
  obtain ⟨first, hfirst⟩ := exists_first inner (depth + 1) (op.select operands)
    (m.noting (op.arity.notices (.surplusOperands op.name) operands.length))
  rw [applyNamed_eq hop h hfirst] at hfailure
  refine Run.Supplied.note (.bind (.mapM hinner _) fun values => ?_) op.name _ failure m' hfailure
  exact .bind (conclude_supplied (fits_select hop h) hhosts values) fun v =>
    resume_supplied hinner op.form v

/-! ### Every application -/

/-- **Every application sees its window.** An operator of the language sees of its operands what the
registry says and evaluates them in order; a function or macro sees as many arguments as it has
parameters. Too few are an error before anything else happens, and a surplus is reported and plays
no part. -/
theorem every_application_seesWindow (m : Machine Nat σ) :
    (∀ op ∈ operators,
      SeesWindow m (applyNamed .byIdentity · · op.name ·) op.name op.arity op.window
        (.surplusOperands op.name) ∧
      EvaluatesInOrder m op) ∧
    ∀ name d, m.environment.find? name = some (.functionDef d) ∨
        m.environment.find? name = some (.macroDef d) →
      SeesWindow m (call .byIdentity · · name ·) name (.exactly d.arity) .front
        (.surplusArguments name) ∧
      (Operator.find? name = none →
        SeesWindow m (applyNamed .byIdentity · · name ·) name (.exactly d.arity) .front
          (.surplusArguments name)) :=
  ⟨fun _ hop => ⟨applyNamed_seesWindow hop m, evaluatesInOrder hop m⟩,
    fun _ _ hd => ⟨call_seesWindow hd, applyNamed_seesWindow_of_find?_eq_none hd⟩⟩

/-- The machine of a host that does nothing, on which `first` gives back its one argument. -/
def firstMachine : Machine Nat Unit :=
  { Machine.initial () with
    environment := Environment.empty.define "first"
      (.functionDef ⟨"first", [.atom 0 "x"], .atom 0 "x"⟩) }

/-- The branches of `(if 7 1 2 3)` are its last two operands, and `(first 1 2)` has one argument. -/
theorem every_application_seesWindow_surplus :
    let inner : Evaluator Nat Unit := fun _ _ => return .number 0
    let number (text : String) : Form Nat := .atom 1 text
    applyNamed .byIdentity inner 0 "if" [number "7", number "1"] firstMachine =
      .error (.failed ⟨.arity "if" 3 2, none⟩) firstMachine ∧
    (∃ ending : Ending Nat Unit (Value Nat),
      applyNamed .byIdentity (eval .byIdentity 2) 0 "if" [number "1", number "2", number "3"]
        firstMachine = ending.after firstMachine.events ∧
      applyNamed .byIdentity (eval .byIdentity 2) 0 "if"
        [number "7", number "1", number "2", number "3"] firstMachine =
          ending.after (firstMachine.events ++ #[.surplusOperands "if" 1])) ∧
    applyNamed .byIdentity inner 0 "if" [number "7", number "1", number "2", number "3"]
        firstMachine =
      Run.mapFailure (Failure.within "if")
        (do return ((← [number "1", number "3"].mapM (inner 1)).getLastD .nil))
        (firstMachine.noting #[.surplusOperands "if" 1]) ∧
    (∀ failure m', applyNamed .byIdentity inner 0 "if"
        [number "7", number "1", number "2", number "3"] firstMachine =
          .error (.failed failure) m' → failure.error.isArity = false) ∧
    applyNamed .byIdentity inner 0 "first" [] firstMachine =
      .error (.failed ⟨.arity "first" 1 0, none⟩) firstMachine ∧
    ∃ ending : Ending Nat Unit (Value Nat),
      call .byIdentity (eval .byIdentity 2) 0 "first" [number "1"] firstMachine =
        ending.after firstMachine.events ∧
      call .byIdentity (eval .byIdentity 2) 0 "first" [number "1", number "2"] firstMachine =
        ending.after (firstMachine.events ++ #[.surplusArguments "first" 1]) := by
  intro inner number
  have hsees := every_application_seesWindow firstMachine
  obtain ⟨hif, horder⟩ := hsees.1 ⟨"if", .conditional, .exactly 3, .back⟩ (by decide)
  obtain ⟨hcall, happly⟩ := hsees.2 "first" _ (.inl (Environment.find?_define _ _ _ _))
  refine ⟨hif.tooFew inner 0 [number "7", number "1"] (by decide),
    hif.enough 2 0 [number "7", number "1", number "2", number "3"] (by decide), ?_,
    horder.supplied inner 0 [number "7", number "1", number "2", number "3"] (by decide)
      (fun _ => .pure _) (by rintro name f ⟨⟩),
    (happly (by decide)).tooFew inner 0 [] (by decide),
    hcall.enough 2 0 [number "1", number "2"] (by decide)⟩
  refine horder.applyNamed_eq inner 0 [number "7", number "1", number "2", number "3"] false
    (by decide) ?_
  rintro a rest - v m' ⟨⟩
  rfl

end Evaluation

end SubstLisp
