import SubstLisp.Proofs.Watching

/-!
# Errors on their way out

An error that is raised anywhere in a form, by an operator, by a host function or by the depth
limit, ends the evaluation of the form. Evaluation is followed by watched evaluation, on which the
error is recorded where it is raised. If anything swallowed an error, or ran on after one, the two
would come apart: watched evaluation does neither, and what it has recorded stays on the watch.

## What is proved

* `Propagation.followsAt_eval` — evaluation is followed by watched evaluation, whatever is noted of
  failures on their way out of applications.
* `Evaluation.errors_propagate` — evaluation, evaluation without notes and watched evaluation come to
  the same; where they succeed no error has been raised, and where they fail a single one has, after
  which nothing has happened and which has been noted at most once, with the innermost application
  in progress.
-/

namespace SubstLisp

variable {ι σ α β : Type}

/-! ### What is noted -/

/-- What a convention notes: of an error and the innermost application that it came out of, the
operator that its failure names. -/
structure Convention.Notes (c : Convention ι) (noted : Error → Option String → Option String) :
    Prop where
  /-- Nothing is noted of an error that came out of no application. -/
  none : ∀ error, noted error none = none
  /-- Further applications change nothing. -/
  note : ∀ name error inside?, c.note name ⟨error, noted error inside?⟩ =
    ⟨error, noted error (inside?.or (some name))⟩

/-- The language notes the innermost application of an error that takes a note. -/
theorem Convention.notes_byIdentity : Convention.byIdentity.Notes
    fun error inside? => if error.takesContext then inside? else none where
  none error := by simp
  note name error inside? := by
    show Failure.within name _ = _
    unfold Failure.within
    cases inside? <;> cases error.takesContext <;> rfl

/-- Without notes there are none. -/
theorem Convention.notes_withoutNotes (c : Convention ι) :
    c.withoutNotes.Notes fun _ _ => none :=
  ⟨fun _ => rfl, fun _ _ _ => rfl⟩

namespace Propagation

/-! ### Runs and watched runs -/

variable (noted : Error → Option String → Option String)

/-- How a watched run ends when the run without a watch ends by `stop` on `m`: further names are in
progress, and if the run fails, a single error has been raised, this one on this machine. -/
def Ends (watch : Watch ι σ) (stop : Stop) (m : Machine ι σ)
    (ending : Ending ι (σ × Watch ι σ) α) : Prop :=
  match stop with
  | .outOfFuel => ∃ names, ending = .error .outOfFuel (m.watched (watch.within names))
  | .failed failure => ∃ names,
      ending = .error (.failed ⟨failure.error, none⟩)
        (m.watched ((watch.within names).raise failure.error m)) ∧
      failure.operator? = noted failure.error names.head?

/-- A watched run does what the run without a watch does; where that succeeds, nothing is seen. -/
def Follows (x : Run ι σ α) (y : Run ι (σ × Watch ι σ) α) : Prop :=
  ∀ (m : Machine ι σ) (watch : Watch ι σ),
    match x m with
    | .ok a m' => y (m.watched watch) = .ok a (m'.watched watch)
    | .error stop m' => Ends noted watch stop m' (y (m.watched watch))

/-- A step does the same on a watched machine; where it fails, it does so by raising an error. -/
def Alike (x : Run ι σ α) (y : Run ι (σ × Watch ι σ) α) : Prop :=
  ∀ (m : Machine ι σ) (watch : Watch ι σ),
    match x m with
    | .ok a m' => y (m.watched watch) = .ok a (m'.watched watch)
    | .error stop m' => (∃ error, stop = .failed ⟨error, none⟩) ∧
        y (m.watched watch) = .error stop (m'.watched watch)

/-! ### Steps -/

theorem alike_pure (a : α) : Alike (pure a : Run ι σ α) (pure a) := fun _ _ => rfl

theorem alike_fail (error : Error) : Alike (Run.fail error : Run ι σ α) (Run.fail error) :=
  fun _ _ => ⟨⟨error, rfl⟩, rfl⟩

theorem alike_ofExcept (outcome : Except Error α) :
    Alike (Run.ofExcept outcome : Run ι σ α) (Run.ofExcept outcome) := by
  cases outcome with
  | ok a => exact alike_pure a
  | error error => exact alike_fail error

theorem alike_oneOperand (op : Operator) (operands : List (Form ι)) :
    Alike (Evaluation.oneOperand op operands : Run ι σ _) (Evaluation.oneOperand op operands) := by
  match operands with
  | [a] => exact alike_pure a
  | [] => exact alike_fail _
  | _ :: _ :: _ => exact alike_fail _

theorem alike_twoOperands (op : Operator) (operands : List (Form ι)) :
    Alike (Evaluation.twoOperands op operands : Run ι σ _)
      (Evaluation.twoOperands op operands) := by
  match operands with
  | [a, b] => exact alike_pure (a, b)
  | [] => exact alike_fail _
  | [_] => exact alike_fail _
  | _ :: _ :: _ :: _ => exact alike_fail _

theorem alike_threeOperands (op : Operator) (operands : List (Form ι)) :
    Alike (Evaluation.threeOperands op operands : Run ι σ _)
      (Evaluation.threeOperands op operands) := by
  match operands with
  | [a, b, c] => exact alike_pure (a, b, c)
  | [] => exact alike_fail _
  | [_] => exact alike_fail _
  | [_, _] => exact alike_fail _
  | _ :: _ :: _ :: _ :: _ => exact alike_fail _

theorem alike_symbolOperand (op : Operator) (operand : Form ι) :
    Alike (Evaluation.symbolOperand op operand : Run ι σ _)
      (Evaluation.symbolOperand op operand) := by
  unfold Evaluation.symbolOperand
  cases operand.atomText? with
  | some name => exact alike_pure name
  | none => exact alike_fail _

theorem alike_hostName (op : Operator) (target : Form ι) :
    Alike (Evaluation.hostName op target : Run ι σ _) (Evaluation.hostName op target) := by
  cases target with
  | atom _ name => exact alike_pure name
  | string _ name => exact alike_pure name
  | list => exact alike_fail _

theorem alike_checkDepth (depth : Nat) :
    Alike (Evaluation.checkDepth depth : Run ι σ _) (Evaluation.checkDepth depth) := by
  intro m watch
  rw [Evaluation.checkDepth_eq, Evaluation.checkDepth_eq, Machine.maxDepth_watched]
  cases m.environment.maxDepth with
  | none => rfl
  | some limit =>
    by_cases h : limit ≤ depth
    · simp only [if_pos h]
      exact ⟨⟨_, rfl⟩, trivial⟩
    · simp only [if_neg h]

/-- A template that does not expand raises an error; the lists made until then have been reported. -/
theorem alike_expanding (x : Template.Expanding α) :
    Alike (Run.expanding x : Run ι σ α) (Run.expanding x) := by
  intro m watch
  have hnext : (m.watched watch).world.next = m.world.next := rfl
  simp only [Run.expanding, hnext]
  cases x ⟨m.world.next, #[]⟩ with
  | ok code trail => rfl
  | error fault trail => exact ⟨⟨_, rfl⟩, rfl⟩

/-- A host function that fails raises its error; what it has done to the host stays. -/
theorem alike_acting (f : HostFunction ι σ) (v : Value ι) :
    Alike (Run.acting (f v)) (Run.acting (f.watched v)) := by
  intro m watch
  have hworld : (m.watched watch).world.unwatched = m.world := rfl
  simp only [Run.acting, HostFunction.watched, hworld]
  cases f v m.world with
  | ok result world => rfl
  | error error world => exact ⟨⟨error, rfl⟩, rfl⟩

/-! ### Runs put together -/

section

variable {noted}

theorem follows_pure (a : α) : Follows noted (pure a : Run ι σ α) (pure a) := fun _ _ => rfl

theorem follows_emit (event : Event ι) :
    Follows noted (Run.emit event : Run ι σ Unit) (Run.emit event) := fun _ _ => rfl

theorem follows_bind {x : Run ι σ α} {y : Run ι (σ × Watch ι σ) α} {k : α → Run ι σ β}
    {k' : α → Run ι (σ × Watch ι σ) β} (hxy : Follows noted x y)
    (hk : ∀ a, Follows noted (k a) (k' a)) : Follows noted (x >>= k) (y >>= k') := by
  intro m watch
  have hm := hxy m watch
  simp only [bind, EStateM.bind]
  cases hx : x m with
  | ok a m' =>
    rw [hx] at hm
    rw [hm]
    exact hk a m' watch
  | error stop m' =>
    rw [hx] at hm
    cases stop with
    | outOfFuel =>
      obtain ⟨names, hy⟩ := hm
      exact ⟨names, by rw [hy]⟩
    | failed failure =>
      obtain ⟨names, hy, hnoted⟩ := hm
      exact ⟨names, by rw [hy], hnoted⟩

/-- A report that may be made before a run. -/
theorem follows_report {p : Prop} [Decidable p] (event : Event ι) {x : Run ι σ α}
    {y : Run ι (σ × Watch ι σ) α} (h : Follows noted x y) :
    Follows noted (if p then Run.emit event >>= fun _ => x else x)
      (if p then Run.emit event >>= fun _ => y else y) := by
  split
  · exact follows_bind (follows_emit event) fun _ => h
  · exact h

/-- What is done with a host function is done with the one that knows nothing of the watch. -/
theorem follows_host? (name : String) {k : Option (HostFunction ι σ) → Run ι σ α}
    {k' : Option (HostFunction ι (σ × Watch ι σ)) → Run ι (σ × Watch ι σ) α}
    (hk : ∀ f?, Follows noted (k f?) (k' (f?.map HostFunction.watched))) :
    Follows noted (Run.host? name >>= k) (Run.host? name >>= k') := by
  intro m watch
  have hhost : (Run.host? name >>= k') (m.watched watch) =
      k' ((m.environment.hosts.find? name).map HostFunction.watched) (m.watched watch) := by
    rw [← Machine.host?_watched m watch name]
    rfl
  rw [hhost]
  exact hk _ m watch

/-- Running out of fuel is followed by running out of fuel. -/
theorem follows_outOfFuel : Follows noted (throw .outOfFuel : Run ι σ α) (throw .outOfFuel) :=
  fun _ _ => ⟨[], rfl⟩

/-- Where nothing is noted, the run without a watch is the watched run without the watch. -/
theorem eq_unwatched {x : Run ι σ α} {y : Run ι (σ × Watch ι σ) α}
    (h : Follows (fun _ _ => none) x y) (m : Machine ι σ) (watch : Watch ι σ) :
    x m = Ending.unwatched (y (m.watched watch)) := by
  have hm := h m watch
  cases hx : x m with
  | ok a m' =>
    rw [hx] at hm
    simp [hm, Ending.unwatched]
  | error stop m' =>
    rw [hx] at hm
    cases stop with
    | outOfFuel =>
      obtain ⟨names, hy⟩ := hm
      simp [hy, Ending.unwatched]
    | failed failure =>
      obtain ⟨names, hy, hnoted⟩ := hm
      simp [hy, Ending.unwatched, ← hnoted]

variable {c : Convention ι} (hc : c.Notes noted)

include hc

/-- A step is followed by the same step, of which the error is recorded. -/
theorem follows_recording {x : Run ι σ α} {y : Run ι (σ × Watch ι σ) α} (h : Alike x y) :
    Follows noted x (Run.recording y) := by
  intro m watch
  have hm := h m watch
  cases hx : x m with
  | ok a m' =>
    rw [hx] at hm
    simp only [Run.recording, hm]
  | error stop m' =>
    rw [hx] at hm
    obtain ⟨⟨error, rfl⟩, hy⟩ := hm
    -- No application has been entered, so the error has no operator to name.
    refine ⟨[], ?_, (hc.none error).symm⟩
    simp only [Run.recording, hy, Machine.unwatched_watched, Machine.rewatch_watched,
      Watch.within_nil]

theorem follows_raise (error : Error) :
    Follows noted (Run.fail error : Run ι σ α) (Run.raise error) :=
  follows_recording hc (alike_fail error)

/-- An application that is entered and fails leaves a name on the watch: its own stays there, behind
those that were entered inside. -/
theorem ends_entering (name : String) {x : Run ι σ α} {y : Run ι (σ × Watch ι σ) α}
    (h : Follows noted x y) {m m' : Machine ι σ} {failure : Failure}
    (hx : Run.mapFailure (c.note name) x m = .error (.failed failure) m') (watch : Watch ι σ) :
    ∃ innermost names,
      Run.entering name y (m.watched watch) = .error (.failed ⟨failure.error, none⟩)
        (m'.watched ((watch.within (innermost :: names)).raise failure.error m')) ∧
      failure.operator? = noted failure.error (some innermost) := by
  have hm := h m (watch.within [name])
  simp only [Run.mapFailure] at hx
  cases hx' : x m with
  | ok a m'' =>
    rw [hx'] at hx
    cases hx
  | error stop m'' =>
    rw [hx'] at hx hm
    cases stop with
    | outOfFuel => cases hx
    | failed inner =>
      cases hx
      obtain ⟨names, hy, hnoted⟩ := hm
      obtain ⟨error, operator?⟩ := inner
      obtain rfl : operator? = noted error names.head? := hnoted
      obtain ⟨innermost, names', hnames⟩ : ∃ innermost names',
          names ++ [name] = innermost :: names' :=
        List.exists_cons_of_ne_nil (by simp)
      have hhead : names.head?.or (some name) = some innermost := by
        rw [← List.head?_cons (a := innermost) (l := names'), ← hnames, List.head?_append]
        rfl
      rw [hc.note, hhead]
      refine ⟨innermost, names', ?_, rfl⟩
      rw [← hnames, ← Watch.within_within]
      simp only [Run.entering, Machine.rewatch_watched, hy]

/-- An application that is entered is followed by one that notes its failures. -/
theorem follows_entering (name : String) {x : Run ι σ α} {y : Run ι (σ × Watch ι σ) α}
    (h : Follows noted x y) :
    Follows noted (Run.mapFailure (c.note name) x) (Run.entering name y) := by
  intro m watch
  have hm := h m (watch.within [name])
  cases hx : x m with
  | ok a m' =>
    rw [hx] at hm
    simp only [Run.mapFailure, hx, Run.entering, Machine.rewatch_watched, hm]
    rfl
  | error stop m' =>
    cases stop with
    | outOfFuel =>
      rw [hx] at hm
      obtain ⟨names, hy⟩ := hm
      simp only [Run.mapFailure, hx, Run.entering, Machine.rewatch_watched, hy]
      exact ⟨names ++ [name], by rw [Watch.within_within]⟩
    | failed failure =>
      have hnoted : Run.mapFailure (c.note name) x m =
          .error (.failed (c.note name failure)) m' := by
        simp only [Run.mapFailure, hx]
      obtain ⟨innermost, names, hends⟩ := ends_entering hc name h hnoted watch
      rw [hnoted]
      exact ⟨innermost :: names, hends⟩

end

/-! ### Evaluation and watched evaluation -/

/-- Evaluation of every form at a depth is followed by watched evaluation of it. -/
def FollowsAt (depth : Nat) (inner : Evaluator ι σ) (inner' : Evaluator ι (σ × Watch ι σ)) : Prop :=
  ∀ form, Follows noted (inner depth form) (inner' depth form)

section

variable {noted} {c : Convention ι} (hc : c.Notes noted) {depth : Nat} {inner : Evaluator ι σ}
variable {inner' : Evaluator ι (σ × Watch ι σ)}

include hc

theorem follows_takeOperands (op : Operator) (operands : List (Form ι)) :
    Follows noted (Evaluation.takeOperands op operands : Run ι σ _)
      (Watched.takeOperands op operands) := by
  exact follows_bind (follows_recording hc (alike_ofExcept _)) fun _ =>
    follows_report _ (follows_pure _)

theorem follows_applyDefinition (name : String) (d : Definition ι) (operands : List (Form ι)) :
    Follows noted (Evaluation.applyDefinition c name d operands : Run ι σ _)
      (Watched.applyDefinition c.withoutNotes name d operands) := by
  have hminting : Follows noted (Run.minting (c.apply d operands) : Run ι σ _)
      (Run.minting (c.apply d operands)) := fun _ _ => rfl
  have hrest := follows_report (p := d.arity < operands.length)
    (.surplusArguments name (operands.length - d.arity)) hminting
  unfold Evaluation.applyDefinition Watched.applyDefinition
  dsimp only
  split
  · exact follows_bind (follows_raise hc _) fun _ => hrest
  · exact hrest

theorem follows_defineBy (bind : Definition ι → Binding ι) (op : Operator)
    (operands : List (Form ι)) :
    Follows noted (Evaluation.defineBy c bind op operands : Run ι σ _)
      (Watched.defineBy c.withoutNotes bind op operands) := by
  refine follows_bind (follows_recording hc (alike_threeOperands op operands)) ?_
  rintro ⟨symbol, parameters, body⟩
  refine follows_bind (follows_recording hc (alike_symbolOperand op symbol)) fun name => ?_
  cases parameters.items? with
  | none => exact follows_raise hc _
  | some items =>
    refine follows_bind (follows_recording hc (alike_ofExcept _)) fun d => ?_
    exact follows_bind (fun _ _ => rfl) fun _ => follows_pure _

section

variable (h : FollowsAt noted (depth + 1) inner inner')

include h

theorem follows_call (name : String) (operands : List (Form ι)) :
    Follows noted (Evaluation.call c inner depth name operands)
      (Watched.call c.withoutNotes inner' depth name operands) := by
  refine follows_bind (fun _ _ => rfl) fun binding => ?_
  match binding with
  | none => exact follows_raise hc _
  | some (.value v) => exact follows_raise hc _
  | some (.functionDef d) =>
    refine follows_bind (follows_applyDefinition hc name d operands) fun body => ?_
    exact follows_bind (follows_emit _) fun _ => h body
  | some (.macroDef d) =>
    refine follows_bind (follows_applyDefinition hc name d operands) fun body => ?_
    refine follows_bind (follows_recording hc (alike_expanding _)) fun code => ?_
    exact follows_bind (follows_emit _) fun _ => h code

theorem follows_evalAtom (text : String) : Follows noted (Evaluation.evalAtom c inner depth text)
    (Watched.evalAtom c.withoutNotes inner' depth text) := by
  unfold Evaluation.evalAtom Watched.evalAtom
  cases Numeral.word? text with
  | some n => exact follows_pure _
  | none =>
    refine follows_bind (fun _ _ => rfl) fun binding => ?_
    match binding with
    | none => exact follows_raise hc _
    | some (.value v) => exact follows_pure v
    | some (.functionDef d) => exact follows_call hc h text []
    | some (.macroDef d) => exact follows_call hc h text []

end

section

variable (h : FollowsAt noted depth inner inner')

include h

/-- A host function is called once its argument has a value, and its error is raised. -/
theorem follows_callHost (op : Operator) (operands : List (Form ι)) :
    Follows noted (Evaluation.callHost inner depth op operands)
      (Watched.callHost inner' depth op operands) := by
  refine follows_bind (follows_recording hc (alike_twoOperands op operands)) ?_
  rintro ⟨target, argument⟩
  refine follows_bind (follows_recording hc (alike_hostName op target)) fun name => ?_
  refine follows_host? name fun f? => ?_
  cases f? with
  | none => exact follows_raise hc _
  | some f =>
    refine follows_bind (h argument) fun v => ?_
    refine follows_bind (follows_emit _) fun _ => ?_
    refine follows_bind (follows_recording hc (alike_acting f v)) fun result => ?_
    exact follows_bind (follows_emit _) fun _ => follows_pure result

omit hc in
theorem follows_mapM (forms : List (Form ι)) :
    Follows noted (forms.mapM (inner depth)) (forms.mapM (inner' depth)) := by
  induction forms with
  | nil => exact follows_pure []
  | cons form forms ih =>
    rw [List.mapM_cons, List.mapM_cons]
    exact follows_bind (h form) fun v => follows_bind ih fun vs => follows_pure (v :: vs)

omit hc in
theorem follows_foldlM (forms : List (Form ι)) (v : Value ι) :
    Follows noted (forms.foldlM (fun _ form => inner depth form) v)
      (forms.foldlM (fun _ form => inner' depth form) v) := by
  induction forms generalizing v with
  | nil => exact follows_pure v
  | cons form forms ih =>
    rw [List.foldlM_cons, List.foldlM_cons]
    exact follows_bind (h form) ih

/-- Two operands are evaluated, and what is done with their values is followed. -/
theorem follows_twoValues (op : Operator) (operands : List (Form ι))
    {k : Value ι → Value ι → Run ι σ (Value ι)}
    {k' : Value ι → Value ι → Run ι (σ × Watch ι σ) (Value ι)}
    (hk : ∀ u v, Follows noted (k u v) (k' u v)) :
    Follows noted
      (do
        let (a, b) ← Evaluation.twoOperands op operands
        let u ← inner depth a
        let v ← inner depth b
        k u v)
      (do
        let (a, b) ← Run.recording (Evaluation.twoOperands op operands)
        let u ← inner' depth a
        let v ← inner' depth b
        k' u v) := by
  refine follows_bind (follows_recording hc (alike_twoOperands op operands)) ?_
  rintro ⟨a, b⟩
  exact follows_bind (h a) fun u => follows_bind (h b) fun v => hk u v

theorem follows_operate (op : Operator) (operands : List (Form ι)) :
    Follows noted (Evaluation.operate c inner depth op operands)
      (Watched.operate c.withoutNotes inner' depth op operands) := by
  unfold Evaluation.operate Watched.operate
  cases op.form with
  | arithmetic sign =>
    exact follows_twoValues hc h op operands fun _ _ => follows_recording hc (alike_ofExcept _)
  | equality expected => exact follows_twoValues hc h op operands fun _ _ => follows_pure _
  | connective decisive =>
    refine follows_bind (follows_recording hc (alike_twoOperands op operands)) ?_
    rintro ⟨a, b⟩
    refine follows_bind (h a) fun u => ?_
    dsimp only
    split
    · exact follows_pure _
    · exact follows_bind (h b) fun v => follows_pure _
  | constant b => exact follows_pure _
  | conditional =>
    refine follows_bind (follows_recording hc (alike_threeOperands op operands)) ?_
    rintro ⟨condition, thenBranch, elseBranch⟩
    refine follows_bind (h condition) fun u => ?_
    split
    · exact h thenBranch
    · exact h elseBranch
  | quote =>
    exact follows_bind (follows_recording hc (alike_oneOperand op operands)) fun _ =>
      follows_pure _
  | list => exact follows_bind (follows_mapM h operands) fun vs =>
      follows_pure (Value.list vs)
  | evaluate =>
    refine follows_bind (follows_recording hc (alike_oneOperand op operands)) fun a => ?_
    refine follows_bind (h a) fun v => ?_
    cases v with
    | quote code => exact h code
    | _ => exact follows_pure _
  | concat =>
    exact follows_twoValues hc h op operands fun _ _ => follows_recording hc (alike_ofExcept _)
  | defineFunction => exact follows_defineBy hc .functionDef op operands
  | defineMacro => exact follows_defineBy hc .macroDef op operands
  | assign =>
    refine follows_bind (follows_recording hc (alike_twoOperands op operands)) ?_
    rintro ⟨symbol, operand⟩
    refine follows_bind (follows_recording hc (alike_symbolOperand op symbol)) fun name => ?_
    refine follows_bind (h operand) fun v => ?_
    exact follows_bind (fun _ _ => rfl) fun _ => follows_pure v
  | sequence => exact follows_foldlM h operands .nil
  | host => exact follows_callHost hc h op operands

end

section

variable (h : FollowsAt noted (depth + 1) inner inner')

include h

/-- What a name stands for, applied to operands, is followed by the same with watched evaluation
inside. -/
theorem follows_application (name : String) (operands : List (Form ι)) : Follows noted
    (match Operator.find? name with
    | some op => do
      Evaluation.operate c inner (depth + 1) op (← Evaluation.takeOperands op operands)
    | none => Evaluation.call c inner depth name operands)
    (Watched.application c.withoutNotes inner' depth name operands) := by
  unfold Watched.application
  cases Operator.find? name with
  | none => exact follows_call hc h name operands
  | some op =>
    exact follows_bind (follows_takeOperands hc op operands) fun operands' =>
      follows_operate hc h op operands'

/-- The application of a name is followed by its watched application. -/
theorem follows_applyNamed (name : String) (operands : List (Form ι)) : Follows noted
    (Evaluation.applyNamed c inner depth name operands)
    (Watched.applyNamed c.withoutNotes inner' depth name operands) :=
  follows_entering hc name (follows_application hc h name operands)

theorem follows_evalList (items : List (Form ι)) : Follows noted
    (Evaluation.evalList c inner depth items)
    (Watched.evalList c.withoutNotes inner' depth items) := by
  match items with
  | [] => exact follows_pure _
  | .atom _ name :: operands => exact follows_applyNamed hc h name operands
  | .string _ text :: _ => exact follows_raise hc _
  | .list label items :: operands =>
    refine follows_bind (h (.list label items)) fun v => ?_
    split
    · exact follows_pure v
    · exact follows_bind (follows_recording hc (alike_ofExcept _)) fun name =>
        follows_applyNamed hc h name operands

/-- One level of evaluation. -/
theorem follows_evalForm (form : Form ι) : Follows noted (Evaluation.evalForm c inner depth form)
    (Watched.evalForm c.withoutNotes inner' depth form) := by
  refine follows_bind (follows_recording hc (alike_checkDepth depth)) fun _ => ?_
  cases form with
  | atom _ text => exact follows_evalAtom hc h text
  | string _ text => exact follows_pure _
  | list _ items => exact follows_evalList hc h items

end

/-- **Evaluation is followed by watched evaluation.** -/
theorem followsAt_eval (fuel depth : Nat) : FollowsAt noted depth
    (Evaluation.eval c fuel : Evaluator ι σ) (Watched.eval c.withoutNotes fuel) := by
  induction fuel generalizing depth with
  | zero => exact fun _ => follows_outOfFuel
  | succ fuel ih => exact fun form => follows_evalForm hc (ih (depth + 1)) form

omit hc in
/-- A fault in a form comes from within the depth limit: reaching the limit is none. -/
theorem checkDepth_of_isFault {inner : Evaluator ι σ} {depth : Nat} {form : Form ι}
    {m m' : Machine ι σ} {failure : Failure}
    (h : Evaluation.evalForm c inner depth form m = .error (.failed failure) m')
    (hfault : failure.error.isFault = true) : Evaluation.checkDepth depth m = .ok () m := by
  have hlimit := Error.limit?_of_isFault hfault
  simp only [Evaluation.evalForm, bind, EStateM.bind, Evaluation.checkDepth_eq] at h ⊢
  cases hmax : m.environment.maxDepth with
  | none => rfl
  | some limit =>
    by_cases hle : limit ≤ depth
    · simp only [hmax, if_pos hle] at h
      cases h
      cases hlimit
    · simp only [if_neg hle]

/-- A fault in the application of a symbol to operands has come out of some application. -/
theorem ends_application {fuel depth : Nat} {label headLabel : ι} {name : String}
    {operands : List (Form ι)} {m m' : Machine ι σ} {failure : Failure}
    (heval : Evaluation.eval c fuel depth (.list label (.atom headLabel name :: operands)) m =
      .error (.failed failure) m') (hfault : failure.error.isFault = true) :
    ∃ innermost names,
      Watched.eval c.withoutNotes fuel depth (.list label (.atom headLabel name :: operands))
          (m.watched {}) =
        .error (.failed ⟨failure.error, none⟩) (m'.watched
          ⟨innermost :: names, [⟨failure.error, innermost :: names, m'⟩]⟩) ∧
      failure.operator? = noted failure.error (some innermost) := by
  cases fuel with
  | zero => cases heval
  | succ fuel =>
    have hcheck := checkDepth_of_isFault heval hfault
    have hcheck' : Run.recording (Evaluation.checkDepth depth) (m.watched {}) =
        .ok () (m.watched {}) := by
      have hfollows := follows_recording hc (alike_checkDepth depth) m {}
      rwa [hcheck] at hfollows
    have happly : Evaluation.applyNamed c (Evaluation.eval c fuel) depth name operands m =
        .error (.failed failure) m' := by
      simp only [Evaluation.eval, Evaluation.evalForm, bind, EStateM.bind, hcheck] at heval
      exact heval
    obtain ⟨innermost, names, hentering, hnoted⟩ := ends_entering hc name
      (follows_application hc (followsAt_eval hc fuel (depth + 1)) name operands) happly {}
    refine ⟨innermost, names, ?_, hnoted⟩
    simp only [Watched.eval, Watched.evalForm, bind, EStateM.bind, hcheck']
    refine hentering.trans ?_
    simp [Watch.within, Watch.raise]

end

end Propagation

/-! ### Errors -/

theorem Error.isFault_of_takesContext {error : Error} (h : error.takesContext = true) :
    error.isFault = true := by
  cases error with
  | typing => rfl
  | evaluation => rfl
  | _ => cases h

/-- What a failure says when the operator that it names is the innermost one of an error that takes
a note. -/
theorem Failure.message_of_noted {failure : Failure} {inside? : Option String}
    (h : failure.operator? = if failure.error.takesContext then inside? else none) :
    failure.message = failure.error.message ∨
      failure.error.isFault ∧ ∃ name, inside? = some name ∧
        failure.message = failure.error.message ++
          "\n  Context: while evaluating (" ++ name ++ " ...)" := by
  obtain ⟨error, operator?⟩ := failure
  cases operator? with
  | none => exact .inl (by simp [message])
  | some name =>
    have h := Option.ite_none_right_eq_some.1 h.symm
    exact .inr ⟨Error.isFault_of_takesContext h.1, name, h.2, message_some error name⟩

namespace Evaluation

/-- **Errors propagate.** Evaluation, evaluation without notes and watched evaluation succeed
together, with the same value on the same machine, and then no error has been raised. They fail by
the same error and on the same machine; a single error has been raised, by whatever place of the
form or host function, namely this one, and it was raised on this very machine, so that nothing has
happened after it. The failure names the innermost application in progress where the error was
raised if the error takes a note, and no other. -/
theorem errors_propagate (fuel depth : Nat) (form : Node) (m : Machine Nat σ) :
    let plain := eval Convention.byIdentity.withoutNotes fuel depth form m
    let watched := Watched.eval Convention.byIdentity.withoutNotes fuel depth form (m.watched {})
    match eval .byIdentity fuel depth form m with
    | .ok v m' => plain = .ok v m' ∧ watched = .ok v (m'.watched ⟨[], []⟩)
    | .error .outOfFuel m' => plain = .error .outOfFuel m' ∧
      ∃ names, watched = .error .outOfFuel (m'.watched ⟨names, []⟩)
    | .error (.failed failure) m' => plain = .error (.failed ⟨failure.error, none⟩) m' ∧
      ∃ names, watched = .error (.failed ⟨failure.error, none⟩)
          (m'.watched ⟨names, [⟨failure.error, names, m'⟩]⟩) ∧
        failure.operator? = (if failure.error.takesContext then names.head? else none) ∧
        (failure.message = failure.error.message ∨
          failure.error.isFault ∧ ∃ name, names.head? = some name ∧
            failure.message = failure.error.message ++
              "\n  Context: while evaluating (" ++ name ++ " ...)") := by
  intro plain watched
  have hplain : plain = Ending.unwatched watched :=
    Propagation.eq_unwatched
      (Propagation.followsAt_eval (Convention.notes_withoutNotes .byIdentity) fuel depth form) m {}
  have hreal := Propagation.followsAt_eval Convention.notes_byIdentity fuel depth form m {}
  cases heval : eval .byIdentity fuel depth form m with
  | ok v m' =>
    rw [heval] at hreal
    have hwatched : watched = _ := hreal
    exact ⟨by simp [hplain, hwatched, Ending.unwatched], hwatched⟩
  | error stop m' =>
    rw [heval] at hreal
    cases stop with
    | outOfFuel =>
      obtain ⟨names, hwatched : watched = _⟩ := hreal
      refine ⟨by simp [hplain, hwatched, Ending.unwatched], names, ?_⟩
      simpa [Watch.within] using hwatched
    | failed failure =>
      obtain ⟨names, hwatched : watched = _, hnoted⟩ := hreal
      refine ⟨by simp [hplain, hwatched, Ending.unwatched], names, ?_, hnoted,
        Failure.message_of_noted hnoted⟩
      simpa [Watch.within, Watch.raise] using hwatched

/-- The form `(+ 1 (and (concat 'x 2) 3))`. -/
def nestedFault : Node :=
  .list 0 [.atom 1 "+", .atom 2 "1", .list 3 [.atom 4 "and",
    .list 5 [.atom 6 "concat", .list 7 [.atom 8 "quote", .atom 9 "x"], .atom 10 "2"], .atom 11 "3"]]

/-- A host function that counts its calls and fails at the second one. -/
def once : HostFunction Nat Nat := fun _ world =>
  let world := { world with host := world.host + 1 }
  if world.host = 2 then .error (.host "used up") world else .ok .nil world

/-- The form `(list (php once 1) (and (php once 2) 3) (php once 4))`. -/
def threeCalls : Node :=
  .list 0 [.atom 1 "list", .list 2 [.atom 3 "php", .atom 4 "once", .atom 5 "1"],
    .list 6 [.atom 7 "and", .list 8 [.atom 9 "php", .atom 10 "once", .atom 11 "2"], .atom 12 "3"],
    .list 13 [.atom 14 "php", .atom 15 "once", .atom 16 "4"]]

/-- The machine on which `once` can be called and has not been. -/
def uncalled : Machine Nat Nat :=
  { Machine.initial 0 with environment := Environment.empty.register "once" once }

/-- The error of an operator passes through three applications and names the innermost. The error of
a host function passes through as many and names none; the third call is not made. -/
theorem errors_propagate_once :
    (∃ (failure : Failure) (m : Machine Nat Unit),
      eval .byIdentity 5 0 nestedFault (Machine.initial ()) = .error (.failed failure) m ∧
      failure.operator? = some "concat" ∧
      Watched.eval Convention.byIdentity.withoutNotes 5 0 nestedFault
          ((Machine.initial ()).watched {}) = .error (.failed ⟨failure.error, none⟩)
        (m.watched ⟨["concat", "and", "+"], [⟨failure.error, ["concat", "and", "+"], m⟩]⟩)) ∧
    ∃ m : Machine Nat Nat,
      eval .byIdentity 5 0 threeCalls uncalled = .error (.failed ⟨.host "used up", none⟩) m ∧
      m.world.host = 2 ∧
      Watched.eval Convention.byIdentity.withoutNotes 5 0 threeCalls (uncalled.watched {}) =
        .error (.failed ⟨.host "used up", none⟩)
          (m.watched ⟨["php", "and", "list"],
            [⟨.host "used up", ["php", "and", "list"], m⟩]⟩) := by
  constructor
  · have hoperator : (Ending.failure? (eval .byIdentity 5 0 nestedFault
        (Machine.initial ()))).map Failure.operator? = some (some "concat") := by
      decide +kernel
    have hnames : (Ending.machine (Watched.eval Convention.byIdentity.withoutNotes 5 0 nestedFault
        ((Machine.initial ()).watched {}))).world.host.2.inProgress = ["concat", "and", "+"] := by
      decide +kernel
    obtain ⟨failure, m, heval, hoperator⟩ := Ending.of_failure?_map hoperator
    have h := errors_propagate 5 0 nestedFault (Machine.initial ())
    rw [heval] at h
    obtain ⟨-, names, hwatched, -⟩ := h
    rw [hwatched] at hnames
    obtain rfl : names = ["concat", "and", "+"] := hnames
    exact ⟨failure, m, heval, hoperator, hwatched⟩
  · have hfailure : Ending.failure? (eval .byIdentity 5 0 threeCalls uncalled) =
        some ⟨.host "used up", none⟩ := by
      decide +kernel
    have hcalls : (Ending.machine (eval .byIdentity 5 0 threeCalls uncalled)).world.host = 2 := by
      decide +kernel
    have hnames : (Ending.machine (Watched.eval Convention.byIdentity.withoutNotes 5 0 threeCalls
        (uncalled.watched {}))).world.host.2.inProgress = ["php", "and", "list"] := by
      decide +kernel
    obtain ⟨m, heval⟩ := Ending.of_failure?_eq_some hfailure
    have h := errors_propagate 5 0 threeCalls uncalled
    rw [heval] at h hcalls
    obtain ⟨-, names, hwatched, -⟩ := h
    rw [hwatched] at hnames
    obtain rfl : names = ["php", "and", "list"] := hnames
    exact ⟨m, heval, hcalls, hwatched⟩

end Evaluation

end SubstLisp
