import SubstLisp.Proofs.Relabelling

/-!
# Simulations of evaluation

Two evaluations of one form, under two conventions or two limits, run side by side. What has to be
known to carry a fact from the start of both to their ends is the same for every such fact: it
must survive each thing that evaluation does, and nothing else. `Simulation` lists these things.

`Simulation.World` is what is known at a point of the two runs and `Follows w R x y` says that,
from what `w` knows, the run `y` does what `x` does and that their outcomes are related by `R`.
`Follows` is left open, so that a simulation may forgive the second run what it likes.

## What is proved

* `Simulation.evalForm` — evaluation of one form at a depth follows, if evaluation of forms at the
  next depth does. Every evaluation inside an evaluation is one level deeper.
* `Simulation.eval` — evaluation with the same fuel on both sides follows.
-/

namespace SubstLisp

variable {ι κ σ τ α β : Type}

/-- The limit that an error reports, for the error of the depth limit. -/
def Error.limit? : Error → Option Nat
  | depthLimit limit => some limit
  | _ => none

/-- How a run ends, and the machine it leaves. -/
abbrev Ending (ι σ α : Type) := EStateM.Result Stop (Machine ι σ) α

/-- The machine that is left. -/
def Ending.machine : Ending ι σ α → Machine ι σ
  | .ok _ m => m
  | .error _ m => m

/-- The outcome of a run that succeeds, and the machine it leaves. -/
def Ending.success? : Ending ι σ α → Option (α × Machine ι σ)
  | .ok a m => some (a, m)
  | .error _ _ => none

/-- The failure by which a run ends. -/
def Ending.failure? : Ending ι σ α → Option Failure
  | .error (.failed failure) _ => some failure
  | _ => none

/-- A run of which an outcome is seen has succeeded with it. -/
theorem Ending.of_success?_map {ending : Ending ι σ α} {g : α × Machine ι σ → β} {b : β}
    (h : ending.success?.map g = some b) : ∃ a m, ending = .ok a m ∧ g (a, m) = b := by
  obtain ⟨p, hp, hg⟩ := Option.map_eq_some_iff.1 h
  cases ending with
  | ok a m =>
    cases hp
    exact ⟨a, m, rfl, hg⟩
  | error stop m => cases hp

/-- A run that has a failure has ended by it. -/
theorem Ending.of_failure?_eq_some {ending : Ending ι σ α} {failure : Failure}
    (h : ending.failure? = some failure) : ∃ m, ending = .error (.failed failure) m := by
  unfold failure? at h
  split at h
  · cases h
    exact ⟨_, rfl⟩
  · cases h

/-- A run of which a failure is seen has ended by it. -/
theorem Ending.of_failure?_map {ending : Ending ι σ α} {g : Failure → β} {b : β}
    (h : ending.failure?.map g = some b) :
    ∃ failure m, ending = .error (.failed failure) m ∧ g failure = b := by
  obtain ⟨failure, hfailure, hg⟩ := Option.map_eq_some_iff.1 h
  obtain ⟨m, hends⟩ := of_failure?_eq_some hfailure
  exact ⟨failure, m, hends, hg⟩

/-- The definition that an event binds a name to. -/
def Event.definition? : Event ι → Option (Definition ι)
  | defined _ (.functionDef d) _ => some d
  | defined _ (.macroDef d) _ => some d
  | _ => none

/-- The answer of a host function that acts, reported under its name. -/
def Run.answering (name : String) (x : EStateM Error (World σ) (Value ι)) : Run ι σ (Value ι) := do
  let result ← Run.acting x
  Run.emit (.hostReturned name result)
  return result

/-- What the answer of a host function comes to on a machine. -/
theorem Run.answering_eq (name : String) (x : EStateM Error (World σ) (Value ι))
    (m : Machine ι σ) : Run.answering name x m =
      match x m.world with
      | .ok result world =>
        .ok result { m with world, events := m.events.push (.hostReturned name result) }
      | .error error world => .error (.failed ⟨error, none⟩) { m with world } := by
  simp only [Run.answering, Run.acting, bind, EStateM.bind]
  cases x m.world <;> rfl

/-- What the check of the depth comes to on a machine. -/
theorem Evaluation.checkDepth_eq (depth : Nat) (m : Machine ι σ) : Evaluation.checkDepth depth m =
    match m.environment.maxDepth with
    | some limit =>
      if limit ≤ depth then .error (.failed ⟨.depthLimit limit, none⟩) m else .ok () m
    | none => .ok () m := by
  show (match m.environment.maxDepth with | some limit => _ | none => _ : Run ι σ Unit) m = _
  cases m.environment.maxDepth with
  | none => rfl
  | some limit => by_cases h : limit ≤ depth <;> simp only [h, if_true, if_false] <;> rfl

/-- How a body is tied is the same when labels stay as they are. -/
theorem Convention.tie_map_id (c : Convention ι) (parameters : List (Form ι)) (body : Form ι) :
    c.tie (parameters.map (Form.map id)) (body.map id) = (c.tie parameters body).map id := by
  simp

/-! ### What checks report -/

/-- Whether an error is a fault of a value, a form or a computation. -/
def Error.isFault : Error → Bool
  | typing _ => true
  | evaluation _ => true
  | _ => false

theorem Error.limit?_of_isFault {error : Error} (h : error.isFault) : error.limit? = none := by
  cases error <;> first | rfl | cases h

theorem Arithmetic.isFault_of_apply {op : Arithmetic} {a b : Value ι} {error : Error}
    (h : op.apply a b = .error error) : error.isFault := by
  have hoperand : ∀ {v : Value ι} {error : Error}, op.operand v = .error error → error.isFault := by
    intro v error hv
    unfold Arithmetic.operand at hv
    split at hv <;> cases hv
    rfl
  simp only [Arithmetic.apply, bind, Except.bind] at h
  split at h
  · next ha => cases h; exact hoperand ha
  · split at h
    · next hb => cases h; exact hoperand hb
    · split at h <;> cases h
      rfl

theorem Value.isFault_of_concat {a b : Value ι} {error : Error} (h : a.concat b = .error error) :
    error.isFault := by
  have htext : ∀ {v : Value ι} {error : Error}, v.plainText = .error error → error.isFault := by
    intro v error hv
    cases v <;> cases hv <;> rfl
  simp only [Value.concat, bind, Except.bind] at h
  split at h
  · next ha => cases h; exact htext ha
  · split at h <;> cases h
    next hb => exact htext hb

theorem Evaluation.isFault_of_operatorName {v : Value ι} {error : Error}
    (h : Evaluation.operatorName v = .error error) : error.isFault := by
  unfold Evaluation.operatorName at h
  split at h <;> cases h
  rfl

theorem Definition.isFault_of_checkParameters {name : String} {seen : List String}
    {parameters : List (Form ι)} {error : Error}
    (h : checkParameters name seen parameters = .error error) : error.isFault := by
  induction parameters generalizing seen with
  | nil => cases h
  | cons p ps ih =>
    simp only [checkParameters] at h
    split at h
    · cases h
      rfl
    · split at h
      · cases h
        rfl
      · exact ih h

/-! ### Simulations -/

/-- A correspondence between runs under two conventions that evaluation preserves. -/
structure Simulation (c : Convention ι) (c' : Convention κ) (σ τ : Type) where
  /-- How the labels of the first run are seen in the second. -/
  relabel : ι → κ
  /-- What is known of the two runs at a point. -/
  World : Type
  /-- What may be known from there on. -/
  Later : World → World → Prop
  later_refl : ∀ w, Later w w
  later_trans : ∀ {u v w}, Later u v → Later v w → Later u w
  /-- Which forms turn up in the first run. -/
  Admits : World → Form ι → Prop
  admits_later : ∀ {w w' f}, Later w w' → Admits w f → Admits w' f
  admits_items : ∀ {w label items f}, Admits w (.list label items) → f ∈ items → Admits w f
  /-- Which definitions turn up in the first run. -/
  AdmitsDefinition : World → Definition ι → Prop
  admitsDefinition_later : ∀ {w w' d}, Later w w' → AdmitsDefinition w d → AdmitsDefinition w' d
  /-- Which host functions of the two runs go together. -/
  AdmitsHost : World → HostFunction ι σ → HostFunction κ τ → Prop
  admitsHost_later : ∀ {w w' f f'}, Later w w' → AdmitsHost w f f' → AdmitsHost w' f f'
  /-- The second run does what the first does, with related outcomes. -/
  Follows : {α β : Type} → World → (World → α → β → Prop) → Run ι σ α → Run κ τ β → Prop
  pure : ∀ {α β : Type} {w} {R : World → α → β → Prop} {a b}, R w a b →
    Follows w R (Pure.pure a) (Pure.pure b)
  bind : ∀ {α β γ δ : Type} {w} {R : World → α → β → Prop} {S : World → γ → δ → Prop}
    {x : Run ι σ α} {y : Run κ τ β} {k : α → Run ι σ γ} {k' : β → Run κ τ δ}, Follows w R x y →
    (∀ w', Later w w' → ∀ a b, R w' a b → Follows w' S (k a) (k' b)) →
    Follows w S (x >>= k) (y >>= k')
  fail : ∀ {α β : Type} {w} {R : World → α → β → Prop} {error : Error}, error.limit? = none →
    Follows w R (Run.fail error) (Run.fail error)
  note : ∀ {α β : Type} {w} {R : World → α → β → Prop} {x : Run ι σ α} {y : Run κ τ β}
    (name : String), Follows w R x y →
    Follows w R (Run.mapFailure (c.note name) x) (Run.mapFailure (c'.note name) y)
  checkDepth : ∀ w depth,
    Follows w (fun _ _ _ => True) (Evaluation.checkDepth depth) (Evaluation.checkDepth depth)
  find? : ∀ w name, Follows w (fun w b b' => b' = b.map (Binding.map relabel) ∧
      (∀ d, b = some (.functionDef d) ∨ b = some (.macroDef d) → AdmitsDefinition w d) ∧
      ∀ v, b = some (.value v) → ∀ f ∈ v.quotations, Admits w f)
    (Run.find? name) (Run.find? name)
  host? : ∀ w name, Follows w (fun w f f' => Option.Rel (AdmitsHost w) f f')
    (Run.host? name) (Run.host? name)
  emit : ∀ w event, event.definition? = none →
    Follows w (fun _ _ _ => True) (Run.emit event) (Run.emit (event.map relabel))
  define : ∀ {w label name b}, Admits w (.atom label name) →
    (∀ d, b = .functionDef d ∨ b = .macroDef d → AdmitsDefinition w d) →
    (∀ v, b = .value v → ∀ f ∈ v.quotations, Admits w f) →
    Follows w (fun _ _ _ => True) (Run.define name b) (Run.define name (b.map relabel))
  admitsDefinition : ∀ {w name parameters body}, (∀ f ∈ parameters, Admits w f) →
    Admits w body → Definition.checkParameters name [] parameters = .ok () →
    AdmitsDefinition w ⟨name, parameters, c.tie parameters body⟩
  tie_map : ∀ parameters body, c'.tie (parameters.map (Form.map relabel)) (body.map relabel) =
    (c.tie parameters body).map relabel
  apply : ∀ {w d operands}, AdmitsDefinition w d → (∀ f ∈ operands, Admits w f) →
    Follows w (fun w f f' => f' = f.map relabel ∧ Admits w f) (Run.minting (c.apply d operands))
      (Run.minting (c'.apply (d.map relabel) (operands.map (Form.map relabel))))
  expand : ∀ {w f}, Admits w f →
    Follows w (fun w f f' => f' = f.map relabel ∧ Admits w f)
      (Run.expanding (Template.expand c.label f))
      (Run.expanding (Template.expand c'.label (f.map relabel)))
  answer : ∀ {w f f' v} (name : String), AdmitsHost w f f' →
    (∀ form ∈ v.quotations, Admits w form) →
    Follows w (fun w v v' => v' = v.map relabel ∧ ∀ form ∈ v.quotations, Admits w form)
      (Run.answering name (f v)) (Run.answering name (f' (v.map relabel)))

namespace Simulation

variable {c : Convention ι} {c' : Convention κ} (s : Simulation c c' σ τ)

/-- Two forms go together: the second is the first one, seen in the second run. -/
def Forms (w : s.World) (f : Form ι) (f' : Form κ) : Prop := f' = f.map s.relabel ∧ s.Admits w f

/-- Two values go together. -/
def Values (w : s.World) (v : Value ι) (v' : Value κ) : Prop :=
  v' = v.map s.relabel ∧ ∀ f ∈ v.quotations, s.Admits w f

/-- Two ways to evaluate forms go together at a depth. -/
def FollowsAt (depth : Nat) (inner : Evaluator ι σ) (inner' : Evaluator κ τ) : Prop :=
  ∀ w f, s.Admits w f → s.Follows w s.Values (inner depth f) (inner' depth (f.map s.relabel))

variable {s} {w w' : s.World}

theorem Values.later {v : Value ι} {v' : Value κ} (hw : s.Later w w') (h : s.Values w v v') :
    s.Values w' v v' :=
  ⟨h.1, fun f hf => s.admits_later hw (h.2 f hf)⟩

/-- A value that quotes nothing goes together with itself, seen in the second run. -/
theorem values_of_quotations_eq_nil {v : Value ι} (h : v.quotations = []) :
    s.Values w v (v.map s.relabel) :=
  ⟨rfl, by simp [h]⟩

theorem values_quote {f : Form ι} (h : s.Admits w f) :
    s.Values w (.quote f) (.quote (f.map s.relabel)) :=
  ⟨rfl, by simpa using h⟩

/-! ### Outcomes of checks -/

theorem ofExcept {α β : Type} {R : s.World → α → β → Prop} {e : Except Error α}
    {e' : Except Error β} (herror : ∀ error, e = .error error → e' = .error error ∧ error.limit? = none)
    (hok : ∀ a, e = .ok a → ∃ b, e' = .ok b ∧ R w a b) :
    s.Follows w R (Run.ofExcept e) (Run.ofExcept e') := by
  cases e with
  | error error =>
    obtain ⟨he, hlimit⟩ := herror error rfl
    rw [he]
    exact s.fail hlimit
  | ok a =>
    obtain ⟨b, hb, hR⟩ := hok a rfl
    rw [hb]
    exact s.pure hR

/-- A check that ends in the same way on both sides. -/
theorem ofExcept_same {α : Type} {e : Except Error α}
    (h : ∀ error, e = .error error → error.limit? = none) :
    s.Follows w (fun _ a b => a = b ∧ e = .ok a) (Run.ofExcept e) (Run.ofExcept e) :=
  ofExcept (fun error he => ⟨he, h error he⟩) fun a ha => ⟨a, ha, rfl, ha⟩

/-- A computation on values of the two sides; its outcome quotes nothing. -/
theorem ofExcept_map {e : Except Error (Value ι)} {e' : Except Error (Value κ)}
    (he : e' = e.map (Value.map s.relabel)) (hfault : ∀ error, e = .error error → error.isFault)
    (hv : ∀ v, e = .ok v → v.quotations = []) :
    s.Follows w s.Values (Run.ofExcept e) (Run.ofExcept e') := by
  subst he
  refine ofExcept (fun error h => ⟨by rw [h]; rfl, Error.limit?_of_isFault (hfault error h)⟩) ?_
  intro v h
  exact ⟨v.map s.relabel, by rw [h]; rfl, values_of_quotations_eq_nil (hv v h)⟩

/-! ### Operands -/

theorem takeOperands (op : Operator) {operands : List (Form ι)}
    (h : ∀ f ∈ operands, s.Admits w f) :
    s.Follows w (fun w fs fs' => fs' = fs.map (Form.map s.relabel) ∧ ∀ f ∈ fs, s.Admits w f)
      (Evaluation.takeOperands op operands)
      (Evaluation.takeOperands op (operands.map (Form.map s.relabel))) := by
  unfold Evaluation.takeOperands
  rw [List.length_map]
  refine s.bind (ofExcept_same ?_) ?_
  · intro error he
    unfold Operator.checkArity at he
    split at he <;> cases he
    rfl
  · intro w' hw _ _ _
    have hselect : ∀ f ∈ op.select operands, s.Admits w' f := fun f hf =>
      s.admits_later hw (h f (Operator.mem_of_mem_select hf))
    simp only [Operator.select_map]
    split
    · exact s.bind (s.emit w' (.surplusOperands op.name _) rfl) fun w'' hw' _ _ _ =>
        s.pure ⟨rfl, fun f hf => s.admits_later hw' (hselect f hf)⟩
    · exact s.pure ⟨rfl, hselect⟩

theorem oneOperand (op : Operator) {operands : List (Form ι)}
    (h : ∀ f ∈ operands, s.Admits w f) :
    s.Follows w s.Forms (Evaluation.oneOperand op operands)
      (Evaluation.oneOperand op (operands.map (Form.map s.relabel))) := by
  match operands with
  | [a] => exact s.pure ⟨rfl, h a (by simp)⟩
  | [] => exact s.fail rfl
  | _ :: _ :: _ => exact s.fail rfl

theorem twoOperands (op : Operator) {operands : List (Form ι)}
    (h : ∀ f ∈ operands, s.Admits w f) :
    s.Follows w (fun w p p' => s.Forms w p.1 p'.1 ∧ s.Forms w p.2 p'.2)
      (Evaluation.twoOperands op operands)
      (Evaluation.twoOperands op (operands.map (Form.map s.relabel))) := by
  match operands with
  | [a, b] => exact s.pure ⟨⟨rfl, h a (by simp)⟩, ⟨rfl, h b (by simp)⟩⟩
  | [] => exact s.fail rfl
  | [_] => exact s.fail rfl
  | _ :: _ :: _ :: _ => exact s.fail rfl

theorem threeOperands (op : Operator) {operands : List (Form ι)}
    (h : ∀ f ∈ operands, s.Admits w f) :
    s.Follows w (fun w p p' => s.Forms w p.1 p'.1 ∧ s.Forms w p.2.1 p'.2.1 ∧ s.Forms w p.2.2 p'.2.2)
      (Evaluation.threeOperands op operands)
      (Evaluation.threeOperands op (operands.map (Form.map s.relabel))) := by
  match operands with
  | [a, b, c] => exact s.pure ⟨⟨rfl, h a (by simp)⟩, ⟨rfl, h b (by simp)⟩, ⟨rfl, h c (by simp)⟩⟩
  | [] => exact s.fail rfl
  | [_] => exact s.fail rfl
  | [_, _] => exact s.fail rfl
  | _ :: _ :: _ :: _ :: _ => exact s.fail rfl

/-- The symbol that an operand is, is an atom of the first run. -/
theorem symbolOperand (op : Operator) {f : Form ι} (h : s.Admits w f) :
    s.Follows w (fun w name name' => name' = name ∧ ∃ label, s.Admits w (.atom label name))
      (Evaluation.symbolOperand op f) (Evaluation.symbolOperand op (f.map s.relabel)) := by
  unfold Evaluation.symbolOperand
  cases f with
  | atom label name => exact s.pure ⟨rfl, label, h⟩
  | string label text => exact s.fail rfl
  | list label items =>
    rw [Form.atomText?_map, Form.erase_map]
    exact s.fail rfl

/-! ### Calls -/

section

variable {depth : Nat} {inner : Evaluator ι σ} {inner' : Evaluator κ τ}

theorem applyDefinition (name : String) {d : Definition ι} {operands : List (Form ι)}
    (hd : s.AdmitsDefinition w d) (h : ∀ f ∈ operands, s.Admits w f) :
    s.Follows w s.Forms (Evaluation.applyDefinition c name d operands)
      (Evaluation.applyDefinition c' name (d.map s.relabel) (operands.map (Form.map s.relabel))) := by
  unfold Evaluation.applyDefinition
  simp only [Definition.arity_map, List.length_map]
  split
  · exact s.bind (R := fun _ _ _ => False) (s.fail rfl) fun _ _ _ _ h => h.elim
  · split
    · refine s.bind (s.emit w (.surplusArguments name _) rfl) ?_
      intro w' hw _ _ _
      exact s.apply (s.admitsDefinition_later hw hd) fun f hf => s.admits_later hw (h f hf)
    · exact s.apply hd h

variable (hinner : s.FollowsAt (depth + 1) inner inner')

include hinner

theorem call (name : String) {operands : List (Form ι)} (h : ∀ f ∈ operands, s.Admits w f) :
    s.Follows w s.Values (Evaluation.call c inner depth name operands)
      (Evaluation.call c' inner' depth name (operands.map (Form.map s.relabel))) := by
  unfold Evaluation.call
  refine s.bind (s.find? w name) ?_
  rintro w₁ h₁ b _ ⟨rfl, hdefinition, -⟩
  have hoperands : ∀ f ∈ operands, s.Admits w₁ f := fun f hf => s.admits_later h₁ (h f hf)
  cases b with
  | none => exact s.fail rfl
  | some b =>
    cases b with
    | value v =>
      simp only [Option.map_some, Binding.map, Value.kind_map]
      exact s.fail rfl
    | functionDef d =>
      refine s.bind (applyDefinition name (hdefinition d (.inl rfl)) hoperands) ?_
      rintro w₂ - body _ ⟨rfl, hadmits⟩
      refine s.bind (s.emit w₂ (.called name body) rfl) ?_
      intro w₃ h₃ _ _ _
      exact hinner w₃ body (s.admits_later h₃ hadmits)
    | macroDef d =>
      refine s.bind (applyDefinition name (hdefinition d (.inr rfl)) hoperands) ?_
      rintro w₂ - body _ ⟨rfl, hadmits⟩
      refine s.bind (s.expand hadmits) ?_
      rintro w₃ - code _ ⟨rfl, hadmits'⟩
      refine s.bind (s.emit w₃ (.macroExpanded name code) rfl) ?_
      intro w₄ h₄ _ _ _
      exact hinner w₄ code (s.admits_later h₄ hadmits')

theorem evalAtom (text : String) :
    s.Follows w s.Values (Evaluation.evalAtom c inner depth text)
      (Evaluation.evalAtom c' inner' depth text) := by
  have hnone : ∀ w, ∀ f ∈ ([] : List (Form ι)), s.Admits w f := by simp
  unfold Evaluation.evalAtom
  split
  · exact s.pure (values_of_quotations_eq_nil rfl)
  · refine s.bind (s.find? w text) ?_
    rintro w₁ - b _ ⟨rfl, -, hvalue⟩
    cases b with
    | none => exact s.fail rfl
    | some b =>
      cases b with
      | value v => exact s.pure ⟨rfl, hvalue v rfl⟩
      | functionDef d => exact call hinner text (hnone w₁)
      | macroDef d => exact call hinner text (hnone w₁)

omit hinner

theorem make (name : String) {parameters : List (Form ι)} {body : Form ι}
    (hparameters : ∀ f ∈ parameters, s.Admits w f) (hbody : s.Admits w body) :
    s.Follows w (fun w d d' => d' = d.map s.relabel ∧ s.AdmitsDefinition w d)
      (Run.ofExcept (Definition.make c.tie name parameters body))
      (Run.ofExcept (Definition.make c'.tie name (parameters.map (Form.map s.relabel))
        (body.map s.relabel))) := by
  unfold Definition.make
  rw [Definition.checkParameters_map, s.tie_map]
  cases hcheck : Definition.checkParameters name [] parameters with
  | error error => exact s.fail (Error.limit?_of_isFault (Definition.isFault_of_checkParameters hcheck))
  | ok _ => exact s.pure ⟨rfl, s.admitsDefinition hparameters hbody hcheck⟩

theorem defineBy {bind : Definition ι → Binding ι} {bind' : Definition κ → Binding κ}
    (hbind : ∀ d, bind' (d.map s.relabel) = (bind d).map s.relabel)
    (hdefinition : ∀ d, bind d = .functionDef d ∨ bind d = .macroDef d) (op : Operator)
    {operands : List (Form ι)} (h : ∀ f ∈ operands, s.Admits w f) :
    s.Follows w s.Values (Evaluation.defineBy c bind op operands)
      (Evaluation.defineBy c' bind' op (operands.map (Form.map s.relabel))) := by
  unfold Evaluation.defineBy
  refine s.bind (threeOperands op h) ?_
  rintro w₁ - ⟨symbol, parameters, body⟩ ⟨_, _, _⟩ ⟨⟨rfl, hsymbol⟩, ⟨rfl, hparameters⟩, rfl, hbody⟩
  refine s.bind (symbolOperand op hsymbol) ?_
  rintro w₂ h₂ name _ ⟨rfl, label, hname⟩
  cases parameters with
  | atom => exact s.fail rfl
  | string => exact s.fail rfl
  | list label' items =>
    have hitems : ∀ f ∈ items, s.Admits w₂ f := fun f hf =>
      s.admits_items (s.admits_later h₂ hparameters) hf
    simp only [Form.map_list, Form.items?]
    refine s.bind (make _ hitems (s.admits_later h₂ hbody)) ?_
    rintro w₃ h₃ d _ ⟨rfl, hd⟩
    rw [hbind]
    refine s.bind (s.define (s.admits_later h₃ hname) ?_ ?_) ?_
    · rintro d' hd'
      rcases hdefinition d with hb | hb <;> rcases hd' with hd' | hd' <;> rw [hb] at hd' <;>
        cases hd' <;> exact hd
    · rintro v hv
      rcases hdefinition d with hb | hb <;> rw [hb] at hv <;> cases hv
    · intro _ _ _ _ _
      exact s.pure (values_of_quotations_eq_nil rfl)

theorem hostName (op : Operator) (f : Form ι) :
    s.Follows w (fun _ a b => a = b) (Evaluation.hostName op f)
      (Evaluation.hostName op (f.map s.relabel)) := by
  cases f with
  | atom => exact s.pure rfl
  | string => exact s.pure rfl
  | list label items =>
    show s.Follows w _ (Run.fail (.typing (.expectsHostName op.name (Form.list label items).erase)))
      (Run.fail (.typing (.expectsHostName op.name ((Form.list label items).map s.relabel).erase)))
    rw [Form.erase_map]
    exact s.fail rfl

end

/-! ### Operators -/

section

variable {depth : Nat} {inner : Evaluator ι σ} {inner' : Evaluator κ τ}
variable (hinner : s.FollowsAt depth inner inner')

include hinner

theorem callHost (op : Operator) {operands : List (Form ι)} (h : ∀ f ∈ operands, s.Admits w f) :
    s.Follows w s.Values (Evaluation.callHost inner depth op operands)
      (Evaluation.callHost inner' depth op (operands.map (Form.map s.relabel))) := by
  unfold Evaluation.callHost
  refine s.bind (twoOperands op h) ?_
  rintro w₁ - ⟨target, argument⟩ ⟨_, _⟩ ⟨⟨rfl, -⟩, rfl, hargument⟩
  refine s.bind (hostName op target) ?_
  rintro w₂ h₂ name _ rfl
  refine s.bind (s.host? w₂ name) ?_
  rintro w₃ h₃ _ _ (hf | _)
  · refine s.bind (hinner w₃ argument (s.admits_later (s.later_trans h₂ h₃) hargument)) ?_
    rintro w₄ h₄ v _ ⟨rfl, hv⟩
    refine s.bind (s.emit w₄ (.hostCalled name v) rfl) ?_
    intro w₅ h₅ _ _ _
    exact s.answer name (s.admitsHost_later (s.later_trans h₄ h₅) hf)
      fun form hform => s.admits_later h₅ (hv form hform)
  · exact s.fail rfl

theorem mapM {forms : List (Form ι)} (h : ∀ f ∈ forms, s.Admits w f) :
    s.Follows w (fun w vs vs' => vs' = vs.map (Value.map s.relabel) ∧
        ∀ v ∈ vs, ∀ f ∈ v.quotations, s.Admits w f)
      (forms.mapM (inner depth)) ((forms.map (Form.map s.relabel)).mapM (inner' depth)) := by
  induction forms generalizing w with
  | nil => exact s.pure ⟨rfl, by simp⟩
  | cons f fs ih =>
    rw [List.map_cons, List.mapM_cons, List.mapM_cons]
    refine s.bind (hinner w f (h f List.mem_cons_self)) ?_
    rintro w₁ h₁ v _ ⟨rfl, hv⟩
    refine s.bind (ih fun f hf => s.admits_later h₁ (h f (List.mem_cons_of_mem _ hf))) ?_
    rintro w₂ h₂ vs _ ⟨rfl, hvs⟩
    refine s.pure ⟨rfl, ?_⟩
    intro u hu f hf
    rcases List.mem_cons.1 hu with rfl | hu
    · exact s.admits_later h₂ (hv f hf)
    · exact hvs u hu f hf

theorem foldlM {forms : List (Form ι)} (h : ∀ f ∈ forms, s.Admits w f) {v : Value ι}
    {v' : Value κ} (hv : s.Values w v v') :
    s.Follows w s.Values (forms.foldlM (fun _ f => inner depth f) v)
      ((forms.map (Form.map s.relabel)).foldlM (fun _ f => inner' depth f) v') := by
  induction forms generalizing w v v' with
  | nil => exact s.pure hv
  | cons f fs ih =>
    rw [List.map_cons, List.foldlM_cons, List.foldlM_cons]
    refine s.bind (hinner w f (h f List.mem_cons_self)) ?_
    intro w₁ h₁ u u' hu
    exact ih (fun f hf => s.admits_later h₁ (h f (List.mem_cons_of_mem _ hf))) hu

/-- Two operands are evaluated, and what is done with their values is done on both sides. -/
theorem twoValues (op : Operator) {operands : List (Form ι)} (h : ∀ f ∈ operands, s.Admits w f)
    {k : Value ι → Value ι → Run ι σ (Value ι)} {k' : Value κ → Value κ → Run κ τ (Value κ)}
    (hk : ∀ w u v, s.Follows w s.Values (k u v) (k' (u.map s.relabel) (v.map s.relabel))) :
    s.Follows w s.Values
      (do
        let (a, b) ← Evaluation.twoOperands op operands
        let u ← inner depth a
        let v ← inner depth b
        k u v)
      (do
        let (a, b) ← Evaluation.twoOperands op (operands.map (Form.map s.relabel))
        let u ← inner' depth a
        let v ← inner' depth b
        k' u v) := by
  refine s.bind (twoOperands op h) ?_
  rintro w₁ - ⟨a, b⟩ ⟨_, _⟩ ⟨⟨rfl, ha⟩, rfl, hb⟩
  refine s.bind (hinner w₁ a ha) ?_
  rintro w₂ h₂ u _ ⟨rfl, -⟩
  refine s.bind (hinner w₂ b (s.admits_later h₂ hb)) ?_
  rintro w₃ - v _ ⟨rfl, -⟩
  exact hk w₃ u v

/-- What an operator does with its operands, it does on both sides. -/
theorem operate (op : Operator) {operands : List (Form ι)} (h : ∀ f ∈ operands, s.Admits w f) :
    s.Follows w s.Values (Evaluation.operate c inner depth op operands)
      (Evaluation.operate c' inner' depth op (operands.map (Form.map s.relabel))) := by
  unfold Evaluation.operate
  cases op.form with
  | arithmetic sign =>
    refine twoValues hinner op h ?_
    intro w u v
    exact ofExcept_map (Arithmetic.apply_map _ sign u v) (fun _ => Arithmetic.isFault_of_apply)
      fun _ => Arithmetic.quotations_apply
  | equality expected =>
    refine twoValues hinner op h ?_
    intro w u v
    rw [Value.same_map]
    exact s.pure (values_of_quotations_eq_nil rfl)
  | connective decisive =>
    refine s.bind (twoOperands op h) ?_
    rintro w₁ - ⟨a, b⟩ ⟨_, _⟩ ⟨⟨rfl, ha⟩, rfl, hb⟩
    refine s.bind (hinner w₁ a ha) ?_
    rintro w₂ h₂ u _ ⟨rfl, -⟩
    simp only [Value.truthy_map]
    split
    · exact s.pure (values_of_quotations_eq_nil rfl)
    · refine s.bind (hinner w₂ b (s.admits_later h₂ hb)) ?_
      rintro w₃ - v _ ⟨rfl, -⟩
      rw [Value.truthy_map]
      exact s.pure (values_of_quotations_eq_nil rfl)
  | constant b => exact s.pure (values_of_quotations_eq_nil rfl)
  | conditional =>
    refine s.bind (threeOperands op h) ?_
    rintro w₁ - ⟨a, b, d⟩ ⟨_, _, _⟩ ⟨⟨rfl, ha⟩, ⟨rfl, hb⟩, rfl, hd⟩
    refine s.bind (hinner w₁ a ha) ?_
    rintro w₂ h₂ u _ ⟨rfl, -⟩
    simp only [Value.truthy_map]
    split
    · exact hinner w₂ b (s.admits_later h₂ hb)
    · exact hinner w₂ d (s.admits_later h₂ hd)
  | quote =>
    refine s.bind (oneOperand op h) ?_
    rintro w₁ - a _ ⟨rfl, ha⟩
    exact s.pure (values_quote ha)
  | list =>
    refine s.bind (mapM hinner h) ?_
    rintro w₁ - vs _ ⟨rfl, hvs⟩
    refine s.pure ⟨(Value.map_list _ vs).symm, ?_⟩
    intro f hf
    rw [Value.quotations_list, List.mem_flatMap] at hf
    obtain ⟨v, hv, hf⟩ := hf
    exact hvs v hv f hf
  | evaluate =>
    refine s.bind (oneOperand op h) ?_
    rintro w₁ - a _ ⟨rfl, ha⟩
    refine s.bind (hinner w₁ a ha) ?_
    rintro w₂ - v _ ⟨rfl, hv⟩
    cases v with
    | quote code => exact hinner w₂ code (hv code (by simp))
    | list items =>
      simp only [Value.map_list]
      exact s.pure ⟨(Value.map_list _ items).symm, hv⟩
    | _ => exact s.pure ⟨rfl, hv⟩
  | concat =>
    refine twoValues hinner op h ?_
    intro w u v
    exact ofExcept_map (Value.concat_map _ u v) (fun _ => Value.isFault_of_concat)
      fun _ => Value.quotations_concat
  | defineFunction => exact defineBy (fun _ => rfl) (fun _ => .inl rfl) op h
  | defineMacro => exact defineBy (fun _ => rfl) (fun _ => .inr rfl) op h
  | assign =>
    refine s.bind (twoOperands op h) ?_
    rintro w₁ - ⟨symbol, a⟩ ⟨_, _⟩ ⟨⟨rfl, hsymbol⟩, rfl, ha⟩
    refine s.bind (symbolOperand op hsymbol) ?_
    rintro w₂ h₂ name _ ⟨rfl, label, hname⟩
    refine s.bind (hinner w₂ a (s.admits_later h₂ ha)) ?_
    rintro w₃ h₃ v _ ⟨rfl, hv⟩
    refine s.bind (s.define (b := .value v) (s.admits_later h₃ hname) ?_ ?_) ?_
    · rintro d (hd | hd) <;> cases hd
    · rintro _ hv'
      cases hv'
      exact hv
    · intro w₄ h₄ _ _ _
      exact s.pure (Values.later h₄ ⟨rfl, hv⟩)
  | sequence => exact foldlM hinner h (values_of_quotations_eq_nil rfl)
  | host => exact callHost hinner op h

end

/-! ### Applications -/

section

variable {depth : Nat} {inner : Evaluator ι σ} {inner' : Evaluator κ τ}
variable (hinner : s.FollowsAt (depth + 1) inner inner')

include hinner

theorem applyNamed (name : String) {operands : List (Form ι)}
    (h : ∀ f ∈ operands, s.Admits w f) :
    s.Follows w s.Values (Evaluation.applyNamed c inner depth name operands)
      (Evaluation.applyNamed c' inner' depth name (operands.map (Form.map s.relabel))) := by
  unfold Evaluation.applyNamed
  refine s.note name ?_
  cases Operator.find? name with
  | none => exact call hinner name h
  | some op =>
    refine s.bind (takeOperands op h) ?_
    rintro w₁ - fs _ ⟨rfl, hfs⟩
    exact operate hinner op hfs

theorem evalList {items : List (Form ι)} (h : ∀ f ∈ items, s.Admits w f) :
    s.Follows w s.Values (Evaluation.evalList c inner depth items)
      (Evaluation.evalList c' inner' depth (items.map (Form.map s.relabel))) := by
  cases items with
  | nil => exact s.pure (values_of_quotations_eq_nil rfl)
  | cons head operands =>
    have hoperands : ∀ f ∈ operands, s.Admits w f := fun f hf => h f (List.mem_cons_of_mem _ hf)
    cases head with
    | atom label name => exact applyNamed hinner name hoperands
    | string label text => exact s.fail rfl
    | list label items =>
      have hhead := hinner w _ (h _ List.mem_cons_self)
      rw [List.map_cons]
      simp only [Form.map_list, Evaluation.evalList] at hhead ⊢
      refine s.bind hhead ?_
      rintro w₁ h₁ v _ ⟨rfl, hv⟩
      simp only [List.isEmpty_map]
      split
      · exact s.pure ⟨rfl, hv⟩
      · rw [Evaluation.operatorName_map]
        refine s.bind (ofExcept_same fun _ h =>
          Error.limit?_of_isFault (Evaluation.isFault_of_operatorName h)) ?_
        rintro w₂ h₂ name _ ⟨rfl, -⟩
        exact applyNamed hinner name fun f hf =>
          s.admits_later (s.later_trans h₁ h₂) (hoperands f hf)

/-- **One level of evaluation**: evaluation at a depth follows when evaluation one level deeper
does. -/
theorem evalForm : s.FollowsAt depth (Evaluation.evalForm c inner) (Evaluation.evalForm c' inner') := by
  intro w f hf
  unfold Evaluation.evalForm
  refine s.bind (s.checkDepth w depth) ?_
  intro w₁ h₁ _ _ _
  cases f with
  | atom label text => exact evalAtom hinner text
  | string label text => exact s.pure (values_of_quotations_eq_nil rfl)
  | list label items =>
    rw [Form.map_list]
    exact evalList hinner fun f hf' => s.admits_items (s.admits_later h₁ hf) hf'

end

/-- **Evaluation follows**, with the same fuel on both sides, when running out of it does. -/
theorem eval (hfuel : ∀ w, s.Follows w s.Values (throw .outOfFuel) (throw .outOfFuel))
    (fuel depth : Nat) : s.FollowsAt depth (Evaluation.eval c fuel) (Evaluation.eval c' fuel) := by
  induction fuel generalizing depth with
  | zero => exact fun w _ _ => hfuel w
  | succ fuel ih => exact evalForm (ih (depth + 1))

end Simulation

end SubstLisp
