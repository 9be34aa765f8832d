import SubstLisp.Proofs.Numerals
import SubstLisp.Proofs.Simulation
import SubstLisp.Proofs.Symbols

/-!
# Programs on one line

Printing breaks no line, and neither does evaluation: what it makes out of texts without line breaks
has none. This is about everything that can come into the wording of an error: the forms that turn
up, their values, the names that are looked up and what these are bound to.

Where a program and everything that names are bound to stand on one line, so do the wording of every
type or evaluation error and the name of every operator that such an error comes out of. Host
functions have to play along.

## What is proved

* `Text.oneLine_append`, `Form.hereditary_oneLine`, `Value.oneLine_text_list` — what a text on one
  line is made of.
* `Error.OneLine.message` — an error is worded on one line if what comes into its wording stands on
  one.
* `Evaluation.oneLineAt_eval` — evaluation of a form on one line gives a value or a failure on one
  line and leaves an environment on one line.
-/

namespace SubstLisp

variable {ι σ α β : Type}

/-! ### Texts -/

/-- The text has no line break. -/
def Text.OneLine (text : String) : Prop := '\n' ∉ text.toList

open Text (OneLine)

namespace Text

instance (text : String) : Decidable (OneLine text) :=
  inferInstanceAs (Decidable ('\n' ∉ text.toList))

@[simp]
theorem oneLine_append {a b : String} : OneLine (a ++ b) ↔ OneLine a ∧ OneLine b := by
  simp [OneLine, not_or]

@[simp]
theorem oneLine_intercalate {texts : List String} :
    OneLine (" ".intercalate texts) ↔ ∀ text ∈ texts, OneLine text := by
  have hspace : OneLine " " := by decide
  induction texts with
  | nil => simp [OneLine]
  | cons text texts ih =>
    cases texts with
    | nil => simp
    | cons => simp [ih, hspace]

end Text

/-! ### Forms and values -/

@[simp]
theorem Form.oneLine_text_atom {label : ι} {word : String} :
    OneLine (atom label word).text ↔ OneLine word := .rfl

@[simp]
theorem Form.oneLine_text_string {label : ι} {literal : String} :
    OneLine (string label literal).text ↔ OneLine literal := by
  simp [OneLine, text]

/-- A list stands on one line exactly when its items do. -/
theorem Form.hereditary_oneLine : Form.Hereditary fun f : Form ι => OneLine f.text := by
  intro label items
  have hopen : OneLine "(" := by decide
  have hclose : OneLine ")" := by decide
  simp [text, hopen, hclose]

theorem Form.oneLine_of_atomText? {f : Form ι} {name : String} (hname : f.atomText? = some name)
    (hf : OneLine f.text) : OneLine name := by
  cases f with
  | atom => exact Option.some.inj hname ▸ hf
  | _ => cases hname

theorem Numeral.oneLine_text (z : Int) : OneLine (text z) := by
  unfold OneLine text
  rw [String.toList_ofList]
  intro h
  rcases isDigit_or_of_mem_chars h with h | h <;> cases h

theorem Value.Kind.oneLine_name (kind : Kind) : OneLine kind.name := by
  cases kind <;> decide

@[simp]
theorem Value.oneLine_text_string {text : String} :
    OneLine (string text : Value ι).text ↔ OneLine text := by
  simp [OneLine, Value.text]

@[simp]
theorem Value.oneLine_text_list {items : List (Value ι)} :
    OneLine (list items).text ↔ ∀ v ∈ items, OneLine v.text := by
  have hopen : OneLine "(" := by decide
  have hclose : OneLine ")" := by decide
  simp [text, hopen, hclose]

@[simp]
theorem Value.oneLine_text_quote {form : Form ι} :
    OneLine (quote form).text ↔ OneLine form.text := by
  simp [OneLine, text]

theorem Value.oneLine_text_number (n : Int64) : OneLine (number n : Value ι).text :=
  Numeral.oneLine_text _

/-! ### Definitions and bindings -/

theorem Definition.oneLine_text {d : Definition ι} : OneLine d.text ↔
    OneLine d.name ∧ (∀ p ∈ d.parameters, OneLine p.text) ∧ OneLine d.body.text := by
  have hopen : OneLine " (" := by decide
  have hclose : OneLine ") " := by decide
  simp [text, hopen, hclose, and_assoc]

@[simp]
theorem Binding.oneLine_text_functionDef {d : Definition ι} :
    OneLine (functionDef d).text ↔ OneLine d.text := by
  simp [OneLine, text]

@[simp]
theorem Binding.oneLine_text_macroDef {d : Definition ι} :
    OneLine (macroDef d).text ↔ OneLine d.text := by
  simp [OneLine, text]

/-! ### Errors -/

/-- The texts that come into the wording of a type fault. -/
@[simp]
def TypeFault.parts : TypeFault → List String
  | notOperator value => [value.text]
  | notCallable name _ => [name]
  | expectsSymbol operator form => [operator, form.text]
  | parametersNotList operator name => [operator, name]
  | parameterNotSymbol name parameter => [name, parameter.text]
  | duplicateParameter parameter name => [parameter, name]
  | expectsNumbers operator _ => [operator]
  | expectsText _ => []
  | expectsHostName operator form => [operator, form.text]
  | expectedNumber _ => []
  | expectedString _ => []
  | quotedInJson form => [form.text]
  | deepJson limit => [toString limit]
  | jsonNumber number => [number]
  | jsonObject => []
  | stated text => [text]

/-- The texts that come into the wording of an evaluation fault. -/
@[simp]
def EvaluationFault.parts : EvaluationFault → List String
  | divisionByZero => []
  | overflow operator => [operator]
  | stated text => [text]

/-- The texts that come into the wording of a type or evaluation error. -/
@[simp]
def Error.parts : Error → List String
  | typing fault => fault.parts
  | evaluation fault => fault.parts
  | _ => []

/-- The wording of a type fault breaks no line. -/
theorem TypeFault.oneLine_detail {fault : TypeFault} (h : ∀ part ∈ fault.parts, OneLine part) :
    OneLine fault.detail := by
  have hkind (kind : Value.Kind) : '\n' ∉ kind.name.toList := kind.oneLine_name
  cases fault with
  | notOperator value =>
    have hvalue : OneLine value.text := h _ List.mem_cons_self
    cases value with
    | quote form =>
      show OneLine ("cannot use '" ++ form.text ++ " as an operator")
      simpa [OneLine] using Value.oneLine_text_quote.1 hvalue
    | _ =>
      show OneLine ("cannot use " ++ _ ++ " " ++ _ ++ " as an operator")
      simpa [OneLine, hkind] using hvalue
  | notCallable name kind =>
    show OneLine (name ++ " is bound to a " ++ kind.name ++ " and cannot be called")
    simpa [OneLine, hkind] using h
  | expectsSymbol operator form =>
    show OneLine (operator ++ " expects a symbol, got " ++ form.text)
    simpa [OneLine] using h
  | parametersNotList operator name =>
    show OneLine (operator ++ " " ++ name ++ ": parameters must be a list")
    simpa [OneLine] using h
  | parameterNotSymbol name parameter =>
    show OneLine ("parameter of " ++ name ++ " must be a symbol, got " ++ parameter.text)
    simpa [OneLine] using h
  | duplicateParameter parameter name =>
    show OneLine ("duplicate parameter " ++ parameter ++ " in " ++ name)
    simpa [OneLine] using h
  | expectsNumbers operator kind =>
    show OneLine (operator ++ " expects numbers, got " ++ kind.name)
    simpa [OneLine, hkind] using h
  | expectsText kind =>
    show OneLine ("concat expects strings or numbers, got " ++ kind.name)
    simp [OneLine, hkind]
  | expectsHostName operator form =>
    show OneLine (operator ++ " expects a host function name, got " ++ form.text)
    simpa [OneLine] using h
  | expectedNumber kind =>
    show OneLine ("expected number, got " ++ kind.name)
    simp [OneLine, hkind]
  | expectedString kind =>
    show OneLine ("expected string, got " ++ kind.name)
    simp [OneLine, hkind]
  | quotedInJson form =>
    show OneLine ("quoted code '" ++ form.text ++ " has no JSON representation")
    simpa [OneLine] using h
  | deepJson limit =>
    show OneLine ("JSON value too deeply nested (max depth: " ++ toString limit ++ ")")
    simpa [OneLine] using h
  | jsonNumber number =>
    show OneLine ("number too large or not integer: " ++ number)
    simpa [OneLine] using h
  | jsonObject => exact show OneLine "JSON objects have no value representation" by simp [OneLine]
  | stated text => exact h text List.mem_cons_self

/-- The wording of an evaluation fault breaks no line. -/
theorem EvaluationFault.oneLine_detail {fault : EvaluationFault}
    (h : ∀ part ∈ fault.parts, OneLine part) : OneLine fault.detail := by
  cases fault with
  | divisionByZero => exact show OneLine "division by zero" by simp [OneLine]
  | overflow operator =>
    show OneLine ("integer overflow in " ++ operator)
    simpa [OneLine] using h
  | stated text => exact h text List.mem_cons_self

/-- What comes into the wording of a type or evaluation error stands on one line. -/
def Error.OneLine (error : Error) : Prop := ∀ part ∈ error.parts, Text.OneLine part

/-- Such an error is worded on one line. -/
theorem Error.OneLine.message {error : Error} (h : error.OneLine) (hfault : error.isFault = true) :
    Text.OneLine error.message := by
  cases error with
  | typing fault =>
    show Text.OneLine ("TypeError: " ++ fault.detail)
    simpa [Text.OneLine] using TypeFault.oneLine_detail h
  | evaluation fault =>
    show Text.OneLine ("EvaluationError: " ++ fault.detail)
    simpa [Text.OneLine] using EvaluationFault.oneLine_detail h
  | _ => cases hfault

/-- The error of a failure and the operator that it came out of stand on one line each. -/
structure Failure.OneLine (failure : Failure) : Prop where
  error : failure.error.OneLine
  operator : ∀ operator, failure.operator? = some operator → Text.OneLine operator

theorem Failure.OneLine.within {failure : Failure} (h : failure.OneLine) {name : String}
    (hname : Text.OneLine name) : (failure.within name).OneLine := by
  unfold Failure.within
  split
  · exact ⟨h.error, fun _ hoperator => Option.some.inj hoperator ▸ hname⟩
  · exact h

/-! ### Checks and computations -/

/-- The outcome has a property, or else the error stands on one line. -/
def Error.OneLineOr (P : α → Prop) : Except Error α → Prop
  | .ok a => P a
  | .error error => error.OneLine

theorem Error.OneLineOr.bind {P : α → Prop} {Q : β → Prop} {e : Except Error α}
    {k : α → Except Error β} (he : Error.OneLineOr P e) (hk : ∀ a, P a → Error.OneLineOr Q (k a)) :
    Error.OneLineOr Q (e >>= k) := by
  cases e with
  | ok a => exact hk a he
  | error error => exact he

namespace Arithmetic

theorem oneLine_symbol (op : Arithmetic) : OneLine op.symbol := by
  cases op <;> decide

theorem oneLineOr_operand (op : Arithmetic) (v : Value ι) :
    Error.OneLineOr (fun _ => True) (op.operand v) := by
  unfold operand
  split
  · trivial
  · simp [Error.OneLineOr, Error.OneLine, op.oneLine_symbol]

theorem oneLine_of_compute {op : Arithmetic} {a b : Int64} {fault : EvaluationFault}
    (h : op.compute a b = .error fault) : ∀ part ∈ fault.parts, OneLine part := by
  unfold compute at h
  split at h
  · cases h
    simp
  · split at h <;> cases h
    simp [op.oneLine_symbol]

theorem oneLineOr_apply (op : Arithmetic) (a b : Value ι) :
    Error.OneLineOr (fun v => OneLine v.text) (op.apply a b) := by
  refine (op.oneLineOr_operand a).bind fun m _ => (op.oneLineOr_operand b).bind fun n _ => ?_
  cases hcompute : op.compute m n with
  | ok n => exact Value.oneLine_text_number n
  | error fault => exact oneLine_of_compute hcompute

end Arithmetic

namespace Value

theorem oneLineOr_plainText {v : Value ι} (hv : OneLine v.text) :
    Error.OneLineOr OneLine v.plainText := by
  cases v with
  | nil => exact show OneLine "" by decide
  | number n => exact Numeral.oneLine_text _
  | string text => exact oneLine_text_string.1 hv
  | list items => simp [plainText, Error.OneLineOr, Error.OneLine]
  | quote form => simp [plainText, Error.OneLineOr, Error.OneLine]

theorem oneLineOr_concat {a b : Value ι} (ha : OneLine a.text) (hb : OneLine b.text) :
    Error.OneLineOr (fun v => OneLine v.text) (a.concat b) :=
  (oneLineOr_plainText ha).bind fun _ hs => (oneLineOr_plainText hb).bind fun _ ht =>
    oneLine_text_string.2 (Text.oneLine_append.2 ⟨hs, ht⟩)

theorem oneLineOr_operatorName {v : Value ι} (hv : OneLine v.text) :
    Error.OneLineOr OneLine (Evaluation.operatorName v) := by
  unfold Evaluation.operatorName
  split
  · exact oneLine_text_string.1 hv
  · exact Form.oneLine_text_atom.1 (oneLine_text_quote.1 hv)
  · simpa [Error.OneLineOr, Error.OneLine, erase] using hv

end Value

namespace Definition

theorem oneLineOr_checkParameters {name : String} (hname : OneLine name)
    {parameters : List (Form ι)} (h : ∀ p ∈ parameters, OneLine p.text) (seen : List String) :
    Error.OneLineOr (fun _ => True) (checkParameters name seen parameters) := by
  induction parameters generalizing seen with
  | nil => trivial
  | cons p ps ih =>
    obtain ⟨hp, hps⟩ := List.forall_mem_cons.1 h
    rw [checkParameters]
    split
    · simpa [Error.OneLineOr, Error.OneLine] using ⟨hname, hp⟩
    · next spelling hspelling =>
      have hspelling := Form.oneLine_of_atomText? hspelling hp
      split
      · simpa [Error.OneLineOr, Error.OneLine] using
          ⟨hspelling, hname⟩
      · exact ih hps _

theorem oneLineOr_make {name : String} (hname : OneLine name) {parameters : List (Form ι)}
    (h : ∀ p ∈ parameters, OneLine p.text) {body : Form ι} (hbody : OneLine body.text) :
    Error.OneLineOr (fun d => OneLine d.text) (make Form.tie name parameters body) := by
  refine (oneLineOr_checkParameters hname h []).bind fun _ _ => ?_
  have htie : (body.tie parameters).text = body.text := by
    rw [← Form.text_erase, Form.erase_tie, Form.text_erase]
  exact oneLine_text.2 ⟨hname, h, htie ▸ hbody⟩

end Definition

/-! ### Environments and runs -/

/-- From a value on one line, a host function makes a value or an error on one line. -/
def HostFunction.OneLine (f : HostFunction ι σ) : Prop :=
  ∀ v world, Text.OneLine v.text →
    match f v world with
    | .ok result _ => Text.OneLine result.text
    | .error error _ => error.OneLine

/-- Everything that names are bound to stands on one line, and host functions keep to it. -/
structure Environment.OneLine (env : Environment ι σ) : Prop where
  bindings : ∀ name b, env.find? name = some b → Text.OneLine b.text
  hosts : ∀ name f, env.hosts.find? name = some f → f.OneLine

theorem Environment.oneLine_empty : (empty : Environment ι σ).OneLine := by
  constructor
  · intro name b h
    cases (Table.find?_empty name).symm.trans h
  · intro name f h
    cases (Table.find?_empty name).symm.trans h

theorem Environment.OneLine.define {env : Environment ι σ} (h : env.OneLine) (name : String)
    {b : Binding ι} (hb : Text.OneLine b.text) : (env.define name b).OneLine := by
  refine ⟨fun other b' hother => ?_, h.hosts⟩
  rw [Environment.find?_define] at hother
  split at hother
  · cases hother
    exact hb
  · exact h.bindings other b' hother

/-- In an environment on one line, the run leaves one; its outcome has a property, or else its
failure stands on one line. -/
def Run.OneLineOr (P : α → Prop) (x : Run ι σ α) : Prop :=
  ∀ m : Machine ι σ, m.environment.OneLine →
    match x m with
    | .ok a m' => m'.environment.OneLine ∧ P a
    | .error (.failed failure) m' => m'.environment.OneLine ∧ failure.OneLine
    | .error .outOfFuel m' => m'.environment.OneLine

namespace Run

variable {P : α → Prop} {Q : β → Prop}

theorem OneLineOr.pure {a : α} (h : P a) : OneLineOr P (pure a : Run ι σ α) := fun _ hm => ⟨hm, h⟩

theorem OneLineOr.fail {error : Error} (h : error.OneLine) :
    OneLineOr P (Run.fail error : Run ι σ α) :=
  fun _ hm => ⟨hm, h, by rintro _ ⟨⟩⟩

/-- Nothing comes into the wording of the error that could break a line. -/
theorem OneLineOr.fail_of_parts_eq_nil {error : Error} (h : error.parts = []) :
    OneLineOr P (Run.fail error : Run ι σ α) :=
  .fail fun _ hpart => absurd (h ▸ hpart) List.not_mem_nil

theorem OneLineOr.bind {x : Run ι σ α} {k : α → Run ι σ β} (hx : OneLineOr P x)
    (hk : ∀ a, P a → OneLineOr Q (k a)) : OneLineOr Q (x >>= k) := by
  intro m hm
  have h := hx m hm
  simp only [Bind.bind, EStateM.bind]
  cases hxm : x m with
  | ok a m' =>
    rw [hxm] at h
    exact hk a h.2 m' h.1
  | error stop m' =>
    rw [hxm] at h
    cases stop <;> exact h

theorem OneLineOr.ofExcept {e : Except Error α} (h : Error.OneLineOr P e) :
    OneLineOr P (Run.ofExcept e : Run ι σ α) := by
  cases e with
  | ok a => exact .pure h
  | error error => exact .fail h

/-- A failure that comes out of the application of a name on one line. -/
theorem OneLineOr.within {x : Run ι σ α} (hx : OneLineOr P x) {name : String}
    (hname : Text.OneLine name) : OneLineOr P (mapFailure (Failure.within name) x) := by
  intro m hm
  have h := hx m hm
  simp only [mapFailure]
  cases hxm : x m with
  | ok a m' =>
    rw [hxm] at h
    exact h
  | error stop m' =>
    rw [hxm] at h
    cases stop with
    | outOfFuel => exact h
    | failed failure => exact ⟨h.1, h.2.within hname⟩

theorem oneLineOr_find? (name : String) :
    OneLineOr (fun b => ∀ b', b = some b' → Text.OneLine b'.text) (find? name : Run ι σ _) :=
  fun _ hm => ⟨hm, fun b hb => hm.bindings name b hb⟩

theorem oneLineOr_host? (name : String) :
    OneLineOr (fun f => ∀ f', f = some f' → f'.OneLine) (host? name : Run ι σ _) :=
  fun _ hm => ⟨hm, fun f hf => hm.hosts name f hf⟩

theorem oneLineOr_emit (event : Event ι) :
    OneLineOr (fun _ => True) (emit event : Run ι σ Unit) :=
  fun _ hm => ⟨hm, trivial⟩

theorem oneLineOr_define (name : String) {b : Binding ι} (hb : Text.OneLine b.text) :
    OneLineOr (fun _ => True) (define name b : Run ι σ Unit) :=
  fun _ hm => ⟨hm.define name hb, trivial⟩

theorem oneLineOr_acting {f : HostFunction ι σ} (hf : f.OneLine) {v : Value ι}
    (hv : Text.OneLine v.text) :
    OneLineOr (fun v => Text.OneLine v.text) (acting (f v) : Run ι σ _) := by
  intro m hm
  have h := hf v m.world hv
  unfold acting
  cases hf' : f v m.world with
  | ok result world =>
    rw [hf'] at h
    exact ⟨hm, h⟩
  | error error world =>
    rw [hf'] at h
    exact ⟨hm, h, by rintro _ ⟨⟩⟩

/-- The body of a definition with arguments put in. -/
theorem oneLineOr_apply {d : Definition Nat} (hd : Text.OneLine d.body.text) {operands : List Node}
    (h : ∀ f ∈ operands, Text.OneLine f.text) :
    OneLineOr (fun f => Text.OneLine f.text)
      (minting (Convention.byIdentity.apply d operands) : Run Nat σ Node) :=
  fun m hm => ⟨hm, Form.hereditary_oneLine.apply
    (fun rename f hf => by rwa [Form.text_map]) hd h m.world.next⟩

/-- The code that a template stands for. -/
theorem oneLineOr_expand {f : Node} (hf : Text.OneLine f.text) :
    OneLineOr (fun f => Text.OneLine f.text)
      (expanding (Template.expand id f) : Run Nat σ Node) := by
  intro m hm
  unfold expanding
  cases hcode : Template.expand id f ⟨m.world.next, #[]⟩ with
  | ok code trail => exact ⟨hm, Form.hereditary_oneLine.expand hf _ _ _ hcode⟩
  | error fault trail =>
    exact ⟨hm, by simp [Error.OneLine], by rintro _ ⟨⟩⟩

end Run

/-! ### Evaluation -/

namespace Evaluation

open Run (OneLineOr)

/-- At a depth, forms on one line have values on one line. -/
def OneLineAt (depth : Nat) (inner : Evaluator Nat σ) : Prop :=
  ∀ form, OneLine form.text → OneLineOr (fun v => OneLine v.text) (inner depth form)

/-- Every form of a list stands on one line. -/
abbrev AllOneLine (forms : List Node) : Prop := ∀ f ∈ forms, OneLine f.text

variable {op : Operator} {operands : List Node}

theorem oneLineOr_takeOperands (h : AllOneLine operands) :
    OneLineOr AllOneLine (takeOperands op operands : Run Nat σ _) := by
  have hselect : AllOneLine (op.select operands) := fun f hf =>
    h f (Operator.mem_of_mem_select hf)
  have harity : Error.OneLineOr (fun _ => True) (op.checkArity operands.length) := by
    unfold Operator.checkArity
    split
    · simp [Error.OneLineOr, Error.OneLine]
    · trivial
  refine (OneLineOr.ofExcept harity).bind fun _ _ => ?_
  dsimp only
  split
  · exact (Run.oneLineOr_emit _).bind fun _ _ => .pure hselect
  · exact .pure hselect

theorem oneLineOr_oneOperand (h : AllOneLine operands) :
    OneLineOr (fun a => OneLine a.text) (oneOperand op operands : Run Nat σ _) := by
  match operands with
  | [a] => exact .pure (h a (by simp))
  | [] => exact .fail_of_parts_eq_nil rfl
  | _ :: _ :: _ => exact .fail_of_parts_eq_nil rfl

theorem oneLineOr_twoOperands (h : AllOneLine operands) :
    OneLineOr (fun (a, b) => OneLine a.text ∧ OneLine b.text)
      (twoOperands op operands : Run Nat σ _) := by
  match operands with
  | [a, b] => exact .pure ⟨h a (by simp), h b (by simp)⟩
  | [] => exact .fail_of_parts_eq_nil rfl
  | [_] => exact .fail_of_parts_eq_nil rfl
  | _ :: _ :: _ :: _ => exact .fail_of_parts_eq_nil rfl

theorem oneLineOr_threeOperands (h : AllOneLine operands) :
    OneLineOr (fun (a, b, c) => OneLine a.text ∧ OneLine b.text ∧ OneLine c.text)
      (threeOperands op operands : Run Nat σ _) := by
  match operands with
  | [a, b, c] => exact .pure ⟨h a (by simp), h b (by simp), h c (by simp)⟩
  | [] => exact .fail_of_parts_eq_nil rfl
  | [_] => exact .fail_of_parts_eq_nil rfl
  | [_, _] => exact .fail_of_parts_eq_nil rfl
  | _ :: _ :: _ :: _ :: _ => exact .fail_of_parts_eq_nil rfl

variable (hop : OneLine op.name)

include hop

theorem oneLineOr_symbolOperand {f : Node} (hf : OneLine f.text) :
    OneLineOr OneLine (symbolOperand op f : Run Nat σ _) := by
  unfold symbolOperand
  split
  · next name hname => exact .pure (Form.oneLine_of_atomText? hname hf)
  · refine .fail ?_
    simpa [Error.OneLine] using ⟨hop, hf⟩

theorem oneLineOr_hostName {f : Node} (hf : OneLine f.text) :
    OneLineOr OneLine (hostName op f : Run Nat σ _) := by
  cases f with
  | atom label name => exact .pure hf
  | string label name => exact .pure (Form.oneLine_text_string.1 hf)
  | list label items =>
    rw [← Form.text_erase] at hf
    exact .fail (List.forall_mem_cons.2 ⟨hop, List.forall_mem_singleton.2 hf⟩)

theorem oneLineOr_defineBy {bind : Definition Nat → Binding Nat}
    (hbind : ∀ d, OneLine d.text → OneLine (bind d).text) (h : AllOneLine operands) :
    OneLineOr (fun v => OneLine v.text)
      (defineBy .byIdentity bind op operands : Run Nat σ _) := by
  refine (oneLineOr_threeOperands h).bind ?_
  rintro ⟨symbol, parameters, body⟩ ⟨hsymbol, hparameters, hbody⟩
  refine (oneLineOr_symbolOperand hop hsymbol).bind fun name hname => ?_
  cases parameters with
  | list label items =>
    have hitems := (Form.hereditary_oneLine label items).1 hparameters
    refine (OneLineOr.ofExcept (Definition.oneLineOr_make hname hitems hbody)).bind fun d hd => ?_
    exact (Run.oneLineOr_define name (hbind d hd)).bind fun _ _ => .pure (by decide)
  | _ =>
    refine .fail ?_
    simpa [Error.OneLine] using ⟨hop, hname⟩

omit hop

/-! ### Calls -/

section

variable {depth : Nat} {inner : Evaluator Nat σ} {name : String}

theorem oneLineOr_applyDefinition {d : Definition Nat} (hd : OneLine d.text)
    (h : AllOneLine operands) : OneLineOr (fun f => OneLine f.text)
      (applyDefinition .byIdentity name d operands : Run Nat σ _) := by
  have hbody := (Definition.oneLine_text.1 hd).2.2
  have harity : OneLineOr (fun _ => False)
      (Run.fail (.arity name d.arity operands.length) : Run Nat σ Unit) :=
    .fail_of_parts_eq_nil rfl
  unfold applyDefinition
  dsimp only
  split
  · exact harity.bind fun _ h => h.elim
  · split
    · exact (Run.oneLineOr_emit _).bind fun _ _ => Run.oneLineOr_apply hbody h
    · exact Run.oneLineOr_apply hbody h

variable (hinner : OneLineAt (depth + 1) inner) (hname : OneLine name)

include hinner hname

theorem oneLineOr_call (h : AllOneLine operands) : OneLineOr (fun v => OneLine v.text)
    (call .byIdentity inner depth name operands) := by
  refine (Run.oneLineOr_find? name).bind fun b hb => ?_
  cases b with
  | none => exact .fail_of_parts_eq_nil rfl
  | some b =>
    have hb := hb b rfl
    cases b with
    | value v => exact .fail (List.forall_mem_singleton.2 hname)
    | functionDef d =>
      refine (oneLineOr_applyDefinition (Binding.oneLine_text_functionDef.1 hb) h).bind ?_
      exact fun body hbody => (Run.oneLineOr_emit _).bind fun _ _ => hinner body hbody
    | macroDef d =>
      refine (oneLineOr_applyDefinition (Binding.oneLine_text_macroDef.1 hb) h).bind ?_
      refine fun body hbody => (Run.oneLineOr_expand hbody).bind fun code hcode => ?_
      exact (Run.oneLineOr_emit _).bind fun _ _ => hinner code hcode

theorem oneLineOr_evalAtom : OneLineOr (fun v => OneLine v.text)
    (evalAtom .byIdentity inner depth name) := by
  have hcall : OneLineOr _ (call .byIdentity inner depth name []) :=
    oneLineOr_call hinner hname fun _ h => absurd h List.not_mem_nil
  unfold evalAtom
  split
  · exact .pure (Value.oneLine_text_number _)
  · refine (Run.oneLineOr_find? name).bind fun b hb => ?_
    cases b with
    | none => exact .fail_of_parts_eq_nil rfl
    | some b =>
      cases b with
      | value v => exact .pure (hb _ rfl)
      | functionDef d => exact hcall
      | macroDef d => exact hcall

end

/-! ### Operators -/

section

variable {depth : Nat} {inner : Evaluator Nat σ} (hinner : OneLineAt depth inner)

include hinner

theorem oneLineOr_callHost (hop : OneLine op.name) (h : AllOneLine operands) :
    OneLineOr (fun v => OneLine v.text) (callHost inner depth op operands) := by
  refine (oneLineOr_twoOperands h).bind ?_
  rintro ⟨target, argument⟩ ⟨htarget, hargument⟩
  refine (oneLineOr_hostName hop htarget).bind fun name hname => ?_
  refine (Run.oneLineOr_host? name).bind fun f hf => ?_
  cases f with
  | none => exact .fail_of_parts_eq_nil rfl
  | some f =>
    refine (hinner argument hargument).bind fun v hv => ?_
    refine (Run.oneLineOr_emit _).bind fun _ _ => ?_
    refine (Run.oneLineOr_acting (hf f rfl) hv).bind fun result hresult => ?_
    exact (Run.oneLineOr_emit _).bind fun _ _ => .pure hresult

theorem oneLineOr_mapM {forms : List Node} (h : AllOneLine forms) :
    OneLineOr (fun vs => ∀ v ∈ vs, OneLine v.text) (forms.mapM (inner depth)) := by
  induction forms with
  | nil => exact .pure (by simp)
  | cons f fs ih =>
    obtain ⟨hf, hfs⟩ := List.forall_mem_cons.1 h
    rw [List.mapM_cons]
    exact (hinner f hf).bind fun v hv => (ih hfs).bind fun vs hvs =>
      .pure (List.forall_mem_cons.2 ⟨hv, hvs⟩)

theorem oneLineOr_foldlM {forms : List Node} (h : AllOneLine forms) {v : Value Nat}
    (hv : OneLine v.text) :
    OneLineOr (fun v => OneLine v.text) (forms.foldlM (fun _ f => inner depth f) v) := by
  induction forms generalizing v with
  | nil => exact .pure hv
  | cons f fs ih =>
    obtain ⟨hf, hfs⟩ := List.forall_mem_cons.1 h
    rw [List.foldlM_cons]
    exact (hinner f hf).bind fun u hu => ih hfs hu

/-- Two operands are evaluated, and something is done with their values. -/
theorem oneLineOr_twoValues (h : AllOneLine operands)
    {k : Value Nat → Value Nat → Run Nat σ (Value Nat)}
    (hk : ∀ u v, OneLine u.text → OneLine v.text → OneLineOr (fun v => OneLine v.text) (k u v)) :
    OneLineOr (fun v => OneLine v.text)
      (do
        let (a, b) ← twoOperands op operands
        let u ← inner depth a
        let v ← inner depth b
        k u v) := by
  refine (oneLineOr_twoOperands h).bind ?_
  rintro ⟨a, b⟩ ⟨ha, hb⟩
  exact (hinner a ha).bind fun u hu => (hinner b hb).bind fun v hv => hk u v hu hv

/-- What an operator does with operands on one line. -/
theorem oneLineOr_operate (hop : OneLine op.name) (h : AllOneLine operands) :
    OneLineOr (fun v => OneLine v.text) (operate .byIdentity inner depth op operands) := by
  have hbool (b : Bool) : OneLine (.ofBool b : Value Nat).text := Value.oneLine_text_number _
  unfold operate
  cases op.form with
  | arithmetic sign =>
    exact oneLineOr_twoValues hinner h fun u v _ _ => .ofExcept (sign.oneLineOr_apply u v)
  | equality expected => exact oneLineOr_twoValues hinner h fun u v _ _ => .pure (hbool _)
  | connective decisive =>
    refine (oneLineOr_twoOperands h).bind ?_
    rintro ⟨a, b⟩ ⟨ha, hb⟩
    refine (hinner a ha).bind fun u hu => ?_
    dsimp only
    split
    · exact .pure (hbool _)
    · exact (hinner b hb).bind fun v hv => .pure (hbool _)
  | constant b => exact .pure (hbool b)
  | conditional =>
    refine (oneLineOr_threeOperands h).bind ?_
    rintro ⟨a, b, d⟩ ⟨ha, hb, hd⟩
    refine (hinner a ha).bind fun u hu => ?_
    split
    · exact hinner b hb
    · exact hinner d hd
  | quote => exact (oneLineOr_oneOperand h).bind fun a ha => .pure (Value.oneLine_text_quote.2 ha)
  | list => exact (oneLineOr_mapM hinner h).bind fun vs hvs => .pure (Value.oneLine_text_list.2 hvs)
  | evaluate =>
    refine (oneLineOr_oneOperand h).bind fun a ha => (hinner a ha).bind fun v hv => ?_
    cases v with
    | quote code => exact hinner code (Value.oneLine_text_quote.1 hv)
    | _ => exact .pure hv
  | concat =>
    exact oneLineOr_twoValues hinner h fun u v hu hv => .ofExcept (Value.oneLineOr_concat hu hv)
  | defineFunction =>
    exact oneLineOr_defineBy hop (fun _ => Binding.oneLine_text_functionDef.2) h
  | defineMacro => exact oneLineOr_defineBy hop (fun _ => Binding.oneLine_text_macroDef.2) h
  | assign =>
    refine (oneLineOr_twoOperands h).bind ?_
    rintro ⟨symbol, a⟩ ⟨hsymbol, ha⟩
    refine (oneLineOr_symbolOperand hop hsymbol).bind fun name _ => ?_
    refine (hinner a ha).bind fun v hv => ?_
    exact (Run.oneLineOr_define (b := .value v) name hv).bind fun _ _ => .pure hv
  | sequence => exact oneLineOr_foldlM hinner h (by decide)
  | host => exact oneLineOr_callHost hinner hop h

end

/-! ### Applications -/

section

variable {depth : Nat} {inner : Evaluator Nat σ} (hinner : OneLineAt (depth + 1) inner)

include hinner

theorem oneLineOr_applyNamed {name : String} (hname : OneLine name) (h : AllOneLine operands) :
    OneLineOr (fun v => OneLine v.text)
      (applyNamed .byIdentity inner depth name operands) := by
  refine OneLineOr.within ?_ hname
  cases hfind : Operator.find? name with
  | none => exact oneLineOr_call hinner hname h
  | some op =>
    have hop : OneLine op.name := Operator.name_of_find? hfind ▸ hname
    exact (oneLineOr_takeOperands h).bind fun taken htaken => oneLineOr_operate hinner hop htaken

theorem oneLineOr_evalList {items : List Node} (h : AllOneLine items) :
    OneLineOr (fun v => OneLine v.text) (evalList .byIdentity inner depth items) := by
  cases items with
  | nil => exact .pure (by decide)
  | cons head operands =>
    obtain ⟨hhead, hoperands⟩ := List.forall_mem_cons.1 h
    cases head with
    | atom label name => exact oneLineOr_applyNamed hinner hhead hoperands
    | string label text => exact .fail_of_parts_eq_nil rfl
    | list label items =>
      refine (hinner _ hhead).bind fun v hv => ?_
      split
      · exact .pure hv
      · exact (OneLineOr.ofExcept (Value.oneLineOr_operatorName hv)).bind fun name hname =>
          oneLineOr_applyNamed hinner hname hoperands

/-- One level of evaluation. -/
theorem oneLineAt_evalForm : OneLineAt depth (evalForm .byIdentity inner) := by
  have hcheck : OneLineOr (fun _ => True) (checkDepth depth : Run Nat σ Unit) := by
    intro m hm
    rw [checkDepth_eq]
    cases m.environment.maxDepth with
    | none => exact ⟨hm, trivial⟩
    | some limit =>
      by_cases h : limit ≤ depth
      · simp only [if_pos h]
        exact ⟨hm, by simp [Error.OneLine], by rintro _ ⟨⟩⟩
      · simp only [if_neg h]
        exact ⟨hm, trivial⟩
  intro form hform
  refine hcheck.bind fun _ _ => ?_
  cases form with
  | atom label text => exact oneLineOr_evalAtom hinner hform
  | string label text =>
    exact .pure (Value.oneLine_text_string.2 (Form.oneLine_text_string.1 hform))
  | list label items => exact oneLineOr_evalList hinner ((Form.hereditary_oneLine _ _).1 hform)

end

/-- **Evaluation breaks no line.** In an environment on one line, evaluation of a form on one line
ends with a value or a failure on one line, and leaves an environment on one line. -/
theorem oneLineAt_eval (fuel depth : Nat) :
    OneLineAt depth (eval .byIdentity fuel : Evaluator Nat σ) := by
  induction fuel generalizing depth with
  | zero => exact fun _ _ _ hm => hm
  | succ fuel ih => exact oneLineAt_evalForm (ih (depth + 1))

end Evaluation

end SubstLisp
