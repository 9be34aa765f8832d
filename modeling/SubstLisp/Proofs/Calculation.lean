import SubstLisp.Proofs.Numerals
import SubstLisp.Proofs.Policies
import SubstLisp.Proofs.Readable

/-!
# Calculations

Programs that calculate with integers: numerals of 64 bits, and the four arithmetic operators with
two operands each. What such a program comes to is said over the mathematical integers. Its steps
are the operations in it, left to right and operands first; a step goes wrong when it divides by
zero, or when its outcome needs more than 64 bits. The program gives the exact outcome if no step
goes wrong, and ends by the failure of the first one that does otherwise.

Neither the numerals nor the operators can be bound to anything else: a program comes to the same on
every machine.

## What is proved

* `Program.run_of_read` — a program whose text reads as one form comes to what the form evaluates to.
* `Evaluation.eval_calculation` — evaluation of a calculation, whatever the labels of its nodes.
* `Program.run_calculation` — from the text of a calculation to its outcome.
-/

namespace SubstLisp

variable {σ : Type}

/-! ### Words that can be read -/

theorem Reader.isAtomChar_of_isDigit {c : Char} (h : c.isDigit = true) :
    Reader.isAtomChar c = true := by
  have hcode : 48 ≤ c.toNat ∧ c.toNat ≤ 57 := by
    simpa [Char.isDigit, UInt32.le_iff_toNat_le] using h
  rw [Reader.isAtomChar_iff]
  refine ⟨?_, ?_, ?_, ?_, ?_⟩
  · rw [Bool.eq_false_iff]
    simp only [Text.isBlank, Text.blankRanges, List.any_cons, List.any_nil, Bool.or_eq_true,
      Bool.and_eq_true, decide_eq_true_eq, ne_eq, Bool.false_eq_true, or_false]
    omega
  all_goals
    rintro rfl
    exact absurd hcode (by decide)

/-- A word of plain characters that does not start with a quotation mark can be written as an
atom. -/
theorem isWord_of_all {word : String} (hne : word ≠ "")
    (hplain : ∀ c ∈ word.toList, Reader.isAtomChar c = true)
    (hmark : word.toList.head? ≠ some '\'') : IsWord word :=
  ⟨hne, fun c hc => Reader.isAtomChar_iff.1 (hplain c hc), fun h => absurd h hmark⟩

theorem isWord_numeral (z : Int) : IsWord (Numeral.text z) := by
  have hplain : ∀ c ∈ (Numeral.text z).toList, Reader.isAtomChar c = true ∧ c ≠ '\'' := by
    intro c hc
    rw [Numeral.text, String.toList_ofList] at hc
    rcases Numeral.isDigit_or_of_mem_chars hc with hdigit | rfl
    · refine ⟨Reader.isAtomChar_of_isDigit hdigit, ?_⟩
      rintro rfl
      cases hdigit
    · decide
  refine isWord_of_all ?_ (fun c hc => (hplain c hc).1) ?_
  · simp [Numeral.text, Numeral.chars_ne_nil]
  · intro hmark
    exact (hplain _ (List.mem_of_mem_head? hmark)).2 rfl

/-! ### Calculations -/

/-- An expression of numerals and arithmetic operators. -/
inductive Calculation where
  /-- A numeral. -/
  | literal (n : Int64)
  /-- An operator with its two operands. -/
  | apply (op : Arithmetic) (a b : Calculation)

namespace Calculation

/-- The calculation as it is written in a program. -/
def text : Calculation → String
  | literal n => Numeral.text n.toInt
  | apply op a b => "(" ++ op.symbol ++ " " ++ a.text ++ " " ++ b.text ++ ")"

/-- How deep operators nest. -/
def depth : Calculation → Nat
  | literal _ => 0
  | apply _ a b => max a.depth b.depth + 1

/-- The outcome over the integers, with division rounded toward zero; where there is a division by
zero, it does not matter. -/
def value : Calculation → Int
  | literal n => n.toInt
  | apply .add a b => a.value + b.value
  | apply .sub a b => a.value - b.value
  | apply .mul a b => a.value * b.value
  | apply .div a b => a.value.tdiv b.value

/-- The operations in a calculation in the order in which they are done: those in the first operand,
those in the second, and the operation itself. -/
def steps : Calculation → List Calculation
  | literal _ => []
  | apply op a b => a.steps ++ b.steps ++ [apply op a b]

/-- What goes wrong when the operation of a calculation is done on the exact outcomes of its
operands, and in which operation it is. -/
def fault? : Calculation → Option Failure
  | literal _ => none
  | apply op a b =>
    if op = .div ∧ b.value = 0 then some ⟨.evaluation .divisionByZero, some op.symbol⟩
    else if Numeral.InWord (apply op a b).value then none
    else some ⟨.evaluation (.overflow op.symbol), some op.symbol⟩

/-- The failure of the first step that goes wrong. -/
def failure? (e : Calculation) : Option Failure := e.steps.findSome? fault?

/-- The calculation as a form. -/
def form : Calculation → Tree
  | literal n => .atom () (Numeral.text n.toInt)
  | apply op a b => .list () [.atom () op.symbol, a.form, b.form]

theorem text_form (e : Calculation) : e.form.text = e.text := by
  induction e with
  | literal n => rfl
  | apply op a b iha ihb => simp [form, text, Form.text, iha, ihb, String.append_assoc]

/-- Forms that differ from the form of an operation in labels only. -/
theorem of_erase_apply {ι : Type} {op : Arithmetic} {a b : Calculation} {f : Form ι}
    (h : f.erase = (apply op a b).form) : ∃ label label' fa fb,
      f = .list label [.atom label' op.symbol, fa, fb] ∧ fa.erase = a.form ∧ fb.erase = b.form := by
  obtain ⟨label, items, rfl, hitems⟩ := Form.erase_eq_list_iff.1 h
  obtain ⟨head, _, rfl, hhead, hoperands⟩ := List.map_eq_cons_iff.1 hitems
  obtain ⟨label', rfl⟩ := Form.erase_eq_atom_iff.1 hhead
  obtain ⟨fa, _, rfl, ha, hrest⟩ := List.map_eq_cons_iff.1 hoperands
  obtain ⟨fb, rfl, hb⟩ := List.map_eq_singleton_iff.1 hrest
  exact ⟨label, label', fa, fb, rfl, ha, hb⟩

/-! ### Calculations are readable -/

theorem isWord_symbol (op : Arithmetic) : IsWord op.symbol := by
  have hplain : op.symbol.toList.all Reader.isAtomChar = true := by cases op <;> decide
  refine isWord_of_all ?_ (List.all_eq_true.1 hplain) ?_
  · cases op <;> decide
  · cases op <;> decide

/-- A calculation can be read where operators nest within the limit. -/
theorem readable_form {limit enclosing : Nat} (e : Calculation) (h : enclosing + e.depth ≤ limit) :
    e.form.Readable limit enclosing := by
  induction e generalizing enclosing with
  | literal n =>
    refine ⟨isWord_numeral _, ?_⟩
    intro hmark
    have hword := Numeral.word?_text n
    rw [hmark] at hword
    exact absurd hword (nofun : none ≠ some n)
  | apply op a b iha ihb =>
    simp only [depth] at h
    refine ⟨by omega, ?_⟩
    have hsymbol : op.symbol ≠ "'" := by cases op <;> decide
    simp only [Form.ReadableAll, and_true]
    exact ⟨⟨isWord_symbol op, fun hmark => absurd hmark hsymbol⟩, iha (by omega), ihb (by omega)⟩

/-! ### Steps -/

theorem failure?_apply (op : Arithmetic) (a b : Calculation) :
    (apply op a b).failure? = a.failure?.or (b.failure?.or (apply op a b).fault?) := by
  simp [failure?, steps, List.findSome?_append]

/-- Where no step goes wrong the exact outcome has 64 bits. -/
theorem inWord_value {e : Calculation} (h : e.failure? = none) : Numeral.InWord e.value := by
  cases e with
  | literal n => exact Numeral.inWord_toInt n
  | apply op a b =>
    rw [failure?_apply, Option.or_eq_none_iff, Option.or_eq_none_iff] at h
    obtain ⟨-, -, hfault⟩ := h
    simp only [fault?] at hfault
    split at hfault
    · cases hfault
    · split at hfault
      · assumption
      · cases hfault

theorem exact_value (op : Arithmetic) (a b : Calculation) :
    op.exact a.value b.value =
      if op = .div ∧ b.value = 0 then none else some (apply op a b).value := by
  cases op <;> simp [Arithmetic.exact, value]

/-- The number that stands for the exact outcome, if it has 64 bits. -/
def number (e : Calculation) : Int64 := Int64.ofInt e.value

theorem toInt_number {e : Calculation} (h : e.failure? = none) : e.number.toInt = e.value :=
  Int64.toInt_ofInt_of_le (inWord_value h).1 (Int.lt_add_one_of_le (inWord_value h).2)

/-- An operation on operands in which nothing goes wrong. -/
theorem arithmetic_number {ι : Type} (op : Arithmetic) {a b : Calculation}
    (ha : a.failure? = none) (hb : b.failure? = none) :
    op.apply (.number a.number : Value ι) (.number b.number) =
      match (apply op a b).fault? with
      | some failure => .error failure.error
      | none => .ok (.number (apply op a b).number) := by
  simp only [Arithmetic.apply, Arithmetic.operand, Value.number?, bind, Except.bind,
    Arithmetic.compute, toInt_number ha, toInt_number hb, exact_value, fault?]
  by_cases hzero : op = .div ∧ b.value = 0
  · simp only [if_pos hzero]
  · simp only [if_neg hzero, Numeral.ofInt?]
    by_cases hword : Numeral.InWord (apply op a b).value
    · simp only [if_pos hword]
      rfl
    · simp only [if_neg hword]

/-- No step goes wrong when no divisor is zero and no outcome needs more than 64 bits. -/
theorem failure?_eq_none_iff {e : Calculation} : e.failure? = none ↔
    ∀ op a b, apply op a b ∈ e.steps →
      (op = .div → b.value ≠ 0) ∧ Numeral.InWord (apply op a b).value := by
  have hfault : ∀ op a b, (apply op a b).fault? = none ↔
      (op = .div → b.value ≠ 0) ∧ Numeral.InWord (apply op a b).value := by
    intro op a b
    simp only [fault?]
    grind
  simp only [failure?, List.findSome?_eq_none_iff]
  constructor
  · intro h op a b hstep
    exact (hfault op a b).1 (h _ hstep)
  · intro h step hstep
    cases step with
    | literal n => rfl
    | apply op a b => exact (hfault op a b).2 (h op a b hstep)

/-! ### Failures of steps -/

theorem exists_of_failure? {e : Calculation} {failure : Failure} (h : e.failure? = some failure) :
    ∃ step ∈ e.steps, step.fault? = some failure := by
  obtain ⟨before, step, after, hsteps, hfault, -⟩ := List.findSome?_eq_some_iff.1 h
  exact ⟨step, by simp [hsteps], hfault⟩

/-- What a failing operation reports. -/
theorem message_fault {op : Arithmetic} {a b : Calculation} {failure : Failure}
    (h : (apply op a b).fault? = some failure) : failure.message =
      "EvaluationError: " ++
        (if op = .div ∧ b.value = 0 then "division by zero"
          else "integer overflow in " ++ op.symbol) ++
        "\n  Context: while evaluating (" ++ op.symbol ++ " ...)" := by
  simp only [fault?] at h
  split at h
  · next hzero =>
    cases h
    rw [Failure.message_some, if_pos hzero]
    rfl
  · next hzero =>
    split at h <;> cases h
    rw [Failure.message_some, if_neg hzero]
    rfl

/-- The failure of an operation is its error on the way out of it. -/
theorem within_fault {op : Arithmetic} {a b : Calculation} {failure : Failure}
    (h : (apply op a b).fault? = some failure) :
    Failure.within op.symbol ⟨failure.error, none⟩ = failure := by
  simp only [fault?] at h
  split at h
  · cases h
    rfl
  · split at h <;> cases h
    cases op <;> rfl

/-- The failure of a step takes no further note. -/
theorem within_failure {e : Calculation} {failure : Failure} (h : e.failure? = some failure)
    (operator : String) : failure.within operator = failure := by
  obtain ⟨step, -, hfault⟩ := exists_of_failure? h
  cases step with
  | literal n => cases hfault
  | apply op a b => rw [← within_fault hfault, Failure.within_within]

end Calculation

/-! ### Evaluation -/

namespace Evaluation

variable {ι : Type} {c : Convention ι} {m : Machine ι σ}

/-- Without a limit the check of the depth passes. -/
theorem checkDepth_of_maxDepth_eq_none (h : m.environment.maxDepth = none) (depth : Nat) :
    checkDepth depth m = .ok () m := by
  rw [checkDepth_eq, h]

/-- An atom that is a numeral has the number as its value. -/
theorem evalForm_numeral {depth : Nat} (h : checkDepth depth m = .ok () m) (inner : Evaluator ι σ)
    (label : ι) (n : Int64) :
    evalForm c inner depth (.atom label (Numeral.text n.toInt)) m = .ok (.number n) m := by
  simp only [evalForm, bind, EStateM.bind, h, evalAtom, Numeral.word?_text]
  rfl

/-- An arithmetic operator evaluates its two operands and computes. -/
theorem evalForm_arithmetic (h : m.environment.maxDepth = none) (inner : Evaluator ι σ)
    (depth : Nat) (label label' : ι) (op : Arithmetic) (a b : Form ι) :
    evalForm c inner depth (.list label [.atom label' op.symbol, a, b]) m =
      Run.mapFailure (c.note op.symbol)
        (do
          let u ← inner (depth + 1) a
          let v ← inner (depth + 1) b
          Run.ofExcept (op.apply u v)) m := by
  have hfind : Operator.find? op.symbol = some ⟨op.symbol, .arithmetic op, .exactly 2, .front⟩ := by
    cases op <;> rfl
  simp only [evalForm, bind, EStateM.bind, checkDepth_of_maxDepth_eq_none h, evalList, applyNamed,
    hfind]
  rfl

/-- **Evaluation of a calculation** comes to its outcome and leaves the machine as it is. -/
theorem eval_calculation (hc : c.note = Failure.within) (h : m.environment.maxDepth = none)
    {e : Calculation} {f : Form ι} (hf : f.erase = e.form) {fuel depth : Nat}
    (hfuel : e.depth < fuel) : eval c fuel depth f m =
      match e.failure? with
      | none => .ok (.number e.number) m
      | some failure => .error (.failed failure) m := by
  obtain ⟨fuel, rfl⟩ := Nat.exists_eq_add_of_le' (Nat.lt_of_le_of_lt (Nat.zero_le _) hfuel)
  induction e generalizing f fuel depth with
  | literal n =>
    obtain ⟨label, rfl⟩ := Form.erase_eq_atom_iff.1 hf
    have hnumber : (Calculation.literal n).number = n := Int64.ofInt_toInt n
    rw [eval, evalForm_numeral (checkDepth_of_maxDepth_eq_none h depth), hnumber]
    rfl
  | apply op a b iha ihb =>
    obtain ⟨label, label', fa, fb, rfl, ha, hb⟩ := Calculation.of_erase_apply hf
    simp only [Calculation.depth] at hfuel
    obtain ⟨fuel, rfl⟩ : ∃ n, fuel = n + 1 := Nat.exists_eq_succ_of_ne_zero (by omega)
    have hfirst := @iha fa ha (depth + 1) fuel (by omega)
    have hsecond := @ihb fb hb (depth + 1) fuel (by omega)
    rw [eval, evalForm_arithmetic h, Calculation.failure?_apply, hc]
    simp only [Run.mapFailure, bind, EStateM.bind]
    cases hfa : a.failure? with
    | some failure =>
      rw [hfa] at hfirst
      simp only [hfirst, Option.some_or, Calculation.within_failure hfa]
    | none =>
      rw [hfa] at hfirst
      cases hfb : b.failure? with
      | some failure =>
        rw [hfb] at hsecond
        simp only [hfirst, hsecond, Option.none_or, Option.some_or, Calculation.within_failure hfb]
      | none =>
        rw [hfb] at hsecond
        simp only [hfirst, hsecond, Option.none_or, Calculation.arithmetic_number op hfa hfb]
        cases hfault : (Calculation.apply op a b).fault? with
        | none => rfl
        | some failure =>
          have hwithin := Calculation.within_fault hfault
          exact congrArg (fun failure => EStateM.Result.error (Stop.failed failure) m) hwithin

end Evaluation

/-! ### Running a text -/

namespace Program

variable {ι : Type}

/-- A program that is one form is evaluated at the depth of the top level. -/
theorem run_of_read (c : Convention ι) (fuel : Nat) {source : String} {tree : Tree}
    (h : Reader.read Reader.defaultLimit source = .ok [tree]) (m : Machine ι σ) :
    ∃ form next, form.erase = tree ∧
      run c fuel source m = Evaluation.eval c fuel 0 form (m.afterReading next 1) := by
  obtain ⟨forms, next, htrees, hread⟩ := read_of_read c h m
  obtain ⟨form, rfl, htree⟩ := List.map_eq_singleton_iff.1 htrees
  refine ⟨form, next, htree, ?_⟩
  rw [run_eq_of_read hread, List.foldlM_cons]
  simp only [List.foldlM_nil, bind_pure]
  rfl

open Calculation in
/-- **Calculations are exact.** The text of a calculation, run on any machine without a depth limit,
gives the outcome over the integers if no step goes wrong, and the failure of the first step that
does otherwise; nothing is changed but that the reading is reported. No step goes wrong exactly when
no divisor is zero and no outcome on the way needs more than 64 bits. -/
theorem run_calculation (e : Calculation) (m : Machine Nat σ) {fuel : Nat}
    (hdepth : e.depth ≤ Reader.defaultLimit) (hfuel : e.depth < fuel)
    (hlimit : m.environment.maxDepth = none) :
    (e.failure? = none ↔ ∀ op a b, apply op a b ∈ e.steps →
      (op = .div → b.value ≠ 0) ∧ Numeral.InWord (apply op a b).value) ∧
    ∃ m' : Machine Nat σ, m'.environment = m.environment ∧ m'.world.host = m.world.host ∧
      m'.events = m.events.push (.read 1) ∧
      match e.failure? with
      | none => ∃ n, n.toInt = e.value ∧ run .byIdentity fuel e.text m = .ok (.number n) m'
      | some failure => run .byIdentity fuel e.text m = .error (.failed failure) m' ∧
        ∃ before op a b after, e.steps = before ++ apply op a b :: after ∧
          (∀ step ∈ before, step.fault? = none) ∧ (apply op a b).fault? = some failure ∧
          failure.message = "EvaluationError: " ++
              (if op = .div ∧ b.value = 0 then "division by zero"
                else "integer overflow in " ++ op.symbol) ++
              "\n  Context: while evaluating (" ++ op.symbol ++ " ...)" := by
  refine ⟨failure?_eq_none_iff, ?_⟩
  have hreadable : ∀ f ∈ [e.form], f.Readable Reader.defaultLimit 0 := by
    simpa using readable_form e (by simpa using hdepth)
  have hread := Reader.read_of_spaced hreadable (.one e.form.text)
  obtain ⟨form, next, hform, hrun⟩ := run_of_read .byIdentity fuel hread m
  rw [Form.erase_tree] at hform
  have heval : Evaluation.eval .byIdentity fuel 0 form (m.afterReading next 1) = _ :=
    Evaluation.eval_calculation (m := m.afterReading next 1) rfl hlimit hform hfuel
  rw [text_form, heval] at hrun
  refine ⟨m.afterReading next 1, rfl, rfl, rfl, ?_⟩
  cases hfailure : e.failure? with
  | none =>
    rw [hfailure] at hrun
    exact ⟨e.number, toInt_number hfailure, hrun⟩
  | some failure =>
    rw [hfailure] at hrun
    refine ⟨hrun, ?_⟩
    obtain ⟨before, step, after, hsteps, hfault, hbefore⟩ := List.findSome?_eq_some_iff.1 hfailure
    cases step with
    | literal n => cases hfault
    | apply op a b => exact ⟨before, op, a, b, after, hsteps, hbefore, hfault, message_fault hfault⟩

/-- In the sum of the quotients `-2 ^ 63 / -1` and `1 / 0` the overflow comes first. -/
def twoFaults : Calculation :=
  .apply .add (.apply .div (.literal Int64.minValue) (.literal (-1)))
    (.apply .div (.literal 1) (.literal 0))

/-- The overflow in the first operand hides the division by zero in the second, also where the sign
of the sum is bound to a string and the numeral of one to a number. -/
theorem run_calculation_twoFaults :
    let m : Machine Nat Unit :=
      { Machine.initial () with
        environment := (Environment.empty.define "+" (.value (.string "text"))).define "1"
          (.value (.number 0)) }
    twoFaults.depth ≤ Reader.defaultLimit ∧ twoFaults.depth < 300 ∧
      m.environment.maxDepth = none ∧
      twoFaults.text = "(+ (/ -9223372036854775808 -1) (/ 1 0))" ∧
      ∃ m' : Machine Nat Unit, m'.environment = m.environment ∧ m'.world.host = m.world.host ∧
        m'.events = m.events.push (.read 1) ∧
        run .byIdentity 300 twoFaults.text m =
          .error (.failed ⟨.evaluation (.overflow "/"), some "/"⟩) m' := by
  intro m
  refine ⟨by decide, by decide, rfl, by decide, ?_⟩
  obtain ⟨-, m', henvironment, hhost, hevents, hrun⟩ :=
    run_calculation twoFaults m (by decide) (show _ < 300 by decide) rfl
  exact ⟨m', henvironment, hhost, hevents, hrun.1⟩

end Program
end SubstLisp
