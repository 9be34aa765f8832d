import SubstLisp.Proofs.OneLine
import SubstLisp.Proofs.Propagation

/-!
# Notes about the operator in progress

A type or evaluation error in the application of a symbol always comes out of some application, and
its message is to say of which: of the innermost one. Whether it does is decided by the message
alone. An error whose wording holds the mark of a note is taken for one that has its note already,
and the wording of an error may hold any text of the program: a string literal, a symbol, a form. So
a program that spells the mark goes without notes.

Without a line break nobody spells the mark. In a program on one line, where names are bound to
things on one line, every such error has its note, and has it once.

## What is proved

* `Text.occurrences_append` — occurrences of a text that begins with a line break and has no other.
* `Evaluation.fault_noted` — what a type or evaluation error in the application of a symbol says.
* `Evaluation.spelledMark_unnoted` — an error whose note is missing.
-/

namespace SubstLisp

variable {ι σ : Type}

/-! ### Occurrences of a text -/

namespace Text

/-- At how many places of a text another one begins. -/
def occurrences (part : List Char) : List Char → Nat
  | [] => if part.isEmpty then 1 else 0
  | c :: cs => (if part.isPrefixOf (c :: cs) then 1 else 0) + occurrences part cs

/-- A text occurs in another exactly when it begins at some place of it. -/
theorem occursIn_iff (part cs : List Char) : occursIn part cs = true ↔ 0 < occurrences part cs := by
  induction cs with
  | nil => cases part <;> simp [occursIn, occurrences]
  | cons c cs ih =>
    rw [occursIn, Bool.or_eq_true, ih, occurrences]
    split
    · next hbegins => simp only [hbegins, true_or, true_iff]; omega
    · next hbegins => simp [hbegins]

/-- A text without a character is a prefix of what stands before the character, or of nothing. -/
theorem isPrefixOf_append_cons {c : Char} {part : List Char} (h : c ∉ part)
    (before after : List Char) :
    part.isPrefixOf (before ++ c :: after) = part.isPrefixOf before := by
  induction part generalizing before with
  | nil => simp
  | cons p part ih =>
    obtain ⟨hp, hpart⟩ := List.ne_and_not_mem_of_not_mem_cons h
    cases before with
    | nil => simp [List.isPrefixOf, Ne.symm hp]
    | cons b before => simp [List.isPrefixOf, ih hpart]

variable {tail : List Char} (htail : '\n' ∉ tail)

include htail

/-- What begins with a line break and has no other does not occur across a line break. -/
theorem occurrences_append (before after : List Char) :
    occurrences ('\n' :: tail) (before ++ '\n' :: after) =
      occurrences ('\n' :: tail) before + occurrences ('\n' :: tail) ('\n' :: after) := by
  induction before with
  | nil => simp [occurrences]
  | cons c before ih =>
    have hbegins : ('\n' :: tail).isPrefixOf (c :: before ++ '\n' :: after) =
        ('\n' :: tail).isPrefixOf (c :: before) := by
      simp [List.isPrefixOf, isPrefixOf_append_cons htail]
    have hcons (cs : List Char) : occurrences ('\n' :: tail) (c :: cs) =
        (if ('\n' :: tail).isPrefixOf (c :: cs) then 1 else 0) +
          occurrences ('\n' :: tail) cs := rfl
    rw [List.cons_append, hcons, ← List.cons_append, hbegins, ih, hcons, Nat.add_assoc]

omit htail

/-- What begins with a line break begins nowhere in a text without one. -/
theorem occurrences_append_of_not_mem {before : List Char} (h : '\n' ∉ before) (after : List Char) :
    occurrences ('\n' :: tail) (before ++ after) = occurrences ('\n' :: tail) after := by
  induction before with
  | nil => rfl
  | cons c before ih =>
    obtain ⟨hc, hbefore⟩ := List.ne_and_not_mem_of_not_mem_cons h
    rw [List.cons_append, occurrences, ih hbefore]
    simp [hc]

theorem occurrences_of_not_mem {cs : List Char} (h : '\n' ∉ cs) :
    occurrences ('\n' :: tail) cs = 0 := by
  have hnil := @occurrences_append_of_not_mem tail cs h []
  rwa [List.append_nil] at hnil

end Text

open Text (OneLine)

/-! ### Marks -/

/-- At how many places of a text the mark of a note begins. -/
def marks (text : String) : Nat := Text.occurrences contextMark.toList text.toList

/-- The mark begins with its only line break. -/
theorem contextMark_eq : contextMark.toList = '\n' :: "  Context: ".toList ∧
    '\n' ∉ "  Context: ".toList := by decide

/-- A text on one line holds no mark. -/
theorem marks_of_oneLine {text : String} (h : OneLine text) : marks text = 0 := by
  rw [marks, contextMark_eq.1]
  exact Text.occurrences_of_not_mem h

/-- What stands in front of a text on the same line holds no mark. -/
theorem marks_append_left {before : String} (h : OneLine before) (text : String) :
    marks (before ++ text) = marks text := by
  rw [marks, marks, String.toList_append, contextMark_eq.1]
  exact Text.occurrences_append_of_not_mem h text.toList

/-- A note puts one mark more into a text. -/
theorem marks_append_contextNote (text : String) {operator : String} (h : OneLine operator) :
    marks (text ++ contextNote operator) = marks text + 1 := by
  obtain ⟨hmark, hbreak⟩ := contextMark_eq
  have hrest : OneLine ("while evaluating (" ++ operator ++ " ...)") := by
    simpa [OneLine] using h
  have hnote : (contextNote operator).toList = '\n' :: ("  Context: ".toList ++
      ("while evaluating (" ++ operator ++ " ...)").toList) := by
    rw [← List.cons_append, ← hmark, ← String.toList_append, contextNote]
    simp only [String.append_assoc]
  have hone :
      Text.occurrences ('\n' :: "  Context: ".toList) (contextNote operator).toList = 1 := by
    rw [hnote, Text.occurrences, Text.occurrences_append_of_not_mem hbreak,
      Text.occurrences_of_not_mem hrest]
    simp
  rw [marks, String.toList_append, hmark, hnote, Text.occurrences_append hbreak, ← hnote, hone,
    marks, hmark]

/-- A type or evaluation error takes a note exactly when its wording holds no mark of one. -/
theorem Error.takesContext_iff {error : Error} (h : error.isFault = true) :
    error.takesContext = true ↔ marks error.message = 0 := by
  have hdetail (detail : String) :
      (!occursIn contextMark.toList detail.toList) = true ↔ marks detail = 0 := by
    rw [Bool.not_eq_true', ← Bool.not_eq_true, Text.occursIn_iff, Nat.not_lt, Nat.le_zero, marks]
  cases error with
  | typing fault =>
    show _ ↔ marks ("TypeError: " ++ fault.detail) = 0
    rw [marks_append_left (by decide)]
    exact hdetail fault.detail
  | evaluation fault =>
    show _ ↔ marks ("EvaluationError: " ++ fault.detail) = 0
    rw [marks_append_left (by decide)]
    exact hdetail fault.detail
  | _ => cases h

/-! ### Faults and their notes -/

/-- What a failure says that names an operator exactly if its error takes a note. -/
theorem Failure.message_of_operator? {failure : Failure} (hfault : failure.error.isFault = true)
    {operator : String}
    (h : failure.operator? = if failure.error.takesContext then some operator else none) :
    failure.message = if marks failure.error.message = 0 then
      failure.error.message ++ contextNote operator else failure.error.message := by
  rw [message, h]
  by_cases hmarks : marks failure.error.message = 0
  · rw [if_pos ((Error.takesContext_iff hfault).2 hmarks), if_pos hmarks]
    rfl
  · rw [if_neg fun htakes => hmarks ((Error.takesContext_iff hfault).1 htakes), if_neg hmarks]
    simp

namespace Evaluation

/-- **Faults and their notes.** A type or evaluation error in the application of a symbol to
operands comes out of some application. The innermost one in progress where the error was raised is
noted exactly if the wording of the error holds no mark of a note. On one line this is always so: a
form on one line, in an environment on one line, fails by such an error with its note and with one
mark only. -/
theorem fault_noted {fuel depth label headLabel : Nat} {name : String} {operands : List Node}
    {m m' : Machine Nat σ} {failure : Failure}
    (heval : eval .byIdentity fuel depth (.list label (.atom headLabel name :: operands)) m =
      .error (.failed failure) m') (hfault : failure.error.isFault = true) :
    ∃ operator outside,
      Watched.eval Convention.byIdentity.withoutNotes fuel depth
          (.list label (.atom headLabel name :: operands)) (m.watched {}) =
        .error (.failed ⟨failure.error, none⟩) (m'.watched
          ⟨operator :: outside, [⟨failure.error, operator :: outside, m'⟩]⟩) ∧
      (failure.message = if marks failure.error.message = 0 then
        failure.error.message ++ contextNote operator else failure.error.message) ∧
      (m.environment.OneLine → OneLine (Form.list label (.atom headLabel name :: operands)).text →
        failure.message = failure.error.message ++ contextNote operator ∧
        marks failure.message = 1) := by
  obtain ⟨operator, outside, hwatched, hnoted⟩ :=
    Propagation.ends_application Convention.notes_byIdentity heval hfault
  have hmessage := Failure.message_of_operator? hfault hnoted
  refine ⟨operator, outside, hwatched, hmessage, fun hm hform => ?_⟩
  have hline := oneLineAt_eval fuel depth _ hform m hm
  rw [heval] at hline
  have hmarks := marks_of_oneLine (hline.2.error.message hfault)
  have hoperator : OneLine operator := by
    refine hline.2.operator operator ?_
    rw [hnoted, if_pos ((Error.takesContext_iff hfault).2 hmarks)]
  rw [if_pos hmarks] at hmessage
  exact ⟨hmessage, by rw [hmessage, marks_append_contextNote _ hoperator, hmarks]⟩

/-- The form `(list (+ 1 "a"))`. -/
def unevenSum : Node :=
  .list 0 [.atom 1 "list", .list 2 [.atom 3 "+", .atom 4 "1", .string 5 "a"]]

/-- The error comes out of the sum and the list; the sum is noted. -/
theorem fault_noted_unevenSum : ∃ (failure : Failure) (m : Machine Nat Unit),
    eval .byIdentity 5 0 unevenSum (Machine.initial ()) = .error (.failed failure) m ∧
      failure.message =
        "TypeError: + expects numbers, got string\n  Context: while evaluating (+ ...)" ∧
      marks failure.message = 1 := by
  have hfailure : (Ending.failure? (eval .byIdentity 5 0 unevenSum (Machine.initial ()))).map
      (fun failure => (failure.error.isFault, failure.message)) =
        some (true,
          "TypeError: + expects numbers, got string\n  Context: while evaluating (+ ...)") := by
    decide +kernel
  obtain ⟨failure, m, heval, hfacts⟩ := Ending.of_failure?_map hfailure
  obtain ⟨hfault, hmessage⟩ := Prod.mk.inj hfacts
  obtain ⟨_, _, -, -, hone⟩ := fault_noted heval hfault
  exact ⟨failure, m, heval, hmessage, (hone Environment.oneLine_empty (by decide)).2⟩

/-- The form `(setq "\n  Context: " 1)`, in which the first operand spells the mark. -/
def spelledMark : Node :=
  .list 0 [.atom 1 "setq", .string 2 "\n  Context: ", .atom 3 "1"]

/-- A string literal that spells the mark of a note keeps the note away. -/
theorem spelledMark_unnoted : ∃ (failure : Failure) (m : Machine Nat Unit),
    eval .byIdentity 5 0 spelledMark (Machine.initial ()) = .error (.failed failure) m ∧
      failure.error.isFault = true ∧
      failure.message = "TypeError: setq expects a symbol, got \"\n  Context: \"" ∧
      ∀ text operator, failure.message ≠ text ++ contextNote operator := by
  have hfailure : (Ending.failure? (eval .byIdentity 5 0 spelledMark (Machine.initial ()))).map
      (fun failure => (failure.error.isFault, failure.message)) =
        some (true, "TypeError: setq expects a symbol, got \"\n  Context: \"") := by
    decide +kernel
  obtain ⟨failure, m, heval, hfacts⟩ := Ending.of_failure?_map hfailure
  obtain ⟨hfault, hmessage⟩ := Prod.mk.inj hfacts
  refine ⟨failure, m, heval, hfault, hmessage, fun text operator heq => ?_⟩
  -- A note ends with a parenthesis, this message with a quotation mark.
  have hnote : (text ++ contextNote operator).toList.getLast? = some ')' := by
    simp [contextNote, ← List.append_assoc, List.getLast?_append]
  rw [← heq, hmessage] at hnote
  exact absurd hnote (by decide)

end Evaluation

end SubstLisp
