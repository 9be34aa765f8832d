import SubstLisp.Form.Reader
import SubstLisp.Text.Excerpt

/-!
# Diagnoses

What a user is told about a text that cannot be read: the kind of the mistake, its wording, the
character found at its place and an excerpt of the text around it.

`Reader.read` is the reader of whole texts: it gives the forms of a text or the diagnosis of its
first fault.
-/

namespace SubstLisp

/-- The kinds of mistake in a text. -/
inductive Diagnosis.Kind where
  /-- Something unexpected stands in the text. -/
  | invalidSyntax
  /-- The text ends inside a list or a string literal. -/
  | incomplete
  /-- A closing parenthesis closes nothing. -/
  | unbalancedClose
  /-- The nesting limit is exceeded. -/
  | tooDeeplyNested
  deriving DecidableEq, Repr

/-- What is told about a text that cannot be read. -/
structure Diagnosis where
  /-- The kind of the mistake. -/
  kind : Diagnosis.Kind
  /-- The mistake in words. -/
  detail : String
  /-- An excerpt of the text around the mistake. -/
  context? : Option String
  /-- What stands at the place of the mistake. -/
  found? : Option String
  deriving DecidableEq, Repr

namespace Diagnosis

/-- A diagnosis whose excerpt is taken around a byte offset of the text. -/
def around (source : List Char) (offset : Nat) (kind : Kind) (detail : String)
    (found? : Option String) : Diagnosis :=
  { kind, detail, context? := some (Text.excerpt source offset), found? }

/-- The diagnosis in words, with what was found and the excerpt on lines of their own. -/
def message (d : Diagnosis) : String :=
  d.detail ++ (d.found?.elim "" ("\nFound: " ++ ·)) ++ (d.context?.elim "" ("\nContext: " ++ ·))

end Diagnosis

namespace Reader

/-- The kind of mistake that a fault is. -/
def Fault.kind : Fault → Diagnosis.Kind
  | .unclosedList => .incomplete
  | .unclosedString => .incomplete
  | .strayClose => .unbalancedClose
  | .tooDeep => .tooDeeplyNested
  | .noDatum => .invalidSyntax

/-- A fault in words, for a nesting limit and the byte offset of the fault. -/
def Fault.detail (limit offset : Nat) : Fault → String
  | .unclosedList => "Unterminated list: missing ')'"
  | .unclosedString => "Unterminated string literal"
  | .strayClose => s!"Unexpected ')' at position {offset}"
  | .tooDeep => s!"Expression too deeply nested (max depth: {limit})"
  | .noDatum => s!"Invalid syntax at position {offset}"

/-- The byte offset of a refusal in the text that is refused. -/
def Refusal.offset (source : List Char) (r : Refusal) : Nat :=
  Text.byteLength source - Text.byteLength r.rest

theorem Refusal.offset_append (before : List Char) (r : Refusal) :
    r.offset (before ++ r.rest) = Text.byteLength before := by
  rw [offset, Text.byteLength_append, Nat.add_sub_cancel_right]

/-- The character at the place of a refusal. -/
def Refusal.found? (r : Refusal) : Option String := r.rest.head?.map fun c => String.ofList [c]

/-- The diagnosis of a refusal of a text under a nesting limit. -/
def Refusal.diagnosis (limit : Nat) (source : List Char) (r : Refusal) : Diagnosis :=
  .around source (r.offset source) r.fault.kind (r.fault.detail limit (r.offset source)) r.found?

/-- How deep lists and quotations nest in a text unless another limit is set. -/
def defaultLimit : Nat := 256

/-- The forms of a text, or the diagnosis of its first fault. -/
def read (limit : Nat) (source : String) : Except Diagnosis (List Tree) :=
  (readForms limit source.toList).mapError (Refusal.diagnosis limit source.toList)

end Reader

end SubstLisp
