import SubstLisp.Form.Diagnosis

/-!
# Scanning forms

A reader in one pass from left to right that never goes back, for texts that come piece by piece.
Its state is what has been read so far: the forms that are complete, the lists and quotations that
are open, and the word in progress. A quotation mark is undecided until the next character shows
whether a datum follows it. A mishap is put into words by what it is and where, without regard to how
the reader comes upon it.

* `Scanner.step` takes one character, `Scanner.finish` takes the end of the text.
* `Scanner.feed_append`: scanning a text in two pieces is scanning it whole.
-/

namespace SubstLisp.Scanner

open Reader (isAtomChar)
open Text (isBlank)

/-- A mistake, the byte offset it is reported at and the character found there. -/
structure Mishap where
  /-- What is wrong. -/
  kind : Diagnosis.Kind
  /-- Where it is wrong. -/
  offset : Nat
  /-- What stands there. -/
  found : Char
  deriving DecidableEq, Repr

/-- A mishap in words, under a nesting limit. -/
def Mishap.wording (limit : Nat) (m : Mishap) : String :=
  match m.kind with
  | .tooDeeplyNested => s!"Expression too deeply nested (max depth: {limit})"
  | .unbalancedClose => s!"Unexpected ')' at position {m.offset}"
  | _ => if m.found = '(' then "Unterminated list: missing ')'" else "Unterminated string literal"

/-- What is told about a text in which there is a mishap. -/
def Mishap.diagnosis (limit : Nat) (source : List Char) (m : Mishap) : Diagnosis where
  kind := m.kind
  detail := m.wording limit
  context? := some (Text.excerpt source m.offset)
  found? := some (String.ofList [m.found])

/-- Something that is open. -/
inductive Frame where
  /-- A list, with the offset of its opening parenthesis and its items, the last one first. -/
  | list (opening : Nat) (items : List Tree)
  /-- A quotation that waits for its datum. -/
  | quote

/-- What the next character may belong to. -/
inductive Mode where
  /-- Nothing yet. -/
  | between
  /-- A comment. -/
  | comment
  /-- An atom with these characters, the last one first. -/
  | atom (chars : List Char)
  /-- A string literal with the offset of its opening mark and these characters, the last one
  first. -/
  | string (opening : Nat) (chars : List Char)
  /-- What follows a quotation mark. -/
  | quoteMark

/-- What has been read of a text. -/
structure State where
  /-- The number of bytes read. -/
  offset : Nat
  /-- The complete forms, the last one first. -/
  forms : List Tree
  /-- What is open, the innermost first. -/
  frames : List Frame
  /-- What the next character may belong to. -/
  mode : Mode

/-- The state before the first character. -/
def State.initial : State := ⟨0, [], [], .between⟩

/-- Adds a complete datum where it belongs: quotations that wait for it are complete as well. -/
def complete (datum : Tree) (forms : List Tree) : List Frame → List Tree × List Frame
  | [] => (datum :: forms, [])
  | .list opening items :: frames => (forms, .list opening (datum :: items) :: frames)
  | .quote :: frames => complete (.list () [.atom () "quote", datum]) forms frames

namespace State

/-- The state with a complete datum added and nothing in progress. -/
def add (s : State) (datum : Tree) : State :=
  let (forms, frames) := complete datum s.forms s.frames
  { s with forms, frames, mode := .between }

/-- The state with the word in progress ended by the next character. -/
def endWord (s : State) (next : Char) : State :=
  match s.mode with
  | .atom chars =>
    if isAtomChar next then s else s.add (.atom () (String.ofList chars.reverse))
  | .quoteMark =>
    if isBlank next || next == ')' || next == ';' then s.add (.atom () "'")
    else { s with frames := .quote :: s.frames, mode := .between }
  | _ => s

end State

/-- Opens something at a character, unless too much is open. -/
def openAt (limit : Nat) (s : State) (c : Char) (opened : State) : Except Mishap State :=
  if limit ≤ s.frames.length then .error ⟨.tooDeeplyNested, s.offset, c⟩ else .ok opened

/-- Takes a character that begins something new. -/
def begin (limit : Nat) (s : State) (c : Char) : Except Mishap State :=
  if isBlank c then .ok s
  else if c = ';' then .ok { s with mode := .comment }
  else if c = '(' then openAt limit s c { s with frames := .list s.offset [] :: s.frames }
  else if c = '\'' then openAt limit s c { s with mode := .quoteMark }
  else if c = '"' then .ok { s with mode := .string s.offset [] }
  else if c = ')' then
    match s.frames with
    | .list _ items :: frames => .ok ({ s with frames }.add (.list () items.reverse))
    | _ => .error ⟨.unbalancedClose, s.offset, c⟩
  else .ok { s with mode := .atom [c] }

/-- Takes a character that does not end the word in progress. -/
def advance (limit : Nat) (s : State) (c : Char) : Except Mishap State :=
  match s.mode with
  | .comment => .ok (if c = '\n' then { s with mode := .between } else s)
  | .atom chars => .ok { s with mode := .atom (c :: chars) }
  | .string opening chars =>
    .ok (if c = '"' then s.add (.string () (String.ofList chars.reverse))
      else { s with mode := .string opening (c :: chars) })
  | _ => begin limit s c

/-- Takes one character. -/
def step (limit : Nat) (s : State) (c : Char) : Except Mishap State := do
  let s ← advance limit (s.endWord c) c
  .ok { s with offset := s.offset + c.utf8Size }

/-- Takes the characters of a text. -/
def feed (limit : Nat) (s : State) (cs : List Char) : Except Mishap State := cs.foldlM (step limit) s

/-- The innermost list that is open. -/
def openList? : List Frame → Option Nat
  | [] => none
  | .list opening _ :: _ => some opening
  | .quote :: frames => openList? frames

/-- Takes the end of the text. -/
def finish (s : State) : Except Mishap (List Tree) :=
  match s.mode with
  | .string opening _ => .error ⟨.incomplete, opening, '"'⟩
  | _ =>
    let s := s.endWord ' '
    match openList? s.frames with
    | some opening => .error ⟨.incomplete, opening, '('⟩
    | none => .ok s.forms.reverse

/-- The forms of a text, nested to at most the given depth. -/
def scan (limit : Nat) (cs : List Char) : Except Mishap (List Tree) := do
  finish (← feed limit .initial cs)

/-- Scanning a text in two pieces is scanning it whole. -/
theorem feed_append (limit : Nat) (s : State) (a b : List Char) :
    feed limit s (a ++ b) = (do feed limit (← feed limit s a) b) := by
  simp [feed, List.foldlM_append]

end SubstLisp.Scanner
