import SubstLisp.Form.Basic
import SubstLisp.Text.Blank

/-!
# Reading forms

A reader by recursive descent over the characters of a text.

* An atom is a longest run of characters that are neither blank nor one of `( ) " ;`.
* A string literal runs to the next quotation mark and is taken verbatim.
* A list stands between parentheses; a quotation mark `'` in front of a datum stands for the list
  of `quote` and the datum, and is an atom when no datum follows it at once.
* Blanks separate data, and so do comments, which run from `;` to the end of the line.

Lists and quotations nest no deeper than a given limit. The recursion is on the room that is left
under this limit, and each step along a list returns a shorter text, so every text is read or
refused; a refusal holds the text that begins at the character to blame.
-/

namespace SubstLisp.Reader

open Text (isBlank)

/-- Why a text is refused. -/
inductive Fault where
  /-- A list has no closing parenthesis. -/
  | unclosedList
  /-- A string literal has no closing quotation mark. -/
  | unclosedString
  /-- A closing parenthesis closes no list. -/
  | strayClose
  /-- Lists and quotations nest too deeply. -/
  | tooDeep
  /-- No datum starts where one is expected. -/
  | noDatum
  deriving DecidableEq, Repr

/-- A fault and the text from the character to blame on. -/
structure Refusal where
  /-- What is wrong. -/
  fault : Fault
  /-- The text from the place where it is wrong. -/
  rest : List Char
  deriving DecidableEq, Repr

/-- What is left of a text after a part of it has been read. -/
abbrev Rest (s : List Char) := { r : List Char // r.length < s.length }

/-- The outcome of looking for a datum at the start of a text: none starts there, or this one
does and that text follows it. -/
abbrev Found (s : List Char) := Option (Tree × Rest s)

/-- A way to look for a datum at the start of any text. -/
abbrev DatumReader := (s : List Char) → Except Refusal (Found s)

/-! ### Words -/

/-- Characters that an atom is made of. -/
def isAtomChar (c : Char) : Bool :=
  !isBlank c && !(c == '(' || c == ')' || c == '"' || c == ';')

theorem length_dropWhile_le {α : Type} (p : α → Bool) (s : List α) :
    (s.dropWhile p).length ≤ s.length :=
  (List.dropWhile_suffix p).length_le

/-- The text from its first character that is neither blank nor part of a comment; the flag says
whether the text starts inside a comment. -/
def skipTriviaFrom : Bool → List Char → List Char
  | _, [] => []
  | true, c :: cs => skipTriviaFrom (c != '\n') cs
  | false, c :: cs =>
    if c = ';' then skipTriviaFrom true cs
    else if isBlank c then skipTriviaFrom false cs
    else c :: cs

/-- The text without the blanks and comments at its start. -/
def skipTrivia (s : List Char) : List Char := skipTriviaFrom false s

theorem skipTriviaFrom_suffix (inComment : Bool) (s : List Char) :
    skipTriviaFrom inComment s <:+ s := by
  induction s generalizing inComment with
  | nil => exact List.suffix_rfl
  | cons c cs ih =>
    cases inComment with
    | true => exact (ih _).trans (List.suffix_cons c cs)
    | false =>
      simp only [skipTriviaFrom]
      split
      · exact (ih true).trans (List.suffix_cons c cs)
      · split
        · exact (ih false).trans (List.suffix_cons c cs)
        · exact List.suffix_rfl

/-- Blanks and comments are skipped at the start. -/
theorem skipTrivia_suffix (s : List Char) : skipTrivia s <:+ s := skipTriviaFrom_suffix false s

theorem length_skipTrivia_le (s : List Char) : (skipTrivia s).length ≤ s.length :=
  (skipTrivia_suffix s).length_le

/-- Looks for an atom. -/
def readAtom : (s : List Char) → Found s
  | [] => none
  | c :: cs =>
    if isAtomChar c then
      some (.atom () (String.ofList (c :: cs.takeWhile isAtomChar)),
        ⟨cs.dropWhile isAtomChar, Nat.lt_succ_of_le (length_dropWhile_le _ cs)⟩)
    else none

/-- The rest of a string literal and the text after it, from the text after its opening quotation
mark. -/
def closeString (s : List Char) : Option (String × Rest s) :=
  match h : s.dropWhile (· != '"') with
  | [] => none
  | _ :: r =>
    some (String.ofList (s.takeWhile (· != '"')), ⟨r, by
      have := length_dropWhile_le (· != '"') s
      simp only [h, List.length_cons] at this
      omega⟩)

/-! ### Data -/

/-- Reads the items of a list up to its closing parenthesis, by a given way to read one; `opening`
is the text from the parenthesis that opens the list. -/
def readItems (datum : DatumReader) (opening s : List Char) :
    Except Refusal (List Tree × Rest s) :=
  match h : skipTrivia s with
  | [] => .error ⟨.unclosedList, opening⟩
  | c :: cs =>
    have shorter : cs.length < s.length := by
      have := length_skipTrivia_le s
      simp only [h, List.length_cons] at this
      omega
    if c = ')' then .ok ([], ⟨cs, shorter⟩)
    else do
      match ← datum (c :: cs) with
      | none => .error ⟨.noDatum, c :: cs⟩
      | some (item, ⟨r, hr⟩) =>
        have shorter' : r.length < s.length := by simp only [List.length_cons] at hr; omega
        let (items, ⟨r', hr'⟩) ← readItems datum opening r
        .ok (item :: items, ⟨r', Nat.lt_trans hr' shorter'⟩)
termination_by s.length

/-- Looks for a datum, given a way to read the data inside lists and quotations; without one they
would nest too deeply. -/
def readDatumWith (inner : Option DatumReader) : DatumReader
  | [] => .ok none
  | c :: cs =>
    if c = '\'' then
      match inner with
      | none => .error ⟨.tooDeep, c :: cs⟩
      | some datum => do
        match ← datum cs with
        | none => .ok (readAtom (c :: cs))
        | some (quoted, ⟨r, hr⟩) =>
          .ok (some (.list () [.atom () "quote", quoted], ⟨r, Nat.lt_succ_of_lt hr⟩))
    else if c = '(' then
      match inner with
      | none => .error ⟨.tooDeep, c :: cs⟩
      | some datum => do
        let (items, ⟨r, hr⟩) ← readItems datum (c :: cs) cs
        .ok (some (.list () items, ⟨r, Nat.lt_succ_of_lt hr⟩))
    else if c = '"' then
      match closeString cs with
      | none => .error ⟨.unclosedString, c :: cs⟩
      | some (literal, ⟨r, hr⟩) => .ok (some (.string () literal, ⟨r, Nat.lt_succ_of_lt hr⟩))
    else .ok (readAtom (c :: cs))

/-- Looks for a datum in which lists and quotations nest to at most the given depth. -/
def readDatum : Nat → DatumReader
  | 0 => readDatumWith none
  | room + 1 => readDatumWith (some (readDatum room))

/-! ### Programs -/

/-- Reads a text as a sequence of forms, each nested to at most the given depth. -/
def readForms (limit : Nat) (s : List Char) : Except Refusal (List Tree) :=
  match h : skipTrivia s with
  | [] => .ok []
  | c :: cs =>
    if c = ')' then .error ⟨.strayClose, c :: cs⟩
    else do
      match ← readDatum limit (c :: cs) with
      | none => .error ⟨.noDatum, c :: cs⟩
      | some (form, ⟨r, hr⟩) =>
        have : r.length < s.length := by
          have := length_skipTrivia_le s
          simp only [h, List.length_cons] at this hr
          omega
        let forms ← readForms limit r
        .ok (form :: forms)
termination_by s.length

end SubstLisp.Reader
