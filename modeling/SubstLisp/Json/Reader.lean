import SubstLisp.Json.Basic

/-!
# Reading JSON

A strict reader: no blanks but space, tab, line feed and carriage return, no leading zeros, no
comments, no comma before a closing bracket, no control character in a string, no lone surrogate,
no number beyond the floating-point range, and nothing after the value. Arrays and objects nest no
deeper than a given limit.

The recursion is on the room that is left under this limit; along an array or an object each step
returns a shorter text.
-/

namespace SubstLisp.Json.Reader

/-- What is left of a text after a part of it has been read. -/
abbrev Rest (s : List Char) := { r : List Char // r.length < s.length }

/-- A way to read something at the start of any text. -/
abbrev Reads (α : Type) := (s : List Char) → Option (α × Rest s)

/-- Blanks between tokens. -/
def isBlank (c : Char) : Bool := c == ' ' || c == '\t' || c == '\n' || c == '\r'

/-- The text without the blanks at its start. -/
def skipBlanks (s : List Char) : List Char := s.dropWhile isBlank

theorem length_lt_cons {c : Char} {r s : List Char} (h : r.length < s.length) :
    r.length < (c :: s).length := Nat.lt_succ_of_lt h

theorem length_skipBlanks_le (s : List Char) : (skipBlanks s).length ≤ s.length :=
  (List.dropWhile_suffix isBlank).length_le

/-! ### Strings -/

/-- The number that a hexadecimal digit stands for. -/
def hexDigit? (c : Char) : Option Nat :=
  if '0' ≤ c ∧ c ≤ '9' then some (c.toNat - '0'.toNat)
  else if 'a' ≤ c ∧ c ≤ 'f' then some (c.toNat - 'a'.toNat + 10)
  else if 'A' ≤ c ∧ c ≤ 'F' then some (c.toNat - 'A'.toNat + 10)
  else none

/-- The number that four hexadecimal digits stand for. -/
def hexQuad? (a b c d : Char) : Option Nat := do
  let a ← hexDigit? a
  let b ← hexDigit? b
  let c ← hexDigit? c
  let d ← hexDigit? d
  some (((a * 16 + b) * 16 + c) * 16 + d)

/-- A code unit that begins a pair of surrogates. -/
def isHighSurrogate (unit : Nat) : Bool := decide (0xD800 ≤ unit) && decide (unit < 0xDC00)

/-- A code unit that ends a pair of surrogates. -/
def isLowSurrogate (unit : Nat) : Bool := decide (0xDC00 ≤ unit) && decide (unit < 0xE000)

/-- The character that a letter after a backslash stands for. -/
def letterEscape? (c : Char) : Option Char :=
  if c = '"' ∨ c = '\\' ∨ c = '/' then some c
  else if c = 'b' then some '\x08'
  else if c = 'f' then some '\x0c'
  else if c = 'n' then some '\n'
  else if c = 'r' then some '\r'
  else if c = 't' then some '\t'
  else none

/-- Reads the code units after `\u`: one, or a pair of surrogates. -/
def readUnits : Reads Char
  | a :: b :: c :: d :: r => do
    let unit ← hexQuad? a b c d
    if isHighSurrogate unit then
      match pair : r with
      | '\\' :: 'u' :: e :: f :: g :: h :: r' =>
        let low ← hexQuad? e f g h
        if isLowSurrogate low then
          some (Char.ofNat (0x10000 + (unit - 0xD800) * 0x400 + (low - 0xDC00)),
            ⟨r', by simp only [pair, List.length_cons]; omega⟩)
        else none
      | _ => none
    else if isLowSurrogate unit then none
    else some (Char.ofNat unit, ⟨r, by simp only [List.length_cons]; omega⟩)
  | _ => none

/-- Reads an escape after its backslash. -/
def readEscape : Reads Char
  | [] => none
  | c :: r =>
    if c = 'u' then
      match readUnits r with
      | none => none
      | some (x, ⟨r', hr⟩) => some (x, ⟨r', length_lt_cons hr⟩)
    else
      match letterEscape? c with
      | none => none
      | some x => some (x, ⟨r, Nat.lt_succ_self _⟩)

/-- Reads the characters of a string up to its closing quotation mark. -/
def readChars : Reads (List Char)
  | [] => none
  | c :: r =>
    if c = '"' then some ([], ⟨r, Nat.lt_succ_self _⟩)
    else if c = '\\' then
      match readEscape r with
      | none => none
      | some (x, ⟨r', hr⟩) =>
        match readChars r' with
        | none => none
        | some (xs, ⟨r'', hr'⟩) =>
          some (x :: xs, ⟨r'', length_lt_cons (Nat.lt_trans hr' hr)⟩)
    else if c.toNat < 0x20 then none
    else
      match readChars r with
      | none => none
      | some (xs, ⟨r', hr⟩) => some (c :: xs, ⟨r', length_lt_cons hr⟩)
termination_by s => s.length

/-- Reads a string after its opening quotation mark. -/
def readString : Reads String := fun s =>
  (readChars s).map fun (cs, rest) => (String.ofList cs, rest)

/-! ### Numbers -/

/-- The digits at the start of a text and the text after them. -/
def spanDigits (s : List Char) : List Char × List Char :=
  (s.takeWhile Char.isDigit, s.dropWhile Char.isDigit)

theorem length_spanDigits_le (s : List Char) : (spanDigits s).2.length ≤ s.length :=
  (List.dropWhile_suffix Char.isDigit).length_le

/-- Reads the digits of a whole number: zero, or digits of which the first is no zero. -/
def readWhole : Reads (List Char)
  | [] => none
  | c :: r =>
    if c = '0' then some (['0'], ⟨r, Nat.lt_succ_self _⟩)
    else if c.isDigit then
      some (c :: (spanDigits r).1, ⟨(spanDigits r).2, Nat.lt_succ_of_le (length_spanDigits_le r)⟩)
    else none

/-- A text that is no longer than another. -/
abbrev NoLonger (s : List Char) := { r : List Char // r.length ≤ s.length }

/-- Reads the digits after a point, if there is a point. -/
def readFraction (s : List Char) : Option (Option (List Char) × NoLonger s) :=
  match s with
  | [] => some (none, ⟨[], Nat.le_refl _⟩)
  | c :: r =>
    if c = '.' then
      if (spanDigits r).1.isEmpty then none
      else some (some (spanDigits r).1,
        ⟨(spanDigits r).2, Nat.le_succ_of_le (length_spanDigits_le r)⟩)
    else some (none, ⟨c :: r, Nat.le_refl _⟩)

/-- The sign at the start of an exponent, and the text after it. -/
def exponentSign : List Char → Bool × List Char
  | [] => (false, [])
  | c :: r => if c = '-' then (true, r) else if c = '+' then (false, r) else (false, c :: r)

theorem length_exponentSign_le (s : List Char) : (exponentSign s).2.length ≤ s.length := by
  cases s with
  | nil => simp [exponentSign]
  | cons c r =>
    simp only [exponentSign]
    split
    · exact Nat.le_succ _
    · split
      · exact Nat.le_succ _
      · exact Nat.le_refl _

/-- Reads an exponent, if there is one. -/
def readExponent (s : List Char) : Option (Option Int × NoLonger s) :=
  match s with
  | [] => some (none, ⟨[], Nat.le_refl _⟩)
  | c :: r =>
    if c = 'e' ∨ c = 'E' then
      let digits := (spanDigits (exponentSign r).2).1
      if digits.isEmpty then none
      else
        let magnitude : Int := Nat.ofDigitChars 10 digits 0
        some (some (if (exponentSign r).1 then -magnitude else magnitude),
          ⟨(spanDigits (exponentSign r).2).2, by
            have := length_spanDigits_le (exponentSign r).2
            have := length_exponentSign_le r
            simp only [List.length_cons]
            omega⟩)
    else some (none, ⟨c :: r, Nat.le_refl _⟩)

/-- The number with the given sign, digits before and after the point, and exponent. Without point
and exponent it is an integer where a machine integer holds it; the zero with a minus sign is a
floating-point number. -/
def number? (negative : Bool) (whole : List Char) (fraction : Option (List Char))
    (exponent : Option Int) : Option Number :=
  let digits := whole ++ fraction.getD []
  let magnitude := Nat.ofDigitChars 10 digits 0
  let double := (Binary64.ofDecimal? negative magnitude
    (exponent.getD 0 - ((fraction.getD []).length : Int))).map Number.double
  match fraction, exponent with
  | none, none =>
    if negative then
      if 0 < magnitude ∧ Numeral.InWord (-(magnitude : Int)) then some (.integer (-(magnitude : Int)))
      else double
    else if magnitude < UInt64.size then some (.integer magnitude) else double
  | _, _ => double

/-- Reads a number after its sign. -/
def readUnsigned (negative : Bool) : Reads Number := fun s =>
  match readWhole s with
  | none => none
  | some (whole, ⟨r, hr⟩) =>
    match readFraction r with
    | none => none
    | some (fraction, ⟨r', hr'⟩) =>
      match readExponent r' with
      | none => none
      | some (exponent, ⟨r'', hr''⟩) =>
        (number? negative whole fraction exponent).map fun n =>
          (n, ⟨r'', Nat.lt_of_le_of_lt (Nat.le_trans hr'' hr') hr⟩)

/-- Reads a number. -/
def readNumber : Reads Number
  | [] => none
  | c :: r =>
    if c = '-' then
      match readUnsigned true r with
      | none => none
      | some (n, ⟨r', hr⟩) => some (n, ⟨r', length_lt_cons hr⟩)
    else readUnsigned false (c :: r)

/-! ### Values -/

/-- Reads a fixed word. -/
def readWord (word : List Char) (nonempty : word ≠ []) (value : Json) : Reads Json := fun s =>
  if h : s.take word.length = word then
    some (value, ⟨s.drop word.length, by
      have taken := congrArg List.length h
      have := List.length_pos_iff.2 nonempty
      simp only [List.length_take] at taken
      simp only [List.length_drop]
      omega⟩)
  else none

/-- Reads blanks and then a given character. -/
def readMark (mark : Char) : Reads Unit := fun s =>
  match h : skipBlanks s with
  | [] => none
  | c :: r =>
    if c = mark then
      some ((), ⟨r, by
        have := length_skipBlanks_le s
        simp only [h, List.length_cons] at this
        omega⟩)
    else none

/-- Reads the items of an array after the first, up to the closing bracket. -/
def readItems (value : Reads Json) : Reads (List Json) := fun s =>
  match readMark ']' s with
  | some (_, rest) => some ([], rest)
  | none =>
    match readMark ',' s with
    | none => none
    | some (_, ⟨r, hr⟩) =>
      match value r with
      | none => none
      | some (item, ⟨r', hr'⟩) =>
        have : r'.length < s.length := Nat.lt_trans hr' hr
        match readItems value r' with
        | none => none
        | some (items, ⟨r'', hr''⟩) => some (item :: items, ⟨r'', Nat.lt_trans hr'' this⟩)
termination_by s => s.length

/-- Reads an array after its opening bracket. -/
def readArray (value : Reads Json) : Reads (List Json) := fun s =>
  match readMark ']' s with
  | some (_, rest) => some ([], rest)
  | none =>
    match value s with
    | none => none
    | some (item, ⟨r, hr⟩) =>
      match readItems value r with
      | none => none
      | some (items, ⟨r', hr'⟩) => some (item :: items, ⟨r', Nat.lt_trans hr' hr⟩)

/-- Reads a member of an object. -/
def readMember (value : Reads Json) : Reads (String × Json) := fun s =>
  match readMark '"' s with
  | none => none
  | some (_, ⟨r, hr⟩) =>
    match readString r with
    | none => none
    | some (name, ⟨r', hr'⟩) =>
      match readMark ':' r' with
      | none => none
      | some (_, ⟨r'', hr''⟩) =>
        match value r'' with
        | none => none
        | some (v, ⟨r₃, hr₃⟩) =>
          some ((name, v),
            ⟨r₃, Nat.lt_trans hr₃ (Nat.lt_trans hr'' (Nat.lt_trans hr' hr))⟩)

/-- Reads the members of an object after the first, up to the closing brace. -/
def readMembers (value : Reads Json) : Reads (List (String × Json)) := fun s =>
  match readMark '\x7d' s with
  | some (_, rest) => some ([], rest)
  | none =>
    match readMark ',' s with
    | none => none
    | some (_, ⟨r, hr⟩) =>
      match readMember value r with
      | none => none
      | some (member, ⟨r', hr'⟩) =>
        have : r'.length < s.length := Nat.lt_trans hr' hr
        match readMembers value r' with
        | none => none
        | some (members, ⟨r'', hr''⟩) => some (member :: members, ⟨r'', Nat.lt_trans hr'' this⟩)
termination_by s => s.length

/-- Reads an object after its opening brace. -/
def readObject (value : Reads Json) : Reads (List (String × Json)) := fun s =>
  match readMark '\x7d' s with
  | some (_, rest) => some ([], rest)
  | none =>
    match readMember value s with
    | none => none
    | some (member, ⟨r, hr⟩) =>
      match readMembers value r with
      | none => none
      | some (members, ⟨r', hr'⟩) => some (member :: members, ⟨r', Nat.lt_trans hr' hr⟩)

/-- Reads a value that starts with a character which is no blank, given a way to read the values
inside arrays and objects; without one they would nest too deeply. -/
def readValueWith (inner : Option (Reads Json)) : Reads Json
  | [] => none
  | c :: r =>
    if c = '[' then
      match inner with
      | none => none
      | some value =>
        match readArray value r with
        | none => none
        | some (items, ⟨r', hr⟩) => some (.array items, ⟨r', length_lt_cons hr⟩)
    else if c = '\x7b' then
      match inner with
      | none => none
      | some value =>
        match readObject value r with
        | none => none
        | some (members, ⟨r', hr⟩) => some (.object members, ⟨r', length_lt_cons hr⟩)
    else if c = '"' then
      match readString r with
      | none => none
      | some (text, ⟨r', hr⟩) => some (.string text, ⟨r', length_lt_cons hr⟩)
    else if c = 'n' then readWord ['n', 'u', 'l', 'l'] (by simp) .null (c :: r)
    else if c = 't' then readWord ['t', 'r', 'u', 'e'] (by simp) (.bool true) (c :: r)
    else if c = 'f' then readWord ['f', 'a', 'l', 's', 'e'] (by simp) (.bool false) (c :: r)
    else (readNumber (c :: r)).map fun (n, rest) => (.number n, rest)

/-- Reads a value after blanks. -/
def afterBlanks (value : Reads Json) : Reads Json := fun s =>
  (value (skipBlanks s)).map fun (j, ⟨r, hr⟩) =>
    (j, ⟨r, Nat.lt_of_lt_of_le hr (length_skipBlanks_le s)⟩)

/-- Reads a value in which arrays and objects nest to at most the given depth. -/
def readValue : Nat → Reads Json
  | 0 => afterBlanks (readValueWith none)
  | room + 1 => afterBlanks (readValueWith (some (readValue room)))

end Reader

/-- How deep arrays and objects nest in a JSON text at most. -/
def maxNesting : Nat := 127

/-- The value that a text is, with arrays and objects nested to at most the given depth. -/
def parse? (nesting : Nat) (source : String) : Option Json :=
  match Reader.readValue nesting source.toList with
  | none => none
  | some (json, ⟨rest, _⟩) => if (Reader.skipBlanks rest).isEmpty then some json else none

end SubstLisp.Json
