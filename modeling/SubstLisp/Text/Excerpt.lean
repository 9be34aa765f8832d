/-!
# Excerpts

A short piece of a text around a place in it, for messages. Places are byte offsets in the UTF-8
form of the text.

* `charsWithin` turns a byte offset into a number of characters.
* `window` is the piece, `marked` adds a mark at each end where text is cut off, and `oneLine`
  puts the outcome on one line.
-/

namespace SubstLisp.Text

/-- The number of bytes of a text in UTF-8. -/
def byteLength : List Char → Nat
  | [] => 0
  | c :: cs => c.utf8Size + byteLength cs

/-- How many characters of a text lie within its first `offset` bytes. -/
def charsWithin : (offset : Nat) → List Char → Nat
  | _, [] => 0
  | offset, c :: cs =>
    if c.utf8Size ≤ offset then charsWithin (offset - c.utf8Size) cs + 1 else 0

namespace Excerpt

/-- How many characters before its place an excerpt shows at most. -/
def lead : Nat := 20

/-- How many characters an excerpt shows at most. -/
def width : Nat := 60

/-- Stands where an excerpt cuts the text off. -/
def mark : List Char := "[...]".toList

/-- The index of the first character shown, when `before` characters precede the place. -/
def start (before : Nat) : Nat := before - lead

/-- The characters shown, when `before` characters precede the place. -/
def window (source : List Char) (before : Nat) : List Char :=
  (source.drop (start before)).take width

/-- The characters shown, with a mark at each end where the text goes on. -/
def marked (source : List Char) (before : Nat) : List Char :=
  (if 0 < start before then mark else []) ++ window source before ++
    (if start before + (window source before).length < source.length then mark else [])

/-- The text of one character on a single line: line feeds become visible, carriage returns
vanish. -/
def inlineChar (c : Char) : List Char :=
  if c = '\n' then ['\\', 'n'] else if c = '\r' then [] else [c]

/-- A text on a single line. -/
def oneLine (cs : List Char) : List Char := cs.flatMap inlineChar

end Excerpt

/-- The excerpt of a text around the character that begins at a byte offset; an offset past the
end is the end. -/
def excerpt (source : List Char) (offset : Nat) : String :=
  String.ofList (Excerpt.oneLine (Excerpt.marked source (charsWithin offset source)))

/-! ### Places in a text -/

@[simp]
theorem byteLength_nil : byteLength [] = 0 := rfl

@[simp]
theorem byteLength_cons (c : Char) (cs : List Char) :
    byteLength (c :: cs) = c.utf8Size + byteLength cs := rfl

@[simp]
theorem byteLength_append (a b : List Char) : byteLength (a ++ b) = byteLength a + byteLength b := by
  induction a with
  | nil => simp
  | cons c cs ih => rw [List.cons_append, byteLength_cons, byteLength_cons, ih, Nat.add_assoc]

/-- The offset of the end of a first part holds that part. -/
theorem charsWithin_byteLength_append (a b : List Char) :
    charsWithin (byteLength a) (a ++ b) = a.length := by
  induction a with
  | nil =>
    cases b with
    | nil => rfl
    | cons c cs =>
      have := c.utf8Size_pos
      simp only [byteLength_nil, List.nil_append, charsWithin, List.length_nil]
      rw [if_neg (by omega)]
  | cons c cs ih => simp [charsWithin, ih]

/-- No line feed and no carriage return is left on a single line. -/
theorem oneLine_flat (cs : List Char) : '\n' ∉ Excerpt.oneLine cs ∧ '\r' ∉ Excerpt.oneLine cs := by
  simp only [Excerpt.oneLine, List.mem_flatMap, Excerpt.inlineChar]
  grind

end SubstLisp.Text
