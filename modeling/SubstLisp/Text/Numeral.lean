/-!
# Numerals

Decimal text of integers, written and read.

* `text` writes an integer with the fewest digits and a minus sign if it is negative.
* `signed?` is a generous reader: an optional sign, then at least one digit, leading zeros allowed.
* `word?` reads the numerals of the language: the texts that `text` writes for the integers of
  64 bits. It is defined by reading generously and comparing with the text written for the
  outcome.
-/

namespace SubstLisp.Numeral

/-! ### Writing -/

/-- The characters of an integer in decimal. -/
def chars (z : Int) : List Char :=
  if z < 0 then '-' :: Nat.toDigits 10 z.natAbs else Nat.toDigits 10 z.natAbs

/-- An integer in decimal. -/
def text (z : Int) : String := String.ofList (chars z)

/-! ### Reading -/

/-- The number that a non-empty run of digits denotes. -/
def digits? (cs : List Char) : Option Nat :=
  if !cs.isEmpty && cs.all Char.isDigit then some (Nat.ofDigitChars 10 cs 0) else none

/-- The number that digits denote, with or without a plus sign in front. -/
def unsigned? : List Char → Option Nat
  | '+' :: cs => digits? cs
  | cs => digits? cs

/-- The integer that digits denote, with or without a sign in front. -/
def signed? : List Char → Option Int
  | '-' :: cs => (digits? cs).map fun n => -(n : Int)
  | cs => (unsigned? cs).map fun n => (n : Int)

/-- The integers of 64 bits. -/
def InWord (z : Int) : Prop := Int64.minValue.toInt ≤ z ∧ z ≤ Int64.maxValue.toInt

instance (z : Int) : Decidable (InWord z) := inferInstanceAs (Decidable (_ ∧ _))

/-- The word that holds an integer, if it has 64 bits. -/
def ofInt? (z : Int) : Option Int64 := if InWord z then some (Int64.ofInt z) else none

/-- The integer of 64 bits whose decimal text this is. -/
def word? (word : String) : Option Int64 :=
  ((signed? word.toList).bind ofInt?).filter fun n => text n.toInt == word

theorem toInt_of_ofInt?_eq_some {z : Int} {n : Int64} (h : ofInt? z = some n) : n.toInt = z := by
  unfold ofInt? at h
  split at h
  · next hz =>
    cases h
    exact Int64.toInt_ofInt_of_le hz.1 (Int.lt_add_one_of_le hz.2)
  · cases h

theorem inWord_toInt (n : Int64) : InWord n.toInt := ⟨n.minValue_le_toInt, n.toInt_le⟩

@[simp]
theorem ofInt?_toInt (n : Int64) : ofInt? n.toInt = some n := by
  rw [ofInt?, if_pos (inWord_toInt n), Int64.ofInt_toInt]

end SubstLisp.Numeral
