import SubstLisp.Text.Numeral

/-!
# Floating-point numbers of 64 bits

The finite numbers with a sign, a significand below `2 ^ 53` and a power of two, which is what a
JSON number is when it is no machine integer.

* `Binary64.ofDecimal?` rounds a decimal to the nearest such number, a half to the even
  significand; what rounds beyond the largest one is refused.
* `Binary64.shortest` is the decimal with the fewest digits that rounds to a given number, the
  nearest of these if there are two.
* `Binary64.text` writes that decimal: positionally for decimal exponents from `-5` to `15` and
  with an exponent otherwise.

All arithmetic is on natural numbers.
-/

namespace SubstLisp

/-- The number `± significand · 2 ^ exponent`. -/
structure Binary64 where
  /-- Whether the sign is a minus; a zero has a sign too. -/
  negative : Bool
  /-- The digits, as a natural number below `2 ^ 53`. -/
  significand : Nat
  /-- The power of two, from `-1074` to `971`. -/
  exponent : Int
  deriving DecidableEq, Repr

namespace Binary64

/-- The least power of two. -/
def minExponent : Int := -1074

/-- The greatest power of two. -/
def maxExponent : Int := 971

/-! ### Rounding a decimal -/

/-- A quotient rounded to the nearest natural number, a half to the even one. -/
def roundDiv (num den : Nat) : Nat :=
  let quotient := num / den
  let twice := 2 * (num % den)
  if twice < den then quotient
  else if den < twice then quotient + 1
  else quotient + quotient % 2

/-- The greatest `e` with `2 ^ e ≤ num / den`. -/
def ratioLog2 (num den : Nat) : Int :=
  let e := (num.log2 : Int) - (den.log2 : Int)
  if den * Nat.pow 2 e.toNat ≤ num * Nat.pow 2 (-e).toNat then e else e - 1

/-- The significand and the power of two nearest to `num / den`, unless they are too large. -/
def ofRatio? (num den : Nat) : Option (Nat × Int) :=
  if num = 0 then some (0, minExponent)
  else
    let exponent := max (ratioLog2 num den - 52) minExponent
    let significand := roundDiv (num * Nat.pow 2 (-exponent).toNat) (den * Nat.pow 2 exponent.toNat)
    let (significand, exponent) :=
      if significand = Nat.pow 2 53 then (Nat.pow 2 52, exponent + 1) else (significand, exponent)
    if maxExponent < exponent then none else some (significand, exponent)

/-- Decimal exponents outside of `[-limit, limit]` leave no doubt about the outcome of rounding. -/
def decimalLimit : Int := 400

/-- The number nearest to `± digits · 10 ^ scale`, unless it is too large. -/
def ofDecimal? (negative : Bool) (digits : Nat) (scale : Int) : Option Binary64 :=
  let magnitude := ((Nat.toDigits 10 digits).length : Int) + scale
  if digits = 0 ∨ magnitude < -decimalLimit then some ⟨negative, 0, minExponent⟩
  else if decimalLimit < magnitude then none
  else
    (ofRatio? (digits * Nat.pow 10 scale.toNat) (Nat.pow 10 (-scale).toNat)).map
      fun (significand, exponent) => ⟨negative, significand, exponent⟩

/-! ### The shortest decimal -/

/-- The number of digits before the point of `significand · 2 ^ exponent`, negative when zeros
follow the point. -/
def decimalLength (significand : Nat) (exponent : Int) : Int :=
  let shifted :=
    significand * Nat.pow 2 exponent.toNat * Nat.pow 10 decimalLimit.toNat /
      Nat.pow 2 (-exponent).toNat
  ((Nat.toDigits 10 shifted).length : Int) - decimalLimit

/-- The decimal with the given scale that is nearest to `significand · 2 ^ exponent` among the two
neighbours that round to it. The numbers that round to it form an interval, whose ends belong to it
when the significand is even; below a power of two it is half as wide. -/
def onGrid? (significand : Nat) (exponent scale : Int) : Option Nat :=
  let quarters := 4 * significand
  let low :=
    if significand = Nat.pow 2 52 ∧ minExponent < exponent then quarters - 1 else quarters - 2
  let high := quarters + 2
  let unit := Nat.pow 2 (exponent - 2).toNat * Nat.pow 10 (-scale).toNat
  let step := Nat.pow 2 (2 - exponent).toNat * Nat.pow 10 scale.toNat
  let inside (c : Nat) : Bool :=
    if significand % 2 = 0 then decide (low * unit ≤ c * step) && decide (c * step ≤ high * unit)
    else decide (low * unit < c * step) && decide (c * step < high * unit)
  let below := quarters * unit / step
  let above := below + 1
  let nearest := roundDiv (quarters * unit) step
  if inside below && inside above then some nearest
  else if inside below then some below
  else if inside above then some above
  else none

/-- The fewest digits, and their scale, that round to `significand · 2 ^ exponent`. -/
def shortest (significand : Nat) (exponent : Int) : Nat × Int :=
  let length := decimalLength significand exponent
  let hit := (List.range 17).findSome? fun n =>
    let scale := length - (n + 1 : Nat)
    (onGrid? significand exponent scale).map fun digits => (digits, scale)
  hit.getD (significand, 0)

/-! ### Writing -/

/-- Digits with the zeros at their end taken off, and the scale that makes up for it. -/
def stripZeros : List Char → Int → List Char × Int
  | digits, scale =>
    let kept := (digits.reverse.dropWhile (· == '0')).reverse
    (kept, scale + ((digits.length - kept.length : Nat) : Int))

/-- The least decimal exponent that is written positionally. -/
def minPlain : Int := -5

/-- The greatest decimal exponent that is written positionally. -/
def maxPlain : Int := 15

/-- Digits with a point after the first `point` of them; zeros fill the gap on either side, and at
least one digit stands on each. -/
def positional (digits : List Char) (point : Int) : List Char :=
  if point ≤ 0 then '0' :: '.' :: (List.replicate (-point).toNat '0' ++ digits)
  else
    let whole := digits.take point.toNat ++ List.replicate (point.toNat - digits.length) '0'
    let rest := digits.drop point.toNat
    whole ++ '.' :: (if rest.isEmpty then ['0'] else rest)

/-- Digits with a point after the first and a signed exponent. -/
def scientific (digits : List Char) (exponent : Int) : List Char :=
  let mantissa :=
    match digits with
    | [] => []
    | [d] => [d]
    | d :: ds => d :: '.' :: ds
  mantissa ++ 'e' :: (if exponent < 0 then '-' else '+') :: Nat.toDigits 10 exponent.natAbs

/-- The shortest decimal text of a number; a whole number keeps a zero after the point. -/
def text (x : Binary64) : String :=
  let body :=
    if x.significand = 0 then ['0', '.', '0']
    else
      let (value, scale) := shortest x.significand x.exponent
      let (digits, scale) := stripZeros (Nat.toDigits 10 value) scale
      let exponent := (digits.length : Int) + scale - 1
      if minPlain ≤ exponent ∧ exponent ≤ maxPlain then positional digits (exponent + 1)
      else scientific digits exponent
  String.ofList (if x.negative then '-' :: body else body)

end Binary64

end SubstLisp
