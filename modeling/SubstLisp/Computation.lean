import SubstLisp.Operator

/-!
# Computing with values

The part of the operators that sees values only.

* Arithmetic is exact: `Arithmetic.exact` computes over the integers and `Arithmetic.compute`
  refuses an outcome of more than 64 bits.
* `Value.concat` joins the plain texts of two values.
-/

namespace SubstLisp

variable {ι : Type}

/-! ### Arithmetic -/

/-- The outcome over the integers; a division by zero has none. -/
def Arithmetic.exact (a b : Int) : Arithmetic → Option Int
  | add => some (a + b)
  | sub => some (a - b)
  | mul => some (a * b)
  | div => if b = 0 then none else some (a.tdiv b)

/-- The outcome as a number of 64 bits. -/
def Arithmetic.compute (op : Arithmetic) (a b : Int64) : Except EvaluationFault Int64 :=
  match op.exact a.toInt b.toInt with
  | none => .error .divisionByZero
  | some z =>
    match Numeral.ofInt? z with
    | none => .error (.overflow op.symbol)
    | some n => .ok n

/-- The number that an arithmetic operator is given. -/
def Arithmetic.operand (op : Arithmetic) (v : Value ι) : Except Error Int64 :=
  match v.number? with
  | some n => .ok n
  | none => .error (.typing (.expectsNumbers op.symbol v.kind))

/-- The outcome of an arithmetic operator on two values, of which the first is looked at first. -/
def Arithmetic.apply (op : Arithmetic) (a b : Value ι) : Except Error (Value ι) := do
  let a ← op.operand a
  let b ← op.operand b
  match op.compute a b with
  | .ok n => .ok (.number n)
  | .error fault => .error (.evaluation fault)

/-! ### Concatenation -/

namespace Value

/-- The plain text of a value: strings without quotation marks, numbers in decimal, nothing as the
empty text. -/
def plainText : Value ι → Except Error String
  | string text => .ok text
  | number n => .ok (Numeral.text n.toInt)
  | nil => .ok ""
  | v => .error (.typing (.expectsText v.kind))

/-- The string of the plain texts of two values. -/
def concat (a b : Value ι) : Except Error (Value ι) := do
  let a ← a.plainText
  let b ← b.plainText
  .ok (.string (a ++ b))

end Value

end SubstLisp
