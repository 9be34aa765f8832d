import SubstLisp.Json.Binary64

/-!
# JSON values

A JSON value as a tree. A number is an integer where a machine integer of 64 bits, signed or
unsigned, holds it, and a floating-point number otherwise.
-/

namespace SubstLisp

/-- A JSON number. -/
inductive Json.Number where
  /-- An integer from `-2 ^ 63` to `2 ^ 64 - 1`. -/
  | integer (z : Int)
  /-- A floating-point number. -/
  | double (x : Binary64)
  deriving DecidableEq, Repr

/-- A JSON value. -/
inductive Json where
  /-- The value `null`. -/
  | null
  /-- A truth value. -/
  | bool (b : Bool)
  /-- A number. -/
  | number (n : Json.Number)
  /-- A string. -/
  | string (text : String)
  /-- An array. -/
  | array (items : List Json)
  /-- An object: its members in order. -/
  | object (members : List (String × Json))
  deriving Inhabited

namespace Json

/-- The decimal text of a number. -/
def Number.text : Number → String
  | integer z => Numeral.text z
  | double x => x.text

/-- The integer of 64 bits that a number is. -/
def Number.word? : Number → Option Int64
  | integer z => Numeral.ofInt? z
  | double _ => none

/-- The value of a member of an object: the first of that name. -/
def member? (name : String) : Json → Option Json
  | object members => members.lookup name
  | _ => none

end Json

end SubstLisp
