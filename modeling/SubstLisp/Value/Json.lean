import SubstLisp.Error
import SubstLisp.Json.Reader
import SubstLisp.Json.Writer

/-!
# Values as JSON

Nothing is `null`, a number is an integer, a string is a string and a list is an array. Quoted
forms have no JSON. Read the other way, truth values are the numbers one and zero, while objects,
numbers that are no integers of 64 bits, and whatever lies inside too many arrays have no value.
-/

namespace SubstLisp.Value

variable {ι : Type}

/-! ### Writing -/

mutual

/-- The JSON of a value. -/
def toJson : Value ι → Except Error Json
  | nil => .ok .null
  | number n => .ok (.number (.integer n.toInt))
  | string text => .ok (.string text)
  | list items => do .ok (.array (← toJsonAll items))
  | quote form => .error (.typing (.quotedInJson form.erase))

/-- The JSON of the values of a list. -/
def toJsonAll : List (Value ι) → Except Error (List Json)
  | [] => .ok []
  | v :: vs => do .ok ((← toJson v) :: (← toJsonAll vs))

end

/-- The compact JSON text of a value. -/
def jsonText (v : Value ι) : Except Error String := return (← v.toJson).text

/-! ### Reading -/

/-- No element of a JSON value may lie inside so many arrays. -/
def maxJsonDepth : Nat := 256

mutual

/-- The value of a JSON value with room for so many enclosing arrays, itself counted. -/
def ofJsonWithin : (room : Nat) → Json → Except Error (Value ι)
  | 0, _ => .error (.typing (.deepJson maxJsonDepth))
  | _ + 1, .null => .ok nil
  | _ + 1, .bool b => .ok (ofBool b)
  | _ + 1, .number n =>
    match n.word? with
    | some word => .ok (number word)
    | none => .error (.typing (.jsonNumber n.text))
  | _ + 1, .string text => .ok (string text)
  | room + 1, .array items => do .ok (list (← ofJsonAllWithin room items))
  | _ + 1, .object _ => .error (.typing .jsonObject)

/-- The values of the items of an array. -/
def ofJsonAllWithin : (room : Nat) → List Json → Except Error (List (Value ι))
  | _, [] => .ok []
  | room, j :: js => do .ok ((← ofJsonWithin room j) :: (← ofJsonAllWithin room js))

end

/-- The value of a JSON value. -/
def ofJson (j : Json) : Except Error (Value ι) := ofJsonWithin maxJsonDepth j

/-- What is told about a text that is no JSON. -/
def invalidJson : Diagnosis := ⟨.invalidSyntax, "Invalid JSON", none, none⟩

/-- The value of a JSON text. -/
def ofJsonText (source : String) : Except Error (Value ι) :=
  match Json.parse? Json.maxNesting source with
  | some j => ofJson j
  | none => .error (.unreadable invalidJson)

end SubstLisp.Value
