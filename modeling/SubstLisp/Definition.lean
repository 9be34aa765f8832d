import SubstLisp.Error
import SubstLisp.Form.Substitution

/-!
# Definitions and bindings

A definition is a named parameter list with a body; a name is bound to a function or a macro, both
given by a definition, or to a plain value.

`Definition.make` builds a definition from parameters that are atoms of distinct spelling, and
ties the body to them by a given method.
-/

namespace SubstLisp

/-- A named parameter list with a body. -/
structure Definition (ι : Type) where
  /-- The name it is defined under. -/
  name : String
  /-- The parameters. -/
  parameters : List (Form ι)
  /-- The body, tied to the parameters. -/
  body : Form ι

/-- What a name is bound to. -/
inductive Binding (ι : Type) where
  /-- A function. -/
  | functionDef (definition : Definition ι)
  /-- A macro. -/
  | macroDef (definition : Definition ι)
  /-- A plain value. -/
  | value (v : Value ι)

variable {ι κ : Type}

namespace Definition

/-- The number of parameters. -/
def arity (d : Definition ι) : Nat := d.parameters.length

/-- The spellings of the parameters. -/
def parameterNames (d : Definition ι) : List String := d.parameters.filterMap Form.atomText?

/-- The definition as it is printed. -/
def text (d : Definition ι) : String :=
  d.name ++ " (" ++ " ".intercalate (d.parameters.map Form.text) ++ ") " ++ d.body.text

/-- The definition with every label replaced by its image. -/
def map (g : ι → κ) (d : Definition ι) : Definition κ :=
  ⟨d.name, d.parameters.map (Form.map g), d.body.map g⟩

/-- Whether two definitions are equal but for labels. -/
def same (a : Definition ι) (b : Definition κ) : Bool :=
  a.name == b.name && Form.sameAll a.parameters b.parameters && a.body.same b.body

/-- Refuses parameters of which one is no atom or is spelled like an earlier one; `seen` are the
spellings of earlier ones. -/
def checkParameters (name : String) : (seen : List String) → List (Form ι) → Except Error Unit
  | _, [] => .ok ()
  | seen, parameter :: rest =>
    match parameter.atomText? with
    | none => .error (.typing (.parameterNotSymbol name parameter.erase))
    | some spelling =>
      if spelling ∈ seen then .error (.typing (.duplicateParameter spelling name))
      else checkParameters name (spelling :: seen) rest

/-- The definition of a name by parameters and a body; `tie` ties the body to the parameters. -/
def make (tie : List (Form ι) → Form ι → Form ι) (name : String) (parameters : List (Form ι))
    (body : Form ι) : Except Error (Definition ι) := do
  checkParameters name [] parameters
  .ok ⟨name, parameters, tie parameters body⟩

end Definition

namespace Binding

/-- The binding as it is printed. -/
def text : Binding ι → String
  | functionDef d => "#<function " ++ d.text ++ ">"
  | macroDef d => "#<macro " ++ d.text ++ ">"
  | value v => v.text

/-- The binding with every label replaced by its image. -/
def map (g : ι → κ) : Binding ι → Binding κ
  | functionDef d => functionDef (d.map g)
  | macroDef d => macroDef (d.map g)
  | value v => value (v.map g)

/-- The binding without labels. -/
def erase (b : Binding ι) : Binding Unit := b.map fun _ => ()

/-- Whether two bindings are equal but for labels. -/
def same : Binding ι → Binding κ → Bool
  | functionDef a, functionDef b => a.same b
  | macroDef a, macroDef b => a.same b
  | value a, value b => a.same b
  | _, _ => false

/-- The plain value that a name is bound to. -/
def value? : Binding ι → Option (Value ι)
  | value v => some v
  | _ => none

end Binding

end SubstLisp
