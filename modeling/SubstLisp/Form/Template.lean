import SubstLisp.Error
import SubstLisp.Form.Copy

/-!
# Templates

The body of a macro is a template for code. In it `(list a b ...)` stands for a list of what `a`,
`b` and so on stand for, `(quote a)` and `(' a)` stand for `a` as it is, and atoms, string literals
and the empty list stand for themselves. No other list is a template.
-/

namespace SubstLisp

/-- What expanding a template leaves behind. -/
structure Template.Trail where
  /-- The next number of the supply of labels. -/
  next : Nat
  /-- The number of items of each list made, in order. -/
  sizes : Array Nat

namespace Template

variable {ι : Type}

/-- A computation that expands templates. -/
abbrev Expanding := EStateM TemplateFault Trail

/-- A new list of the given forms. -/
def newList (label : Nat → ι) (items : List (Form ι)) : Expanding (Form ι) := fun s =>
  .ok (.list (label s.next) items) ⟨s.next + 1, s.sizes.push items.length⟩

mutual

/-- The code that a template stands for; `label` makes labels out of numbers. -/
def expand (label : Nat → ι) : Form ι → Expanding (Form ι)
  | .list _ (head :: operands) =>
    if head.atomText? = some "list" then do newList label (← expandAll label operands)
    else if head.atomText? = some "quote" ∨ head.atomText? = some "'" then
      match operands with
      | [] => throw .emptyQuote
      | quoted :: _ => pure quoted
    else throw (.unknownHead head.erase)
  | f => pure f

/-- The code that the templates of a list stand for. -/
def expandAll (label : Nat → ι) : List (Form ι) → Expanding (List (Form ι))
  | [] => pure []
  | f :: fs => return (← expand label f) :: (← expandAll label fs)

end

end Template

end SubstLisp
