import SubstLisp.Form.Basic

/-!
# Fresh labels

Labels that no node has yet come from a supply, which is the next number. A copy of a form has
fresh labels throughout, and nodes that share a label in the form share one in its copy.

* `Form.freshen` labels every node of a form on its own.
* `Node.deepCopy` copies one form.
* `Node.instantiate` copies parameters and a body together, so that the parameters stay tied to
  the body.
-/

namespace SubstLisp

/-- A computation that takes labels from the supply. -/
abbrev Minting := StateM Nat

/-- The next number of the supply. -/
def mint : Minting Nat := fun next => (next, next + 1)

namespace Form

variable {ι κ : Type}

mutual

/-- The form with a fresh label on every node; `label` makes labels out of numbers. -/
def freshen (label : Nat → κ) : Form ι → Minting (Form κ)
  | atom _ text => return atom (label (← mint)) text
  | string _ text => return string (label (← mint)) text
  | list _ items => do
    let items ← freshenAll label items
    return list (label (← mint)) items

/-- The forms of a list with a fresh label on every node. -/
def freshenAll (label : Nat → κ) : List (Form ι) → Minting (List (Form κ))
  | [] => return []
  | f :: fs => return (← freshen label f) :: (← freshenAll label fs)

end

end Form

namespace Node

/-- Where copying stands: the label each label has turned into, and the supply. -/
structure Copying where
  /-- The labels met so far with their copies. -/
  renamed : List (Nat × Nat)
  /-- The next number of the supply. -/
  next : Nat

/-- The copy of a label: the one it already has, or else a fresh one. -/
def copyLabel (label : Nat) : StateM Copying Nat := fun s =>
  match s.renamed.lookup label with
  | some copy => (copy, s)
  | none => (s.next, ⟨(label, s.next) :: s.renamed, s.next + 1⟩)

mutual

/-- The copy of a form. -/
def copy : Node → StateM Copying Node
  | .atom label text => return .atom (← copyLabel label) text
  | .string label text => return .string (← copyLabel label) text
  | .list label items => do
    let label ← copyLabel label
    return .list label (← copyAll items)

/-- The copies of the forms of a list. -/
def copyAll : List Node → StateM Copying (List Node)
  | [] => return []
  | f :: fs => return (← copy f) :: (← copyAll fs)

end

/-- A computation that copies, begun with no label met. -/
def copying {α : Type} (x : StateM Copying α) : Minting α := fun next =>
  let (a, s) := x ⟨[], next⟩
  (a, s.next)

/-- A copy of a form with fresh labels. -/
def deepCopy (f : Node) : Minting Node := copying (copy f)

/-- A copy of a body with fresh labels, and the labels that the copies of the parameters have. -/
def instantiate (parameters : List Node) (body : Node) : Minting (List Nat × Node) :=
  copying do
    let parameters ← copyAll parameters
    return (parameters.map Form.label, ← copy body)

end Node

end SubstLisp
