import SubstLisp.Form.Basic

/-!
# Printing forms

`Form.text` is the written form: an atom is its word, a string literal stands between quotation
marks, the items of a list stand between parentheses with one space between neighbours.
`Form.outline` names the kind of every node instead. Neither shows a label.
-/

namespace SubstLisp.Form

universe u v

variable {ι : Type u} {κ : Type v}

/-! ### Written form -/

mutual

/-- The form as it is written in a program. -/
def text : Form ι → String
  | atom _ word => word
  | string _ literal => "\"" ++ literal ++ "\""
  | list _ items => "(" ++ " ".intercalate (texts items) ++ ")"

/-- The forms of a list as they are written in a program. -/
def texts : List (Form ι) → List String
  | [] => []
  | f :: fs => text f :: texts fs

end

@[simp]
theorem texts_eq_map (fs : List (Form ι)) : texts fs = fs.map text := by
  induction fs with
  | nil => rfl
  | cons f fs ih => simp [texts, ih]

/-- Labels are not written. -/
@[simp]
theorem text_map (g : ι → κ) (f : Form ι) : (f.map g).text = f.text := by
  induction f with
  | atom => rfl
  | string => rfl
  | list label items ih =>
    simp only [map, mapAll_eq_map, text, texts_eq_map, List.map_map]
    rw [show items.map (text ∘ map g) = items.map text from List.map_congr_left ih]

@[simp]
theorem text_erase (f : Form ι) : f.erase.text = f.text := text_map _ f

/-! ### Outline -/

mutual

/-- The form with the kind of every node in front of it. -/
def outline : Form ι → String
  | atom _ word => "Atom(" ++ word ++ ")"
  | string _ literal => "Str(\"" ++ literal ++ "\")"
  | list _ items => "List(" ++ ", ".intercalate (outlines items) ++ ")"

/-- The outlines of the forms of a list. -/
def outlines : List (Form ι) → List String
  | [] => []
  | f :: fs => outline f :: outlines fs

end

end SubstLisp.Form
