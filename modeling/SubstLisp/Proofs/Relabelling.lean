import SubstLisp.Evaluation

/-!
# Changing labels

What evaluation does with forms and values outside of calls depends on no label: each of these
functions commutes with a change of labels, and errors stay as they are.

`Value.quotations` are the forms that a value quotes, in order.
-/

namespace SubstLisp

variable {ι κ : Type}

/-! ### Forms -/

namespace Form

@[simp]
theorem map_atom (g : ι → κ) (label : ι) (text : String) :
    (atom label text).map g = atom (g label) text := rfl

@[simp]
theorem map_string (g : ι → κ) (label : ι) (text : String) :
    (string label text).map g = string (g label) text := rfl

@[simp]
theorem map_list (g : ι → κ) (label : ι) (items : List (Form ι)) :
    (list label items).map g = list (g label) (items.map (map g)) := by
  simp [map]

@[simp]
theorem map_id (f : Form ι) : f.map id = f := by
  induction f with
  | atom => rfl
  | string => rfl
  | list label items ih =>
    rw [map_list, List.map_congr_left ih]
    simp

@[simp]
theorem map_id_fun : (map id : Form ι → Form ι) = id := funext map_id

@[simp]
theorem atomText?_map (g : ι → κ) (f : Form ι) : (f.map g).atomText? = f.atomText? := by
  cases f <;> simp [atomText?]

@[simp]
theorem items?_map (g : ι → κ) (f : Form ι) :
    (f.map g).items? = f.items?.map (List.map (map g)) := by
  cases f <;> simp [items?]

@[simp]
theorem label_map (g : ι → κ) (f : Form ι) : (f.map g).label = g f.label := by
  cases f <;> simp [label]

theorem erase_eq_atom_iff {f : Form ι} {word : String} :
    f.erase = .atom () word ↔ ∃ label, f = .atom label word := by
  cases f <;> simp

theorem erase_eq_string_iff {f : Form ι} {literal : String} :
    f.erase = .string () literal ↔ ∃ label, f = .string label literal := by
  cases f <;> simp

theorem erase_eq_list_iff {f : Form ι} {trees : List Tree} :
    f.erase = .list () trees ↔ ∃ label items, f = .list label items ∧ items.map erase = trees := by
  cases f with
  | list label items =>
    simp only [erase_list, list.injEq, true_and]
    constructor
    · exact fun h => ⟨label, items, ⟨rfl, rfl⟩, h⟩
    · rintro ⟨_, _, ⟨rfl, rfl⟩, h⟩
      exact h
  | _ => simp

end Form

/-! ### Values -/

namespace Value

mutual

/-- The forms that a value quotes, in order. -/
def quotations : Value ι → List (Form ι)
  | quote form => [form]
  | list items => quotationsAll items
  | _ => []

/-- The forms that the values of a list quote, in order. -/
def quotationsAll : List (Value ι) → List (Form ι)
  | [] => []
  | v :: vs => quotations v ++ quotationsAll vs

end

@[simp]
theorem quotationsAll_eq_flatMap (vs : List (Value ι)) :
    quotationsAll vs = vs.flatMap quotations := by
  induction vs with
  | nil => rfl
  | cons v vs ih => simp [quotationsAll, ih]

@[simp]
theorem quotations_quote (form : Form ι) : (quote form).quotations = [form] := rfl

@[simp]
theorem quotations_list (items : List (Value ι)) :
    (list items).quotations = items.flatMap quotations := by
  simp [quotations]

@[simp]
theorem map_list (g : ι → κ) (items : List (Value ι)) :
    (list items).map g = list (items.map (map g)) := by
  simp [map]

@[simp]
theorem map_quote (g : ι → κ) (form : Form ι) : (quote form).map g = quote (form.map g) := rfl

@[simp]
theorem map_ofBool (g : ι → κ) (b : Bool) : (ofBool b : Value ι).map g = ofBool b := rfl

@[simp]
theorem quotations_ofBool (b : Bool) : (ofBool b : Value ι).quotations = [] := rfl

@[simp]
theorem map_id (v : Value ι) : v.map id = v := by
  induction v with
  | list items ih =>
    rw [map_list, List.map_congr_left ih]
    simp
  | quote form => simp
  | _ => rfl

@[simp]
theorem map_id_fun : (map id : Value ι → Value ι) = id := funext map_id

@[simp]
theorem erase_map (g : ι → κ) (v : Value ι) : (v.map g).erase = v.erase := by
  unfold erase
  induction v with
  | list items ih =>
    rw [map_list, map_list, map_list, List.map_map]
    exact congrArg list (List.map_congr_left ih)
  | quote form => simp [Function.comp_def]
  | _ => rfl

@[simp]
theorem same_map (g : ι → κ) (a b : Value ι) : (a.map g).same (b.map g) = a.same b := by
  rw [Bool.eq_iff_iff, same_iff, same_iff, erase_map, erase_map]

@[simp]
theorem plainText_map (g : ι → κ) (v : Value ι) : (v.map g).plainText = v.plainText := by
  cases v <;> rfl

end Value

/-! ### Computations -/

theorem Value.concat_map (g : ι → κ) (a b : Value ι) :
    (a.map g).concat (b.map g) = (a.concat b).map (Value.map g) := by
  simp only [Value.concat, Value.plainText_map]
  cases a.plainText with
  | error => rfl
  | ok s => cases b.plainText <;> rfl

/-- A string of two texts quotes nothing. -/
theorem Value.quotations_concat {a b v : Value ι} (h : a.concat b = .ok v) : v.quotations = [] := by
  simp only [Value.concat] at h
  cases ha : a.plainText with
  | error => rw [ha] at h; cases h
  | ok s =>
    cases hb : b.plainText with
    | error => rw [ha, hb] at h; cases h
    | ok t => rw [ha, hb] at h; cases h; rfl

@[simp]
theorem Arithmetic.operand_map (g : ι → κ) (op : Arithmetic) (v : Value ι) :
    op.operand (v.map g) = op.operand v := by
  cases v <;> rfl

theorem Arithmetic.apply_map (g : ι → κ) (op : Arithmetic) (a b : Value ι) :
    op.apply (a.map g) (b.map g) = (op.apply a b).map (Value.map g) := by
  simp only [Arithmetic.apply, Arithmetic.operand_map]
  cases op.operand a with
  | error => rfl
  | ok m =>
    cases op.operand b with
    | error => rfl
    | ok n =>
      cases h : op.compute m n <;> simp [bind, Except.bind, Except.map, h, Value.map]

/-- A number quotes nothing. -/
theorem Arithmetic.quotations_apply {op : Arithmetic} {a b v : Value ι} (h : op.apply a b = .ok v) :
    v.quotations = [] := by
  simp only [Arithmetic.apply, bind, Except.bind] at h
  split at h
  · cases h
  · split at h
    · cases h
    · split at h <;> cases h
      rfl

/-! ### Operators -/

@[simp]
theorem Window.select_map {α β : Type} (g : α → β) (window : Window) (size : Nat)
    (operands : List α) : window.select size (operands.map g) = (window.select size operands).map g := by
  cases window <;> simp [Window.select, List.map_drop, List.map_take]

@[simp]
theorem Operator.select_map {α β : Type} (g : α → β) (op : Operator) (operands : List α) :
    op.select (operands.map g) = (op.select operands).map g :=
  Window.select_map g _ _ _

/-- An operator takes its operands from those of the call. -/
theorem Operator.mem_of_mem_select {α : Type} {op : Operator} {operands : List α} {a : α}
    (h : a ∈ op.select operands) : a ∈ operands := by
  simp only [Operator.select] at h
  cases hw : op.window with
  | front => rw [hw] at h; exact List.mem_of_mem_take h
  | back => rw [hw] at h; exact List.mem_of_mem_drop h
  | all => rw [hw] at h; exact h
  | nothing => rw [hw] at h; cases h

theorem Evaluation.operatorName_map (g : ι → κ) (v : Value ι) :
    Evaluation.operatorName (v.map g) = Evaluation.operatorName v := by
  cases v with
  | quote form => cases form <;> simp [Evaluation.operatorName, Value.erase]
  | list items =>
    simp only [Evaluation.operatorName, ← Value.erase_map g (.list items), Value.map_list]
  | _ => rfl

/-! ### Definitions and bindings -/

namespace Definition

@[simp]
theorem arity_map (g : ι → κ) (d : Definition ι) : (d.map g).arity = d.arity := by
  simp [arity, map]

@[simp]
theorem checkParameters_map (g : ι → κ) (name : String) (seen : List String)
    (parameters : List (Form ι)) :
    checkParameters name seen (parameters.map (Form.map g)) =
      checkParameters name seen parameters := by
  induction parameters generalizing seen with
  | nil => rfl
  | cons p ps ih => simp only [List.map_cons, checkParameters, Form.atomText?_map, Form.erase_map, ih]

@[simp]
theorem parameterNames_map (g : ι → κ) (d : Definition ι) :
    (d.map g).parameterNames = d.parameterNames := by
  have htext : (Form.atomText? ∘ Form.map g : Form ι → Option String) = Form.atomText? :=
    funext (Form.atomText?_map g)
  rw [parameterNames, parameterNames, map, List.filterMap_map, htext]

@[simp]
theorem map_id (d : Definition ι) : d.map id = d := by
  simp [map]

end Definition

@[simp]
theorem Binding.map_id (b : Binding ι) : b.map id = b := by
  cases b <;> simp [Binding.map]

@[simp]
theorem Binding.map_id_fun : (Binding.map id : Binding ι → Binding ι) = id := funext Binding.map_id

@[simp]
theorem Event.map_id (event : Event ι) : event.map id = event := by
  cases event with
  | defined name binding previous => cases previous <;> simp [Event.map]
  | _ => simp [Event.map]

/-- Without labels there are none to forget. -/
@[simp]
theorem Event.erase_erase (event : Event ι) : event.erase.erase = event.erase :=
  event.erase.map_id

end SubstLisp
