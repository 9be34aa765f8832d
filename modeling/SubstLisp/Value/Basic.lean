import SubstLisp.Form.Printer
import SubstLisp.Text.Numeral

/-!
# Values

What forms evaluate to: nothing, numbers of 64 bits, strings, lists of values and quoted forms.

* `Value.text` is the printed form.
* `Value.same` compares values and, in quotations, forms without their labels.
* `Value.truthy`: nothing, zero and the empty string are false, everything else is true.
-/

namespace SubstLisp

universe u v w

/-- A value whose quoted forms have labels in `ι`. -/
inductive Value (ι : Type u) : Type u where
  /-- The absence of a value. -/
  | nil
  /-- A number. -/
  | number (n : Int64)
  /-- A string. -/
  | string (text : String)
  /-- A list of values. -/
  | list (items : List (Value ι))
  /-- A form that has not been evaluated. -/
  | quote (form : Form ι)
  deriving Inhabited

/-- The kinds of value, as messages name them. -/
inductive Value.Kind where
  /-- The absence of a value. -/
  | nil
  /-- Numbers. -/
  | number
  /-- Strings. -/
  | string
  /-- Lists. -/
  | list
  /-- Quoted forms. -/
  | quote
  deriving DecidableEq, Repr

/-- The name of a kind in messages. -/
def Value.Kind.name : Value.Kind → String
  | nil => "nil"
  | number => "number"
  | string => "string"
  | list => "list"
  | quote => "quote"

namespace Value

variable {ι : Type u} {κ : Type v} {τ : Type w}

/-- Induction on values in which a list may use the statement for each of its items. -/
@[elab_as_elim, induction_eliminator]
theorem induction {motive : Value ι → Prop}
    (nil : motive .nil)
    (number : ∀ n, motive (.number n))
    (string : ∀ text, motive (.string text))
    (list : ∀ items, (∀ v ∈ items, motive v) → motive (.list items))
    (quote : ∀ form, motive (.quote form))
    (v : Value ι) : motive v :=
  Value.rec (motive_2 := fun vs => ∀ v ∈ vs, motive v) nil number string list quote
    (fun _ h => absurd h List.not_mem_nil)
    (fun _ _ head tail _ h => (List.mem_cons.1 h).elim (fun e => e ▸ head) (tail _)) v

/-- The kind of a value. -/
def kind : Value ι → Kind
  | nil => .nil
  | number _ => .number
  | string _ => .string
  | list _ => .list
  | quote _ => .quote

/-- Whether a value counts as true. -/
def truthy : Value ι → Bool
  | nil => false
  | number n => n != 0
  | string text => !text.isEmpty
  | list _ => true
  | quote _ => true

/-- Whether a value is the absence of one. -/
def isNil : Value ι → Bool
  | nil => true
  | _ => false

/-- The number for a truth value. -/
def ofBool (b : Bool) : Value ι := number (if b then 1 else 0)

@[simp]
theorem truthy_ofBool (b : Bool) : (ofBool b : Value ι).truthy = b := by cases b <;> rfl

/-! ### Changing labels -/

mutual

/-- The value with every label of a quoted form replaced by its image. -/
def map (g : ι → κ) : Value ι → Value κ
  | nil => nil
  | number n => number n
  | string text => string text
  | list items => list (mapAll g items)
  | quote form => quote (form.map g)

/-- The values of a list with every label of a quoted form replaced by its image. -/
def mapAll (g : ι → κ) : List (Value ι) → List (Value κ)
  | [] => []
  | v :: vs => map g v :: mapAll g vs

end

@[simp]
theorem mapAll_eq_map (g : ι → κ) (vs : List (Value ι)) : mapAll g vs = vs.map (map g) := by
  induction vs with
  | nil => rfl
  | cons v vs ih => simp [mapAll, ih]

/-- The value without the labels of its quoted forms. -/
def erase (v : Value ι) : Value Unit := v.map fun _ => ()

@[simp]
theorem kind_map (g : ι → κ) (v : Value ι) : (v.map g).kind = v.kind := by cases v <;> rfl

@[simp]
theorem truthy_map (g : ι → κ) (v : Value ι) : (v.map g).truthy = v.truthy := by cases v <;> rfl

/-! ### Printed form -/

mutual

/-- The printed form of a value. -/
def text : Value ι → String
  | nil => "nil"
  | number n => Numeral.text n.toInt
  | string text => "\"" ++ text ++ "\""
  | list items => "(" ++ " ".intercalate (texts items) ++ ")"
  | quote form => "'" ++ form.text

/-- The printed forms of the values of a list. -/
def texts : List (Value ι) → List String
  | [] => []
  | v :: vs => text v :: texts vs

end

@[simp]
theorem texts_eq_map (vs : List (Value ι)) : texts vs = vs.map text := by
  induction vs with
  | nil => rfl
  | cons v vs ih => simp [texts, ih]

/-- Labels are not printed. -/
@[simp]
theorem text_map (g : ι → κ) (v : Value ι) : (v.map g).text = v.text := by
  induction v with
  | nil => rfl
  | number => rfl
  | string => rfl
  | list items ih =>
    simp only [map, mapAll_eq_map, text, texts_eq_map, List.map_map]
    rw [show items.map (text ∘ map g) = items.map text from List.map_congr_left ih]
  | quote form => simp [map, text]

/-! ### Equality up to labels -/

mutual

/-- Whether two values are equal but for labels in quoted forms. -/
def same : Value ι → Value κ → Bool
  | nil, nil => true
  | number a, number b => a == b
  | string a, string b => a == b
  | list as, list bs => sameAll as bs
  | quote a, quote b => a.same b
  | _, _ => false

/-- Whether two lists hold values that are equal but for labels in quoted forms. -/
def sameAll : List (Value ι) → List (Value κ) → Bool
  | [], [] => true
  | a :: as, b :: bs => same a b && sameAll as bs
  | _, _ => false

end

/-- Two values are the same up to labels exactly when they are equal once labels are forgotten. -/
theorem same_iff {a : Value ι} {b : Value κ} : a.same b = true ↔ a.erase = b.erase := by
  induction a generalizing b with
  | nil => cases b <;> simp [same, erase, map]
  | number => cases b <;> simp [same, erase, map]
  | string => cases b <;> simp [same, erase, map]
  | quote form => cases b <;> simp [same, erase, map, Form.same_iff, Form.erase]
  | list as ih =>
    cases b with
    | list bs =>
      simp only [same, erase, map, mapAll_eq_map, list.injEq]
      induction as generalizing bs with
      | nil => cases bs <;> simp [sameAll]
      | cons a as tail =>
        cases bs with
        | nil => simp [sameAll]
        | cons b bs =>
          simp only [sameAll, Bool.and_eq_true, List.map_cons, List.cons.injEq]
          rw [ih a List.mem_cons_self, tail fun v h => ih v (List.mem_cons_of_mem a h)]
          rfl
    | _ => simp [same, erase, map]

/-- A value without labels is its own erasure. -/
@[simp]
theorem erase_unlabelled (v : Value Unit) : v.erase = v := by
  induction v with
  | list items ih =>
    show list (mapAll _ items) = list items
    rw [mapAll_eq_map]
    exact congrArg list ((List.map_congr_left ih).trans (List.map_id' items))
  | quote form => exact congrArg quote form.erase_tree
  | _ => rfl

instance : DecidableEq (Value Unit) := fun a b =>
  decidable_of_iff (a.same b = true) (by rw [same_iff, erase_unlabelled, erase_unlabelled])

/-! ### Reading a value as something more definite -/

/-- The number that a value is. -/
def number? : Value ι → Option Int64
  | number n => some n
  | _ => none

/-- The string that a value is. -/
def string? : Value ι → Option String
  | string text => some text
  | _ => none

end Value

end SubstLisp
