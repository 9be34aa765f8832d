/-!
# Forms

The syntax of the language: atoms, string literals and lists, each node with a label. Where
the label is a number it is the identity of the node, and nodes with one label are the same
node in different places. A tree is a form whose labels say nothing.

* `Form.map` changes labels and nothing else; `Form.erase` forgets them.
* `Form.same` compares two forms without their labels: `same_iff` says that it holds exactly
  when their trees are equal.
-/

namespace SubstLisp

universe u v w

/-- A form with labels in `ι`. -/
inductive Form (ι : Type u) : Type u where
  /-- A word that is no string literal: a symbol or a numeral. -/
  | atom (label : ι) (text : String)
  /-- A string literal with the text between its quotation marks. -/
  | string (label : ι) (text : String)
  /-- A list of forms. -/
  | list (label : ι) (items : List (Form ι))
  deriving Inhabited

/-- A form whose nodes are known by identity. -/
abbrev Node := Form Nat

/-- A form without labels. -/
abbrev Tree := Form Unit

namespace Form

variable {ι : Type u} {κ : Type v} {τ : Type w}

/-- Induction on forms in which a list may use the statement for each of its items. -/
@[elab_as_elim, induction_eliminator]
theorem induction {motive : Form ι → Prop}
    (atom : ∀ label text, motive (.atom label text))
    (string : ∀ label text, motive (.string label text))
    (list : ∀ label items, (∀ f ∈ items, motive f) → motive (.list label items))
    (f : Form ι) : motive f :=
  Form.rec (motive_2 := fun fs => ∀ f ∈ fs, motive f) atom string list
    (fun _ h => absurd h List.not_mem_nil)
    (fun _ _ head tail _ h => (List.mem_cons.1 h).elim (fun e => e ▸ head) (tail _)) f

/-- The label of the outermost node. -/
def label : Form ι → ι
  | atom label _ => label
  | string label _ => label
  | list label _ => label

/-- The text of an atom. -/
def atomText? : Form ι → Option String
  | atom _ text => some text
  | _ => none

/-- The items of a list. -/
def items? : Form ι → Option (List (Form ι))
  | list _ items => some items
  | _ => none

/-! ### Changing labels -/

mutual

/-- The form with every label replaced by its image. -/
def map (g : ι → κ) : Form ι → Form κ
  | atom label text => atom (g label) text
  | string label text => string (g label) text
  | list label items => list (g label) (mapAll g items)

/-- The forms of a list with every label replaced by its image. -/
def mapAll (g : ι → κ) : List (Form ι) → List (Form κ)
  | [] => []
  | f :: fs => map g f :: mapAll g fs

end

@[simp]
theorem mapAll_eq_map (g : ι → κ) (fs : List (Form ι)) : mapAll g fs = fs.map (map g) := by
  induction fs with
  | nil => rfl
  | cons f fs ih => simp [mapAll, ih]

@[simp]
theorem map_map (g : ι → κ) (h : κ → τ) (f : Form ι) : (f.map g).map h = f.map (h ∘ g) := by
  induction f with
  | atom => rfl
  | string => rfl
  | list label items ih => simpa [map] using ih

/-- The tree that is left when the labels are forgotten. -/
def erase (f : Form ι) : Tree := f.map fun _ => ()

@[simp]
theorem erase_atom (label : ι) (text : String) : (atom label text).erase = atom () text := rfl

@[simp]
theorem erase_string (label : ι) (text : String) : (string label text).erase = string () text := rfl

@[simp]
theorem erase_list (label : ι) (items : List (Form ι)) :
    (list label items).erase = list () (items.map erase) := by
  simp [erase, map]

/-- A form without labels is its own tree. -/
@[simp]
theorem erase_tree (f : Form Unit) : f.erase = f := by
  induction f with
  | atom => rfl
  | string => rfl
  | list label items ih => simp [List.map_congr_left ih]

/-- Forgetting the labels after changing them is forgetting them. -/
@[simp]
theorem erase_map (g : ι → κ) (f : Form ι) : (f.map g).erase = f.erase := by
  simp [erase, Function.comp_def]

/-! ### Labels in use -/

mutual

/-- The labels of all nodes, a list before its items. -/
def labels : Form ι → List ι
  | atom label _ => [label]
  | string label _ => [label]
  | list label items => label :: labelsAll items

/-- The labels of all nodes of the forms of a list. -/
def labelsAll : List (Form ι) → List ι
  | [] => []
  | f :: fs => labels f ++ labelsAll fs

end

@[simp]
theorem labelsAll_eq_flatMap (fs : List (Form ι)) : labelsAll fs = fs.flatMap labels := by
  induction fs with
  | nil => rfl
  | cons f fs ih => simp [labelsAll, ih]

/-! ### Equality up to labels -/

mutual

/-- Whether two forms are equal but for their labels. -/
def same : Form ι → Form κ → Bool
  | atom _ a, atom _ b => a == b
  | string _ a, string _ b => a == b
  | list _ as, list _ bs => sameAll as bs
  | _, _ => false

/-- Whether two lists hold forms that are equal but for their labels. -/
def sameAll : List (Form ι) → List (Form κ) → Bool
  | [], [] => true
  | a :: as, b :: bs => same a b && sameAll as bs
  | _, _ => false

end

/-- Two forms are the same up to labels exactly when their trees are equal. -/
theorem same_iff {a : Form ι} {b : Form κ} : a.same b = true ↔ a.erase = b.erase := by
  induction a generalizing b with
  | atom => cases b <;> simp [same]
  | string => cases b <;> simp [same]
  | list label as ih =>
    cases b with
    | atom => simp [same]
    | string => simp [same]
    | list label' bs =>
      simp only [same, erase_list, list.injEq, true_and]
      clear label label'
      induction as generalizing bs with
      | nil => cases bs <;> simp [sameAll]
      | cons a as tail =>
        cases bs with
        | nil => simp [sameAll]
        | cons b bs =>
          simp only [sameAll, Bool.and_eq_true, List.map_cons, List.cons.injEq]
          rw [ih a List.mem_cons_self, tail fun f h => ih f (List.mem_cons_of_mem a h)]

instance : DecidableEq Tree := fun a b =>
  decidable_of_iff (a.same b = true) (by rw [same_iff, erase_tree, erase_tree])

end Form

end SubstLisp
