import SubstLisp.Form.Basic

/-!
# Substitution

Three ways to put new nodes in the place of old ones in a form.

* `substitute` puts a form in the place of every node with a given label. The form that is put in
  is not searched again.
* `tie` gives every atom that is spelled like a parameter the label of that parameter. From then on
  the atom is the parameter, as far as `substitute` goes.
* `replace` puts forms in the place of atoms by their spelling, all at once.
-/

namespace SubstLisp.Form

variable {ι : Type}

/-! ### By label -/

section

variable [DecidableEq ι]

mutual

/-- The form with `replacement` in the place of every node labelled `target`. -/
def substitute (target : ι) (replacement : Form ι) : Form ι → Form ι
  | atom label text => if label = target then replacement else atom label text
  | string label text => if label = target then replacement else string label text
  | list label items =>
    if label = target then replacement else list label (substituteAll target replacement items)

/-- The forms of a list with `replacement` in the place of every node labelled `target`. -/
def substituteAll (target : ι) (replacement : Form ι) : List (Form ι) → List (Form ι)
  | [] => []
  | f :: fs => substitute target replacement f :: substituteAll target replacement fs

end

@[simp]
theorem substituteAll_eq_map (target : ι) (replacement : Form ι) (fs : List (Form ι)) :
    substituteAll target replacement fs = fs.map (substitute target replacement) := by
  induction fs with
  | nil => rfl
  | cons f fs ih => simp [substituteAll, ih]

/-- One substitution after another, each for one label. -/
def substituteEach (replacements : List (ι × Form ι)) (f : Form ι) : Form ι :=
  replacements.foldl (fun f (target, replacement) => substitute target replacement f) f

/-- A form without a label is left alone by a substitution for it. -/
theorem substitute_of_not_mem {target : ι} {replacement f : Form ι} (h : target ∉ f.labels) :
    substitute target replacement f = f := by
  induction f with
  | atom label text =>
    simp only [labels, List.mem_singleton] at h
    simp only [substitute, if_neg (Ne.symm h)]
  | string label text =>
    simp only [labels, List.mem_singleton] at h
    simp only [substitute, if_neg (Ne.symm h)]
  | list label items ih =>
    simp only [labels, labelsAll_eq_flatMap, List.mem_cons, List.mem_flatMap, not_or,
      not_exists, not_and] at h
    simp only [substitute, if_neg (Ne.symm h.1), substituteAll_eq_map]
    exact congrArg (list label)
      ((List.map_congr_left fun f hf => ih f hf (h.2 f hf)).trans (List.map_id' items))

end

/-! ### Tying atoms to parameters -/

/-- The label of the last parameter with a given spelling; what is no atom is no parameter. -/
def parameterLabel? (parameters : List (Form ι)) (text : String) : Option ι :=
  parameters.reverse.findSome? fun parameter =>
    match parameter with
    | atom label name => if name = text then some label else none
    | _ => none

mutual

/-- The form in which every atom spelled like a parameter has the label of that parameter. -/
def tie (parameters : List (Form ι)) : Form ι → Form ι
  | atom label text => atom ((parameterLabel? parameters text).getD label) text
  | string label text => string label text
  | list label items => list label (tieAll parameters items)

/-- The forms of a list in which every atom spelled like a parameter has the label of it. -/
def tieAll (parameters : List (Form ι)) : List (Form ι) → List (Form ι)
  | [] => []
  | f :: fs => tie parameters f :: tieAll parameters fs

end

@[simp]
theorem tieAll_eq_map (parameters fs : List (Form ι)) :
    tieAll parameters fs = fs.map (tie parameters) := by
  induction fs with
  | nil => rfl
  | cons f fs ih => simp [tieAll, ih]

/-- Tying changes labels only. -/
@[simp]
theorem erase_tie (parameters : List (Form ι)) (f : Form ι) :
    (f.tie parameters).erase = f.erase := by
  induction f with
  | atom => rfl
  | string => rfl
  | list label items ih =>
    simp only [tie, tieAll_eq_map, erase_list, List.map_map, list.injEq, true_and]
    exact List.map_congr_left ih

/-! ### By spelling -/

mutual

/-- The form with every atom that stands for another form replaced by that form, all at once. -/
def replace (standsFor? : String → Option (Form ι)) : Form ι → Form ι
  | atom label text => (standsFor? text).getD (atom label text)
  | string label text => string label text
  | list label items => list label (replaceAll standsFor? items)

/-- The forms of a list with every atom that stands for another form replaced by that form. -/
def replaceAll (standsFor? : String → Option (Form ι)) : List (Form ι) → List (Form ι)
  | [] => []
  | f :: fs => replace standsFor? f :: replaceAll standsFor? fs

end

@[simp]
theorem replaceAll_eq_map (standsFor? : String → Option (Form ι)) (fs : List (Form ι)) :
    replaceAll standsFor? fs = fs.map (replace standsFor?) := by
  induction fs with
  | nil => rfl
  | cons f fs ih => simp [replaceAll, ih]

end SubstLisp.Form
