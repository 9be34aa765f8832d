import SubstLisp.Form.Template
import SubstLisp.Proofs.Copies

/-!
# Labellings

A label is given out once, to a node of a certain shape, and whatever carries it later has this
shape. A labelling records the shapes of all labels given out so far, in order; forms that respect
one labelling agree on what each label stands for. Every operation on forms keeps to the labelling
that its arguments respect, extended by the labels that it takes itself.

## What is proved

* `Form.Respects.substitute`, `Form.Respects.tie`, `Form.Respects.map` — the operations that share
  or rename labels.
* `Form.respects_freshen`, `Form.respects_deepCopy`, `Form.respects_instantiate`,
  `Template.respects_expand` — the operations that take labels from the supply.
-/

namespace SubstLisp

/-! ### Shapes and nodes -/

/-- What a node is, apart from its label and its items. -/
inductive Form.Shape where
  /-- An atom of this text. -/
  | atom (text : String)
  /-- A string literal of this text. -/
  | string (text : String)
  /-- A list. -/
  | list
  deriving DecidableEq, Repr

namespace Form

variable {ι κ : Type}

/-- The shape of the outermost node. -/
def shape : Form ι → Shape
  | atom _ text => .atom text
  | string _ text => .string text
  | list _ _ => .list

mutual

/-- All the forms in a form, itself first. -/
def nodes : Form ι → List (Form ι)
  | atom label text => [atom label text]
  | string label text => [string label text]
  | list label items => list label items :: nodesAll items

/-- All the forms in the forms of a list. -/
def nodesAll : List (Form ι) → List (Form ι)
  | [] => []
  | f :: fs => nodes f ++ nodesAll fs

end

@[simp]
theorem nodesAll_eq_flatMap (fs : List (Form ι)) : nodesAll fs = fs.flatMap nodes := by
  induction fs with
  | nil => rfl
  | cons f fs ih => simp [nodesAll, ih]

theorem mem_nodes_self (f : Form ι) : f ∈ f.nodes := by
  cases f <;> simp [nodes]

theorem labels_eq_map_nodes (f : Form ι) : f.labels = f.nodes.map label := by
  induction f with
  | atom => rfl
  | string => rfl
  | list l items ih =>
    simp only [labels, labelsAll_eq_flatMap, nodes, nodesAll_eq_flatMap, List.map_cons,
      List.map_flatMap, label]
    exact congrArg _ (List.flatMap_congr ih)

theorem nodes_map (g : ι → κ) (f : Form ι) : (f.map g).nodes = f.nodes.map (map g) := by
  induction f with
  | atom => rfl
  | string => rfl
  | list l items ih =>
    simp only [map_list, nodes, nodesAll_eq_flatMap, List.map_cons, List.flatMap_map,
      List.map_flatMap]
    exact congrArg _ (List.flatMap_congr ih)

@[simp]
theorem shape_map (g : ι → κ) (f : Form ι) : (f.map g).shape = f.shape := by
  cases f <;> simp [shape]

end Form

/-! ### Forms that respect a labelling -/

/-- The shapes that labels have been given out for, in the order of the labels. -/
abbrev Labelling := List Form.Shape

/-- Every label in the form has been given out for the shape of its node. -/
def Form.Respects (ℓ : Labelling) (f : Node) : Prop :=
  ∀ g ∈ f.nodes, ℓ[g.label]? = some g.shape

/-- The labelling extends so that the supply stands at `next` and `P` holds of it. -/
def Labelling.ExtendsTo (ℓ : Labelling) (next : Nat) (P : Labelling → Prop) : Prop :=
  ∃ ℓ' : Labelling, ℓ <+: ℓ' ∧ ℓ'.length = next ∧ P ℓ'

namespace Form

variable {ℓ ℓ' : Labelling} {f : Node}

@[simp]
theorem respects_atom {label : Nat} {text : String} :
    Respects ℓ (.atom label text) ↔ ℓ[label]? = some (.atom text) := by
  simp [Respects, nodes, Form.label, shape]

@[simp]
theorem respects_string {label : Nat} {text : String} :
    Respects ℓ (.string label text) ↔ ℓ[label]? = some (.string text) := by
  simp [Respects, nodes, Form.label, shape]

@[simp]
theorem respects_list {label : Nat} {items : List Node} :
    Respects ℓ (.list label items) ↔ ℓ[label]? = some .list ∧ ∀ f ∈ items, Respects ℓ f := by
  simp only [Respects, nodes, nodesAll_eq_flatMap, List.forall_mem_cons, List.mem_flatMap,
    forall_exists_index, and_imp, Form.label, shape]
  exact and_congr_right fun _ => ⟨fun h f hf g => h g f hf, fun h g f hf => h f hf g⟩

/-- What a label stands for does not change. -/
theorem getElem?_of_prefix (h : ℓ <+: ℓ') {label : Nat} {shape : Shape}
    (hlabel : ℓ[label]? = some shape) : ℓ'[label]? = some shape := by
  obtain ⟨ℓ'', rfl⟩ := h
  rw [List.getElem?_append_left (List.getElem?_eq_some_iff.1 hlabel).1, hlabel]

theorem Respects.mono (h : ℓ <+: ℓ') (hf : f.Respects ℓ) : f.Respects ℓ' := fun g hg =>
  getElem?_of_prefix h (hf g hg)

/-- All labels are ones that have been given out. -/
theorem Respects.lt_length (hf : f.Respects ℓ) : ∀ label ∈ f.labels, label < ℓ.length := by
  intro label hlabel
  rw [labels_eq_map_nodes] at hlabel
  obtain ⟨g, hg, rfl⟩ := List.mem_map.1 hlabel
  exact (List.getElem?_eq_some_iff.1 (hf g hg)).1

/-- Nodes of one label have one shape. -/
theorem shape_eq_of_respects {g a b : Node} (hf : f.Respects ℓ) (hg : g.Respects ℓ)
    (ha : a ∈ f.nodes) (hb : b ∈ g.nodes) (h : a.label = b.label) : a.shape = b.shape := by
  have := hf a ha
  rw [h, hg b hb] at this
  exact (Option.some.inj this).symm

/-! ### Operations that share labels -/

/-- A form that is put in brings its labels along. -/
theorem Respects.substitute {target : Nat} {replacement : Node} (hf : f.Respects ℓ)
    (hr : replacement.Respects ℓ) : (Form.substitute target replacement f).Respects ℓ := by
  induction f using Form.induction with
  | atom label text => rw [Form.substitute]; split <;> assumption
  | string label text => rw [Form.substitute]; split <;> assumption
  | list label items ih =>
    rw [Form.substitute, substituteAll_eq_map]
    split
    · exact hr
    · obtain ⟨hlabel, hitems⟩ := respects_list.1 hf
      exact respects_list.2 ⟨hlabel, List.forall_mem_map.2 fun f h => ih f h (hitems f h)⟩

theorem Respects.substituteEach {replacements : List (Nat × Node)} (hf : f.Respects ℓ)
    (hr : ∀ r ∈ replacements, r.2.Respects ℓ) :
    (substituteEach replacements f).Respects ℓ := by
  induction replacements generalizing f with
  | nil => exact hf
  | cons r rs ih =>
    obtain ⟨hr, hrs⟩ := List.forall_mem_cons.1 hr
    exact ih (hf.substitute hr) hrs

/-- The label that a spelling stands for is that of a parameter of this spelling. -/
theorem mem_of_parameterLabel? {ι : Type} {parameters : List (Form ι)} {text : String} {label : ι}
    (h : parameterLabel? parameters text = some label) : Form.atom label text ∈ parameters := by
  obtain ⟨p, hp, hlabel⟩ := List.exists_of_findSome?_eq_some h
  cases p with
  | atom l name =>
    obtain ⟨rfl, rfl⟩ : name = text ∧ l = label := by simpa using hlabel
    exact List.mem_reverse.1 hp
  | string l name => cases hlabel
  | list l items => cases hlabel

/-- An atom that is tied to a parameter is spelled like it. -/
theorem Respects.tie {parameters : List Node} (hf : f.Respects ℓ)
    (hp : ∀ p ∈ parameters, p.Respects ℓ) : (f.tie parameters).Respects ℓ := by
  induction f using Form.induction with
  | atom label text =>
    rw [Form.tie]
    cases h : parameterLabel? parameters text with
    | none => exact hf
    | some l => exact hp _ (mem_of_parameterLabel? h)
  | string label text => exact hf
  | list label items ih =>
    obtain ⟨hlabel, hitems⟩ := respects_list.1 hf
    rw [Form.tie, tieAll_eq_map]
    exact respects_list.2 ⟨hlabel, List.forall_mem_map.2 fun f h => ih f h (hitems f h)⟩

/-! ### Operations that take labels -/

/-- One label more. -/
theorem getElem?_concat (ℓ : Labelling) (shape : Shape) :
    (ℓ ++ [shape])[ℓ.length]? = some shape := by
  simp

/-- A renaming to fresh labels extends a labelling by the shapes of the labels renamed. -/
theorem extendsTo_of_renaming {rename : Nat → Nat} {labels : List Nat} {next : Nat}
    (hr : Renaming rename labels ℓ.length next) :
    ℓ.ExtendsTo next fun ℓ' => ∀ label ∈ labels, ∀ shape, ℓ[label]? = some shape →
      ℓ'[rename label]? = some shape := by
  classical
  let original (copy : Nat) : Nat :=
    if h : ∃ label ∈ labels, rename label = copy then h.choose else 0
  have horiginal : ∀ label ∈ labels, original (rename label) = label := by
    intro label hlabel
    have h : ∃ label' ∈ labels, rename label' = rename label := ⟨label, hlabel, rfl⟩
    obtain ⟨hmem, heq⟩ := h.choose_spec
    simp only [original, dif_pos h]
    exact hr.injective _ hmem _ hlabel heq
  refine ⟨ℓ ++ (List.range' ℓ.length (next - ℓ.length)).map fun copy =>
    (ℓ[original copy]?).getD .list, List.prefix_append _ _, ?_, ?_⟩
  · have := hr.le
    simp
    omega
  · intro label hlabel shape hshape
    obtain ⟨hle, hlt⟩ := hr.fresh label hlabel
    rw [List.getElem?_append_right hle, List.getElem?_map, List.getElem?_range' (by omega)]
    simp only [Nat.one_mul, Nat.add_sub_cancel' hle, Option.map_some, horiginal label hlabel, hshape,
      Option.getD_some]

/-- A form keeps to the labelling in which its labels are renamed. -/
theorem Respects.map {rename : Nat → Nat} (hf : f.Respects ℓ)
    (hr : ∀ label ∈ f.labels, ∀ shape, ℓ[label]? = some shape → ℓ'[rename label]? = some shape) :
    (f.map rename).Respects ℓ' := by
  intro g' hg'
  rw [nodes_map] at hg'
  obtain ⟨g, hg, rfl⟩ := List.mem_map.1 hg'
  rw [label_map, shape_map]
  refine hr g.label ?_ g.shape (hf g hg)
  rw [labels_eq_map_nodes]
  exact List.mem_map_of_mem hg

theorem respects_deepCopy (hf : f.Respects ℓ) :
    ℓ.ExtendsTo (Node.deepCopy f ℓ.length).2 fun ℓ' => (Node.deepCopy f ℓ.length).1.Respects ℓ' := by
  obtain ⟨rename, hr, hcopy⟩ := Node.deepCopy_spec f ℓ.length
  obtain ⟨ℓ', hprefix, hlength, hℓ'⟩ := extendsTo_of_renaming hr
  exact ⟨ℓ', hprefix, hlength, hcopy ▸ hf.map hℓ'⟩

theorem respects_instantiate {parameters : List Node} (hf : f.Respects ℓ) :
    ℓ.ExtendsTo (Node.instantiate parameters f ℓ.length).2 fun ℓ' =>
      (Node.instantiate parameters f ℓ.length).1.2.Respects ℓ' := by
  obtain ⟨rename, hr, hcopy⟩ := Node.instantiate_spec parameters f ℓ.length
  obtain ⟨ℓ', hprefix, hlength, hℓ'⟩ := extendsTo_of_renaming hr
  refine ⟨ℓ', hprefix, hlength, ?_⟩
  rw [hcopy]
  exact hf.map fun label hlabel => hℓ' label (List.mem_append_right _ hlabel)

/-- Freshly labelled forms, one after another, given the law for each of them. -/
theorem respects_freshenAll_of {ι : Type} {fs : List (Form ι)}
    (hfreshen : ∀ f ∈ fs, ∀ ℓ : Labelling,
      ℓ.ExtendsTo (freshen id f ℓ.length).2 (freshen id f ℓ.length).1.Respects) (ℓ : Labelling) :
    ℓ.ExtendsTo (freshenAll id fs ℓ.length).2 fun ℓ' =>
      ∀ f ∈ (freshenAll id fs ℓ.length).1, f.Respects ℓ' := by
  induction fs generalizing ℓ with
  | nil => exact ⟨ℓ, List.prefix_rfl, rfl, fun _ h => absurd h List.not_mem_nil⟩
  | cons f fs ih =>
    obtain ⟨ℓ₁, h₁, hlength₁, hf⟩ := hfreshen f List.mem_cons_self ℓ
    obtain ⟨ℓ₂, h₂, hlength₂, hfs⟩ := ih (fun g hg => hfreshen g (List.mem_cons_of_mem f hg)) ℓ₁
    rw [hlength₁] at hlength₂ hfs
    exact ⟨ℓ₂, h₁.trans h₂, hlength₂, List.forall_mem_cons.2 ⟨hf.mono h₂, hfs⟩⟩

/-- A freshly labelled form respects the labelling extended by its labels. -/
theorem respects_freshen {ι : Type} (f : Form ι) (ℓ : Labelling) :
    ℓ.ExtendsTo (freshen id f ℓ.length).2 (freshen id f ℓ.length).1.Respects := by
  induction f generalizing ℓ with
  | atom label text =>
    exact ⟨ℓ ++ [.atom text], List.prefix_append _ _, by simp; rfl,
      respects_atom.2 (getElem?_concat ℓ _)⟩
  | string label text =>
    exact ⟨ℓ ++ [.string text], List.prefix_append _ _, by simp; rfl,
      respects_string.2 (getElem?_concat ℓ _)⟩
  | list label items ih =>
    obtain ⟨ℓ₁, h₁, hlength, hitems⟩ := respects_freshenAll_of ih ℓ
    refine ⟨ℓ₁ ++ [.list], h₁.trans (List.prefix_append _ _), by simp [hlength]; rfl, ?_⟩
    show Respects _ (.list (freshenAll id items ℓ.length).2 (freshenAll id items ℓ.length).1)
    rw [← hlength]
    exact respects_list.2 ⟨getElem?_concat ℓ₁ _,
      fun f hf => (hitems f hf).mono (List.prefix_append _ _)⟩

theorem respects_freshenAll {ι : Type} (fs : List (Form ι)) (ℓ : Labelling) :
    ℓ.ExtendsTo (freshenAll id fs ℓ.length).2 fun ℓ' =>
      ∀ f ∈ (freshenAll id fs ℓ.length).1, f.Respects ℓ' :=
  respects_freshenAll_of (fun f _ => respects_freshen f) ℓ

end Form

/-! ### Templates -/

namespace Template

/-- What the expansion of a template comes to keeps to a labelling that extends the one before. -/
def Respects {α : Type} (ℓ : Labelling) (P : Labelling → α → Prop) :
    EStateM.Result TemplateFault Trail α → Prop
  | .ok a trail => ℓ.ExtendsTo trail.next (P · a)
  | .error _ trail => ℓ.ExtendsTo trail.next fun _ => True

theorem respects_pure {α : Type} {ℓ : Labelling} {P : Labelling → α → Prop} {a : α} (h : P ℓ a)
    (sizes : Array Nat) : Respects ℓ P ((pure a : Expanding α) ⟨ℓ.length, sizes⟩) :=
  ⟨ℓ, List.prefix_rfl, rfl, h⟩

theorem respects_throw {α : Type} {ℓ : Labelling} {P : Labelling → α → Prop}
    (fault : TemplateFault) (sizes : Array Nat) :
    Respects ℓ P ((throw fault : Expanding α) ⟨ℓ.length, sizes⟩) :=
  ⟨ℓ, List.prefix_rfl, rfl, trivial⟩

/-- One expansion after another. -/
theorem respects_bind {α β : Type} {ℓ : Labelling} {P : Labelling → α → Prop}
    {Q : Labelling → β → Prop} {x : Expanding α} {k : α → Expanding β} {sizes : Array Nat}
    (hx : Respects ℓ P (x ⟨ℓ.length, sizes⟩))
    (hk : ∀ ℓ', ℓ <+: ℓ' → ∀ a, P ℓ' a → ∀ sizes, Respects ℓ' Q (k a ⟨ℓ'.length, sizes⟩)) :
    Respects ℓ Q ((x >>= k) ⟨ℓ.length, sizes⟩) := by
  show Respects ℓ Q (EStateM.bind x k ⟨ℓ.length, sizes⟩)
  unfold EStateM.bind
  cases h : x ⟨ℓ.length, sizes⟩ with
  | error fault trail =>
    rw [h] at hx
    exact hx
  | ok a trail =>
    rw [h] at hx
    obtain ⟨next, sizes'⟩ := trail
    obtain ⟨ℓ₁, h₁, rfl, ha⟩ := hx
    have hrest := hk ℓ₁ h₁ a ha sizes'
    show Respects ℓ Q (k a ⟨ℓ₁.length, sizes'⟩)
    cases hka : k a ⟨ℓ₁.length, sizes'⟩ with
    | ok b trail =>
      rw [hka] at hrest
      obtain ⟨ℓ₂, h₂, hlength, hb⟩ := hrest
      exact ⟨ℓ₂, h₁.trans h₂, hlength, hb⟩
    | error fault trail =>
      rw [hka] at hrest
      obtain ⟨ℓ₂, h₂, hlength, -⟩ := hrest
      exact ⟨ℓ₂, h₁.trans h₂, hlength, trivial⟩

/-- The expansions of several templates, one after another, given the law for each of them. -/
theorem respects_expandAll_of {fs : List Node}
    (hexpand : ∀ f ∈ fs, ∀ ℓ : Labelling, f.Respects ℓ → ∀ sizes,
      Respects ℓ Form.Respects (expand id f ⟨ℓ.length, sizes⟩))
    (ℓ : Labelling) (hfs : ∀ f ∈ fs, f.Respects ℓ) (sizes : Array Nat) :
    Respects ℓ (fun ℓ' codes => ∀ f ∈ codes, f.Respects ℓ')
      (expandAll id fs ⟨ℓ.length, sizes⟩) := by
  induction fs generalizing ℓ sizes with
  | nil => exact respects_pure (fun _ h => absurd h List.not_mem_nil) sizes
  | cons f fs ih =>
    obtain ⟨hf, hfs⟩ := List.forall_mem_cons.1 hfs
    refine respects_bind (hexpand f List.mem_cons_self ℓ hf sizes) ?_
    intro ℓ₁ h₁ code hcode sizes
    refine respects_bind (ih (fun g hg => hexpand g (List.mem_cons_of_mem f hg)) ℓ₁
      (fun g hg => (hfs g hg).mono h₁) sizes) ?_
    intro ℓ₂ h₂ codes hcodes sizes
    exact respects_pure (List.forall_mem_cons.2 ⟨hcode.mono h₂, hcodes⟩) sizes

/-- The code that a template stands for respects the labelling extended by the labels of the lists
made for it. -/
theorem respects_expand (f : Node) (ℓ : Labelling) (hf : f.Respects ℓ) (sizes : Array Nat) :
    Respects ℓ Form.Respects (expand id f ⟨ℓ.length, sizes⟩) := by
  induction f using Form.induction generalizing ℓ sizes with
  | atom label text => exact respects_pure hf sizes
  | string label text => exact respects_pure hf sizes
  | list label items ih =>
    cases items with
    | nil => exact respects_pure hf sizes
    | cons head operands =>
      obtain ⟨-, hoperands⟩ := List.forall_mem_cons.1 (Form.respects_list.1 hf).2
      simp only [expand]
      split
      · refine respects_bind (respects_expandAll_of (fun g hg => ih g (List.mem_cons_of_mem _ hg)) ℓ
          hoperands sizes) ?_
        intro ℓ₁ h₁ codes hcodes sizes
        exact ⟨ℓ₁ ++ [.list], List.prefix_append _ _, by simp, Form.respects_list.2
          ⟨Form.getElem?_concat ℓ₁ _, fun g hg => (hcodes g hg).mono (List.prefix_append _ _)⟩⟩
      · split
        · cases operands with
          | nil => exact respects_throw _ sizes
          | cons quoted rest => exact respects_pure (hoperands quoted List.mem_cons_self) sizes
        · exact respects_throw _ sizes

end Template

end SubstLisp
