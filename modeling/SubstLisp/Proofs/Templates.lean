import SubstLisp.Proofs.Arguments
import SubstLisp.Proofs.Reference
import SubstLisp.Proofs.Symbols

/-!
# Templates and arguments

A call of a macro puts in its arguments and expands what comes of it. The template could as well be
expanded first, once for all calls, and the arguments be put into the code. An argument can make a
difference in two ways only: at the head of a template, where it would decide what kind of template
this is, and as a template of its own, where it would be expanded if it were a list. Quotations are
not expanded, so what stands in them does not matter.

## What is proved

* `Template.expand_replace` — expanding commutes with putting forms in by spelling.
* `Definition.Linked.expand` — a definition stays linked when its body is expanded.
* `Workspace.Reachable.expand_substituteEach` — expanding commutes with putting in the arguments of
  a call, and a template that has been expanded when the macro was defined gives the code that
  every call would give.
-/

namespace SubstLisp

/-! ### Computations that end alike -/

theorem adaptExcept_bind {ε ε' σ α β : Type} (g : ε → ε') (x : EStateM ε σ α)
    (k : α → EStateM ε σ β) :
    (x >>= k).adaptExcept g = x.adaptExcept g >>= fun a => (k a).adaptExcept g := by
  funext s
  simp only [EStateM.adaptExcept, bind, EStateM.bind]
  cases x s <;> rfl

theorem eq_ok_of_adaptExcept {ε ε' σ α : Type} {g : ε → ε'} {x : EStateM ε σ α} {a : α} {s s' : σ}
    (h : x.adaptExcept g s = .ok a s') : x s = .ok a s' := by
  unfold EStateM.adaptExcept at h
  split at h
  · cases h
  · next hx =>
    cases h
    exact hx

/-- Computations that end alike do so when their failures are seen in another way. -/
theorem Alike.adaptExcept {ε ε' σ τ α β : Type} {R : α → β → Prop} {S : σ → τ → Prop}
    {x : EStateM ε σ α} {y : EStateM ε τ β} {s : σ} {t : τ} (h : Alike R S (x s) (y t))
    (g : ε → ε') : Alike R S (x.adaptExcept g s) (y.adaptExcept g t) := by
  unfold EStateM.adaptExcept
  generalize x s = e at h ⊢
  generalize y t = e' at h ⊢
  cases h with
  | ok hR hS => exact .ok hR hS
  | error hS => exact .error hS

theorem Alike.trans {ε σ τ ρ α β γ : Type} {R : α → β → Prop} {R' : β → γ → Prop}
    {S : σ → τ → Prop} {S' : τ → ρ → Prop} {e : EStateM.Result ε σ α} {e' : EStateM.Result ε τ β}
    {e'' : EStateM.Result ε ρ γ} (h : Alike R S e e') (h' : Alike R' S' e' e'') :
    Alike (fun a c => ∃ b, R a b ∧ R' b c) (fun s r => ∃ t, S s t ∧ S' t r) e e'' := by
  cases h with
  | ok hR hS => cases h' with | ok hR' hS' => exact .ok ⟨_, hR, hR'⟩ ⟨_, hS, hS'⟩
  | error hS => cases h' with | error hS' => exact .error ⟨_, hS, hS'⟩

/-- What is related is what has been given. -/
theorem Alike.of_ok {ε σ τ α β : Type} {R : α → β → Prop} {S : σ → τ → Prop}
    {e : EStateM.Result ε σ α} {e' : EStateM.Result ε τ β} (h : Alike R S e e') :
    Alike (fun a b => R a b ∧ ∃ t, e' = .ok b t) S e e' := by
  cases h with
  | ok hR hS => exact .ok ⟨hR, _, rfl⟩ hS
  | error hS => exact .error hS

/-- The fault of a template in which forms have been put in by spelling. -/
def TemplateFault.replace (standsFor? : String → Option Tree) : TemplateFault → TemplateFault
  | unknownHead head => unknownHead (head.replace standsFor?)
  | fault => fault

/-! ### Where templates are -/

namespace Form

variable {ι κ : Type}

/-- A word that makes a quotation of the list that it heads. -/
def IsQuote (f : Form ι) : Prop := f.atomText? = some "quote" ∨ f.atomText? = some "'"

instance (f : Form ι) : Decidable f.IsQuote := inferInstanceAs (Decidable (_ ∨ _))

mutual

/-- The templates of a form: the form itself, and those of the operands where it is headed by
`list`. -/
def templates : Form ι → List (Form ι)
  | .list label (head :: operands) => .list label (head :: operands) ::
    if head.atomText? = some "list" then templatesAll operands else []
  | f => [f]

/-- The templates of the forms of a list. -/
def templatesAll : List (Form ι) → List (Form ι)
  | [] => []
  | f :: fs => templates f ++ templatesAll fs

end

mutual

/-- The nodes of a form that are not inside an operand of a quotation. -/
def unquoted : Form ι → List (Form ι)
  | .list label (head :: operands) => .list label (head :: operands) ::
    (unquoted head ++ if head.IsQuote then [] else unquotedAll operands)
  | f => [f]

/-- The nodes of the forms of a list that are not inside an operand of a quotation. -/
def unquotedAll : List (Form ι) → List (Form ι)
  | [] => []
  | f :: fs => unquoted f ++ unquotedAll fs

end

/-- An atom, a string literal or the empty list. -/
inductive Inert : Form ι → Prop where
  /-- An atom. -/
  | atom (label : ι) (text : String) : Inert (.atom label text)
  /-- A string literal. -/
  | string (label : ι) (text : String) : Inert (.string label text)
  /-- The empty list. -/
  | empty (label : ι) : Inert (.list label [])

@[simp]
theorem templatesAll_eq_flatMap (fs : List (Form ι)) : templatesAll fs = fs.flatMap templates := by
  induction fs with
  | nil => rfl
  | cons f fs ih => simp [templatesAll, ih]

@[simp]
theorem unquotedAll_eq_flatMap (fs : List (Form ι)) : unquotedAll fs = fs.flatMap unquoted := by
  induction fs with
  | nil => rfl
  | cons f fs ih => simp [unquotedAll, ih]

theorem mem_templates_self (f : Form ι) : f ∈ f.templates := by
  fun_cases templates f <;> simp

/-- The operands of a template `list` are templates. -/
theorem templates_subset_of_mem {label : ι} {head f : Form ι} {operands : List (Form ι)}
    (hhead : head.atomText? = some "list") (hf : f ∈ operands) :
    f.templates ⊆ (list label (head :: operands)).templates := by
  intro g hg
  rw [templates, if_pos hhead, templatesAll_eq_flatMap]
  exact List.mem_cons_of_mem _ (List.mem_flatMap.2 ⟨f, hf, hg⟩)

/-- Templates are among any nodes that are taken from the form itself and from the operands of
`list`. -/
theorem templates_subset_of {taken : Form ι → List (Form ι)} (hself : ∀ f, f ∈ taken f)
    (hlist : ∀ label head operands, head.atomText? = some "list" → ∀ f ∈ operands,
      taken f ⊆ taken (list label (head :: operands))) (f : Form ι) :
    f.templates ⊆ taken f := by
  induction f with
  | atom label text => exact List.cons_subset.2 ⟨hself _, List.nil_subset _⟩
  | string label text => exact List.cons_subset.2 ⟨hself _, List.nil_subset _⟩
  | list label items ih =>
    cases items with
    | nil => exact List.cons_subset.2 ⟨hself _, List.nil_subset _⟩
    | cons head operands =>
      rw [templates, templatesAll_eq_flatMap]
      refine List.cons_subset.2 ⟨hself _, ?_⟩
      split
      · next hhead =>
        intro g hg
        obtain ⟨f, hf, hg⟩ := List.mem_flatMap.1 hg
        exact hlist label head operands hhead f hf (ih f (List.mem_cons_of_mem _ hf) hg)
      · exact List.nil_subset _

/-- The items of a list are nodes of it. -/
theorem mem_nodes_of_items? {f g : Form ι} {items : List (Form ι)} (h : f.items? = some items)
    (hg : g ∈ items) : g ∈ f.nodes := by
  cases f with
  | atom => cases h
  | string => cases h
  | list label items' =>
    cases h
    rw [nodes, nodesAll_eq_flatMap]
    exact List.mem_cons_of_mem _ (List.mem_flatMap.2 ⟨g, hg, g.mem_nodes_self⟩)

theorem templates_subset_nodes (f : Form ι) : f.templates ⊆ f.nodes := by
  refine templates_subset_of mem_nodes_self ?_ f
  intro label head operands _ f hf
  exact nodes_subset (mem_nodes_of_items? rfl (List.mem_cons_of_mem _ hf))

/-- A template is not inside an operand of a quotation. -/
theorem templates_subset_unquoted (f : Form ι) : f.templates ⊆ f.unquoted := by
  refine templates_subset_of (fun f => ?_) ?_ f
  · fun_cases unquoted f <;> simp
  · intro label head operands hhead f hf g hg
    have hquote : ¬ head.IsQuote := by simp [IsQuote, hhead]
    rw [unquoted, if_neg hquote, unquotedAll_eq_flatMap]
    exact List.mem_cons_of_mem _ (List.mem_append_right _ (List.mem_flatMap.2 ⟨f, hf, hg⟩))

theorem templates_map (g : ι → κ) (f : Form ι) :
    (f.map g).templates = f.templates.map (map g) := by
  induction f with
  | atom => rfl
  | string => rfl
  | list label items ih =>
    cases items with
    | nil => rfl
    | cons head operands =>
      rw [map_list, List.map_cons, templates, templates, atomText?_map, templatesAll_eq_flatMap,
        templatesAll_eq_flatMap, List.map_cons, map_list, List.map_cons]
      split
      · rw [List.flatMap_map, List.map_flatMap]
        exact congrArg _ (List.flatMap_congr fun f hf => ih f (List.mem_cons_of_mem _ hf))
      · rfl

theorem Inert.map {f : Form ι} (h : f.Inert) (g : ι → κ) : (f.map g).Inert := by
  cases h with
  | atom => exact .atom _ _
  | string => exact .string _ _
  | empty => exact .empty _

end Form

/-! ### Expanding and putting in by spelling -/

namespace Template

variable {ι : Type}

theorem expand_of_inert {f : Form ι} (h : f.Inert) (label : Nat → ι) :
    expand label f = pure f := by
  cases h <;> rfl

variable {standsFor? : String → Option Tree}

/-- Forms may be put into a template by spelling: no head of a template is one that stands for
something, and templates stand for atoms, string literals and empty lists only. -/
structure Admits (standsFor? : String → Option Tree) (template : Tree) : Prop where
  /-- Heads stand for themselves. -/
  heads : ∀ f ∈ template.templates, ∀ head operands, f.items? = some (head :: operands) →
    head.atomText?.bind standsFor? = none
  /-- What a template stands for is inert. -/
  inert : ∀ f ∈ template.templates, ∀ g, f.atomText?.bind standsFor? = some g → g.Inert

theorem Admits.mono {f g : Tree} (h : Admits standsFor? f) (hsub : g.templates ⊆ f.templates) :
    Admits standsFor? g :=
  ⟨fun t ht => h.heads t (hsub ht), fun t ht => h.inert t (hsub ht)⟩

/-- The expansions of several templates, one after another, given the law for each of them. -/
theorem expandAll_replace_of {fs : List Tree}
    (hexpand : ∀ f ∈ fs, ∀ s s' : Trail, s'.sizes = s.sizes →
      Alike (fun code code' => code = code'.replace standsFor?)
        (fun s s' : Trail => s'.sizes = s.sizes)
        (expand (fun _ => ()) (f.replace standsFor?) s)
        ((expand (fun _ => ()) f).adaptExcept (TemplateFault.replace standsFor?) s'))
    (s s' : Trail) (hs : s'.sizes = s.sizes) :
    Alike (fun codes codes' => codes = codes'.map (Form.replace standsFor?))
      (fun s s' : Trail => s'.sizes = s.sizes)
      (expandAll (fun _ => ()) (fs.map (Form.replace standsFor?)) s)
      ((expandAll (fun _ => ()) fs).adaptExcept (TemplateFault.replace standsFor?) s') := by
  induction fs generalizing s s' with
  | nil => exact .ok rfl hs
  | cons f fs ih =>
    simp only [List.map_cons, expandAll, adaptExcept_bind]
    refine Alike.bind (hexpand f List.mem_cons_self s s' hs) ?_
    rintro _ code' s₁ s₁' rfl hs₁
    refine Alike.bind (ih (fun g hg => hexpand g (List.mem_cons_of_mem f hg)) s₁ s₁' hs₁) ?_
    rintro _ codes' s₂ s₂' rfl hs₂
    exact .ok rfl hs₂

/-- A head that stands for nothing keeps its spelling. -/
theorem atomText?_replace {head : Tree} (h : head.atomText?.bind standsFor? = none) :
    (head.replace standsFor?).atomText? = head.atomText? := by
  cases head with
  | atom label text =>
    have h : standsFor? text = none := h
    simp [Form.replace, h]
  | string label text => rfl
  | list label items => rfl

/-- **Expanding a template commutes with putting forms in by spelling**, if the template admits
them: the same expansions fail, for faults that are the same but for what has been put in, and the
codes are the same but for what has been put in. -/
theorem expand_replace (f : Tree) (hf : Admits standsFor? f) (s s' : Trail)
    (hs : s'.sizes = s.sizes) :
    Alike (fun code code' => code = code'.replace standsFor?)
      (fun s s' : Trail => s'.sizes = s.sizes)
      (expand (fun _ => ()) (f.replace standsFor?) s)
      ((expand (fun _ => ()) f).adaptExcept (TemplateFault.replace standsFor?) s') := by
  induction f using Form.induction generalizing s s' with
  | atom label text =>
    cases h : standsFor? text with
    | none =>
      have hreplace : (Form.atom label text).replace standsFor? = .atom label text := by
        simp [Form.replace, h]
      rw [hreplace]
      exact .ok hreplace.symm hs
    | some g =>
      have hreplace : (Form.atom label text).replace standsFor? = g := by simp [Form.replace, h]
      have hg : g.Inert := hf.inert _ (Form.mem_templates_self _) g h
      rw [hreplace, expand_of_inert hg]
      exact .ok hreplace.symm hs
  | string label text => exact .ok rfl hs
  | list label items ih =>
    cases items with
    | nil => exact .ok rfl hs
    | cons head operands =>
      have hhead := hf.heads _ (Form.mem_templates_self _) head operands rfl
      simp only [Form.replace, Form.replaceAll_eq_map, List.map_cons, expand,
        atomText?_replace hhead]
      split
      · next hlist =>
        rw [adaptExcept_bind]
        refine Alike.bind (expandAll_replace_of (fun g hg => ih g (List.mem_cons_of_mem _ hg)
          (hf.mono (Form.templates_subset_of_mem hlist hg))) s s' hs) ?_
        rintro _ codes' s₁ s₁' rfl hs₁
        exact .ok (by simp [Form.replace]) (by simp [hs₁])
      · split
        · cases operands with
          | nil => exact .error hs
          | cons quoted rest => exact .ok rfl hs
        · rw [Form.erase_tree, Form.erase_tree]
          exact .error hs

/-! ### What expanding adds -/

/-- All new nodes are lists with labels that the supply has given since it stood at `next`. -/
def AddsLists (next : Nat) (old new : List Node) : Prop :=
  ∀ g ∈ new, g ∈ old ∨ next ≤ g.label ∧ g.atomText? = none

/-- The expansions of several templates, one after another, given the law for each of them. -/
theorem addsLists_expandAll_of {fs : List Node}
    (hexpand : ∀ f ∈ fs, ∀ {s s' : Trail} {code : Node}, expand id f s = .ok code s' →
      s.next ≤ s'.next ∧ AddsLists s.next f.nodes code.nodes)
    {s s' : Trail} {codes : List Node} (h : expandAll id fs s = .ok codes s') :
    s.next ≤ s'.next ∧ AddsLists s.next (fs.flatMap Form.nodes) (codes.flatMap Form.nodes) := by
  induction fs generalizing s codes with
  | nil =>
    cases h
    exact ⟨Nat.le_refl _, fun _ hg => absurd hg List.not_mem_nil⟩
  | cons f fs ih =>
    obtain ⟨code, s₁, hcode, h⟩ := of_bind_eq_ok h
    obtain ⟨rest, s₂, hrest, ⟨⟩⟩ := of_bind_eq_ok h
    obtain ⟨hle, hadds⟩ := hexpand f List.mem_cons_self hcode
    obtain ⟨hle', hadds'⟩ := ih (fun g hg => hexpand g (List.mem_cons_of_mem f hg)) hrest
    refine ⟨Nat.le_trans hle hle', ?_⟩
    intro g hg
    rcases List.mem_append.1 hg with hg | hg
    · exact (hadds g hg).imp (List.mem_append_left _) id
    · exact (hadds' g hg).imp (List.mem_append_right _) (And.imp_left (Nat.le_trans hle))

/-- Expanding a template adds lists only. -/
theorem addsLists_expand (f : Node) {s s' : Trail} {code : Node}
    (h : expand id f s = .ok code s') :
    s.next ≤ s'.next ∧ AddsLists s.next f.nodes code.nodes := by
  induction f using Form.induction generalizing s s' code with
  | atom label text =>
    cases h
    exact ⟨Nat.le_refl _, fun _ => .inl⟩
  | string label text =>
    cases h
    exact ⟨Nat.le_refl _, fun _ => .inl⟩
  | list label items ih =>
    cases items with
    | nil =>
      cases h
      exact ⟨Nat.le_refl _, fun _ => .inl⟩
    | cons head operands =>
      simp only [Form.nodes, Form.nodesAll_eq_flatMap, List.flatMap_cons]
      simp only [expand] at h
      split at h
      · obtain ⟨codes, s₁, hcodes, ⟨⟩⟩ := of_bind_eq_ok h
        obtain ⟨hle, hadds⟩ :=
          addsLists_expandAll_of (fun g hg => ih g (List.mem_cons_of_mem _ hg)) hcodes
        refine ⟨Nat.le_succ_of_le hle, ?_⟩
        rw [Form.nodes, Form.nodesAll_eq_flatMap]
        refine List.forall_mem_cons.2 ⟨.inr ⟨hle, rfl⟩, ?_⟩
        intro g hg
        exact (hadds g hg).imp_left fun hmem =>
          List.mem_cons_of_mem _ (List.mem_append_right _ hmem)
      · split at h
        · cases operands with
          | nil => cases h
          | cons quoted rest =>
            cases h
            exact ⟨Nat.le_refl _, fun g hg => .inl (List.mem_cons_of_mem _
              (List.mem_append_right _ (List.mem_append_left _ hg)))⟩
        · cases h

/-! ### Related expansions -/

/-- Forms that are the same, but that the one has forms put in by spelling, expand to codes of which
the same is true. -/
theorem alike_expand {f f' : Node} (hf : f.erase = f'.erase.replace standsFor?)
    (hadmits : Admits standsFor? f'.erase) (s s' : Trail) (hs : s'.sizes = s.sizes) :
    Alike (fun code code' => code.erase = code'.erase.replace standsFor? ∧
        ∃ t, expand id f' s' = .ok code' t)
      (fun s s' : Trail => s'.sizes = s.sizes) (expand id f s)
      ((expand id f').adaptExcept (TemplateFault.replace standsFor?) s') := by
  have herase := erase_expand f s s rfl
  have hreplace := expand_replace f'.erase hadmits s s' hs
  have herase' := (erase_expand f' s' s' rfl).adaptExcept (TemplateFault.replace standsFor?)
  rw [hf] at herase
  refine ((herase.trans hreplace).join herase').of_ok.imp ?_ ?_
  · rintro code code' ⟨⟨_, ⟨_, rfl, h⟩, rfl⟩, t, ht⟩
    exact ⟨h, t, eq_ok_of_adaptExcept ht⟩
  · rintro t t' ⟨_, ⟨_, h, h'⟩, h''⟩
    rw [← h, ← h', h'']

end Template

/-! ### Definitions with templates for bodies -/

/-- No parameter is the head of a template, and an argument is inert or else its parameter occurs in
operands of quotations only. -/
structure Template.Suits (labels : List Nat) (operands : List Node) (body : Node) : Prop where
  /-- No parameter is the head of a template. -/
  heads : ∀ f ∈ body.templates, ∀ head rest, f.items? = some (head :: rest) → head.label ∉ labels
  /-- What is put in for a node outside of quotations is inert. -/
  arguments : ∀ r ∈ labels.zip operands, r.2.Inert ∨ ∀ g ∈ body.unquoted, g.label ≠ r.1

namespace Definition.Linked

variable {d : Definition Nat} {operands : List Node}

/-- A definition stays linked when its body is expanded. -/
theorem expand (hd : d.Linked) {s s' : Template.Trail} {code : Node}
    (h : Template.expand id d.body s = .ok code s') (hlt : ∀ p ∈ d.parameters, p.label < s.next) :
    Linked { d with body := code } := by
  refine ⟨hd.atoms, hd.names, hd.labels, ?_⟩
  intro p hp g hg
  rcases (Template.addsLists_expand _ h).2 g hg with hmem | ⟨hle, hnone⟩
  · exact hd.occurs p hp g hmem
  -- A list that has been added is no parameter, by its label as by what it is.
  · obtain ⟨text, htext⟩ := hd.atoms p hp
    have hlt := hlt p hp
    rw [hnone, htext]
    exact iff_of_false (by omega) (by simp)

/-- Arguments that suit a template by label are admitted by it by spelling. -/
theorem admits (hd : d.Linked)
    (h : Template.Suits (d.parameters.map Form.label) operands d.body) :
    Template.Admits (fun text => (d.parameterNames.zip (operands.map Form.erase)).lookup text)
      d.body.erase := by
  constructor
  · intro f' hf' head' operands' hitems'
    rw [Form.erase, Form.templates_map] at hf'
    obtain ⟨f, hf, rfl⟩ := List.mem_map.1 hf'
    rw [Form.items?_map] at hitems'
    obtain ⟨items, hitems, heq⟩ := Option.map_eq_some_iff.1 hitems'
    obtain ⟨head, rest, rfl, rfl, -⟩ := List.map_eq_cons_iff.1 heq
    have hhead : head ∈ d.body.nodes := Form.nodes_subset (Form.templates_subset_nodes _ hf)
      (Form.mem_nodes_of_items? hitems List.mem_cons_self)
    rw [Form.atomText?_map, ← hd.erase_lookup operands hhead, Option.map_eq_none_iff]
    refine List.lookup_eq_none_iff.2 ?_
    intro r hr
    rw [bne_iff_ne]
    intro heq
    exact h.heads f hf head rest hitems (heq ▸ (List.of_mem_zip hr).1)
  · intro f' hf' g' hg'
    rw [Form.erase, Form.templates_map] at hf'
    obtain ⟨f, hf, rfl⟩ := List.mem_map.1 hf'
    rw [Form.atomText?_map, ← hd.erase_lookup operands (Form.templates_subset_nodes _ hf)] at hg'
    obtain ⟨g, hg, rfl⟩ := Option.map_eq_some_iff.1 hg'
    obtain ⟨before, after, heq, -⟩ := List.lookup_eq_some_iff.1 hg
    have hmem : (f.label, g) ∈ (d.parameters.map Form.label).zip operands := by simp [heq]
    rcases h.arguments _ hmem with hinert | hunquoted
    · exact hinert.map _
    · exact absurd rfl (hunquoted f (Form.templates_subset_unquoted _ hf))

/-- Expanding commutes with putting in arguments, which carry no label of a parameter. -/
theorem alike_expand_substituteEach (hd : d.Linked)
    (hoperands : ∀ f ∈ operands, ∀ label ∈ f.labels, label ∉ d.parameters.map Form.label)
    (hsuits : Template.Suits (d.parameters.map Form.label) operands d.body)
    {t t' : Template.Trail} (hsizes : t'.sizes = t.sizes)
    (hlt : ∀ p ∈ d.parameters, p.label < t'.next) :
    Alike (fun code code' => code.erase =
        (Form.substituteEach ((d.parameters.map Form.label).zip operands) code').erase)
      (fun t t' : Template.Trail => t'.sizes = t.sizes)
      (Template.expand id
        (Form.substituteEach ((d.parameters.map Form.label).zip operands) d.body) t)
      ((Template.expand id d.body).adaptExcept (TemplateFault.replace fun text =>
        (d.parameterNames.zip (operands.map Form.erase)).lookup text) t') := by
  have hbody := hd.erase_substituteEach hoperands
  refine (Template.alike_expand hbody (hd.admits hsuits) t t' hsizes).imp ?_ fun _ _ => id
  rintro code code' ⟨hcode, t'', hexpand⟩
  have hcode' := (hd.expand hexpand hlt).erase_substituteEach hoperands
  exact hcode.trans hcode'.symm

/-- A template that has been expanded gives a call the code that the template would give. -/
theorem alike_expand_apply (hd : d.Linked) {later : Nat}
    (hoperands : ∀ f ∈ operands, ∀ label ∈ f.labels, label < later)
    (hadmits : Template.Admits
      (fun text => (d.parameterNames.zip (operands.map Form.erase)).lookup text) d.body.erase)
    {t t' : Template.Trail} (hsizes : t'.sizes = t.sizes)
    (hlt : ∀ p ∈ d.parameters, p.label < t'.next) :
    Alike (fun code code' => code.erase =
        (Convention.byIdentity.apply { d with body := code' } operands later).1.erase)
      (fun t t' : Template.Trail => t'.sizes = t.sizes)
      (Template.expand id (Convention.byIdentity.apply d operands later).1 t)
      ((Template.expand id d.body).adaptExcept (TemplateFault.replace fun text =>
        (d.parameterNames.zip (operands.map Form.erase)).lookup text) t') := by
  have hbody := hd.erase_apply_eq_replace hoperands
  refine (Template.alike_expand hbody hadmits t t' hsizes).imp ?_ fun _ _ => id
  rintro code code' ⟨hcode, t'', hexpand⟩
  have hcode' := (hd.expand hexpand hlt).erase_apply_eq_replace hoperands
  exact hcode.trans hcode'.symm

end Definition.Linked

namespace Workspace

variable {σ : Type} {held : σ → List Node} {s : Workspace σ}

/-- **Expanding commutes with putting in arguments.** Let a definition be copied, and let forms be
put in for its parameters of which none is a node of the copy: they are older, as the arguments of a
call are, or newer. If they suit the template, the template with them can be expanded exactly when
the template can, to the same code with the same forms put in; otherwise it fails for the same
fault with the same forms put in. So a body that is expanded once, at any time since its parameters
have been made, gives every call the code that the template would give. -/
theorem Reachable.expand_substituteEach (h : s.Reachable held) {d : Definition Nat}
    (hd : s.HasDefinition d) {next after : Nat} {labels : List Nat} {body : Node}
    (hcopy : Node.instantiate d.parameters d.body next = ((labels, body), after))
    {operands : List Node}
    (hoperands : ∀ f ∈ operands, ∀ label ∈ f.labels, label < next ∨ after ≤ label)
    (hsuits : Template.Suits labels operands body) :
    let standsFor? := fun text => (d.parameterNames.zip (operands.map Form.erase)).lookup text
    (∀ t t' : Template.Trail, t'.sizes = t.sizes → after ≤ t'.next →
      Alike (fun code code' => code.erase = (Form.substituteEach (labels.zip operands) code').erase)
        (fun t t' : Template.Trail => t'.sizes = t.sizes)
        (Template.expand id (Form.substituteEach (labels.zip operands) body) t)
        ((Template.expand id body).adaptExcept (TemplateFault.replace standsFor?) t')) ∧
    ∀ later, (∀ f ∈ operands, ∀ label ∈ f.labels, label < later) →
      ∀ t t' : Template.Trail, t'.sizes = t.sizes → (∀ p ∈ d.parameters, p.label < t'.next) →
        Alike (fun code code' => code.erase =
            (Convention.byIdentity.apply { d with body := code' } operands later).1.erase)
          (fun t t' : Template.Trail => t'.sizes = t.sizes)
          (Template.expand id (Convention.byIdentity.apply d operands later).1 t)
          ((Template.expand id d.body).adaptExcept (TemplateFault.replace standsFor?) t') := by
  intro standsFor?
  obtain ⟨ℓ, hs⟩ := h.respects
  have hlinked := hd.linked hs
  obtain ⟨rename, hcopied, heq, hfresh⟩ := hlinked.instantiate_eq_map next
  rw [hcopy] at heq hfresh
  obtain ⟨rfl, rfl⟩ := Prod.mk.inj heq
  have hfree : ∀ f ∈ operands, ∀ label ∈ f.labels,
      label ∉ (d.map rename).parameters.map Form.label := by
    intro f hf label hlabel hmem
    have hold := hoperands f hf label hlabel
    have hnew := hfresh label hmem
    omega
  constructor
  · intro t t' hsizes hle
    have hlt : ∀ p ∈ (d.map rename).parameters, p.label < t'.next := fun p hp =>
      Nat.lt_of_lt_of_le (hfresh _ (List.mem_map_of_mem hp)).2 hle
    have halike := hcopied.alike_expand_substituteEach hfree hsuits hsizes hlt
    rwa [Definition.parameterNames_map] at halike
  · intro later hlater t t' hsizes hlt
    have hadmits := hcopied.admits hsuits
    rw [Definition.parameterNames_map, Definition.map, Form.erase_map] at hadmits
    exact hlinked.alike_expand_apply hlater hadmits hsizes hlt

/-- A template that quotes one parameter and lists another: a list may be given for the one, not for
the other. -/
theorem Reachable.expand_substituteEach_quotation :
    let x : Node := .atom 0 "x"
    let y : Node := .atom 1 "y"
    let quotation : Node := .list 4 [.atom 2 "quote", y]
    let body : Node := .list 5 [.atom 3 "list", x, quotation]
    let d : Definition Nat := ⟨"pair", [x, y], body⟩
    let forms := [body, quotation, .atom 3 "list", .atom 2 "quote", y, x]
    let s : Workspace Unit := { holding ⟨6, forms⟩ with definitions := [d] }
    let copy : Node :=
      .list 8 [.atom 9 "list", .atom 6 "x", .list 10 [.atom 11 "quote", .atom 7 "y"]]
    s.Reachable (fun _ => []) ∧ s.HasDefinition d ∧
      Node.instantiate [x, y] body 6 = (([6, 7], copy), 12) ∧
      (∀ f ∈ [x, body], ∀ label ∈ f.labels, label < 6 ∨ 12 ≤ label) ∧
      Template.Suits [6, 7] [x, body] copy ∧
      Template.expand id (Form.substituteEach [(6, x), (7, body)] copy) ⟨12, #[]⟩ =
        .ok (.list 12 [x, body]) ⟨13, #[2]⟩ ∧
      Template.expand id copy ⟨12, #[]⟩ = .ok (.list 12 [.atom 6 "x", .atom 7 "y"]) ⟨13, #[2]⟩ ∧
      (Form.list 12 [x, body]).erase =
        (Form.substituteEach [(6, x), (7, body)] (.list 12 [.atom 6 "x", .atom 7 "y"])).erase ∧
      Template.expand id body ⟨6, #[]⟩ = .ok (.list 6 [x, y]) ⟨7, #[2]⟩ ∧
      (Form.list 12 [x, body]).erase =
        (Convention.byIdentity.apply { d with body := .list 6 [x, y] } [x, body] 6).1.erase := by
  intro x y quotation body d forms s copy
  have hforms : Workbench.Reaches ⟨0, []⟩ ⟨6, forms⟩ :=
    (((((Relation.ReflTransGen.refl.tail (.atom "x")).tail (.atom "y")).tail
      (.atom "quote")).tail (.atom "list")).tail
        (@Workbench.Step.list 4 [.atom 3 "list", .atom 2 "quote", y, x] [.atom 2 "quote", y]
          (by simp))).tail
      (@Workbench.Step.list 5 [quotation, .atom 3 "list", .atom 2 "quote", y, x]
        [.atom 3 "list", x, quotation] (by simp))
  obtain ⟨host, hhost, hsteps⟩ := reachable_holding hforms
  have hmake : Step (fun _ => []) (holding ⟨6, forms⟩) s :=
    @Step.make _ _ (holding ⟨6, forms⟩) "pair" [x, y] body d (by simp [holding, forms])
      (by simp [holding, forms]) rfl
  have h : s.Reachable (fun _ => []) := ⟨host, hhost, hsteps.tail hmake⟩
  have hd : s.HasDefinition d := .held List.mem_cons_self
  have hcopy : Node.instantiate d.parameters d.body 6 = (([6, 7], copy), 12) := rfl
  have hoperands : ∀ f ∈ [x, body], ∀ label ∈ f.labels, label < 6 ∨ 12 ≤ label := by decide
  have hsuits : Template.Suits [6, 7] [x, body] copy := by
    constructor
    · intro f hf head rest hitems
      have hf : f ∈ [copy, .atom 6 "x", .list 10 [.atom 11 "quote", .atom 7 "y"]] := hf
      simp only [List.mem_cons, List.not_mem_nil, or_false] at hf
      rcases hf with rfl | rfl | rfl <;> cases hitems <;> decide
    · exact List.forall_mem_cons.2
        ⟨.inl (.atom 0 "x"), List.forall_mem_singleton.2 (.inr (by decide))⟩
  obtain ⟨hcall, honce⟩ := h.expand_substituteEach hd hcopy hoperands hsuits
  refine ⟨h, hd, hcopy, hoperands, hsuits, rfl, rfl, ?_, rfl, ?_⟩
  · cases hcall ⟨12, #[]⟩ ⟨12, #[]⟩ rfl (Nat.le_refl 12) with
    | ok hcode _ => exact hcode
  · cases honce 6 (by decide) ⟨12, #[]⟩ ⟨6, #[]⟩ rfl (by decide) with
    | ok hcode _ => exact hcode

end Workspace

end SubstLisp
