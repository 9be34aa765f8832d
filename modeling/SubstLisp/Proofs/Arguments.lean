import SubstLisp.Proofs.Workspace

/-!
# Arguments of a call

A call copies the definition and puts its arguments in one after another, each for the label of its
parameter in the copy. Later arguments are put in where earlier ones already stand, and an argument
may hold atoms that are spelled like parameters or that are nodes of the definition itself. It does
not matter: the labels of the copy are fresh, so no argument carries one of them.

## What is proved

* `Form.substitute_comm`, `Form.substituteEach_perm` — substitutions for different labels, of which
  no replacement carries one, may be done in any order.
* `Workspace.Reachable.apply_eq_replace` — the arguments of a call stand at once, and in whichever
  order they are put in, where the body has an atom spelled like their parameter.
-/

namespace SubstLisp

namespace Form

variable {ι : Type}

/-- The nodes of a node of a form are nodes of the form. -/
theorem nodes_subset {f g : Form ι} (h : f ∈ g.nodes) : f.nodes ⊆ g.nodes := by
  induction g with
  | atom label text =>
    obtain rfl : f = _ := by simpa [nodes] using h
    exact List.Subset.refl _
  | string label text =>
    obtain rfl : f = _ := by simpa [nodes] using h
    exact List.Subset.refl _
  | list label items ih =>
    rw [nodes, nodesAll_eq_flatMap] at h ⊢
    rcases List.mem_cons.1 h with rfl | h
    · rw [nodes, nodesAll_eq_flatMap]
      exact List.Subset.refl _
    · obtain ⟨item, hitem, hf⟩ := List.mem_flatMap.1 h
      intro g hg
      exact List.mem_cons_of_mem _ (List.mem_flatMap.2 ⟨item, hitem, ih item hitem hf hg⟩)

variable [DecidableEq ι]

/-- Substitutions for two labels may change places if neither replacement carries the label of the
other. -/
theorem substitute_comm {a b : ι} {f g : Form ι} (hne : a ≠ b) (hf : b ∉ f.labels)
    (hg : a ∉ g.labels) (body : Form ι) :
    substitute b g (substitute a f body) = substitute a f (substitute b g body) := by
  have hf : substitute b g f = f := substitute_of_not_mem hf
  have hg : substitute a f g = g := substitute_of_not_mem hg
  induction body with
  | atom label text =>
    by_cases ha : label = a
    · simp [substitute, ha, hf, hne]
    · by_cases hb : label = b <;> simp [substitute, ha, hb, hg, Ne.symm hne]
  | string label text =>
    by_cases ha : label = a
    · simp [substitute, ha, hf, hne]
    · by_cases hb : label = b <;> simp [substitute, ha, hb, hg, Ne.symm hne]
  | list label items ih =>
    by_cases ha : label = a
    · simp [substitute, ha, hf, hne]
    · by_cases hb : label = b
      · simp [substitute, hb, hg, Ne.symm hne]
      · simpa [substitute, ha, hb] using ih

/-- **The order of substitutions does not matter**, if they are for different labels and no
replacement carries one of these. -/
theorem substituteEach_perm {replacements replacements' : List (ι × Form ι)}
    (hnodup : (replacements.map Prod.fst).Nodup)
    (hfresh : ∀ r ∈ replacements, ∀ r' ∈ replacements, r'.1 ∉ r.2.labels)
    (h : replacements.Perm replacements') (body : Form ι) :
    substituteEach replacements body = substituteEach replacements' body := by
  refine h.foldl_eq' ?_ body
  intro r hr r' hr' body
  by_cases heq : r = r'
  · rw [heq]
  · have hne : r.1 ≠ r'.1 := fun hlabel => heq (List.inj_on_of_nodup_map hnodup hr hr' hlabel)
    exact substitute_comm hne (hfresh r hr r' hr') (hfresh r' hr' r hr) body

end Form

namespace Definition

/-- The labels that a copy of a definition has for its parameters are distinct, one for each, and no
form with older labels carries one. -/
theorem Linked.instantiate {d : Definition Nat} (hd : d.Linked) (next : Nat) :
    let labels := (Node.instantiate d.parameters d.body next).1.1
    labels.length = d.arity ∧ labels.Nodup ∧ ∀ label ∈ labels, next ≤ label := by
  obtain ⟨rename, hlinked, hcopy, hfresh⟩ := hd.instantiate_eq_map next
  rw [hcopy]
  refine ⟨by simp [arity, Definition.map], hlinked.labels, ?_⟩
  exact fun label hlabel => (hfresh label hlabel).1

/-- The arguments of a call may be put in in any order. -/
theorem Linked.substituteEach_eq_apply {d : Definition Nat} (hd : d.Linked) {operands : List Node}
    {next : Nat} (hoperands : ∀ f ∈ operands, ∀ label ∈ f.labels, label < next)
    {replacements : List (Nat × Node)}
    (h : replacements.Perm ((Node.instantiate d.parameters d.body next).1.1.zip operands)) :
    Form.substituteEach replacements (Node.instantiate d.parameters d.body next).1.2 =
      (Convention.byIdentity.apply d operands next).1 := by
  obtain ⟨-, hnodup, hfresh⟩ := hd.instantiate next
  refine (Form.substituteEach_perm ?_ ?_ h.symm _).symm
  · rw [List.zip_eq_zip_take_min, List.map_fst_zip (by simp)]
    exact hnodup.sublist (List.take_sublist _ _)
  · intro r hr r' hr' hmem
    have hlt := hoperands r.2 (List.of_mem_zip hr).2 r'.1 hmem
    have hle := hfresh r'.1 (List.of_mem_zip hr').1
    omega

end Definition

namespace Workspace

variable {σ : Type} {held : σ → List Node} {s : Workspace σ}

/-- A form in a workspace, outermost or not. -/
def HasNode (held : σ → List Node) (s : Workspace σ) (f : Node) : Prop :=
  ∃ g, s.HasForm held g ∧ f ∈ g.nodes

/-- The labels of the forms in a workspace have been taken from the supply. -/
theorem Respects.label_lt {ℓ : Labelling} (hs : s.Respects held ℓ) {f : Node}
    (hf : s.HasNode held f) : ∀ label ∈ f.labels, label < s.machine.world.next := by
  obtain ⟨g, hg, hmem⟩ := hf
  have hrespects : f.Respects ℓ := fun node hnode =>
    hg.respects hs node (Form.nodes_subset hmem hnode)
  rw [hs.machine.supply]
  exact hrespects.lt_length

/-- **Arguments stand for the names of their parameters, all at once.** A definition that has been
made at any time is copied, whatever the supply has given since, and any forms at hand are put in
for the labels of its parameters. In whichever order this is done, the outcome is that of a call;
and it is the body with every atom that is spelled like a parameter replaced by the argument for
it. -/
theorem Reachable.apply_eq_replace (h : s.Reachable held) {d : Definition Nat}
    (hd : s.HasDefinition d) {operands : List Node} (hoperands : ∀ f ∈ operands, s.HasNode held f)
    {next : Nat} (hnext : s.machine.world.next ≤ next) :
    let (labels, copy) := (Node.instantiate d.parameters d.body next).1
    labels.length = d.arity ∧
      ∀ replacements, replacements.Perm (labels.zip operands) →
        (Form.substituteEach replacements copy).erase = d.body.erase.replace (fun text =>
          (d.parameterNames.zip (operands.map Form.erase)).lookup text) ∧
        Form.substituteEach replacements copy =
          (Convention.byIdentity.apply d operands next).1 := by
  obtain ⟨ℓ, hs⟩ := h.respects
  have hlinked := hd.linked hs
  have hlt : ∀ f ∈ operands, ∀ label ∈ f.labels, label < next := fun f hf label hlabel =>
    Nat.lt_of_lt_of_le (hs.label_lt (hoperands f hf) label hlabel) hnext
  refine ⟨(hlinked.instantiate next).1, ?_⟩
  intro replacements hperm
  have happly := hlinked.substituteEach_eq_apply hlt hperm
  refine ⟨?_, happly⟩
  rw [happly, hlinked.erase_apply hlt 0]
  exact congrArg (fun names => d.body.erase.replace fun text =>
    (names.zip (operands.map Form.erase)).lookup text) (d.parameterNames_map _)

/-- A workspace in which nothing has been done but handling forms. -/
def holding (b : Workbench) : Workspace Unit :=
  ⟨{ Machine.initial () with world := ⟨b.next, ()⟩ }, [], b.forms, []⟩

/-- What can be come to by handling forms. -/
theorem reachable_holding {b : Workbench} (h : Workbench.Reaches ⟨0, []⟩ b) :
    (holding b).Reachable fun _ => [] := by
  refine ⟨(), rfl, ?_⟩
  induction h with
  | refl => exact .refl
  | tail _ hstep ih => exact ih.tail (Step.handle (s := holding _) hstep)

/-- A call of a definition by its own parameters, swapped: the string literal stays as it is. -/
theorem Reachable.apply_eq_replace_swapped :
    let x : Node := .atom 0 "x"
    let y : Node := .atom 1 "y"
    let body : Node := .list 3 [x, y, .string 2 "x"]
    let d : Definition Nat := ⟨"pair", [x, y], body⟩
    let s : Workspace Unit := { holding ⟨4, [body, .string 2 "x", y, x]⟩ with definitions := [d] }
    s.Reachable (fun _ => []) ∧ s.HasDefinition d ∧
      (∀ f ∈ [y, x], s.HasNode (fun _ => []) f) ∧ s.machine.world.next ≤ 4 ∧
      (Convention.byIdentity.apply d [y, x] 4).1.erase =
        .list () [.atom () "y", .atom () "x", .string () "x"] := by
  intro x y body d s
  have hforms : Workbench.Reaches ⟨0, []⟩ ⟨4, [body, .string 2 "x", y, x]⟩ :=
    (((Relation.ReflTransGen.refl.tail (.atom "x")).tail (.atom "y")).tail (.string "x")).tail
      (@Workbench.Step.list 3 [.string 2 "x", y, x] [x, y, .string 2 "x"] (by simp))
  obtain ⟨host, hhost, hsteps⟩ := reachable_holding hforms
  have hmake : Step (fun _ => []) (holding ⟨4, [body, .string 2 "x", y, x]⟩) s :=
    @Step.make _ _ (holding ⟨4, [body, .string 2 "x", y, x]⟩) "pair" [x, y] body d
      (by simp [holding]) (by simp [holding]) rfl
  have h : s.Reachable (fun _ => []) := ⟨host, hhost, hsteps.tail hmake⟩
  have hd : s.HasDefinition d := .held List.mem_cons_self
  have hoperands : ∀ f ∈ [y, x], s.HasNode (fun _ => []) f := by
    intro f hf
    have hmem : f ∈ s.forms := List.mem_cons_of_mem _ (List.mem_cons_of_mem _ hf)
    exact ⟨f, .held hmem, f.mem_nodes_self⟩
  have hnext : s.machine.world.next ≤ 4 := Nat.le_refl 4
  refine ⟨h, hd, hoperands, hnext, ?_⟩
  obtain ⟨hreplace, heq⟩ := (Reachable.apply_eq_replace h hd hoperands hnext).2 _ (List.Perm.refl _)
  rw [← heq, hreplace]
  decide

end Workspace

end SubstLisp
