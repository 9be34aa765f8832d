import SubstLisp.Evaluation
import SubstLisp.Proofs.Labelling

/-!
# Definitions by label and by spelling

In the body of a definition the label of a parameter and its spelling mark the same atoms. A call
may therefore put in its arguments by label, one after another into a fresh copy, or by spelling,
all at once; without labels the outcomes are equal.

## What is proved

* `Definition.linked_of_check` — a body that is tied to parameters which pass the check is linked
  to them.
* `Form.substituteEach_eq_fill` — one substitution after another is simultaneous when no form that
  is put in carries a label that is replaced.
* `Definition.Linked.instantiate_eq_map` — a copy of a linked definition is linked.
* `Definition.Linked.erase_apply` — the two conventions put in arguments alike.
-/

namespace SubstLisp

/-! ### Linked definitions -/

/-- In the body, the labels of the parameters and their spellings mark the same atoms. -/
structure Definition.Linked (d : Definition Nat) : Prop where
  /-- The parameters are atoms. -/
  atoms : ∀ p ∈ d.parameters, ∃ text, p.atomText? = some text
  /-- Their spellings are distinct. -/
  names : (d.parameters.map Form.atomText?).Nodup
  /-- Their labels are distinct. -/
  labels : (d.parameters.map Form.label).Nodup
  /-- A node of the body carries the label of a parameter exactly when it is an atom spelled like
  it. -/
  occurs : ∀ p ∈ d.parameters, ∀ g ∈ d.body.nodes,
    g.label = p.label ↔ g.atomText? = p.atomText?

namespace Form

variable {ι : Type}

theorem atomText?_eq_some_iff {f : Form ι} {text : String} :
    f.atomText? = some text ↔ f.shape = .atom text := by
  cases f <;> simp [atomText?, shape]

/-- An atom in a tied form has the label of the parameter that is spelled like it. -/
theorem label_of_mem_nodes_tie {parameters : List (Form ι)} {f g : Form ι} {text : String}
    {label : ι} (hg : g ∈ (f.tie parameters).nodes) (htext : g.atomText? = some text)
    (hlabel : parameterLabel? parameters text = some label) : g.label = label := by
  induction f with
  | atom l name =>
    obtain rfl : g = _ := by simpa [tie, nodes] using hg
    obtain rfl : name = text := by simpa [atomText?] using htext
    simp [Form.label, hlabel]
  | string l name =>
    obtain rfl : g = _ := by simpa [tie, nodes] using hg
    cases htext
  | list l items ih =>
    simp only [tie, tieAll_eq_map, nodes, nodesAll_eq_flatMap, List.mem_cons, List.mem_flatMap,
      List.mem_map] at hg
    obtain rfl | ⟨_, ⟨f, hf, rfl⟩, hg⟩ := hg
    · cases htext
    · exact ih f hf hg

end Form

namespace Definition

/-- What passes the check are atoms of distinct spellings that have not been seen before. -/
theorem of_checkParameters {name : String} {seen : List String} {ps : List Node}
    (h : checkParameters name seen ps = .ok ()) :
    (∀ p ∈ ps, ∃ text, p.atomText? = some text ∧ text ∉ seen) ∧
      (ps.map Form.atomText?).Nodup := by
  induction ps generalizing seen with
  | nil => simp
  | cons p ps ih =>
    simp only [checkParameters] at h
    split at h
    · cases h
    · next text htext =>
      split at h
      · cases h
      · next hseen =>
        obtain ⟨hatoms, hnodup⟩ := ih h
        refine ⟨List.forall_mem_cons.2 ⟨⟨text, htext, hseen⟩, ?_⟩, ?_⟩
        · intro q hq
          obtain ⟨text', htext', hseen'⟩ := hatoms q hq
          exact ⟨text', htext', fun hmem => hseen' (List.mem_cons_of_mem _ hmem)⟩
        · refine List.nodup_cons.2 ⟨?_, hnodup⟩
          intro hmem
          obtain ⟨q, hq, heq⟩ := List.mem_map.1 hmem
          obtain ⟨text', htext', hseen'⟩ := hatoms q hq
          rw [heq, htext] at htext'
          cases htext'
          exact hseen' List.mem_cons_self

/-- Among parameters of distinct spellings the label of one is the one that its spelling stands
for. -/
theorem parameterLabel?_of_mem {ps : List Node} (hnodup : (ps.map Form.atomText?).Nodup)
    {p : Node} (hp : p ∈ ps) {text : String} (htext : p.atomText? = some text) :
    Form.parameterLabel? ps text = some p.label := by
  cases h : Form.parameterLabel? ps text with
  | some label =>
    have hmem := Form.mem_of_parameterLabel? h
    rw [← List.inj_on_of_nodup_map hnodup hmem hp htext.symm]
    rfl
  | none =>
    have hnone := List.findSome?_eq_none_iff.1 h p (List.mem_reverse.2 hp)
    cases p with
    | atom label name =>
      obtain rfl : name = text := by simpa [Form.atomText?] using htext
      simp at hnone
    | string label name => cases htext
    | list label items => cases htext

/-- A body that is tied to parameters which pass the check is linked to them, if all of them
respect one labelling. -/
theorem linked_of_check {ℓ : Labelling} {name : String} {ps : List Node} {body : Node}
    (hps : ∀ p ∈ ps, p.Respects ℓ) (hbody : body.Respects ℓ)
    (hcheck : checkParameters name [] ps = .ok ()) : Linked ⟨name, ps, body.tie ps⟩ := by
  obtain ⟨hatoms, hnodup⟩ := of_checkParameters hcheck
  -- Nodes of one label have one shape, so parameters of one label have one spelling.
  have htext : ∀ p ∈ ps, ∀ g : Node, ∀ f : Node, f.Respects ℓ → g ∈ f.nodes →
      g.label = p.label → g.atomText? = p.atomText? := by
    intro p hp g f hf hg hlabel
    obtain ⟨text, htext, -⟩ := hatoms p hp
    have hshape := Form.shape_eq_of_respects hf (hps p hp) hg p.mem_nodes_self hlabel
    rw [htext, Form.atomText?_eq_some_iff, hshape, ← Form.atomText?_eq_some_iff, htext]
  refine ⟨fun p hp => (hatoms p hp).imp fun _ => And.left, hnodup, ?_, fun p hp g hg => ⟨?_, ?_⟩⟩
  · refine List.Nodup.map_on ?_ (List.Nodup.of_map _ hnodup)
    intro p hp q hq hlabel
    exact List.inj_on_of_nodup_map hnodup hp hq
      (htext q hq p p (hps p hp) p.mem_nodes_self hlabel)
  · exact htext p hp g _ (hbody.tie hps) hg
  · intro h
    obtain ⟨text, htext, -⟩ := hatoms p hp
    exact Form.label_of_mem_nodes_tie hg (h.trans htext) (parameterLabel?_of_mem hnodup hp htext)

end Definition

/-! ### Simultaneous substitution -/

namespace Form

variable {ι : Type}

mutual

/-- The form with every node whose label stands for another form replaced by that form, all at
once. -/
def fill (standsFor? : ι → Option (Form ι)) : Form ι → Form ι
  | atom label text => (standsFor? label).getD (atom label text)
  | string label text => (standsFor? label).getD (string label text)
  | list label items => (standsFor? label).getD (list label (fillAll standsFor? items))

/-- The forms of a list with every node whose label stands for another form replaced by it. -/
def fillAll (standsFor? : ι → Option (Form ι)) : List (Form ι) → List (Form ι)
  | [] => []
  | f :: fs => fill standsFor? f :: fillAll standsFor? fs

end

@[simp]
theorem fillAll_eq_map (standsFor? : ι → Option (Form ι)) (fs : List (Form ι)) :
    fillAll standsFor? fs = fs.map (fill standsFor?) := by
  induction fs with
  | nil => rfl
  | cons f fs ih => simp [fillAll, ih]

/-- A form none of whose labels stands for anything is left alone. -/
theorem fill_of_forall_eq_none {standsFor? : ι → Option (Form ι)} {f : Form ι}
    (h : ∀ label ∈ f.labels, standsFor? label = none) : fill standsFor? f = f := by
  induction f with
  | atom label text => simp [fill, h label (by simp [labels])]
  | string label text => simp [fill, h label (by simp [labels])]
  | list label items ih =>
    simp only [labels, labelsAll_eq_flatMap, List.forall_mem_cons, List.mem_flatMap,
      forall_exists_index, and_imp] at h
    obtain ⟨hlabel, hitems⟩ := h
    simp only [fill, hlabel, Option.getD_none, fillAll_eq_map]
    exact congrArg _ ((List.map_congr_left fun f hf =>
      ih f hf fun label hmem => hitems label f hf hmem).trans (List.map_id' items))

variable [DecidableEq ι]

/-- A substitution in front of a simultaneous one joins it, if what it puts in is not searched
again. -/
theorem fill_substitute {standsFor? : ι → Option (Form ι)} {target : ι} {replacement : Form ι}
    (h : ∀ label ∈ replacement.labels, standsFor? label = none) (f : Form ι) :
    fill standsFor? (substitute target replacement f) =
      fill (fun label => if label = target then some replacement else standsFor? label) f := by
  have hfill := fill_of_forall_eq_none h
  induction f with
  | atom label text =>
    simp only [substitute, fill]
    split
    · exact hfill
    · rfl
  | string label text =>
    simp only [substitute, fill]
    split
    · exact hfill
    · rfl
  | list label items ih =>
    simp only [substitute, fill, substituteAll_eq_map, fillAll_eq_map]
    split
    · exact hfill
    · rw [fill, fillAll_eq_map, List.map_map]
      exact congrArg (fun items => Option.getD _ (list label items)) (List.map_congr_left ih)

/-- One substitution after another is simultaneous, if no form that is put in carries a label that
is replaced. -/
theorem substituteEach_eq_fill {replacements : List (ι × Form ι)}
    (h : ∀ r ∈ replacements, ∀ label ∈ r.2.labels, replacements.lookup label = none) (f : Form ι) :
    substituteEach replacements f = fill (fun label => replacements.lookup label) f := by
  induction replacements generalizing f with
  | nil => exact (fill_of_forall_eq_none fun _ _ => rfl).symm
  | cons r rs ih =>
    obtain ⟨target, replacement⟩ := r
    have hcons : ∀ label, ((target, replacement) :: rs).lookup label =
        if label = target then some replacement else rs.lookup label := by
      intro label
      rw [List.lookup_cons]
      by_cases heq : label = target
      · simp [heq]
      · simp [heq, beq_false_of_ne heq]
    have hrest : ∀ label, ((target, replacement) :: rs).lookup label = none →
        rs.lookup label = none := by
      intro label hnone
      rw [hcons] at hnone
      split at hnone
      · cases hnone
      · exact hnone
    obtain ⟨hr, hrs⟩ := List.forall_mem_cons.1 h
    show substituteEach rs (substitute target replacement f) = _
    rw [ih fun r hr label hlabel => hrest label (hrs r hr label hlabel),
      fill_substitute fun label hlabel => hrest label (hr label hlabel)]
    exact congrArg (fill · f) (funext fun label => (hcons label).symm)

end Form

/-! ### Calls by label and by spelling -/

namespace Definition

/-- A call keeps to the labelling, extended by the labels of the copy. -/
theorem respects_apply {ℓ : Labelling} {d : Definition Nat} {operands : List Node}
    (hd : d.body.Respects ℓ) (hoperands : ∀ f ∈ operands, f.Respects ℓ) :
    ℓ.ExtendsTo (Convention.byIdentity.apply d operands ℓ.length).2
      (Convention.byIdentity.apply d operands ℓ.length).1.Respects := by
  obtain ⟨ℓ', hprefix, hlength, hbody⟩ :=
    @Form.respects_instantiate _ _ d.parameters hd
  exact ⟨ℓ', hprefix, hlength, hbody.substituteEach fun r hr =>
    (hoperands r.2 (List.of_mem_zip hr).2).mono hprefix⟩

/-- A node that carries a label of linked parameters exactly when it is spelled like them stands
for the same argument by its label as by its spelling. -/
theorem erase_lookup_zip {g : Node} {ps : List Node} (operands : List Node)
    (hatoms : ∀ p ∈ ps, ∃ text, p.atomText? = some text)
    (hg : ∀ p ∈ ps, g.label = p.label ↔ g.atomText? = p.atomText?) :
    (((ps.map Form.label).zip operands).lookup g.label).map Form.erase =
      g.atomText?.bind fun text =>
        ((ps.filterMap Form.atomText?).zip (operands.map Form.erase)).lookup text := by
  induction ps generalizing operands with
  | nil => cases g.atomText? <;> rfl
  | cons p ps ih =>
    obtain ⟨⟨name, hname⟩, hatoms⟩ := List.forall_mem_cons.1 hatoms
    obtain ⟨hp, hps⟩ := List.forall_mem_cons.1 hg
    rw [List.map_cons, List.filterMap_cons_some hname]
    cases operands with
    | nil => cases g.atomText? <;> rfl
    | cons operand operands =>
      have ih := ih operands hatoms hps
      rw [List.map_cons, List.zip_cons_cons, List.zip_cons_cons, List.lookup_cons]
      by_cases heq : g.label = p.label
      · simp [heq, hp.1 heq, hname]
      · rw [beq_false_of_ne heq, ih]
        cases htext : g.atomText? with
        | none => rfl
        | some text =>
          have hne : text ≠ name := by
            rintro rfl
            exact heq (hp.2 (htext.trans hname.symm))
          simp [List.lookup_cons, beq_false_of_ne hne]

/-- Putting forms in by label comes, without labels, to putting them in by spelling, in a form in
which labels and spellings mark the same atoms. -/
theorem erase_fill {standsFor? : Nat → Option Node} {standsForName? : String → Option Tree}
    {f : Node} (h : ∀ g ∈ f.nodes, (standsFor? g.label).map Form.erase =
      g.atomText?.bind standsForName?) :
    (f.fill standsFor?).erase = f.erase.replace standsForName? := by
  induction f using Form.induction with
  | atom label text =>
    have h := h _ (Form.mem_nodes_self _)
    simp only [Form.label, Form.atomText?, Option.bind_some] at h
    simp only [Form.fill, Form.erase_atom, Form.replace, ← h]
    cases standsFor? label <;> rfl
  | string label text =>
    have h := h _ (Form.mem_nodes_self _)
    simp only [Form.label, Form.atomText?, Option.bind_none, Option.map_eq_none_iff] at h
    simp [Form.fill, h, Form.replace]
  | list label items ih =>
    have hlabel := h _ (Form.mem_nodes_self _)
    simp only [Form.label, Form.atomText?, Option.bind_none, Option.map_eq_none_iff] at hlabel
    simp only [Form.fill, hlabel, Option.getD_none, Form.fillAll_eq_map, Form.erase_list,
      Form.replace, Form.replaceAll_eq_map, List.map_map]
    refine congrArg _ (List.map_congr_left fun f hf => ih f hf fun g hg => h g ?_)
    rw [Form.nodes, Form.nodesAll_eq_flatMap]
    exact List.mem_cons_of_mem _ (List.mem_flatMap.2 ⟨f, hf, hg⟩)

namespace Linked

variable {d : Definition Nat}

/-- A definition stays linked when its labels are renamed, one for one. -/
theorem map (hd : d.Linked) {rename : Nat → Nat} {next next' : Nat}
    (h : Renaming rename (d.parameters.flatMap Form.labels ++ d.body.labels) next next') :
    (d.map rename).Linked := by
  have hlabel : ∀ p ∈ d.parameters, p.label ∈ d.parameters.flatMap Form.labels ++ d.body.labels :=
    fun p hp => List.mem_append_left _ (List.mem_flatMap.2 ⟨p, hp, p.label_mem_labels⟩)
  refine ⟨List.forall_mem_map.2 fun p hp => ?_, ?_, ?_, List.forall_mem_map.2 fun p hp => ?_⟩
  · rw [Form.atomText?_map]
    exact hd.atoms p hp
  · simpa [Definition.map, Function.comp_def, Form.atomText?_map] using hd.names
  · rw [Definition.map, List.map_map]
    refine List.Nodup.map_on ?_ (List.Nodup.of_map _ hd.labels)
    intro p hp q hq heq
    simp only [Function.comp_apply, Form.label_map] at heq
    exact List.inj_on_of_nodup_map hd.labels hp hq
      (h.injective _ (hlabel p hp) _ (hlabel q hq) heq)
  · rw [Definition.map, Form.nodes_map]
    refine List.forall_mem_map.2 fun g hg => ?_
    rw [Form.label_map, Form.label_map, Form.atomText?_map, Form.atomText?_map,
      ← hd.occurs p hp g hg]
    refine ⟨h.injective _ (List.mem_append_right _ ?_) _ (hlabel p hp), congrArg rename⟩
    rw [Form.labels_eq_map_nodes]
    exact List.mem_map_of_mem hg

/-- A copy of a linked definition is linked, and its labels for the parameters are fresh. -/
theorem instantiate_eq_map (hd : d.Linked) (next : Nat) :
    ∃ rename, (d.map rename).Linked ∧
      (Node.instantiate d.parameters d.body next).1 =
        ((d.map rename).parameters.map Form.label, (d.map rename).body) ∧
      ∀ label ∈ (d.map rename).parameters.map Form.label,
        next ≤ label ∧ label < (Node.instantiate d.parameters d.body next).2 := by
  obtain ⟨rename, hrename, hinstantiate⟩ := Node.instantiate_spec d.parameters d.body next
  have hlabels : (d.map rename).parameters.map Form.label =
      d.parameters.map fun p => rename p.label := by
    simp [Definition.map, Function.comp_def]
  refine ⟨rename, hd.map hrename, ?_, ?_⟩
  · rw [hinstantiate, hlabels]
    rfl
  · rw [hlabels]
    exact List.forall_mem_map.2 fun p hp => hrename.fresh _
      (List.mem_append_left _ (List.mem_flatMap.2 ⟨p, hp, p.label_mem_labels⟩))

/-- A node of the body stands for the same argument by its label as by its spelling. -/
theorem erase_lookup (hd : d.Linked) (operands : List Node) {g : Node} (hg : g ∈ d.body.nodes) :
    (((d.parameters.map Form.label).zip operands).lookup g.label).map Form.erase =
      g.atomText?.bind fun text =>
        (d.parameterNames.zip (operands.map Form.erase)).lookup text :=
  erase_lookup_zip operands hd.atoms fun p hp => hd.occurs p hp g hg

/-- Arguments that carry no label of a parameter stand, one after another, where the body has an
atom spelled like their parameter. -/
theorem erase_substituteEach (hd : d.Linked) {operands : List Node}
    (hoperands : ∀ f ∈ operands, ∀ label ∈ f.labels, label ∉ d.parameters.map Form.label) :
    (Form.substituteEach ((d.parameters.map Form.label).zip operands) d.body).erase =
      d.body.erase.replace fun text =>
        (d.parameterNames.zip (operands.map Form.erase)).lookup text := by
  rw [Form.substituteEach_eq_fill]
  · exact erase_fill fun g hg => hd.erase_lookup operands hg
  · intro r hr label hlabel
    refine List.lookup_eq_none_iff.2 ?_
    intro entry hentry
    rw [bne_iff_ne]
    rintro rfl
    exact hoperands r.2 (List.of_mem_zip hr).2 _ hlabel (List.of_mem_zip hentry).1

/-- The arguments of a call stand where the body has an atom spelled like their parameter. -/
theorem erase_apply_eq_replace (hd : d.Linked) {operands : List Node} {next : Nat}
    (hoperands : ∀ f ∈ operands, ∀ label ∈ f.labels, label < next) :
    (Convention.byIdentity.apply d operands next).1.erase = d.body.erase.replace fun text =>
      (d.parameterNames.zip (operands.map Form.erase)).lookup text := by
  obtain ⟨rename, hlinked, hcopy, hfresh⟩ := hd.instantiate_eq_map next
  show (Form.substituteEach ((Node.instantiate d.parameters d.body next).1.1.zip operands)
    (Node.instantiate d.parameters d.body next).1.2).erase = _
  rw [hcopy, hlinked.erase_substituteEach, parameterNames_map, Definition.map, Form.erase_map]
  intro f hf label hlabel hmem
  exact Nat.not_lt_of_le (hfresh label hmem).1 (hoperands f hf label hlabel)

/-- **The two conventions put in arguments alike**, whatever the supplies of labels are. -/
theorem erase_apply (hd : d.Linked) {operands : List Node} {next : Nat}
    (hoperands : ∀ f ∈ operands, ∀ label ∈ f.labels, label < next) (next' : Nat) :
    (Convention.byIdentity.apply d operands next).1.erase =
      (Convention.byName.apply (d.map fun _ => ()) (operands.map Form.erase) next').1 := by
  rw [hd.erase_apply_eq_replace hoperands]
  exact congrArg (fun names => d.body.erase.replace fun text =>
    (names.zip (operands.map Form.erase)).lookup text) (d.parameterNames_map _).symm

end Linked

end Definition

end SubstLisp
