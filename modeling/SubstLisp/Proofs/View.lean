import SubstLisp.Program
import SubstLisp.Proofs.Simulation
import SubstLisp.Proofs.Workbench

/-!
# Views of a run

A run whose forms respect a labelling, seen in another way: through the eyes of a convention that
may know less of the labels. A view says what becomes of labels and how the supply and the host are
seen; what has to hold of it concerns calls, templates, freshly read forms and host functions.

## What is proved

* `View.simulation` — every view is a simulation of evaluation. In the first run every form that
  turns up respects one labelling, extended as the run goes on, and every definition is linked.
-/

namespace SubstLisp

variable {κ σ τ α β : Type}

/-! ### What respects a labelling -/

/-- The forms that a value quotes respect a labelling. -/
def Value.Respects (ℓ : Labelling) (v : Value Nat) : Prop := ∀ f ∈ v.quotations, f.Respects ℓ

/-- A definition is linked and its forms respect a labelling. -/
structure Definition.Respects (ℓ : Labelling) (d : Definition Nat) : Prop where
  linked : d.Linked
  parameters : ∀ p ∈ d.parameters, p.Respects ℓ
  body : d.body.Respects ℓ

/-- A definition that is made of forms which respect a labelling respects it. -/
theorem Definition.respects_of_make {ℓ : Labelling} {name : String} {parameters : List Node}
    {body : Node} {d : Definition Nat} (hparameters : ∀ p ∈ parameters, p.Respects ℓ)
    (hbody : body.Respects ℓ) (hmake : make Form.tie name parameters body = .ok d) :
    d.Respects ℓ := by
  cases hcheck : checkParameters name [] parameters with
  | error error => simp [make, hcheck, bind, Except.bind] at hmake
  | ok _ =>
    obtain rfl : d = _ := by simpa [make, hcheck, bind, Except.bind, eq_comm] using hmake
    exact ⟨linked_of_check hparameters hbody hcheck, hparameters, hbody.tie hparameters⟩

/-- A definition or value that a name is bound to respects a labelling. -/
def Binding.Respects (ℓ : Labelling) : Binding Nat → Prop
  | functionDef d => d.Respects ℓ
  | macroDef d => d.Respects ℓ
  | value v => v.Respects ℓ

theorem Binding.respects_of {ℓ : Labelling} {b : Binding Nat}
    (hd : ∀ d, b = .functionDef d ∨ b = .macroDef d → d.Respects ℓ)
    (hv : ∀ v, b = .value v → v.Respects ℓ) : b.Respects ℓ := by
  cases b with
  | functionDef d => exact hd d (.inl rfl)
  | macroDef d => exact hd d (.inr rfl)
  | value v => exact hv v rfl

/-- A host function is honest and the forms it was made with respect a labelling. -/
def HostFunction.Respects (held : σ → List Node) (ℓ : Labelling) (f : HostFunction Nat σ) : Prop :=
  ∃ own, (∀ g ∈ own, g.Respects ℓ) ∧ f.Honest held own

/-- Everything in an environment respects a labelling. -/
structure Environment.Respects (held : σ → List Node) (ℓ : Labelling) (env : Environment Nat σ) :
    Prop where
  bindings : ∀ name b, env.find? name = some b → b.Respects ℓ
  hosts : ∀ name f, env.hosts.find? name = some f → f.Respects held ℓ

/-- Everything on a machine respects a labelling, which covers all labels given out, and every
definition that was made is linked. -/
structure Machine.Respects (held : σ → List Node) (ℓ : Labelling) (m : Machine Nat σ) : Prop where
  environment : m.environment.Respects held ℓ
  supply : m.world.next = ℓ.length
  host : ∀ f ∈ held m.world.host, f.Respects ℓ
  events : ∀ event ∈ m.events.toList, ∀ d, event.definition? = some d → d.Linked

section

variable {held : σ → List Node} {ℓ ℓ' : Labelling} (h : ℓ <+: ℓ')

include h

theorem Value.Respects.mono {v : Value Nat} (hv : v.Respects ℓ) : v.Respects ℓ' := fun f hf =>
  (hv f hf).mono h

theorem Definition.Respects.mono {d : Definition Nat} (hd : d.Respects ℓ) : d.Respects ℓ' :=
  ⟨hd.linked, fun p hp => (hd.parameters p hp).mono h, hd.body.mono h⟩

theorem Binding.Respects.mono {b : Binding Nat} (hb : b.Respects ℓ) : b.Respects ℓ' := by
  cases b with
  | functionDef d => exact Definition.Respects.mono h hb
  | macroDef d => exact Definition.Respects.mono h hb
  | value v => exact Value.Respects.mono h hb

theorem HostFunction.Respects.mono {f : HostFunction Nat σ} (hf : f.Respects held ℓ) :
    f.Respects held ℓ' :=
  hf.imp fun _ ⟨hown, hhonest⟩ => ⟨fun g hg => (hown g hg).mono h, hhonest⟩

theorem Environment.Respects.mono {env : Environment Nat σ} (henv : env.Respects held ℓ) :
    env.Respects held ℓ' :=
  ⟨fun name b hb => Binding.Respects.mono h (henv.bindings name b hb),
    fun name f hf => HostFunction.Respects.mono h (henv.hosts name f hf)⟩

/-- Labels have been taken from the supply. -/
theorem Machine.Respects.setNext {m : Machine Nat σ} {next : Nat} (hm : m.Respects held ℓ)
    (hnext : ℓ'.length = next) :
    Machine.Respects held ℓ' { m with world := { m.world with next } } :=
  ⟨hm.environment.mono h, hnext.symm, fun f hf => (hm.host f hf).mono h, hm.events⟩

end

section

variable {held : σ → List Node} {ℓ : Labelling} {m : Machine Nat σ}

/-- Something has happened that makes no definition, or a linked one. -/
theorem Machine.Respects.emit (hm : m.Respects held ℓ) {event : Event Nat}
    (hevent : ∀ d, event.definition? = some d → d.Linked) :
    Machine.Respects held ℓ { m with events := m.events.push event } := by
  refine ⟨hm.environment, hm.supply, hm.host, ?_⟩
  intro e he
  rcases List.mem_append.1 (Array.toList_push ▸ he) with he | he
  · exact hm.events e he
  · rwa [List.mem_singleton.1 he]

theorem Environment.respects_empty : (empty : Environment Nat σ).Respects held ℓ :=
  ⟨fun _ _ h => (nomatch h), fun _ _ h => (nomatch h)⟩

theorem Environment.Respects.define {env : Environment Nat σ} (henv : env.Respects held ℓ)
    (name : String) {b : Binding Nat} (hb : b.Respects ℓ) :
    (env.define name b).Respects held ℓ := by
  refine ⟨?_, henv.hosts⟩
  intro other b' hb'
  rw [Environment.find?_define] at hb'
  split at hb'
  · cases hb'
    exact hb
  · exact henv.bindings other b' hb'

/-- A name has been bound. -/
theorem Machine.Respects.define (hm : m.Respects held ℓ) (name : String) {b : Binding Nat}
    (hb : b.Respects ℓ) : (Ending.machine (Run.define name b m)).Respects held ℓ := by
  have hlinked : ∀ d, (Event.defined name b (m.environment.find? name)).definition? = some d →
      d.Linked := by
    intro d hd
    cases b with
    | functionDef => cases hd; exact hb.linked
    | macroDef => cases hd; exact hb.linked
    | value => cases hd
  obtain ⟨henv, hsupply, hhost, hevents⟩ := hm.emit hlinked
  exact ⟨henv.define name hb, hsupply, hhost, hevents⟩

/-- A host function has been registered. -/
theorem Machine.Respects.register (hm : m.Respects held ℓ) (name : String)
    {f : HostFunction Nat σ} (hf : f.Respects held ℓ) :
    (Ending.machine (Run.register name f m)).Respects held ℓ := by
  have hnone : ∀ d, (Event.registered name : Event Nat).definition? = some d → d.Linked :=
    fun _ h => (nomatch h)
  obtain ⟨⟨hbindings, hhosts⟩, hsupply, hhost, hevents⟩ := hm.emit hnone
  refine ⟨⟨hbindings, ?_⟩, hsupply, hhost, hevents⟩
  intro other f' hf'
  have hf' : (m.environment.hosts.insert name f).find? other = some f' := hf'
  rw [Table.find?_insert] at hf'
  split at hf'
  · cases hf'
    exact hf
  · exact hhosts other f' hf'

end

/-! ### Related results -/

/-- Two computations end in the same way, with related outcomes and related states. -/
inductive Alike {ε : Type} (R : α → β → Prop) (S : σ → τ → Prop) :
    EStateM.Result ε σ α → EStateM.Result ε τ β → Prop where
  /-- Both give something. -/
  | ok {a : α} {b : β} {s : σ} {t : τ} : R a b → S s t → Alike R S (.ok a s) (.ok b t)
  /-- Both fail, for one reason. -/
  | error {e : ε} {s : σ} {t : τ} : S s t → Alike R S (.error e s) (.error e t)

/-! ### Views -/

/-- How a run that knows parameters by their labels is seen under another convention. -/
structure View (c : Convention κ) (σ τ : Type) where
  /-- What becomes of a label. -/
  relabel : Nat → κ
  /-- How supply and host are seen. -/
  Worlds : World σ → World τ → Prop
  /-- How host functions are seen. -/
  Hosts : HostFunction Nat σ → HostFunction κ τ → Prop
  note_eq : c.note = Failure.within
  tie_map : ∀ (parameters : List Node) (body : Node),
    c.tie (parameters.map (Form.map relabel)) (body.map relabel) =
      (body.tie parameters).map relabel
  apply : ∀ {w : World σ} {w' : World τ} {d : Definition Nat} {operands : List Node},
    Worlds w w' → d.Linked →
    (∀ f ∈ operands, ∀ label ∈ f.labels, label < w.next) →
    (c.apply (d.map relabel) (operands.map (Form.map relabel)) w'.next).1 =
        (Convention.byIdentity.apply d operands w.next).1.map relabel ∧
      Worlds { w with next := (Convention.byIdentity.apply d operands w.next).2 }
        { w' with next :=
          (c.apply (d.map relabel) (operands.map (Form.map relabel)) w'.next).2 }
  expand : ∀ {w : World σ} {w' : World τ} (f : Node), Worlds w w' →
    Alike (fun code code' => code' = code.map relabel)
      (fun t t' => t'.sizes = t.sizes ∧
        Worlds { w with next := t.next } { w' with next := t'.next })
      (Template.expand id f ⟨w.next, #[]⟩) (Template.expand c.label (f.map relabel) ⟨w'.next, #[]⟩)
  freshen : ∀ {w : World σ} {w' : World τ} (trees : List Tree), Worlds w w' →
    (Form.freshenAll c.label trees w'.next).1 =
        (Form.freshenAll id trees w.next).1.map (Form.map relabel) ∧
      Worlds { w with next := (Form.freshenAll id trees w.next).2 }
        { w' with next := (Form.freshenAll c.label trees w'.next).2 }
  act : ∀ {w : World σ} {w' : World τ} {f : HostFunction Nat σ} {f' : HostFunction κ τ}
    (v : Value Nat), Worlds w w' → Hosts f f' →
    Alike (fun r r' => r' = r.map relabel) Worlds (f v w) (f' (v.map relabel) w')

namespace View

variable {c : Convention κ} (V : View c σ τ) (held : σ → List Node)

/-- How a machine is seen. Of what happens only the news are seen, since the times when one machine
had the events `past` and the other the events `past'`. -/
structure Sees (past : List (Event Nat)) (past' : List (Event κ)) (m : Machine Nat σ)
    (n : Machine κ τ) : Prop where
  bindings : n.environment.bindings = m.environment.bindings.map (Binding.map V.relabel)
  maxDepth : n.environment.maxDepth = m.environment.maxDepth
  hosts : ∀ name, Option.Rel V.Hosts (m.environment.hosts.find? name)
    (n.environment.hosts.find? name)
  world : V.Worlds m.world n.world
  events : ∃ news, m.events.toList = past ++ news ∧
    n.events.toList = past' ++ news.map (Event.map V.relabel)

/-- Two runs have ended in the same way. -/
inductive Ends (past : List (Event Nat)) (past' : List (Event κ)) (ℓ : Labelling)
    (R : Labelling → α → β → Prop) : Ending Nat σ α → Ending κ τ β → Prop where
  /-- With related outcomes. -/
  | ok {ℓ' : Labelling} {a : α} {b : β} {m : Machine Nat σ} {n : Machine κ τ} : ℓ <+: ℓ' →
      m.Respects held ℓ' → V.Sees past past' m n → R ℓ' a b →
      Ends past past' ℓ R (.ok a m) (.ok b n)
  /-- For one reason. -/
  | error {ℓ' : Labelling} {stop : Stop} {m : Machine Nat σ} {n : Machine κ τ} : ℓ <+: ℓ' →
      m.Respects held ℓ' → V.Sees past past' m n →
      Ends past past' ℓ R (.error stop m) (.error stop n)

/-- On machines of which one is seen as the other, two runs end in the same way. -/
def Follows (past : List (Event Nat)) (past' : List (Event κ)) (ℓ : Labelling)
    (R : Labelling → α → β → Prop) (x : Run Nat σ α) (y : Run κ τ β) : Prop :=
  ∀ m n, m.Respects held ℓ → V.Sees past past' m n → V.Ends held past past' ℓ R (x m) (y n)

variable {V held} {past : List (Event Nat)} {past' : List (Event κ)} {ℓ : Labelling}

theorem follows_pure {R : Labelling → α → β → Prop} {a : α} {b : β} (h : R ℓ a b) :
    V.Follows held past past' ℓ R (pure a) (pure b) := fun _ _ hm hmn =>
  .ok List.prefix_rfl hm hmn h

theorem follows_throw {R : Labelling → α → β → Prop} (stop : Stop) :
    V.Follows held past past' ℓ R (throw stop) (throw stop) := fun _ _ hm hmn =>
  .error List.prefix_rfl hm hmn

theorem Ends.later {ℓ' : Labelling} {R : Labelling → α → β → Prop} {e : Ending Nat σ α}
    {e' : Ending κ τ β} (h : ℓ <+: ℓ') (hends : V.Ends held past past' ℓ' R e e') :
    V.Ends held past past' ℓ R e e' := by
  cases hends with
  | ok h' hm hmn hR => exact .ok (h.trans h') hm hmn hR
  | error h' hm hmn => exact .error (h.trans h') hm hmn

theorem follows_bind {γ δ : Type} {R : Labelling → α → β → Prop} {S : Labelling → γ → δ → Prop}
    {x : Run Nat σ α} {y : Run κ τ β} {k : α → Run Nat σ γ} {k' : β → Run κ τ δ}
    (hxy : V.Follows held past past' ℓ R x y)
    (hk : ∀ ℓ', ℓ <+: ℓ' → ∀ a b, R ℓ' a b → V.Follows held past past' ℓ' S (k a) (k' b)) :
    V.Follows held past past' ℓ S (x >>= k) (y >>= k') := by
  intro m n hm hmn
  simp only [bind, EStateM.bind]
  have hends := hxy m n hm hmn
  cases hx : x m with
  | ok a m' =>
    rw [hx] at hends
    generalize y n = e at hends
    cases hends with
    | ok h hm' hmn' hR => exact (hk _ h _ _ hR _ _ hm' hmn').later h
  | error stop m' =>
    rw [hx] at hends
    generalize y n = e at hends
    cases hends with
    | error h hm' hmn' => exact .error h hm' hmn'

theorem follows_note {R : Labelling → α → β → Prop} {x : Run Nat σ α} {y : Run κ τ β}
    (name : String) (hxy : V.Follows held past past' ℓ R x y) :
    V.Follows held past past' ℓ R (Run.mapFailure (Convention.byIdentity.note name) x)
      (Run.mapFailure (c.note name) y) := by
  intro m n hm hmn
  have hends := hxy m n hm hmn
  rw [V.note_eq]
  unfold Run.mapFailure
  cases hx : x m with
  | ok a m' =>
    rw [hx] at hends
    generalize y n = e at hends
    cases hends with
    | ok h hm' hmn' hR => exact .ok h hm' hmn' hR
  | error stop m' =>
    rw [hx] at hends
    generalize y n = e at hends
    cases hends with
    | error h hm' hmn' => cases stop <;> exact .error h hm' hmn'

theorem follows_checkDepth (depth : Nat) : V.Follows held past past' ℓ (fun _ _ _ => True)
    (Evaluation.checkDepth depth) (Evaluation.checkDepth depth) := by
  intro m n hm hmn
  rw [Evaluation.checkDepth_eq, Evaluation.checkDepth_eq, hmn.maxDepth]
  split
  · split
    · exact .error List.prefix_rfl hm hmn
    · exact .ok List.prefix_rfl hm hmn trivial
  · exact .ok List.prefix_rfl hm hmn trivial

/-! ### Names and events -/

theorem follows_find? (name : String) : V.Follows held past past' ℓ
    (fun ℓ b b' => b' = b.map (Binding.map V.relabel) ∧
      (∀ d, b = some (.functionDef d) ∨ b = some (.macroDef d) → d.Respects ℓ) ∧
      ∀ v, b = some (.value v) → v.Respects ℓ)
    (Run.find? name) (Run.find? name) := by
  intro m n hm hmn
  have hbindings := hm.environment.bindings name
  refine .ok List.prefix_rfl hm hmn ⟨?_, ?_, fun v hv => hbindings _ hv⟩
  · show n.environment.bindings.find? name = _
    rw [hmn.bindings, Table.find?_map]
    rfl
  · rintro d (hd | hd) <;> exact hbindings _ hd

theorem follows_host? (name : String) : V.Follows held past past' ℓ
    (fun ℓ f f' => Option.Rel (fun f f' => f.Respects held ℓ ∧ V.Hosts f f') f f')
    (Run.host? name) (Run.host? name) := by
  intro m n hm hmn
  refine .ok List.prefix_rfl hm hmn ?_
  have hrespects := hm.environment.hosts name
  have hhosts := hmn.hosts name
  generalize m.environment.hosts.find? name = f at hrespects hhosts
  generalize n.environment.hosts.find? name = f' at hhosts
  cases hhosts with
  | some h => exact .some ⟨hrespects _ rfl, h⟩
  | none => exact .none

theorem Sees.emit {m : Machine Nat σ} {n : Machine κ τ} (hmn : V.Sees past past' m n)
    (event : Event Nat) : V.Sees past past' { m with events := m.events.push event }
      { n with events := n.events.push (event.map V.relabel) } := by
  obtain ⟨news, hm, hn⟩ := hmn.events
  exact ⟨hmn.bindings, hmn.maxDepth, hmn.hosts, hmn.world, news ++ [event], by simp [hm], by simp [hn]⟩

theorem follows_emit (event : Event Nat) (h : event.definition? = none) :
    V.Follows held past past' ℓ (fun _ _ _ => True) (Run.emit event)
      (Run.emit (event.map V.relabel)) := fun _ _ hm hmn =>
  .ok List.prefix_rfl (hm.emit fun d hd => by rw [h] at hd; cases hd)
    (hmn.emit event) trivial

theorem follows_define (name : String) {b : Binding Nat} (hb : b.Respects ℓ) :
    V.Follows held past past' ℓ (fun _ _ _ => True) (Run.define name b)
      (Run.define name (b.map V.relabel)) := by
  intro m n hm hmn
  have hprevious : n.environment.find? name =
      (m.environment.find? name).map (Binding.map V.relabel) := by
    show n.environment.bindings.find? name = _
    rw [hmn.bindings, Table.find?_map]
    rfl
  have hevent := hmn.emit (.defined name b (m.environment.find? name))
  rw [Event.map, ← hprevious] at hevent
  have hbindings : n.environment.bindings.insert name (b.map V.relabel) =
      (m.environment.bindings.insert name b).map (Binding.map V.relabel) := by
    refine Table.ext ?_
    intro other
    rw [Table.find?_map, Table.find?_insert, Table.find?_insert, hmn.bindings, Table.find?_map]
    split <;> rfl
  exact .ok List.prefix_rfl (hm.define name hb)
    ⟨hbindings, hevent.maxDepth, hevent.hosts, hevent.world, hevent.events⟩ trivial

/-! ### Supply and host -/

theorem Sees.setWorld {m : Machine Nat σ} {n : Machine κ τ} (hmn : V.Sees past past' m n)
    {w : World σ} {w' : World τ} (hw : V.Worlds w w') :
    V.Sees past past' { m with world := w } { n with world := w' } :=
  ⟨hmn.bindings, hmn.maxDepth, hmn.hosts, hw, hmn.events⟩

theorem follows_apply {d : Definition Nat} {operands : List Node} (hd : d.Respects ℓ)
    (hoperands : ∀ f ∈ operands, f.Respects ℓ) :
    V.Follows held past past' ℓ (fun ℓ f f' => f' = f.map V.relabel ∧ f.Respects ℓ)
      (Run.minting (Convention.byIdentity.apply d operands))
      (Run.minting (c.apply (d.map V.relabel) (operands.map (Form.map V.relabel)))) := by
  intro m n hm hmn
  obtain ⟨heq, hworlds⟩ := V.apply hmn.world hd.linked fun f hf label hlabel => by
    rw [hm.supply]
    exact (hoperands f hf).lt_length label hlabel
  have hresult := Definition.respects_apply hd.body hoperands
  rw [← hm.supply] at hresult
  obtain ⟨ℓ', hprefix, hlength, hf⟩ := hresult
  exact .ok hprefix (Machine.Respects.setNext hprefix hm hlength) (hmn.setWorld hworlds) ⟨heq, hf⟩

theorem Sees.expand {m : Machine Nat σ} {n : Machine κ τ} (hmn : V.Sees past past' m n)
    {t t' : Template.Trail} (hsizes : t'.sizes = t.sizes)
    (hw : V.Worlds { m.world with next := t.next } { n.world with next := t'.next }) :
    V.Sees past past'
      { m with
        world := { m.world with next := t.next }
        events := m.events ++ t.sizes.map Event.listExpanded }
      { n with
        world := { n.world with next := t'.next }
        events := n.events ++ t'.sizes.map Event.listExpanded } := by
  obtain ⟨news, hm, hn⟩ := hmn.events
  refine ⟨hmn.bindings, hmn.maxDepth, hmn.hosts, hw,
    news ++ t.sizes.toList.map Event.listExpanded, by simp [hm], ?_⟩
  simp [hn, hsizes, Function.comp_def, Event.map]

theorem follows_expand {f : Node} (hf : f.Respects ℓ) :
    V.Follows held past past' ℓ (fun ℓ f f' => f' = f.map V.relabel ∧ f.Respects ℓ)
      (Run.expanding (Template.expand id f))
      (Run.expanding (Template.expand c.label (f.map V.relabel))) := by
  intro m n hm hmn
  have hrespects := Template.respects_expand f ℓ hf #[]
  have halike := V.expand f hmn.world
  rw [← hm.supply] at hrespects
  have hevents : ∀ sizes : Array Nat, ∀ event ∈
      (m.events ++ sizes.map Event.listExpanded).toList, ∀ d, event.definition? = some d →
      d.Linked := by
    intro sizes event hevent d hd
    rw [Array.toList_append, List.mem_append, Array.toList_map] at hevent
    rcases hevent with hevent | hevent
    · exact hm.events event hevent d hd
    · obtain ⟨size, -, rfl⟩ := List.mem_map.1 hevent
      cases hd
  unfold Run.expanding
  generalize Template.expand id f ⟨m.world.next, #[]⟩ = e at hrespects halike
  generalize Template.expand c.label (f.map V.relabel) ⟨n.world.next, #[]⟩ = e' at halike
  cases halike with
  | ok hcode ht =>
    obtain ⟨ℓ', hprefix, hlength, hf'⟩ := hrespects
    obtain ⟨henv, hsupply, hhost, -⟩ := Machine.Respects.setNext hprefix hm hlength
    exact .ok hprefix ⟨henv, hsupply, hhost, hevents _⟩ (hmn.expand ht.1 ht.2) ⟨hcode, hf'⟩
  | error ht =>
    obtain ⟨ℓ', hprefix, hlength, -⟩ := hrespects
    obtain ⟨henv, hsupply, hhost, -⟩ := Machine.Respects.setNext hprefix hm hlength
    exact .error hprefix ⟨henv, hsupply, hhost, hevents _⟩ (hmn.expand ht.1 ht.2)

/-- An honest host function keeps to the labelling. -/
theorem follows_act {f : HostFunction Nat σ} {f' : HostFunction κ τ} {v : Value Nat}
    (hf : f.Respects held ℓ) (hf' : V.Hosts f f') (hv : v.Respects ℓ) :
    V.Follows held past past' ℓ (fun ℓ v v' => v' = v.map V.relabel ∧ v.Respects ℓ)
      (Run.acting (f v)) (Run.acting (f' (v.map V.relabel))) := by
  intro m n hm hmn
  obtain ⟨own, hown, hhonest⟩ := hf
  have hreaches := hhonest v m.world
  have halike := V.act v hmn.world hf'
  have hstart : Workbench.Respects ℓ ⟨m.world.next, own ++ v.quotations ++ held m.world.host⟩ := by
    refine ⟨hm.supply, ?_⟩
    intro g hg
    rcases List.mem_append.1 hg with hg | hg
    · exact (List.mem_append.1 hg).elim (hown g) (hv g)
    · exact hm.host g hg
  have hmachine : ∀ {ℓ' : Labelling} {w : World σ}, ℓ <+: ℓ' → w.next = ℓ'.length →
      (∀ g ∈ held w.host, g.Respects ℓ') → Machine.Respects held ℓ' { m with world := w } :=
    fun hprefix hnext hheld => ⟨hm.environment.mono hprefix, hnext, hheld, hm.events⟩
  unfold Run.acting
  generalize f v m.world = e at hreaches halike
  generalize f' (v.map V.relabel) n.world = e' at halike
  cases halike with
  | ok hresult hworlds =>
    obtain ⟨ℓ', hprefix, hnext, hforms⟩ := Workbench.Reaches.respects hreaches hstart
    exact .ok hprefix (hmachine hprefix hnext fun g hg => hforms g (List.mem_append_right _ hg))
      (hmn.setWorld hworlds) ⟨hresult, fun g hg => hforms g (List.mem_append_left _ hg)⟩
  | error hworlds =>
    obtain ⟨ℓ', hprefix, hnext, hforms⟩ := Workbench.Reaches.respects hreaches hstart
    exact .error hprefix (hmachine hprefix hnext hforms) (hmn.setWorld hworlds)

/-- The answer of an honest host function keeps to the labelling. -/
theorem follows_answer (name : String) {f : HostFunction Nat σ} {f' : HostFunction κ τ}
    {v : Value Nat} (hf : f.Respects held ℓ) (hf' : V.Hosts f f') (hv : v.Respects ℓ) :
    V.Follows held past past' ℓ (fun ℓ v v' => v' = v.map V.relabel ∧ v.Respects ℓ)
      (Run.answering name (f v)) (Run.answering name (f' (v.map V.relabel))) := by
  refine follows_bind (follows_act hf hf' hv) ?_
  rintro ℓ₁ - result _ ⟨rfl, hresult⟩
  refine follows_bind (follows_emit (.hostReturned name result) rfl) ?_
  intro ℓ₂ h₂ _ _ _
  exact follows_pure ⟨rfl, hresult.mono h₂⟩

/-! ### Evaluation -/

variable (V held past past')

/-- **Every view is a simulation of evaluation**, in the world of labellings. -/
def simulation : Simulation Convention.byIdentity c σ τ where
  relabel := V.relabel
  World := Labelling
  Later ℓ ℓ' := ℓ <+: ℓ'
  later_refl _ := List.prefix_rfl
  later_trans := List.IsPrefix.trans
  Admits ℓ f := f.Respects ℓ
  admits_later h hf := hf.mono h
  admits_items hf hmem := (Form.respects_list.1 hf).2 _ hmem
  AdmitsDefinition ℓ d := d.Respects ℓ
  admitsDefinition_later h hd := hd.mono h
  AdmitsHost ℓ f f' := f.Respects held ℓ ∧ V.Hosts f f'
  admitsHost_later h hf := ⟨hf.1.mono h, hf.2⟩
  Follows ℓ R x y := V.Follows held past past' ℓ R x y
  pure := follows_pure
  bind := follows_bind
  fail _ := follows_throw _
  note := follows_note
  checkDepth _ := follows_checkDepth
  find? _ := follows_find?
  host? _ := follows_host?
  emit _ := follows_emit
  define _ hd hv := follows_define _ (Binding.respects_of hd hv)
  admitsDefinition hps hbody hcheck :=
    ⟨Definition.linked_of_check hps hbody hcheck, hps, hbody.tie hps⟩
  tie_map := V.tie_map
  apply := follows_apply
  expand := follows_expand
  answer name hf hv := follows_answer name hf.1 hf.2 hv

variable {V held past past'}

/-- Two values go together: the second is the first one as it is seen. -/
def Values (V : View c σ τ) (ℓ : Labelling) (v : Value Nat) (v' : Value κ) : Prop :=
  v' = v.map V.relabel ∧ v.Respects ℓ

/-- Evaluation is seen as evaluation of what is seen. -/
theorem follows_eval (fuel depth : Nat) {f : Node} (hf : f.Respects ℓ) :
    V.Follows held past past' ℓ V.Values (Evaluation.eval Convention.byIdentity fuel depth f)
      (Evaluation.eval c fuel depth (f.map V.relabel)) :=
  (V.simulation held past past').eval (fun _ => follows_throw _) fuel depth ℓ f hf

/-! ### Programs -/

theorem follows_read (source : String) : V.Follows held past past' ℓ
    (fun ℓ fs fs' => fs' = fs.map (Form.map V.relabel) ∧ ∀ f ∈ fs, f.Respects ℓ)
    (Program.read Convention.byIdentity source) (Program.read c source) := by
  unfold Program.read
  split
  · exact follows_throw _
  · next trees _ =>
    refine follows_bind (R := fun ℓ fs fs' =>
      fs' = fs.map (Form.map V.relabel) ∧ ∀ f ∈ fs, f.Respects ℓ) ?_ ?_
    · intro m n hm hmn
      obtain ⟨heq, hworlds⟩ := V.freshen trees hmn.world
      have hresult := Form.respects_freshenAll trees ℓ
      rw [← hm.supply] at hresult
      obtain ⟨ℓ', hprefix, hlength, hfs⟩ := hresult
      exact .ok hprefix (Machine.Respects.setNext hprefix hm hlength) (hmn.setWorld hworlds)
        ⟨heq, hfs⟩
    · rintro ℓ₁ - fs _ ⟨rfl, hfs⟩
      rw [List.length_map]
      refine follows_bind (follows_emit (.read fs.length) rfl) ?_
      intro ℓ₂ h₂ _ _ _
      exact follows_pure ⟨rfl, fun f hf => (hfs f hf).mono h₂⟩

/-- A program that stops at the first failure. -/
theorem follows_run (fuel : Nat) (source : String) : V.Follows held past past' ℓ V.Values
    (Program.run Convention.byIdentity fuel source) (Program.run c fuel source) := by
  unfold Program.run
  refine follows_bind (follows_read source) ?_
  rintro ℓ₁ - fs _ ⟨rfl, hfs⟩
  have hinner : (V.simulation held past past').FollowsAt 0
      (Evaluation.eval Convention.byIdentity fuel) (Evaluation.eval c fuel) := fun _ _ hf =>
    follows_eval fuel 0 hf
  exact Simulation.foldlM hinner hfs ⟨rfl, by simp [Value.quotations]⟩

theorem follows_attempt {x : Run Nat σ (Value Nat)} {y : Run κ τ (Value κ)}
    (hxy : V.Follows held past past' ℓ V.Values x y) : V.Follows held past past' ℓ
      (fun ℓ e e' => e' = e.map (Value.map V.relabel) ∧ ∀ v, e = .ok v → v.Respects ℓ)
      (Run.attempt x) (Run.attempt y) := by
  intro m n hm hmn
  have hends := hxy m n hm hmn
  unfold Run.attempt
  cases hx : x m with
  | ok a m' =>
    rw [hx] at hends
    generalize y n = e at hends
    cases hends with
    | ok h hm' hmn' hR => exact .ok h hm' hmn' ⟨by rw [hR.1]; rfl, fun v hv => by cases hv; exact hR.2⟩
  | error stop m' =>
    rw [hx] at hends
    generalize y n = e at hends
    cases hends with
    | error h hm' hmn' =>
      cases stop with
      | failed failure => exact .ok h hm' hmn' ⟨rfl, fun v hv => by cases hv⟩
      | outOfFuel => exact .error h hm' hmn'

theorem follows_evalForms (fuel : Nat) (policy : Policy) (index : Nat) {fs : List Node}
    (hfs : ∀ f ∈ fs, f.Respects ℓ) : V.Follows held past past' ℓ
      (fun ℓ es es' => es' = es.map (Except.map (Value.map V.relabel)) ∧
        ∀ v, .ok v ∈ es → v.Respects ℓ)
      (Program.evalForms (Program.evalTop Convention.byIdentity fuel) policy index fs)
      (Program.evalForms (Program.evalTop c fuel) policy index (fs.map (Form.map V.relabel))) := by
  induction fs generalizing ℓ index with
  | nil => exact follows_pure ⟨rfl, fun _ h => absurd h List.not_mem_nil⟩
  | cons f fs ih =>
    obtain ⟨hf, hfs⟩ := List.forall_mem_cons.1 hfs
    simp only [List.map_cons, Program.evalForms]
    refine follows_bind (follows_attempt (follows_eval fuel 0 hf)) ?_
    rintro ℓ₁ h₁ e _ ⟨rfl, he⟩
    cases e with
    | ok v =>
      refine follows_bind (ih (index + 1) fun g hg => (hfs g hg).mono h₁) ?_
      rintro ℓ₂ h₂ es _ ⟨rfl, hes⟩
      refine follows_pure ⟨rfl, ?_⟩
      intro u hu
      rcases List.mem_cons.1 hu with hu | hu
      · cases hu
        exact (he v rfl).mono h₂
      · exact hes u hu
    | error failure =>
      refine follows_bind (follows_emit (.formFailed index failure) rfl) ?_
      intro ℓ₂ h₂ _ _ _
      cases policy with
      | halt => exact follows_pure ⟨rfl, by simp⟩
      | keepGoing =>
        refine follows_bind (ih (index + 1) fun g hg => (hfs g hg).mono (h₁.trans h₂)) ?_
        rintro ℓ₃ - es _ ⟨rfl, hes⟩
        refine follows_pure ⟨rfl, ?_⟩
        intro u hu
        exact hes u ((List.mem_cons.1 hu).resolve_left (by simp))

/-- A program whose forms are evaluated under a policy. -/
theorem follows_runAll (fuel : Nat) (policy : Policy) (source : String) :
    V.Follows held past past' ℓ
      (fun ℓ o o' => o'.formCount = o.formCount ∧
        o'.results = o.results.map (Except.map (Value.map V.relabel)) ∧
        ∀ v, .ok v ∈ o.results → v.Respects ℓ)
      (Program.runAll Convention.byIdentity fuel policy source)
      (Program.runAll c fuel policy source) := by
  unfold Program.runAll
  refine follows_bind (follows_read source) ?_
  rintro ℓ₁ - fs _ ⟨rfl, hfs⟩
  refine follows_bind (follows_evalForms fuel policy 1 hfs) ?_
  rintro ℓ₂ - es _ ⟨rfl, hes⟩
  exact follows_pure ⟨by simp, rfl, hes⟩

end View

end SubstLisp
