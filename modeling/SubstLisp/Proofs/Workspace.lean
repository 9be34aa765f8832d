import SubstLisp.Proofs.View

/-!
# What a label stands for

An embedding program makes and handles forms, makes definitions, binds names, registers honest host
functions and evaluates forms and programs, in any order and in as many environments as it likes.
Whatever it does, a label stands for one thing: nodes of one label have one shape, and the
definitions that are made are linked.

## What is proved

* `Workspace.Step.respects` — every step keeps to one labelling, extended by the labels it takes.
* `Workspace.Reachable.coherent` — nodes of one label have one shape, and every definition is
  linked.
-/

namespace SubstLisp

variable {σ : Type}

/-! ### A run seen as it is -/

/-- A run seen as it is. -/
def View.self : View .byIdentity σ σ where
  relabel := id
  Worlds := Eq
  Hosts := Eq
  note_eq := rfl
  tie_map parameters body := by simp [Convention.byIdentity]
  apply := by
    rintro w _ d operands rfl - -
    simp
  expand := by
    rintro w _ f rfl
    rw [Form.map_id]
    show Alike _ _ (Template.expand id f ⟨w.next, #[]⟩) (Template.expand id f ⟨w.next, #[]⟩)
    cases Template.expand id f ⟨w.next, #[]⟩ with
    | ok code trail => exact .ok (Form.map_id code).symm ⟨rfl, rfl⟩
    | error fault trail => exact .error ⟨rfl, rfl⟩
  freshen := by
    rintro w _ trees rfl
    exact ⟨by simp [Convention.byIdentity], rfl⟩
  act := by
    rintro w _ f _ v rfl rfl
    rw [Value.map_id]
    cases f v w with
    | ok result world => exact .ok (Value.map_id result).symm rfl
    | error error world => exact .error rfl

/-- Every machine is seen as it is. -/
theorem View.self_sees (m : Machine Nat σ) :
    View.self.Sees m.events.toList m.events.toList m m where
  bindings := by
    refine Table.ext ?_
    intro name
    show _ = (m.environment.bindings.map (Binding.map id)).find? name
    rw [Table.find?_map, Binding.map_id_fun, Option.map_id_apply]
  maxDepth := rfl
  hosts name := by
    cases m.environment.hosts.find? name with
    | none => exact .none
    | some f => exact .some rfl
  world := rfl
  events := ⟨[], by simp, by simp⟩

/-! ### The steps of an embedding program -/

/-- What an embedding program has. -/
structure Workspace (σ : Type) where
  /-- The machine it works on. -/
  machine : Machine Nat σ
  /-- The environments that it has put aside. -/
  shelf : List (Environment Nat σ)
  /-- The forms that it holds. -/
  forms : List Node
  /-- The definitions that it holds. -/
  definitions : List (Definition Nat)

namespace Workspace

/-- The beginning, for a host in a given state. -/
def initial (host : σ) : Workspace σ := ⟨.initial host, [], [], []⟩

/-- A binding that the program can make of what it holds. -/
def Holds (s : Workspace σ) : Binding Nat → Prop
  | .functionDef d => d ∈ s.definitions
  | .macroDef d => d ∈ s.definitions
  | .value v => v.quotations ⊆ s.forms

/-- The end of a run on the machine; the program then holds the forms that the outcome quotes. -/
def after {α : Type} (s : Workspace σ) (quotations : α → List Node) :
    Ending Nat σ α → Workspace σ
  | .ok a m => { s with machine := m, forms := quotations a ++ s.forms }
  | .error _ m => { s with machine := m }

/-- The forms that the outcomes of a program quote. -/
def quotationsOf (outcome : Outcome Nat) : List Node :=
  outcome.results.flatMap fun result => ((Outcome.valueOf? result).map Value.quotations).getD []

/-- One step of an embedding program; `held` are the forms that a host keeps in a state. -/
inductive Step (held : σ → List Node) : Workspace σ → Workspace σ → Prop where
  /-- Handles forms. -/
  | handle {s : Workspace σ} {next : Nat} {forms : List Node} :
      Workbench.Step ⟨s.machine.world.next, s.forms⟩ ⟨next, forms⟩ →
      Step held s { s with
        machine := { s.machine with world := { s.machine.world with next } }
        forms }
  /-- Makes a definition. -/
  | make {s : Workspace σ} {name : String} {parameters : List Node} {body : Node}
      {d : Definition Nat} : parameters ⊆ s.forms → body ∈ s.forms →
      Definition.make Form.tie name parameters body = .ok d →
      Step held s { s with definitions := d :: s.definitions }
  /-- Looks into a definition. -/
  | inspect {s : Workspace σ} {d : Definition Nat} : d ∈ s.definitions →
      Step held s { s with forms := d.body :: d.parameters ++ s.forms }
  /-- Looks up a function or a macro. -/
  | lookUpDefinition {s : Workspace σ} {name : String} {d : Definition Nat} :
      s.machine.environment.find? name = some (.functionDef d) ∨
        s.machine.environment.find? name = some (.macroDef d) →
      Step held s { s with definitions := d :: s.definitions }
  /-- Looks up a value. -/
  | lookUpValue {s : Workspace σ} {name : String} {v : Value Nat} :
      s.machine.environment.find? name = some (.value v) →
      Step held s { s with forms := v.quotations ++ s.forms }
  /-- Binds a name. -/
  | define {s : Workspace σ} (name : String) {b : Binding Nat} : s.Holds b →
      Step held s { s with machine := Ending.machine (Run.define name b s.machine) }
  /-- Registers an honest host function. -/
  | register {s : Workspace σ} (name : String) {f : HostFunction Nat σ} {own : List Node} :
      own ⊆ s.forms → f.Honest held own →
      Step held s { s with machine := Ending.machine (Run.register name f s.machine) }
  /-- Sets or lifts the depth limit. -/
  | setMaxDepth {s : Workspace σ} (limit : Option Nat) :
      Step held s { s with machine := Ending.machine (Run.setMaxDepth limit s.machine) }
  /-- Leaves forms with the host. -/
  | entrust {s : Workspace σ} (host : σ) :
      held host ⊆ s.forms ++ held s.machine.world.host →
      Step held s { s with
        machine := { s.machine with world := { s.machine.world with host } } }
  /-- Takes a form from the host. -/
  | receive {s : Workspace σ} {f : Node} : f ∈ held s.machine.world.host →
      Step held s { s with forms := f :: s.forms }
  /-- Puts a copy of the environment aside. -/
  | shelve {s : Workspace σ} :
      Step held s { s with shelf := s.machine.environment :: s.shelf }
  /-- Turns to a new environment or to one that was put aside. -/
  | turnTo {s : Workspace σ} {env : Environment Nat σ} : env ∈ Environment.empty :: s.shelf →
      Step held s { s with machine := { s.machine with environment := env } }
  /-- Evaluates a form. -/
  | eval {s : Workspace σ} (fuel : Nat) {f : Node} : f ∈ s.forms →
      Step held s (s.after Value.quotations (Program.evalTop .byIdentity fuel f s.machine))
  /-- Runs a program up to its first failure. -/
  | run {s : Workspace σ} (fuel : Nat) (source : String) :
      Step held s (s.after Value.quotations (Program.run .byIdentity fuel source s.machine))
  /-- Runs a program under a policy. -/
  | runAll {s : Workspace σ} (fuel : Nat) (policy : Policy) (source : String) :
      Step held s (s.after quotationsOf (Program.runAll .byIdentity fuel policy source s.machine))

/-- What an embedding program can come to, beginning with a host that keeps no form. -/
def Reachable (held : σ → List Node) (s : Workspace σ) : Prop :=
  ∃ host, held host = [] ∧ Relation.ReflTransGen (Step held) (initial host) s

/-! ### What there is in a workspace -/

/-- The environments of a workspace. -/
def environments (s : Workspace σ) : List (Environment Nat σ) := s.machine.environment :: s.shelf

/-- The definitions of a workspace: those that are held or bound, and those that a run has made,
even if the name has been bound anew since. -/
inductive HasDefinition (s : Workspace σ) : Definition Nat → Prop where
  /-- One that the program holds. -/
  | held {d : Definition Nat} : d ∈ s.definitions → HasDefinition s d
  /-- One that a name is bound to. -/
  | bound {env : Environment Nat σ} {name : String} {d : Definition Nat} :
      env ∈ s.environments →
      env.find? name = some (.functionDef d) ∨ env.find? name = some (.macroDef d) →
      HasDefinition s d
  /-- One that has been made at some time. -/
  | made {event : Event Nat} {d : Definition Nat} : event ∈ s.machine.events.toList →
      event.definition? = some d → HasDefinition s d

/-- The outermost forms in a workspace: those that the program holds or has left with the host,
those of definitions and those that values quote. -/
inductive HasForm (held : σ → List Node) (s : Workspace σ) : Node → Prop where
  /-- One that the program holds. -/
  | held {f : Node} : f ∈ s.forms → HasForm held s f
  /-- One that is with the host. -/
  | host {f : Node} : f ∈ held s.machine.world.host → HasForm held s f
  /-- A parameter or the body of a definition that the program holds. -/
  | definition {d : Definition Nat} {f : Node} : d ∈ s.definitions → f ∈ d.body :: d.parameters →
      HasForm held s f
  /-- A parameter or the body of a definition that a name is bound to. -/
  | bound {env : Environment Nat σ} {name : String} {d : Definition Nat} {f : Node} :
      env ∈ s.environments →
      env.find? name = some (.functionDef d) ∨ env.find? name = some (.macroDef d) →
      f ∈ d.body :: d.parameters → HasForm held s f
  /-- A form that a value of a name quotes. -/
  | quoted {env : Environment Nat σ} {name : String} {v : Value Nat} {f : Node} :
      env ∈ s.environments → env.find? name = some (.value v) → f ∈ v.quotations →
      HasForm held s f

/-! ### One labelling for all -/

/-- Everything in a workspace respects a labelling. -/
structure Respects (held : σ → List Node) (ℓ : Labelling) (s : Workspace σ) : Prop where
  machine : s.machine.Respects held ℓ
  shelf : ∀ env ∈ s.shelf, env.Respects held ℓ
  forms : ∀ f ∈ s.forms, f.Respects ℓ
  definitions : ∀ d ∈ s.definitions, d.Respects ℓ

theorem respects_initial {held : σ → List Node} {host : σ} (h : held host = []) :
    (initial host).Respects held [] :=
  ⟨⟨Environment.respects_empty, rfl, fun f hf => absurd (h ▸ hf : f ∈ []) List.not_mem_nil,
      fun _ h => absurd h List.not_mem_nil⟩,
    fun _ h => absurd h List.not_mem_nil, fun _ h => absurd h List.not_mem_nil,
    fun _ h => absurd h List.not_mem_nil⟩

section

variable {held : σ → List Node} {ℓ ℓ' : Labelling} {s : Workspace σ}

/-- A run keeps to the labelling when the run that is seen through the plainest of views does. -/
theorem Respects.after {α : Type} {x : Run Nat σ α} {quotations : α → List Node}
    {R : Labelling → α → α → Prop} (hs : s.Respects held ℓ)
    (hx : ∀ past past', View.self.Follows held past past' ℓ R x x)
    (hR : ∀ ℓ' a b, R ℓ' a b → ∀ f ∈ quotations a, f.Respects ℓ') :
    ∃ ℓ', ℓ <+: ℓ' ∧ (s.after quotations (x s.machine)).Respects held ℓ' := by
  have hends := hx _ _ s.machine s.machine hs.machine (View.self_sees s.machine)
  generalize x s.machine = e at hends ⊢
  cases hends with
  | ok hprefix hm _ hab =>
    refine ⟨_, hprefix, hm, fun env henv => (hs.shelf env henv).mono hprefix, ?_,
      fun d hd => (hs.definitions d hd).mono hprefix⟩
    intro f hf
    rcases List.mem_append.1 hf with hf | hf
    · exact hR _ _ _ hab f hf
    · exact (hs.forms f hf).mono hprefix
  | error hprefix hm _ =>
    exact ⟨_, hprefix, hm, fun env henv => (hs.shelf env henv).mono hprefix,
      fun f hf => (hs.forms f hf).mono hprefix, fun d hd => (hs.definitions d hd).mono hprefix⟩

/-- A step that leaves machine and shelf alone. -/
theorem Respects.collect (hs : s.Respects held ℓ) {forms : List Node}
    {definitions : List (Definition Nat)} (hforms : ∀ f ∈ forms, f.Respects ℓ)
    (hdefinitions : ∀ d ∈ definitions, d.Respects ℓ) :
    Respects held ℓ { s with forms, definitions } :=
  ⟨hs.machine, hs.shelf, hforms, hdefinitions⟩

/-- A step that changes the machine alone and takes no labels. -/
theorem Respects.setMachine (hs : s.Respects held ℓ) {m : Machine Nat σ}
    (hm : m.Respects held ℓ) : Respects held ℓ { s with machine := m } :=
  ⟨hm, hs.shelf, hs.forms, hs.definitions⟩

/-- **Every step keeps to one labelling**, extended by the labels that it takes. -/
theorem Step.respects {s' : Workspace σ} (h : Step held s s') (hs : s.Respects held ℓ) :
    ∃ ℓ', ℓ <+: ℓ' ∧ s'.Respects held ℓ' := by
  cases h with
  | handle hstep =>
    obtain ⟨ℓ', hprefix, hnext, hforms⟩ := hstep.respects ⟨hs.machine.supply, hs.forms⟩
    exact ⟨ℓ', hprefix, Machine.Respects.setNext hprefix hs.machine hnext.symm,
      fun env henv => (hs.shelf env henv).mono hprefix, hforms,
      fun d hd => (hs.definitions d hd).mono hprefix⟩
  | @make name parameters body d hps hbody hmake =>
    have hd : d.Respects ℓ := Definition.respects_of_make (fun p hp => hs.forms p (hps hp))
      (hs.forms body hbody) hmake
    exact ⟨ℓ, List.prefix_rfl, hs.collect hs.forms (List.forall_mem_cons.2 ⟨hd, hs.definitions⟩)⟩
  | inspect hd =>
    have hrespects := hs.definitions _ hd
    refine ⟨ℓ, List.prefix_rfl, hs.collect ?_ hs.definitions⟩
    intro f hf
    rcases List.mem_append.1 hf with hf | hf
    · exact List.forall_mem_cons.2 ⟨hrespects.body, hrespects.parameters⟩ f hf
    · exact hs.forms f hf
  | lookUpDefinition hd =>
    refine ⟨ℓ, List.prefix_rfl, hs.collect hs.forms (List.forall_mem_cons.2 ⟨?_, hs.definitions⟩)⟩
    rcases hd with hd | hd <;> exact hs.machine.environment.bindings _ _ hd
  | lookUpValue hv =>
    refine ⟨ℓ, List.prefix_rfl, hs.collect ?_ hs.definitions⟩
    intro f hf
    rcases List.mem_append.1 hf with hf | hf
    · exact hs.machine.environment.bindings _ _ hv f hf
    · exact hs.forms f hf
  | @define name b hb =>
    refine ⟨ℓ, List.prefix_rfl, hs.setMachine (hs.machine.define name ?_)⟩
    cases b with
    | functionDef d => exact hs.definitions d hb
    | macroDef d => exact hs.definitions d hb
    | value v => exact fun f hf => hs.forms f (hb hf)
  | register name hown hhonest =>
    exact ⟨ℓ, List.prefix_rfl, hs.setMachine (hs.machine.register name
      ⟨_, fun g hg => hs.forms g (hown hg), hhonest⟩)⟩
  | setMaxDepth limit =>
    obtain ⟨⟨hbindings, hhosts⟩, hsupply, hhost, hevents⟩ := hs.machine
    exact ⟨ℓ, List.prefix_rfl, hs.setMachine ⟨⟨hbindings, hhosts⟩, hsupply, hhost, hevents⟩⟩
  | entrust host hhost =>
    refine ⟨ℓ, List.prefix_rfl, hs.setMachine ⟨hs.machine.environment, hs.machine.supply, ?_,
      hs.machine.events⟩⟩
    intro f hf
    exact (List.mem_append.1 (hhost hf)).elim (hs.forms f) (hs.machine.host f)
  | receive hf =>
    exact ⟨ℓ, List.prefix_rfl,
      hs.collect (List.forall_mem_cons.2 ⟨hs.machine.host _ hf, hs.forms⟩) hs.definitions⟩
  | shelve =>
    exact ⟨ℓ, List.prefix_rfl, hs.machine,
      List.forall_mem_cons.2 ⟨hs.machine.environment, hs.shelf⟩, hs.forms, hs.definitions⟩
  | turnTo henv =>
    have hrespects := List.forall_mem_cons.2 ⟨Environment.respects_empty, hs.shelf⟩ _ henv
    exact ⟨ℓ, List.prefix_rfl, hs.setMachine ⟨hrespects, hs.machine.supply, hs.machine.host,
      hs.machine.events⟩⟩
  | @eval fuel f hf =>
    have hfollows : ∀ past past', View.self.Follows held past past' ℓ View.self.Values
        (Program.evalTop .byIdentity fuel f) (Program.evalTop .byIdentity fuel (f.map id)) :=
      fun _ _ => View.follows_eval fuel 0 (hs.forms f hf)
    rw [Form.map_id] at hfollows
    exact hs.after hfollows fun _ _ _ h => h.2
  | run fuel source =>
    exact hs.after (fun _ _ => View.follows_run fuel source) fun _ _ _ h => h.2
  | runAll fuel policy source =>
    refine hs.after (fun _ _ => View.follows_runAll fuel policy source) ?_
    intro ℓ' o _ h f hf
    obtain ⟨result, hresult, hf⟩ := List.mem_flatMap.1 hf
    cases result with
    | ok v => exact h.2.2 v hresult f hf
    | error failure => cases hf

/-- Everything in a reachable workspace respects one labelling. -/
theorem Reachable.respects (h : s.Reachable held) : ∃ ℓ, s.Respects held ℓ := by
  obtain ⟨host, hhost, hsteps⟩ := h
  induction hsteps with
  | refl => exact ⟨[], respects_initial hhost⟩
  | tail _ hstep ih =>
    obtain ⟨ℓ, hs⟩ := ih
    obtain ⟨ℓ', -, hs'⟩ := hstep.respects hs
    exact ⟨ℓ', hs'⟩

theorem Respects.environment {env : Environment Nat σ} (hs : s.Respects held ℓ)
    (henv : env ∈ s.environments) : env.Respects held ℓ :=
  List.forall_mem_cons.2 ⟨hs.machine.environment, hs.shelf⟩ env henv

theorem Respects.definition {env : Environment Nat σ} (hs : s.Respects held ℓ)
    (henv : env ∈ s.environments) {name : String} {d : Definition Nat}
    (hd : env.find? name = some (.functionDef d) ∨ env.find? name = some (.macroDef d)) :
    d.Respects ℓ := by
  rcases hd with hd | hd <;> exact (hs.environment henv).bindings name _ hd

theorem HasForm.respects {f : Node} (hf : s.HasForm held f) (hs : s.Respects held ℓ) :
    f.Respects ℓ := by
  cases hf with
  | held hf => exact hs.forms f hf
  | host hf => exact hs.machine.host f hf
  | definition hd hf =>
    have hrespects := hs.definitions _ hd
    exact List.forall_mem_cons.2 ⟨hrespects.body, hrespects.parameters⟩ f hf
  | bound henv hd hf =>
    have hrespects := hs.definition henv hd
    exact List.forall_mem_cons.2 ⟨hrespects.body, hrespects.parameters⟩ f hf
  | quoted henv hv hf => exact (hs.environment henv).bindings _ _ hv f hf

theorem HasDefinition.linked {d : Definition Nat} (hd : s.HasDefinition d)
    (hs : s.Respects held ℓ) : d.Linked := by
  cases hd with
  | held hd => exact (hs.definitions d hd).linked
  | bound henv hd => exact (hs.definition henv hd).linked
  | made hevent hd => exact hs.machine.events _ hevent d hd

/-- **A label stands for one thing**: whatever an embedding program has done, nodes of one label are
atoms of one text, string literals of one text, or lists; and in every definition that has been made
the labels of the parameters and their spellings mark the same atoms of the body. -/
theorem Reachable.coherent (h : s.Reachable held) :
    (∀ f g, s.HasForm held f → s.HasForm held g → ∀ a ∈ f.nodes, ∀ b ∈ g.nodes,
      a.label = b.label → a.shape = b.shape) ∧
    ∀ d, s.HasDefinition d → d.Linked := by
  obtain ⟨ℓ, hs⟩ := h.respects
  refine ⟨?_, fun d hd => hd.linked hs⟩
  intro f g hf hg a ha b hb hlabel
  exact Form.shape_eq_of_respects (hf.respects hs) (hg.respects hs) ha hb hlabel

/-- A definition whose parameter is a node of its body already. -/
theorem Reachable.coherent_sharedNode :
    let x : Node := .atom 0 "x"
    let d : Definition Nat := ⟨"twice", [x], .list 1 [x, x]⟩
    let s : Workspace Unit :=
      ⟨{ Machine.initial () with world := ⟨2, ()⟩ }, [], [.list 1 [x, x], x], [d]⟩
    s.Reachable (fun _ => []) ∧ d.Linked := by
  intro x d s
  have hatom : Step (fun _ => []) (initial ())
      ⟨{ Machine.initial () with world := ⟨1, ()⟩ }, [], [x], []⟩ := .handle (.atom "x")
  have hlist : Step (fun _ => []) ⟨{ Machine.initial () with world := ⟨1, ()⟩ }, [], [x], []⟩
      ⟨{ Machine.initial () with world := ⟨2, ()⟩ }, [], [.list 1 [x, x], x], []⟩ :=
    .handle (.list (by simp))
  have hmake : Step (fun _ => [])
      ⟨{ Machine.initial () with world := ⟨2, ()⟩ }, [], [.list 1 [x, x], x], []⟩ s :=
    @Step.make _ _ ⟨_, _, _, _⟩ "twice" [x] (.list 1 [x, x]) d (by simp) (by simp) rfl
  have h : s.Reachable (fun _ => []) := ⟨(), rfl, ((Relation.ReflTransGen.refl.tail hatom).tail
    hlist).tail hmake⟩
  exact ⟨h, (Reachable.coherent h).2 d (.held List.mem_cons_self)⟩

end

end Workspace

end SubstLisp
