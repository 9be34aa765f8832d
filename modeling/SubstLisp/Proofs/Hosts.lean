import SubstLisp.Proofs.Policies

/-!
# What becomes of the host

Evaluation reaches the state of the host through host functions only. Where each of these leads the
state along a relation that goes step by step, evaluation leads it along the relation as well,
however it ends; and the host functions stay as they are.

## What is proved

* `Leading.simulation` — what has been done so far leads along the relation, whatever evaluation
  does next.
* `Evaluation.led_eval`, `Program.led_runAll` — evaluation of a form, and a whole program, lead
  along the relation.
-/

namespace SubstLisp

variable {ι σ α β : Type}

/-- Whatever it comes to, a host function leads the state of the host along a relation. -/
def HostFunction.Leads (R : σ → σ → Prop) (f : HostFunction ι σ) : Prop :=
  ∀ v world,
    match f v world with
    | .ok _ world' => R world.host world'.host
    | .error _ world' => R world.host world'.host

/-- All host functions of a machine lead along a relation. -/
def Machine.HostsLead (R : σ → σ → Prop) (m : Machine ι σ) : Prop :=
  ∀ name f, m.environment.hosts.find? name = some f → HostFunction.Leads R f

/-- From `m` to `m'` the state of the host has been led along a relation, and the host functions are
the same. -/
structure Machine.Led (R : σ → σ → Prop) (m m' : Machine ι σ) : Prop where
  hosts : m'.environment.hosts = m.environment.hosts
  host : R m.world.host m'.world.host

section

variable {R : σ → σ → Prop} {m m' m'' : Machine ι σ}

theorem Machine.HostsLead.of_hosts_eq (h : m.HostsLead R)
    (heq : m'.environment.hosts = m.environment.hosts) : m'.HostsLead R := fun name f hf =>
  h name f (heq ▸ hf)

theorem Machine.Led.of_world_eq [Std.Refl R]
    (hhosts : m'.environment.hosts = m.environment.hosts)
    (hhost : m'.world.host = m.world.host) : m.Led R m' :=
  ⟨hhosts, hhost ▸ refl_of R _⟩

theorem Machine.Led.trans [IsTrans σ R] (h : m.Led R m') (h' : m'.Led R m'') :
    m.Led R m'' :=
  ⟨h'.hosts.trans h.hosts, trans_of R h.host h'.host⟩

/-- Two computations one after the other. -/
theorem Machine.Led.bind [IsTrans σ R] {x : Run ι σ α} {k : α → Run ι σ β}
    (hx : m.Led R (Ending.machine (x m)))
    (hk : ∀ a m₁, m.Led R m₁ → m₁.Led R (Ending.machine (k a m₁))) :
    m.Led R (Ending.machine ((x >>= k) m)) := by
  simp only [Bind.bind, EStateM.bind]
  cases h : x m with
  | ok a m₁ =>
    rw [h] at hx
    exact hx.trans (hk a m₁ hx)
  | error stop m₁ =>
    rw [h] at hx
    exact hx

end

namespace Leading

variable {R : σ → σ → Prop}

/-- From any machine whose host functions lead along the relation, the run leads along it. -/
def Follows (R : σ → σ → Prop) (Q : α → β → Prop) (x : Run ι σ α) : Prop :=
  ∀ m, m.HostsLead R → m.Led R (Ending.machine (x m)) ∧ ∀ a m', x m = .ok a m' → ∃ b, Q a b

theorem follows_bind {γ δ : Type} [IsTrans σ R] {Q : α → β → Prop} {S : γ → δ → Prop}
    {x : Run ι σ α} {k : α → Run ι σ γ} (hx : Follows R Q x)
    (hk : ∀ a b, Q a b → Follows R S (k a)) : Follows R S (x >>= k) := by
  intro m hm
  obtain ⟨hled, hQ⟩ := hx m hm
  simp only [bind, EStateM.bind]
  cases h : x m with
  | error s m' =>
    rw [h] at hled
    exact ⟨hled, fun _ _ h => nomatch h⟩
  | ok a m' =>
    rw [h] at hled
    obtain ⟨b, hb⟩ := hQ a m' h
    obtain ⟨hled', hS⟩ := hk a b hb m' (hm.of_hosts_eq hled.hosts)
    exact ⟨hled.trans hled', hS⟩

theorem follows_note {Q : α → β → Prop} {x : Run ι σ α} (g : Failure → Failure)
    (hx : Follows R Q x) : Follows R Q (Run.mapFailure g x) := by
  intro m hm
  have h := hx m hm
  unfold Run.mapFailure
  cases hxm : x m with
  | ok a m' =>
    rw [hxm] at h
    exact h
  | error s m' =>
    rw [hxm] at h
    cases s with
    | outOfFuel => exact h
    | failed failure => exact ⟨h.1, fun _ _ h => nomatch h⟩

/-- A computation that does not reach the host. -/
theorem follows_of_world_eq [Std.Refl R] {Q : α → β → Prop} {x : Run ι σ α}
    (hhosts : ∀ m, (Ending.machine (x m)).environment.hosts = m.environment.hosts)
    (hhost : ∀ m, (Ending.machine (x m)).world.host = m.world.host)
    (hQ : ∀ m a m', m.HostsLead R → x m = .ok a m' → ∃ b, Q a b) : Follows R Q x := fun m hm =>
  ⟨.of_world_eq (hhosts m) (hhost m), fun a m' => hQ m a m' hm⟩

theorem follows_checkDepth [Std.Refl R] (depth : Nat) :
    Follows R (fun _ (_ : Unit) => True) (Evaluation.checkDepth depth : Run ι σ Unit) := by
  have hmachine : ∀ m : Machine ι σ, Ending.machine (Evaluation.checkDepth depth m) = m := by
    intro m
    rw [Evaluation.checkDepth_eq]
    split
    · split <;> rfl
    · rfl
  exact follows_of_world_eq (fun m => by rw [hmachine]) (fun m => by rw [hmachine])
    fun _ _ _ _ _ => ⟨(), trivial⟩

/-- A host function that leads along the relation does so when its answer is reported. -/
theorem follows_answer (name : String) {f : HostFunction ι σ} (hf : f.Leads R) (v : Value ι) :
    Follows R (fun v v' => v' = v.map id ∧ ∀ form ∈ v.quotations, True)
      (Run.answering name (f v)) := by
  intro m _
  have h := hf v m.world
  rw [Run.answering_eq]
  cases hfv : f v m.world with
  | ok result world =>
    rw [hfv] at h
    exact ⟨⟨rfl, h⟩, fun a _ _ => ⟨_, rfl, fun _ _ => trivial⟩⟩
  | error error world =>
    rw [hfv] at h
    exact ⟨⟨rfl, h⟩, fun _ _ h => nomatch h⟩

/-- Evaluation leads along the relation if host functions do. -/
def simulation [Std.Refl R] [IsTrans σ R] (c : Convention ι) : Simulation c c σ σ where
  relabel := id
  World := Unit
  Later _ _ := True
  later_refl _ := trivial
  later_trans _ _ := trivial
  Admits _ _ := True
  admits_later _ _ := trivial
  admits_items _ _ := trivial
  AdmitsDefinition _ _ := True
  admitsDefinition_later _ _ := trivial
  AdmitsHost _ f _ := f.Leads R
  admitsHost_later _ h := h
  Follows w Q x _ := Follows R (Q w) x
  pure h := follows_of_world_eq (fun _ => rfl) (fun _ => rfl) (by rintro m _ _ - ⟨⟩; exact ⟨_, h⟩)
  bind hx hk := follows_bind hx fun a b hQ => hk () trivial a b hQ
  fail _ := follows_of_world_eq (fun _ => rfl) (fun _ => rfl) (by rintro m _ _ - ⟨⟩)
  note name h := follows_note (c.note name) h
  checkDepth _ := follows_checkDepth
  find? _ name := follows_of_world_eq (fun _ => rfl) (fun _ => rfl)
    fun _ _ _ _ _ => ⟨_, rfl, fun _ _ => trivial, fun _ _ _ _ => trivial⟩
  host? _ name := by
    refine follows_of_world_eq (fun _ => rfl) (fun _ => rfl) ?_
    rintro m f _ hm ⟨⟩
    refine ⟨m.environment.hosts.find? name, ?_⟩
    cases hf : m.environment.hosts.find? name with
    | none => exact .none
    | some f => exact .some (hm name f hf)
  emit _ event _ := follows_of_world_eq (fun _ => rfl) (fun _ => rfl)
    fun _ _ _ _ _ => ⟨(), trivial⟩
  define _ _ _ := follows_of_world_eq (fun _ => rfl) (fun _ => rfl)
    fun _ _ _ _ _ => ⟨(), trivial⟩
  admitsDefinition _ _ _ := trivial
  tie_map := c.tie_map_id
  apply _ _ := follows_of_world_eq (fun _ => rfl) (fun _ => rfl)
    fun _ _ _ _ _ => ⟨_, rfl, trivial⟩
  expand {w f} _ := by
    refine follows_of_world_eq (fun m => ?_) (fun m => ?_)
      fun _ _ _ _ _ => ⟨_, rfl, trivial⟩
    all_goals
      simp only [Run.expanding]
      cases Template.expand c.label f ⟨m.world.next, #[]⟩ <;> rfl
  answer name hf _ := follows_answer name hf _

end Leading

variable {R : σ → σ → Prop} [Std.Refl R] [IsTrans σ R] {m m' : Machine ι σ}

/-- Evaluation of a form leads along a relation that host functions lead along. -/
theorem Evaluation.led_eval (hm : m.HostsLead R) (c : Convention ι) (fuel depth : Nat)
    (form : Form ι) : m.Led R (Ending.machine (eval c fuel depth form m)) := by
  have hfuel : Leading.Follows R ((Leading.simulation (R := R) c).Values ())
      (throw .outOfFuel : Run ι σ (Value ι)) :=
    Leading.follows_of_world_eq (fun _ => rfl) (fun _ => rfl) (by rintro m _ _ - ⟨⟩)
  exact ((Leading.simulation c).eval (fun _ => hfuel) fuel depth () form trivial m hm).1

namespace Program

variable (hm : m.HostsLead R) (c : Convention ι) (fuel : Nat) (policy : Policy)

include hm

/-- So does what a form comes to. -/
theorem led_resultOf (index : Nat) (form : Form ι) :
    m.Led R (Ending.machine (resultOf (evalTop c fuel) index form m)) := by
  have hform : m.Led R (Ending.machine (evalTop c fuel form m)) :=
    Evaluation.led_eval hm c fuel 0 form
  simp only [resultOf, Run.attempt, bind, EStateM.bind]
  generalize evalTop c fuel form m = e at hform ⊢
  cases e with
  | ok v m₁ => exact hform
  | error stop m₁ =>
    cases stop with
    | failed failure => exact ⟨hform.hosts, hform.host⟩
    | outOfFuel => exact hform

/-- So does evaluation of one form after another. -/
theorem led_evalForms (index : Nat) (forms : List (Form ι)) :
    m.Led R (Ending.machine (evalForms (evalTop c fuel) policy index forms m)) := by
  induction forms generalizing index m with
  | nil => exact .of_world_eq rfl rfl
  | cons form forms ih =>
    rw [evalForms_cons]
    refine (led_resultOf hm c fuel index form).bind fun first m₁ hled => ?_
    split
    · exact .of_world_eq rfl rfl
    · exact (ih (hm.of_hosts_eq hled.hosts) (index + 1)).bind fun _ _ _ => .of_world_eq rfl rfl

/-- So does a program, if it can be read. -/
theorem led_runAll (source : String) :
    m.Led R (Ending.machine (runAll c fuel policy source m)) := by
  have hread : m.Led R (Ending.machine (read c source m)) := by
    cases h : Reader.read Reader.defaultLimit source with
    | error diagnosis =>
      rw [read_of_read_error c h]
      exact .of_world_eq rfl rfl
    | ok trees =>
      rw [read_eq_of_read c h]
      exact .of_world_eq rfl rfl
  exact hread.bind fun forms m₁ hled =>
    (led_evalForms (hm.of_hosts_eq hled.hosts) c fuel policy 1 forms).bind fun _ _ _ =>
      .of_world_eq rfl rfl

end Program

end SubstLisp
