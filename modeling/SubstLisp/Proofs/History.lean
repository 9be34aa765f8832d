import SubstLisp.Proofs.Simulation

/-!
# The history of a run

Runs report what happens but do not look at what has been reported. With other events in front of
those that a machine holds, a run does the same and comes to the same end, on a machine with the
same events in front.

## What is proved

* `History.simulation` — evaluation simulates itself on machines with different histories.
* `Evaluation.call_blind`, `Evaluation.applyNamed_blind` — calls and applications do not look at
  the history of the machine.
-/

namespace SubstLisp

variable {ι σ α β : Type}

/-- The machine with other events in front of its own. -/
def Machine.after (past : Array (Event ι)) (m : Machine ι σ) : Machine ι σ :=
  { m with events := past ++ m.events }

/-- The same ending, on the machine with other events in front. -/
def Ending.after (past : Array (Event ι)) : Ending ι σ α → Ending ι σ α
  | .ok a m => .ok a (m.after past)
  | .error s m => .error s (m.after past)

@[simp]
theorem Machine.environment_after (past : Array (Event ι)) (m : Machine ι σ) :
    (m.after past).environment = m.environment := rfl

namespace Run

/-- The computation does not look at what has happened before. -/
def Blind (x : Run ι σ α) : Prop := ∀ past m, x (m.after past) = Ending.after past (x m)

theorem Blind.find? (name : String) : Blind (Run.find? name : Run ι σ _) := fun _ _ => rfl

theorem Blind.host? (name : String) : Blind (Run.host? name : Run ι σ _) := fun _ _ => rfl

theorem Blind.emit (event : Event ι) : Blind (Run.emit event : Run ι σ Unit) := fun past m => by
  simp [Run.emit, Machine.after, Ending.after]

theorem Blind.define (name : String) (binding : Binding ι) :
    Blind (Run.define name binding : Run ι σ Unit) := fun past m => by
  show EStateM.Result.ok () (Machine.mk _ _ ((past ++ m.events).push _)) =
    EStateM.Result.ok () (Machine.mk _ _ (past ++ m.events.push _))
  rw [Array.append_push]
  rfl

theorem Blind.minting (x : Minting α) : Blind (Run.minting x : Run ι σ α) := fun _ _ => rfl

theorem Blind.expanding (x : Template.Expanding α) : Blind (Run.expanding x : Run ι σ α) := by
  intro past m
  have hworld : (m.after past).world = m.world := rfl
  simp only [Run.expanding, hworld]
  cases x ⟨m.world.next, #[]⟩ <;> simp [Machine.after, Ending.after, Array.append_assoc]

theorem Blind.acting (x : EStateM Error (World σ) α) : Blind (Run.acting x : Run ι σ α) := by
  intro past m
  have hworld : (m.after past).world = m.world := rfl
  simp only [Run.acting, hworld]
  cases x m.world <;> rfl

theorem Blind.checkDepth (depth : Nat) : Blind (Evaluation.checkDepth depth : Run ι σ Unit) := by
  intro past m
  rw [Evaluation.checkDepth_eq, Evaluation.checkDepth_eq, Machine.environment_after]
  split
  · split <;> rfl
  · rfl

end Run

/-! ### Two histories -/

namespace History

/-- The second run does after more events what the first does. -/
def Follows (R : α → β → Prop) (x : Run ι σ α) (y : Run ι σ β) : Prop :=
  ∀ past m,
    match x m with
    | .ok a m' => ∃ b, y (m.after past) = .ok b (m'.after past) ∧ R a b
    | .error s m' => y (m.after past) = .error s (m'.after past)

theorem follows_bind {γ δ : Type} {R : α → β → Prop} {S : γ → δ → Prop} {x : Run ι σ α}
    {y : Run ι σ β} {k : α → Run ι σ γ} {k' : β → Run ι σ δ} (hxy : Follows R x y)
    (hk : ∀ a b, R a b → Follows S (k a) (k' b)) : Follows S (x >>= k) (y >>= k') := by
  intro past m
  have hm := hxy past m
  simp only [bind, EStateM.bind]
  cases hx : x m with
  | error s m' =>
    rw [hx] at hm
    rw [hm]
  | ok a m' =>
    rw [hx] at hm
    obtain ⟨b, hy, hR⟩ := hm
    rw [hy]
    exact hk a b hR past m'

theorem follows_note {R : α → β → Prop} {x : Run ι σ α} {y : Run ι σ β} (g : Failure → Failure)
    (hxy : Follows R x y) : Follows R (Run.mapFailure g x) (Run.mapFailure g y) := by
  intro past m
  have hm := hxy past m
  simp only [Run.mapFailure]
  cases hx : x m with
  | error s m' =>
    rw [hx] at hm
    cases s <;> simp only [hm]
  | ok a m' =>
    rw [hx] at hm
    obtain ⟨b, hy, hR⟩ := hm
    exact ⟨b, by rw [hy], hR⟩

/-- A computation that does not look at the history follows itself. -/
theorem follows_of_blind {R : α → α → Prop} {x : Run ι σ α} (hx : x.Blind) (hR : ∀ a, R a a) :
    Follows R x x := by
  intro past m
  rw [hx past m]
  cases x m with
  | ok a m' => exact ⟨a, rfl, hR a⟩
  | error s m' => rfl

/-- Evaluation simulates itself on machines with different histories. -/
def simulation (c : Convention ι) : Simulation c c σ σ where
  relabel := id
  World := Unit
  Later _ _ := True
  later_refl _ := trivial
  later_trans _ _ := trivial
  Admits _ _ := True
  admits_later _ _ := trivial
  admits_items _ _ := trivial
  AdmitsDefinition _ _ := True
  admitsDefinition_later _ _ := trivial
  AdmitsHost _ f f' := f' = f
  admitsHost_later _ h := h
  Follows w R := Follows (R w)
  pure h _ _ := ⟨_, rfl, h⟩
  bind hxy hk := follows_bind hxy fun a b hR => hk () trivial a b hR
  fail _ := fun _ _ => rfl
  note name h := follows_note (c.note name) h
  checkDepth _ depth := follows_of_blind (.checkDepth depth) fun _ => trivial
  find? _ name := follows_of_blind (.find? name)
    fun _ => ⟨by simp, fun _ _ => trivial, fun _ _ _ _ => trivial⟩
  host? _ name := follows_of_blind (.host? name) fun f => by
    cases f with
    | none => exact .none
    | some f => exact .some rfl
  emit _ event _ := by
    rw [Event.map_id]
    exact follows_of_blind (.emit event) fun _ => trivial
  define _ _ _ := by
    rw [Binding.map_id]
    exact follows_of_blind (.define _ _) fun _ => trivial
  admitsDefinition _ _ _ := trivial
  tie_map := c.tie_map_id
  apply _ _ := by
    simp only [Definition.map_id, Form.map_id_fun, List.map_id]
    exact follows_of_blind (.minting _) fun _ => ⟨rfl, trivial⟩
  expand _ := by
    rw [Form.map_id]
    exact follows_of_blind (.expanding _) fun _ => ⟨by simp, trivial⟩
  answer := by
    rintro _ _ f v name rfl -
    rw [Value.map_id]
    refine follows_bind (follows_of_blind (.acting (f v)) fun _ => rfl) ?_
    rintro result _ rfl
    refine follows_bind (follows_of_blind (.emit (.hostReturned name result)) fun _ => rfl) ?_
    exact fun _ _ _ _ _ => ⟨result, rfl, by simp, fun _ _ => trivial⟩

variable (c : Convention ι)

theorem map_relabel (forms : List (Form ι)) :
    forms.map (Form.map (simulation (σ := σ) c).relabel) = forms := by
  simp [simulation]

/-- What follows itself does not look at the history. -/
theorem blind_of_follows {x : Run ι σ (Value ι)}
    (h : Follows ((simulation (σ := σ) c).Values ()) x x) : x.Blind := by
  intro past m
  have hm := h past m
  cases hx : x m with
  | error s m' =>
    rw [hx] at hm
    exact hm
  | ok v m' =>
    rw [hx] at hm
    obtain ⟨v', hv', hvv', -⟩ := hm
    rw [hv', show v' = v from hvv'.trans v.map_id]
    rfl

theorem followsAt_eval (fuel depth : Nat) : (simulation (σ := σ) c).FollowsAt depth
    (Evaluation.eval c fuel) (Evaluation.eval c fuel) :=
  Simulation.eval (fun _ _ _ => rfl) fuel depth

end History

/-! ### Calls and applications -/

namespace Evaluation

variable (c : Convention ι) (fuel depth : Nat) (name : String) (operands : List (Form ι))

/-- A call does not look at the history of the machine. -/
theorem call_blind : Run.Blind (call c (eval c fuel : Evaluator ι σ) depth name operands) := by
  refine History.blind_of_follows c ?_
  have h := @Simulation.call _ _ _ _ _ _ (History.simulation c) () _ _ _
    (History.followsAt_eval (σ := σ) c fuel (depth + 1)) name operands fun _ _ => trivial
  rwa [History.map_relabel] at h

/-- An application does not look at the history of the machine. -/
theorem applyNamed_blind :
    Run.Blind (applyNamed c (eval c fuel : Evaluator ι σ) depth name operands) := by
  refine History.blind_of_follows c ?_
  have h := @Simulation.applyNamed _ _ _ _ _ _ (History.simulation c) () _ _ _
    (History.followsAt_eval (σ := σ) c fuel (depth + 1)) name operands fun _ _ => trivial
  rwa [History.map_relabel] at h

end Evaluation

end SubstLisp
