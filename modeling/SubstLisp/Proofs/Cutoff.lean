import SubstLisp.Proofs.Simulation

/-!
# Runs that are cut short

A run with little fuel or under a low depth limit is compared with the run of the same form that
has more. Until the first run is cut short, both do the same. After that the first is over, and
what is known of the second is only that it goes on: events are added to those that there are and
none is taken back.

A world of the simulation is therefore either `none`, while the runs are side by side, or the
events at the point where the first was cut short.

## What is proved

* `Cutoff.simulation` — every cutoff is a simulation of evaluation by itself.
* `Cutoff.Side`, `Cutoff.Past` — what it says of two runs, before and after the cut.
-/

namespace SubstLisp

variable {ι σ α β : Type}

/-- The machine with a depth limit, or without one. -/
def Machine.withLimit (limit : Option Nat) (m : Machine ι σ) : Machine ι σ :=
  { m with environment := { m.environment with maxDepth := limit } }

/-- The same ending, on the machine with a depth limit, or without one. -/
def Ending.withLimit (limit : Option Nat) : Ending ι σ α → Ending ι σ α
  | .ok a m => .ok a (m.withLimit limit)
  | .error s m => .error s (m.withLimit limit)

@[simp]
theorem Machine.withLimit_withLimit (limit limit' : Option Nat) (m : Machine ι σ) :
    (m.withLimit limit).withLimit limit' = m.withLimit limit' := rfl

@[simp]
theorem Machine.events_withLimit (limit : Option Nat) (m : Machine ι σ) :
    (m.withLimit limit).events = m.events := rfl

@[simp]
theorem Machine.hosts_withLimit (limit : Option Nat) (m : Machine ι σ) :
    (m.withLimit limit).environment.hosts = m.environment.hosts := rfl

/-! ### Computations that do not look at the limit -/

/-- The computation does the same whatever the depth limit is, takes back no event and leaves the
host functions alone. -/
structure Run.LimitBlind (x : Run ι σ α) : Prop where
  withLimit : ∀ m limit, x (m.withLimit limit) = Ending.withLimit limit (x m)
  events : ∀ m, m.events.toList <+: (Ending.machine (x m)).events.toList
  hosts : ∀ m, (Ending.machine (x m)).environment.hosts = m.environment.hosts

namespace Run

theorem LimitBlind.outOfFuel : LimitBlind (throw .outOfFuel : Run ι σ α) :=
  ⟨fun _ _ => rfl, fun _ => List.prefix_rfl, fun _ => rfl⟩

theorem LimitBlind.find? (name : String) : LimitBlind (Run.find? name : Run ι σ _) :=
  ⟨fun _ _ => rfl, fun _ => List.prefix_rfl, fun _ => rfl⟩

theorem LimitBlind.host? (name : String) : LimitBlind (Run.host? name : Run ι σ _) :=
  ⟨fun _ _ => rfl, fun _ => List.prefix_rfl, fun _ => rfl⟩

theorem LimitBlind.emit (event : Event ι) : LimitBlind (Run.emit event : Run ι σ Unit) :=
  ⟨fun _ _ => rfl, fun m => by simp [Run.emit, Ending.machine], fun _ => rfl⟩

theorem LimitBlind.define (name : String) (binding : Binding ι) :
    LimitBlind (Run.define name binding : Run ι σ Unit) :=
  ⟨fun _ _ => rfl, fun m => by
    show m.events.toList <+: (m.events.push _).toList
    simp, fun _ => rfl⟩

theorem LimitBlind.minting (x : Minting α) : LimitBlind (Run.minting x : Run ι σ α) :=
  ⟨fun _ _ => rfl, fun _ => List.prefix_rfl, fun _ => rfl⟩

theorem LimitBlind.expanding (x : Template.Expanding α) :
    LimitBlind (Run.expanding x : Run ι σ α) := by
  constructor
  · intro m limit
    have hworld : (m.withLimit limit).world = m.world := rfl
    simp only [Run.expanding, hworld]
    cases x ⟨m.world.next, #[]⟩ <;> rfl
  · intro m
    simp only [Run.expanding]
    cases x ⟨m.world.next, #[]⟩ <;> simp [Ending.machine]
  · intro m
    simp only [Run.expanding]
    cases x ⟨m.world.next, #[]⟩ <;> rfl

theorem LimitBlind.acting (x : EStateM Error (World σ) α) :
    LimitBlind (Run.acting x : Run ι σ α) := by
  constructor
  · intro m limit
    have hworld : (m.withLimit limit).world = m.world := rfl
    simp only [Run.acting, hworld]
    cases x m.world <;> rfl
  · intro m
    simp only [Run.acting]
    cases x m.world <;> exact List.prefix_rfl
  · intro m
    simp only [Run.acting]
    cases x m.world <;> rfl

end Run

/-! ### Cutoffs -/

/-- How a first run is cut short, compared with a second one. -/
structure Cutoff (ι σ : Type) where
  /-- The depth limit of the first run. -/
  limit : Option Nat
  /-- The depth limit of the second run. -/
  limit' : Option Nat
  /-- The ends by which the first run is cut short. -/
  Cuts : Stop → Prop
  /-- The ends that the first run may come to without a value. -/
  Allows : Stop → Prop
  /-- The host functions that the runs may call. -/
  Host : HostFunction ι σ → Prop
  limit_le : ∀ M, limit' = some M → ∃ N, limit = some N ∧ N ≤ M
  allows_fail : ∀ {error : Error}, error.limit? = none → Allows (.failed ⟨error, none⟩)
  allows_within : ∀ {failure : Failure} (name : String), Allows (.failed failure) →
    Allows (.failed (failure.within name))
  within_of_cuts : ∀ {failure : Failure} (name : String), Cuts (.failed failure) →
    failure.within name = failure
  allows_host : ∀ {f v world error world'}, Host f → f v world = .error error world' →
    Allows (.failed ⟨error, none⟩)
  at_limit : ∀ N, limit = some N → Allows (.failed ⟨.depthLimit N, none⟩) ∧
    (Cuts (.failed ⟨.depthLimit N, none⟩) ∨ limit' = limit)

namespace Cutoff

variable (cutoff : Cutoff ι σ)

/-- What is known of an ending after the first run was cut short: the `past` up to there is part of
it, and a value is one that the first run might have had. -/
def Past (past : List (Event ι)) (R : α → β → Prop) : Ending ι σ β → Prop
  | .ok b m => past <+: m.events.toList ∧ ∃ a, R a b
  | .error _ m => past <+: m.events.toList

/-- What is known of the endings of two runs that start side by side. -/
def Side (past : List (Event ι) → α → β → Prop) (R : α → β → Prop) :
    Ending ι σ α → Ending ι σ β → Prop
  | .ok a m, second => ∃ (m₁ : Machine ι σ) (b : β), m = m₁.withLimit cutoff.limit ∧
      second = .ok b (m₁.withLimit cutoff.limit') ∧ R a b
  | .error s m, second => cutoff.Allows s ∧
      (cutoff.Cuts s ∧ Past m.events.toList (past m.events.toList) second ∨
        ∃ m₁ : Machine ι σ, m = m₁.withLimit cutoff.limit ∧
          second = .error s (m₁.withLimit cutoff.limit'))

/-- Every host function of the machine is one that the runs may call. -/
def Hosts (m : Machine ι σ) : Prop :=
  ∀ name f, m.environment.hosts.find? name = some f → cutoff.Host f

/-- The second run does what the first does, until the first is cut short. -/
def Follows (w : Option (List (Event ι))) (R : Option (List (Event ι)) → α → β → Prop)
    (x : Run ι σ α) (y : Run ι σ β) : Prop :=
  match w with
  | none => ∀ m, cutoff.Hosts m →
      (Ending.machine (x (m.withLimit cutoff.limit))).environment.hosts = m.environment.hosts ∧
      cutoff.Side (fun past => R (some past)) (R none) (x (m.withLimit cutoff.limit))
        (y (m.withLimit cutoff.limit'))
  | some past => ∀ m : Machine ι σ, past <+: m.events.toList → Past past (R (some past)) (y m)

variable {cutoff}

theorem follows_pure {w} {R : Option (List (Event ι)) → α → β → Prop} {a : α} {b : β}
    (h : R w a b) : cutoff.Follows w R (pure a) (pure b) := by
  match w with
  | none => exact fun m _ => ⟨rfl, m, b, rfl, rfl, h⟩
  | some past => exact fun m hm => ⟨hm, a, h⟩

/-- Once the first run is over, the second goes on. -/
theorem past_bind {γ δ : Type} {past : List (Event ι)} {R : α → β → Prop} {S : γ → δ → Prop}
    {y : Run ι σ β} {k' : β → Run ι σ δ} {m : Machine ι σ} (hy : Past past R (y m))
    (hk : ∀ a b, R a b → ∀ m : Machine ι σ, past <+: m.events.toList → Past past S (k' b m)) :
    Past past S ((y >>= k') m) := by
  simp only [bind, EStateM.bind]
  cases hm : y m with
  | error s m' => rw [hm] at hy; exact hy
  | ok b m' =>
    rw [hm] at hy
    obtain ⟨hpast, a, hR⟩ := hy
    exact hk a b hR m' hpast

/-- What may be known later than a point of two runs: the same, or where the first was cut. -/
def Later (w w' : Option (List (Event ι))) : Prop := w = none ∨ w = w'

theorem follows_bind {γ δ : Type} {w} {R : Option (List (Event ι)) → α → β → Prop}
    {S : Option (List (Event ι)) → γ → δ → Prop} {x : Run ι σ α} {y : Run ι σ β}
    {k : α → Run ι σ γ} {k' : β → Run ι σ δ} (hxy : cutoff.Follows w R x y)
    (hk : ∀ w', Later w w' → ∀ a b, R w' a b → cutoff.Follows w' S (k a) (k' b)) :
    cutoff.Follows w S (x >>= k) (y >>= k') := by
  match w with
  | some past =>
    exact fun m hm => past_bind (hxy m hm) fun a b hR => hk (some past) (.inr rfl) a b hR
  | none =>
    intro m hm
    obtain ⟨hhosts, hside⟩ := hxy m hm
    simp only [bind, EStateM.bind]
    cases hx : x (m.withLimit cutoff.limit) with
    | ok a m' =>
      rw [hx] at hhosts hside
      obtain ⟨m₁, b, rfl, hy, hR⟩ := hside
      have hm₁ : cutoff.Hosts m₁ := fun name f hf => hm name f (hhosts ▸ hf)
      obtain ⟨hhosts', hside'⟩ := hk none (.inl rfl) a b hR m₁ hm₁
      rw [hy]
      exact ⟨hhosts'.trans hhosts, hside'⟩
    | error s m' =>
      rw [hx] at hhosts hside
      refine ⟨hhosts, hside.1, ?_⟩
      rcases hside.2 with ⟨hcuts, hpast⟩ | ⟨m₁, rfl, hy⟩
      · refine .inl ⟨hcuts, past_bind hpast ?_⟩
        intro a b hR
        exact hk (some m'.events.toList) (.inl rfl) a b hR
      · exact .inr ⟨m₁, rfl, by rw [hy]⟩

/-- Both runs fail. -/
theorem follows_fail {w} {R : Option (List (Event ι)) → α → β → Prop} {error : Error}
    (h : error.limit? = none) : cutoff.Follows w R (Run.fail error) (Run.fail error) := by
  match w with
  | none => exact fun m _ => ⟨rfl, cutoff.allows_fail h, .inr ⟨m, rfl, rfl⟩⟩
  | some past => exact fun m hm => hm

/-- A computation that does not look at the limit follows itself. -/
theorem follows_of_limitBlind {w} {R : Option (List (Event ι)) → α → α → Prop} {x : Run ι σ α}
    (hx : x.LimitBlind) (hR : ∀ m a m', x m = .ok a m' → (w = none → cutoff.Hosts m) → R w a a)
    (hallows : ∀ m s m', w = none → cutoff.Hosts m → x m = .error s m' → cutoff.Allows s) :
    cutoff.Follows w R x x := by
  match w with
  | none =>
    intro m hm
    rw [hx.withLimit, hx.withLimit]
    have hhosts := hx.hosts m
    cases h : x m with
    | ok a m' =>
      rw [h] at hhosts
      exact ⟨hhosts, m', a, rfl, rfl, hR m a m' h fun _ => hm⟩
    | error s m' =>
      rw [h] at hhosts
      exact ⟨hhosts, hallows m s m' rfl hm h, .inr ⟨m', rfl, rfl⟩⟩
  | some past =>
    intro m hm
    have hevents := hm.trans (hx.events m)
    cases h : x m with
    | ok a m' =>
      rw [h] at hevents
      exact ⟨hevents, a, hR m a m' h (by simp)⟩
    | error s m' =>
      rw [h] at hevents
      exact hevents

theorem past_note {past : List (Event ι)} {R : α → β → Prop} {y : Run ι σ β} {m : Machine ι σ}
    (g : Failure → Failure) (hy : Past past R (y m)) : Past past R (Run.mapFailure g y m) := by
  unfold Run.mapFailure
  cases h : y m with
  | ok b m' => rw [h] at hy; exact hy
  | error s m' =>
    rw [h] at hy
    cases s <;> exact hy

/-- A note on a failure changes neither run's part in a cut. -/
theorem follows_note {w} {R : Option (List (Event ι)) → α → β → Prop} {x : Run ι σ α}
    {y : Run ι σ β} (name : String) (hxy : cutoff.Follows w R x y) :
    cutoff.Follows w R (Run.mapFailure (Failure.within name) x)
      (Run.mapFailure (Failure.within name) y) := by
  match w with
  | some past => exact fun m hm => past_note _ (hxy m hm)
  | none =>
    intro m hm
    obtain ⟨hhosts, hside⟩ := hxy m hm
    cases hx : x (m.withLimit cutoff.limit) with
    | ok a m' =>
      rw [hx] at hhosts hside
      obtain ⟨m₁, b, rfl, hy, hR⟩ := hside
      simp only [Run.mapFailure, hx]
      exact ⟨hhosts, m₁, b, rfl, by rw [hy], hR⟩
    | error s m' =>
      rw [hx] at hhosts hside
      obtain ⟨hallows, hside⟩ := hside
      cases s with
      | outOfFuel =>
        simp only [Run.mapFailure, hx]
        refine ⟨hhosts, hallows, ?_⟩
        rcases hside with ⟨hcuts, hpast⟩ | ⟨m₁, rfl, hy⟩
        · exact .inl ⟨hcuts, past_note _ hpast⟩
        · exact .inr ⟨m₁, rfl, by rw [hy]⟩
      | failed failure =>
        simp only [Run.mapFailure, hx]
        refine ⟨hhosts, cutoff.allows_within name hallows, ?_⟩
        rcases hside with ⟨hcuts, hpast⟩ | ⟨m₁, rfl, hy⟩
        · rw [cutoff.within_of_cuts name hcuts]
          exact .inl ⟨hcuts, past_note _ hpast⟩
        · exact .inr ⟨m₁, rfl, by rw [hy]⟩

/-- Where the first run is within its limit, so is the second. -/
theorem follows_checkDepth (w) (depth : Nat) : cutoff.Follows w
    (fun _ _ _ => True) (Evaluation.checkDepth depth) (Evaluation.checkDepth depth) := by
  have hpast : ∀ (past : List (Event ι)) (m : Machine ι σ), past <+: m.events.toList →
      Past past (fun _ _ : Unit => True) (Evaluation.checkDepth depth m) := by
    intro past m hm
    rw [Evaluation.checkDepth_eq]
    split
    · split
      · exact hm
      · exact ⟨hm, (), trivial⟩
    · exact ⟨hm, (), trivial⟩
  match w with
  | some past => exact hpast past
  | none =>
    intro m _
    by_cases hreached : ∃ N, cutoff.limit = some N ∧ N ≤ depth
    · obtain ⟨N, hN, hle⟩ := hreached
      have hx : Evaluation.checkDepth depth (m.withLimit cutoff.limit) =
          .error (.failed ⟨.depthLimit N, none⟩) (m.withLimit cutoff.limit) := by
        rw [Evaluation.checkDepth_eq, hN]
        exact if_pos hle
      rw [hx]
      obtain ⟨hallows, hcuts | hlimit⟩ := cutoff.at_limit N hN
      · exact ⟨rfl, hallows, .inl ⟨hcuts, hpast _ _ List.prefix_rfl⟩⟩
      · exact ⟨rfl, hallows, .inr ⟨m, rfl, by rw [hlimit, hx]⟩⟩
    · have hx : ∀ limit, (∀ M, limit = some M → ∃ N, cutoff.limit = some N ∧ N ≤ M) →
          Evaluation.checkDepth depth (m.withLimit limit) = .ok () (m.withLimit limit) := by
        intro limit hlimit
        cases limit with
        | none => rw [Evaluation.checkDepth_eq]; rfl
        | some M =>
          obtain ⟨N, hN, hle⟩ := hlimit M rfl
          rw [Evaluation.checkDepth_eq]
          exact if_neg fun hM => hreached ⟨N, hN, Nat.le_trans hle hM⟩
      rw [hx cutoff.limit fun M hM => ⟨M, hM, Nat.le_refl M⟩, hx cutoff.limit' cutoff.limit_le]
      exact ⟨rfl, m, (), rfl, rfl, trivial⟩

/-- A cutoff is a simulation of evaluation by itself. -/
def simulation (cutoff : Cutoff ι σ) (c : Convention ι) (hnote : c.note = Failure.within) :
    Simulation c c σ σ where
  relabel := id
  World := Option (List (Event ι))
  Later := Later
  later_refl w := .inr rfl
  later_trans := by
    rintro u v w (rfl | rfl) h
    · exact .inl rfl
    · exact h
  Admits _ _ := True
  admits_later _ _ := trivial
  admits_items _ _ := trivial
  AdmitsDefinition _ _ := True
  admitsDefinition_later _ _ := trivial
  AdmitsHost w f f' := f' = f ∧ (w = none → cutoff.Host f)
  admitsHost_later := by
    rintro w w' f f' (rfl | rfl) ⟨rfl, h⟩
    · exact ⟨rfl, fun _ => h rfl⟩
    · exact ⟨rfl, h⟩
  Follows := cutoff.Follows
  pure := follows_pure
  bind := follows_bind
  fail := follows_fail
  note name h := by
    rw [hnote]
    exact follows_note name h
  checkDepth := follows_checkDepth
  find? w name := follows_of_limitBlind (.find? name)
    (fun _ _ _ _ _ => ⟨by simp, fun _ _ => trivial, fun _ _ _ _ => trivial⟩)
    fun _ _ _ _ _ h => nomatch h
  host? w name := by
    refine follows_of_limitBlind (.host? name) ?_ fun _ _ _ _ _ h => nomatch h
    intro m f m' h hm
    cases h
    cases hf : m.environment.hosts.find? name with
    | none => exact .none
    | some f => exact .some ⟨rfl, fun hw => hm hw name f hf⟩
  emit w event _ := by
    rw [Event.map_id]
    exact follows_of_limitBlind (.emit event) (fun _ _ _ _ _ => trivial) fun _ _ _ _ _ h => nomatch h
  define _ _ _ := by
    rw [Binding.map_id]
    exact follows_of_limitBlind (.define _ _) (fun _ _ _ _ _ => trivial) fun _ _ _ _ _ h => nomatch h
  admitsDefinition _ _ _ := trivial
  tie_map := c.tie_map_id
  apply _ _ := by
    simp only [Definition.map_id, Form.map_id_fun, List.map_id]
    exact follows_of_limitBlind (.minting _) (fun _ _ _ _ _ => ⟨rfl, trivial⟩)
      fun _ _ _ _ _ h => nomatch h
  expand _ := by
    rw [Form.map_id]
    refine follows_of_limitBlind (.expanding _) (fun _ _ _ _ _ => ⟨by simp, trivial⟩) ?_
    intro m s m' _ _ h
    unfold Run.expanding at h
    split at h <;> cases h
    exact cutoff.allows_fail rfl
  answer := by
    rintro w _ f v name ⟨rfl, hf⟩ -
    rw [Value.map_id]
    refine follows_bind (R := fun _ => Eq)
      (follows_of_limitBlind (.acting (f v)) (fun _ _ _ _ _ => rfl) ?_) ?_
    · intro m s m' hw _ h
      unfold Run.acting at h
      split at h <;> cases h
      next h => exact cutoff.allows_host (hf hw) h
    · rintro w' - result _ rfl
      refine follows_bind (R := fun _ _ _ => True) (follows_of_limitBlind
        (.emit (.hostReturned name result)) (fun _ _ _ _ _ => trivial) fun _ _ _ _ _ h => nomatch h) ?_
      exact fun _ _ _ _ _ => follows_pure ⟨by simp, fun _ _ => trivial⟩

/-! ### What the simulation says -/

theorem Past.imp {past : List (Event ι)} {R S : α → β → Prop} {second : Ending ι σ β}
    (h : Past past R second) (hRS : ∀ a b, R a b → S a b) : Past past S second := by
  match second with
  | .ok b m => exact ⟨h.1, h.2.imp fun a ha => hRS a b ha⟩
  | .error s m => exact h

theorem Side.imp {past past' : List (Event ι) → α → β → Prop} {R S : α → β → Prop}
    {first : Ending ι σ α} {second : Ending ι σ β} (h : cutoff.Side past R first second)
    (hpast : ∀ events a b, past events a b → past' events a b) (hRS : ∀ a b, R a b → S a b) :
    cutoff.Side past' S first second := by
  match first with
  | .ok a m =>
    obtain ⟨m₁, b, hm, hb, hR⟩ := h
    exact ⟨m₁, b, hm, hb, hRS a b hR⟩
  | .error s m =>
    obtain ⟨hallows, ⟨hcuts, h⟩ | h⟩ := h
    · exact ⟨hallows, .inl ⟨hcuts, h.imp (hpast _)⟩⟩
    · exact ⟨hallows, .inr h⟩

section

variable {c : Convention ι} {hnote : c.note = Failure.within} {depth : Nat}
variable {inner inner' : Evaluator ι σ}
variable (h : (cutoff.simulation c hnote).FollowsAt depth inner inner') (form : Form ι)

include h

theorem side_of_followsAt {m : Machine ι σ} (hm : cutoff.Hosts m) :
    cutoff.Side (fun _ v v' => v' = v) (fun v v' => v' = v)
      (inner depth form (m.withLimit cutoff.limit))
      (inner' depth form (m.withLimit cutoff.limit')) := by
  have hside := (h none form trivial m hm).2
  rw [show form.map (cutoff.simulation c hnote).relabel = form from form.map_id] at hside
  exact Side.imp hside (fun _ v v' hv => hv.1.trans v.map_id) fun v v' hv => hv.1.trans v.map_id

end

end Cutoff

end SubstLisp
