import Mathlib.Data.List.Infix
import SubstLisp.Proofs.Cutoff

/-!
# The depth limit

A limit on the depth of evaluation makes every evaluation end, and changes no outcome but to the
error that the limit is reached. An evaluation under a limit does what an evaluation under a higher
one does, or without one, up to the point where the limit stops it.

Fuel is the other limit: it is granted from outside and makes evaluation a function. More fuel
changes nothing once an evaluation has ended, so what a form ends in is well defined.

## What is proved

* `Evaluation.EndsIn.unique` — what a form ends in does not depend on the fuel.
* `Evaluation.eval_ends` — under a limit every evaluation ends.
* `Evaluation.depthLimit_faithful` — an evaluation under a limit is the one under a higher limit, or
  a prefix of it that ends in the error of the limit.
-/

namespace SubstLisp

variable {ι σ : Type}

namespace Cutoff

/-- A run with little fuel beside a run with more, under the same depth limit. -/
def byFuel (limit : Option Nat) : Cutoff ι σ where
  limit := limit
  limit' := limit
  Cuts s := s = .outOfFuel
  Allows _ := True
  Host _ := True
  limit_le M hM := ⟨M, hM, Nat.le_refl M⟩
  allows_fail _ := trivial
  allows_within _ _ := trivial
  within_of_cuts _ h := nomatch h
  allows_host _ _ := trivial
  at_limit _ _ := ⟨trivial, .inr rfl⟩

/-- A failure is no report of a depth limit, or it is the one of this limit, without a note. -/
def ReportsOnly (N : Nat) (failure : Failure) : Prop :=
  failure.error.limit? = none ∨ failure = ⟨.depthLimit N, none⟩

theorem within_depthLimit (name : String) (N : Nat) :
    Failure.within name ⟨.depthLimit N, none⟩ = ⟨.depthLimit N, none⟩ := rfl

theorem ReportsOnly.within {N : Nat} {failure : Failure} (name : String)
    (h : ReportsOnly N failure) : ReportsOnly N (failure.within name) := by
  rcases h with h | rfl
  · left
    rwa [Failure.error_within]
  · right
    exact within_depthLimit name N

/-- A run under a depth limit beside a run under a higher one, or under none. -/
def byDepth (N : Nat) (limit' : Option Nat) (hle : ∀ M, limit' = some M → N ≤ M) :
    Cutoff ι σ where
  limit := some N
  limit' := limit'
  Cuts s := s = .failed ⟨.depthLimit N, none⟩
  Allows s := ∃ failure, s = .failed failure ∧ ReportsOnly N failure
  Host f := ∀ v world error world', f v world = .error error world' → error.limit? = none
  limit_le M hM := ⟨N, rfl, hle M hM⟩
  allows_fail h := ⟨_, rfl, .inl h⟩
  allows_within := by
    rintro _ name ⟨_, ⟨⟩, h⟩
    exact ⟨_, rfl, h.within name⟩
  within_of_cuts := by
    rintro _ name ⟨⟩
    exact within_depthLimit name N
  allows_host hf h := ⟨_, rfl, .inl (hf _ _ _ _ h)⟩
  at_limit := by
    rintro _ ⟨⟩
    exact ⟨⟨_, rfl, .inr rfl⟩, .inl rfl⟩

end Cutoff

/-! ### Outcomes -/

/-- A run ends by the error of a depth limit. -/
def Ending.ReportsDepth {α : Type} (r : Ending ι σ α) : Prop :=
  ∃ failure m, r = .error (.failed failure) m ∧ failure.error.limit? ≠ none

/-- An event is a deed when a name is bound or a host function called. -/
def Event.isDeed : Event ι → Bool
  | defined .. => true
  | hostCalled .. => true
  | _ => false

/-- The deeds of a run that starts on a machine, in order. -/
def Ending.deeds {α : Type} (m : Machine ι σ) (r : Ending ι σ α) : List (Event ι) :=
  (r.machine.events.toList.drop m.events.size).filter Event.isDeed

/-- No host function ends by the error of a depth limit. -/
def Environment.HostsReportNoDepth (env : Environment ι σ) : Prop :=
  ∀ name f, env.hosts.find? name = some f →
    ∀ v world limit world', f v world ≠ .error (.depthLimit limit) world'

namespace Evaluation

/-- Evaluated at the top level of a machine, with enough fuel, a form ends in this. -/
def EndsIn (c : Convention ι) (m : Machine ι σ) (form : Form ι) (r : Ending ι σ (Value ι)) : Prop :=
  (∀ m', r ≠ .error .outOfFuel m') ∧ ∃ fuel, eval c fuel 0 form m = r

variable {c : Convention ι} (hnote : c.note = Failure.within)

include hnote

/-! ### Fuel -/

/-- Running out of fuel is followed by running out of fuel. -/
theorem follows_byFuel_self (limit : Option Nat) (fuel depth : Nat) :
    ((Cutoff.byFuel limit : Cutoff ι σ).simulation c hnote).FollowsAt depth (eval c fuel)
      (eval c fuel) :=
  Simulation.eval (fun _ => Cutoff.follows_of_limitBlind .outOfFuel (fun _ _ _ h => nomatch h)
    fun _ _ _ _ _ _ => trivial) fuel depth

/-- The run with less fuel is followed by the run with more. -/
theorem follows_byFuel (limit : Option Nat) {fuel fuel' : Nat} (hle : fuel ≤ fuel') (depth : Nat) :
    ((Cutoff.byFuel limit : Cutoff ι σ).simulation c hnote).FollowsAt depth (eval c fuel)
      (eval c fuel') := by
  induction fuel generalizing fuel' depth with
  | zero =>
    intro w form _
    have hgoes := follows_byFuel_self (σ := σ) hnote limit fuel' depth
    match w with
    | some past => exact hgoes (some past) form trivial
    | none =>
      intro m _
      exact ⟨rfl, trivial, .inl ⟨rfl, hgoes (some _) form trivial _ List.prefix_rfl⟩⟩
  | succ fuel ih =>
    obtain ⟨fuel', rfl⟩ := Nat.exists_eq_add_of_le' (Nat.lt_of_lt_of_le fuel.succ_pos hle)
    exact Simulation.evalForm (ih (Nat.le_of_succ_le_succ hle) (depth + 1))

/-- More fuel changes nothing once an evaluation has ended. -/
theorem eval_of_le {fuel fuel' depth : Nat} {form : Form ι} {m : Machine ι σ}
    {r : Ending ι σ (Value ι)} (hle : fuel ≤ fuel') (h : eval c fuel depth form m = r)
    (hends : ∀ m', r ≠ .error .outOfFuel m') : eval c fuel' depth form m = r := by
  have hside := Cutoff.side_of_followsAt (follows_byFuel hnote m.environment.maxDepth hle depth) form
    (m := m) fun _ _ _ => trivial
  change Cutoff.Side _ _ _ (eval c fuel depth form m) (eval c fuel' depth form m) at hside
  rw [h] at hside
  match r with
  | .ok v m' =>
    obtain ⟨m₁, _, rfl, h', rfl⟩ := hside
    exact h'
  | .error s m' =>
    rcases hside.2 with ⟨hcuts, -⟩ | ⟨m₁, rfl, h'⟩
    · exact absurd (by rw [hcuts]) (hends m')
    · exact h'

/-! ### Depth -/

omit hnote in
/-- At the limit evaluation stops before anything else is done. -/
theorem evalForm_of_limit_le {N depth : Nat} (hle : N ≤ depth) (inner : Evaluator ι σ)
    (form : Form ι) {m : Machine ι σ} (hm : m.environment.maxDepth = some N) :
    evalForm c inner depth form m = .error (.failed ⟨.depthLimit N, none⟩) m := by
  unfold evalForm
  simp only [bind, EStateM.bind]
  rw [Evaluation.checkDepth_eq, hm]
  simp only [if_pos hle]

/-- A run under a limit with enough fuel to reach it is followed by a run under a higher limit. -/
theorem follows_byDepth {N : Nat} {limit' : Option Nat} (hle : ∀ M, limit' = some M → N ≤ M)
    {fuel fuel' depth : Nat} (hpos : 0 < fuel) (henough : N < fuel + depth) (hfuel : fuel ≤ fuel') :
    ((Cutoff.byDepth N limit' hle : Cutoff ι σ).simulation c hnote).FollowsAt depth (eval c fuel)
      (eval c fuel') := by
  induction fuel generalizing fuel' depth with
  | zero => exact absurd hpos (Nat.lt_irrefl 0)
  | succ fuel ih =>
    obtain ⟨fuel', rfl⟩ := Nat.exists_eq_add_of_le' (Nat.lt_of_lt_of_le fuel.succ_pos hfuel)
    by_cases hreached : N ≤ depth
    · intro w form _
      have hgoes := follows_byFuel_self (σ := σ) hnote none (fuel' + 1) depth
      match w with
      | some past => exact hgoes (some past) form trivial
      | none =>
        intro m _
        rw [eval, evalForm_of_limit_le hreached _ _ rfl]
        exact ⟨rfl, ⟨_, rfl, .inr rfl⟩, .inl ⟨rfl, hgoes (some _) form trivial _ List.prefix_rfl⟩⟩
    · exact Simulation.evalForm (ih (by omega) (by omega) (Nat.le_of_succ_le_succ hfuel))

/-- What a form ends in does not depend on the fuel. -/
theorem EndsIn.unique {m : Machine ι σ} {form : Form ι} {r r' : Ending ι σ (Value ι)}
    (h : EndsIn c m form r) (h' : EndsIn c m form r') : r = r' := by
  obtain ⟨hends, fuel, hr⟩ := h
  obtain ⟨hends', fuel', hr'⟩ := h'
  rcases Nat.le_total fuel fuel' with hle | hle
  · exact (eval_of_le hnote hle hr hends).symm.trans hr'
  · exact hr.symm.trans (eval_of_le hnote hle hr' hends')

/-- Two runs side by side under a limit and a higher one. -/
theorem side_byDepth {N : Nat} {limit' : Option Nat} (hle : ∀ M, limit' = some M → N ≤ M)
    {fuel fuel' : Nat} (henough : N < fuel) (hfuel : fuel ≤ fuel') (form : Form ι)
    {m : Machine ι σ} (hhosts : m.environment.HostsReportNoDepth) :
    (Cutoff.byDepth N limit' hle).Side (fun _ v v' => v' = v) (fun v v' => v' = v)
      (eval c fuel 0 form (m.withLimit (some N))) (eval c fuel' 0 form (m.withLimit limit')) := by
  refine Cutoff.side_of_followsAt (follows_byDepth hnote hle (by omega) (by omega) hfuel) form ?_
  intro name f hf v world error world' herror
  cases error with
  | depthLimit limit => exact absurd herror (hhosts name f hf v world limit world')
  | _ => rfl

/-- Under a limit every evaluation ends. -/
theorem eval_ends {N : Nat} {fuel : Nat} (henough : N < fuel) (form : Form ι) {m : Machine ι σ}
    (hhosts : m.environment.HostsReportNoDepth) :
    EndsIn c (m.withLimit (some N)) form (eval c fuel 0 form (m.withLimit (some N))) := by
  have hle : ∀ M, some N = some M → N ≤ M := by
    rintro M ⟨⟩
    exact Nat.le_refl N
  have hside := side_byDepth hnote hle henough (Nat.le_refl _) form hhosts
  refine ⟨?_, fuel, rfl⟩
  intro m' hm'
  rw [hm'] at hside
  obtain ⟨⟨failure, hfailure, -⟩, -⟩ := hside
  cases hfailure

omit hnote

/-- **The depth limit is faithful.** Under a limit every evaluation ends. If it does not end by the
error of a depth limit, then evaluation under a higher limit, or under none, ends in the same way
on the same machine; if it does, the error is that of its own limit, and what was done until
then is the beginning of what is done under the higher limit. -/
theorem depthLimit_faithful (m : Machine Nat σ) (form : Node) (N : Nat) (limit : Option Nat)
    (hle : ∀ M, limit = some M → N ≤ M) (hhosts : m.environment.HostsReportNoDepth) :
    ∃ r, EndsIn Convention.byIdentity (m.withLimit (some N)) form r ∧
      (∀ M, limit = some M → ∃ r', EndsIn Convention.byIdentity (m.withLimit limit) form r') ∧
      ∀ r', EndsIn Convention.byIdentity (m.withLimit limit) form r' →
        (¬r.ReportsDepth → r' = r.withLimit limit) ∧
        (r.ReportsDepth → (∃ m', r = .error (.failed ⟨.depthLimit N, none⟩) m') ∧
          r.deeds m <+: r'.deeds m) := by
  have hnote : Convention.byIdentity.note = Failure.within := rfl
  refine ⟨_, eval_ends hnote N.lt_succ_self form hhosts, ?_, ?_⟩
  · rintro M rfl
    exact ⟨_, eval_ends hnote M.lt_succ_self form hhosts⟩
  · rintro r' ⟨hends, fuel, hr'⟩
    have hmore : eval Convention.byIdentity (max (N + 1) fuel) 0 form (m.withLimit limit) = r' :=
      eval_of_le hnote (Nat.le_max_right _ _) hr' hends
    have hside := side_byDepth hnote hle N.lt_succ_self (Nat.le_max_left _ fuel) form hhosts
    rw [hmore] at hside
    generalize eval Convention.byIdentity (N + 1) 0 form (m.withLimit (some N)) = r at hside
    match r with
    | .ok v m' =>
      obtain ⟨m₁, _, rfl, rfl, rfl⟩ := hside
      refine ⟨fun _ => rfl, ?_⟩
      rintro ⟨_, _, hr, -⟩
      cases hr
    | .error s m' =>
      obtain ⟨⟨failure, rfl, hreports⟩, hside⟩ := hside
      constructor
      · intro hno
        rcases hside with ⟨hcuts, -⟩ | ⟨m₁, rfl, rfl⟩
        · cases hcuts
          exact absurd ⟨_, _, rfl, nofun⟩ hno
        · rfl
      · rintro ⟨_, _, hr, hlimit⟩
        cases hr
        obtain rfl : failure = ⟨.depthLimit N, none⟩ := hreports.resolve_left hlimit
        refine ⟨⟨m', rfl⟩, List.IsPrefix.filter _ (List.IsPrefix.drop ?_ _)⟩
        rcases hside with ⟨-, hpast⟩ | ⟨m₁, rfl, rfl⟩
        · match r' with
          | .ok v m'' => exact hpast.1
          | .error s m'' => exact hpast
        · exact List.prefix_rfl

/-- The form `(progn (setq x 1) (setq y (+ 1 2)))`, whose innermost numbers are at depth 3. -/
def twoAssignments : Node :=
  .list 0 [.atom 1 "progn", .list 2 [.atom 3 "setq", .atom 4 "x", .atom 5 "1"],
    .list 6 [.atom 7 "setq", .atom 8 "y", .list 9 [.atom 10 "+", .atom 11 "1", .atom 12 "2"]]]

/-- Under the limit 3 the first assignment of `twoAssignments` is done and the second is not. -/
theorem depthLimit_faithful_twoAssignments :
    (∀ M, some 100 = some M → 3 ≤ M) ∧
      (Machine.initial () : Machine Nat Unit).environment.HostsReportNoDepth ∧
      ∃ r, EndsIn Convention.byIdentity
          ((Machine.initial () : Machine Nat Unit).withLimit (some 3)) twoAssignments r ∧
        (∀ M, some 100 = some M → ∃ r', EndsIn Convention.byIdentity
          ((Machine.initial () : Machine Nat Unit).withLimit (some 100)) twoAssignments r') ∧
        ∀ r', EndsIn Convention.byIdentity
            ((Machine.initial () : Machine Nat Unit).withLimit (some 100)) twoAssignments r' →
          (¬r.ReportsDepth → r' = r.withLimit (some 100)) ∧
          (r.ReportsDepth → (∃ m', r = .error (.failed ⟨.depthLimit 3, none⟩) m') ∧
            r.deeds (Machine.initial ()) <+: r'.deeds (Machine.initial ())) :=
  ⟨by rintro M ⟨⟩; decide, nofun,
    depthLimit_faithful _ twoAssignments 3 (some 100) (by rintro M ⟨⟩; decide) nofun⟩

/-- The run under the limit 3 ends by the error of the limit and has bound `x`. -/
example : ∃ m, eval Convention.byIdentity 4 0 twoAssignments
      ((Machine.initial () : Machine Nat Unit).withLimit (some 3)) =
        .error (.failed ⟨.depthLimit 3, none⟩) m ∧
    m.environment.bindings.names = ["x"] :=
  ⟨_, rfl, rfl⟩

end Evaluation

end SubstLisp
