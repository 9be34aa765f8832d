import SubstLisp.Proofs.Policies

/-!
# Twin machines

Two machines are twins when they differ in labels only and the forms on each of them respect a
labelling. Twins stay twins when both evaluate a form, and when one of them reads a text: what is
read gets fresh labels, and which labels these are cannot be observed. So a program may be read at
another time on one machine than on the other.

The history of twins is the same but for labels as far as evaluation makes it. When a text is read
and which number a form has that fails are remarks of those who run a program.

## What is proved

* `Machine.Twins.evalTop`, `Machine.Twins.evalForms` — twins evaluate a form, or one form after
  another, with the same results.
* `Machine.Twins.read_left`, `Machine.Twins.read_right` — a machine that reads a text stays a twin.
-/

namespace SubstLisp

variable {ι κ σ τ α β γ δ : Type}

/-! ### The same steps -/

/-- An event is a step of evaluation, and no remark of those who run a program. -/
def Event.isStep : Event ι → Bool
  | read _ => false
  | formFailed _ _ => false
  | _ => true

/-- The steps in a history, without labels. -/
def Event.steps (events : List (Event ι)) : List (Event Unit) :=
  (events.map Event.erase).filter Event.isStep

theorem Event.steps_append (events events' : List (Event ι)) :
    steps (events ++ events') = steps events ++ steps events' := by
  rw [steps, List.map_append, List.filter_append]
  rfl

/-- From `m` to `m'` evaluation has made the same steps as from `n` to `n'`, but for labels. -/
def Machine.SameSteps (m m' : Machine ι σ) (n n' : Machine κ τ) : Prop :=
  ∃ news news', m'.events.toList = m.events.toList ++ news ∧
    n'.events.toList = n.events.toList ++ news' ∧ Event.steps news = Event.steps news'

namespace Machine

variable {m m' m'' : Machine ι σ} {n n' n'' : Machine κ τ}

theorem SameSteps.refl (m : Machine ι σ) (n : Machine κ τ) : m.SameSteps m n n :=
  ⟨[], [], by simp, by simp, rfl⟩

theorem SameSteps.symm (h : m.SameSteps m' n n') : n.SameSteps n' m m' := by
  obtain ⟨news, news', hm, hn, heq⟩ := h
  exact ⟨news', news, hn, hm, heq.symm⟩

theorem SameSteps.trans (h : m.SameSteps m' n n') (h' : m'.SameSteps m'' n' n'') :
    m.SameSteps m'' n n'' := by
  obtain ⟨news, seen, hm, hn, heq⟩ := h
  obtain ⟨news', seen', hm', hn', heq'⟩ := h'
  refine ⟨news ++ news', seen ++ seen', ?_, ?_, ?_⟩
  · rw [hm', hm, List.append_assoc]
  · rw [hn', hn, List.append_assoc]
  · rw [Event.steps_append, Event.steps_append, heq, heq']

theorem SameNews.sameSteps {m m' n n' : Machine ι σ} (h : m.SameNews m' n n') :
    m.SameSteps m' n n' := by
  obtain ⟨news, news', hm, hn, heq⟩ := h
  exact ⟨news, news', hm, hn, by rw [Event.steps, heq]; rfl⟩

/-- A remark is no step. -/
theorem SameSteps.remark_left (h : m.SameSteps m' n n') {event : Event ι}
    (hevent : event.isStep = false) :
    m.SameSteps { m' with events := m'.events.push event } n n' := by
  obtain ⟨news, news', hm, hn, heq⟩ := h
  refine ⟨news ++ [event], news', by simp [hm], hn, ?_⟩
  have hnone : Event.steps [event] = [] := by
    cases event <;> first | rfl | cases hevent
  rw [Event.steps_append, hnone, List.append_nil, heq]

end Machine

/-! ### Twins -/

/-- Two machines differ in labels only, and everything on each of them respects a labelling; since
the times when they were `start` and `start'` evaluation has made the same steps on both. -/
structure Machine.Twins (held : σ → List Node) (forget : σ → τ) (start start' : Machine Nat σ)
    (ℓ ℓ' : Labelling) (m m' : Machine Nat σ) : Prop where
  left : m.Respects held ℓ
  right : m'.Respects held ℓ'
  alike : m.Alike forget m'
  steps : start.SameSteps m start' m'

namespace Machine.Twins

/-- Two runs on twins have ended in the same way, and again on twins. -/
inductive Ends (held : σ → List Node) (forget : σ → τ) (start start' : Machine Nat σ)
    (ℓ ℓ' : Labelling) (R : α → β → Prop) : Ending Nat σ α → Ending Nat σ β → Prop where
  /-- With related outcomes. -/
  | ok {ℓ₁ ℓ₁' : Labelling} {a : α} {b : β} {m m' : Machine Nat σ} : ℓ <+: ℓ₁ → ℓ' <+: ℓ₁' →
      Twins held forget start start' ℓ₁ ℓ₁' m m' → R a b →
      Ends held forget start start' ℓ ℓ' R (.ok a m) (.ok b m')
  /-- For one reason. -/
  | error {ℓ₁ ℓ₁' : Labelling} {stop : Stop} {m m' : Machine Nat σ} : ℓ <+: ℓ₁ → ℓ' <+: ℓ₁' →
      Twins held forget start start' ℓ₁ ℓ₁' m m' →
      Ends held forget start start' ℓ ℓ' R (.error stop m) (.error stop m')

variable {held : σ → List Node} {forget : σ → τ} {start start' m m' : Machine Nat σ}
  {ℓ ℓ' : Labelling}

theorem symm (h : Twins held forget start start' ℓ ℓ' m m') :
    Twins held forget start' start ℓ' ℓ m' m := by
  obtain ⟨n, hn, hn'⟩ := h.alike
  exact ⟨h.right, h.left, ⟨n, hn', hn⟩, h.steps.symm⟩

theorem Ends.later {ℓ₁ ℓ₁' : Labelling} {R : α → β → Prop} {e : Ending Nat σ α}
    {e' : Ending Nat σ β} (hℓ : ℓ <+: ℓ₁) (hℓ' : ℓ' <+: ℓ₁')
    (h : Ends held forget start start' ℓ₁ ℓ₁' R e e') :
    Ends held forget start start' ℓ ℓ' R e e' := by
  cases h with
  | ok hprefix hprefix' htwins hR => exact .ok (hℓ.trans hprefix) (hℓ'.trans hprefix') htwins hR
  | error hprefix hprefix' htwins => exact .error (hℓ.trans hprefix) (hℓ'.trans hprefix') htwins

theorem Ends.bind {R : α → β → Prop} {S : γ → δ → Prop} {x : Run Nat σ α} {y : Run Nat σ β}
    {k : α → Run Nat σ γ} {k' : β → Run Nat σ δ}
    (hxy : Ends held forget start start' ℓ ℓ' R (x m) (y m'))
    (hk : ∀ ℓ₁ ℓ₁' a b m₁ m₁', ℓ <+: ℓ₁ → ℓ' <+: ℓ₁' →
      Twins held forget start start' ℓ₁ ℓ₁' m₁ m₁' → R a b →
      Ends held forget start start' ℓ₁ ℓ₁' S (k a m₁) (k' b m₁')) :
    Ends held forget start start' ℓ ℓ' S ((x >>= k) m) ((y >>= k') m') := by
  simp only [Bind.bind, EStateM.bind]
  generalize x m = e at hxy
  generalize y m' = e' at hxy
  cases hxy with
  | ok hℓ hℓ' htwins hR => exact (hk _ _ _ _ _ _ hℓ hℓ' htwins hR).later hℓ hℓ'
  | error hℓ hℓ' htwins => exact .error hℓ hℓ' htwins

/-- Runs on twins that end in the same way end alike. -/
theorem Ends.alike {R : α → β → Prop} {e : Ending Nat σ α} {e' : Ending Nat σ β}
    (h : Ends held forget start start' ℓ ℓ' R e e') :
    SubstLisp.Alike R (fun m m' => m.Alike forget m' ∧ start.SameSteps m start' m') e e' := by
  cases h with
  | ok _ _ htwins hR => exact .ok hR ⟨htwins.alike, htwins.steps⟩
  | error _ _ htwins => exact .error ⟨htwins.alike, htwins.steps⟩

/-! ### Evaluating -/

/-- Twins evaluate a form in the same way. -/
theorem evalTop (h : Twins held forget start start' ℓ ℓ' m m') {f f' : Node} (hf : f.Respects ℓ)
    (hf' : f'.Respects ℓ') (heq : f.erase = f'.erase) (fuel : Nat) :
    Ends held forget start start' ℓ ℓ' (fun v v' => v.erase = v'.erase)
      (Program.evalTop .byIdentity fuel f m) (Program.evalTop .byIdentity fuel f' m') := by
  obtain ⟨n, hn, hn'⟩ := h.alike
  have hsees : ∀ {m : Machine Nat σ}, m.ErasesTo forget n →
      (View.erasing forget).Sees m.events.toList n.events.toList m n := fun hn =>
    ⟨hn.bindings, hn.maxDepth, hn.hosts, hn.host, [], by simp, by simp⟩
  have hends := View.follows_eval fuel 0 hf m n h.left (hsees hn)
  have hends' := View.follows_eval fuel 0 hf' m' n h.right (hsees hn')
  have htwins : ∀ {ℓ₁ ℓ₁' m₁ m₁' n₁}, m₁.Respects held ℓ₁ → m₁'.Respects held ℓ₁' →
      (View.erasing forget).Sees m.events.toList n.events.toList m₁ n₁ →
      (View.erasing forget).Sees m'.events.toList n.events.toList m₁' n₁ →
      Twins held forget start start' ℓ₁ ℓ₁' m₁ m₁' := by
    rintro ℓ₁ ℓ₁' m₁ m₁' n₁ hleft hright ⟨hbindings, hmaxDepth, hhosts, hworld, news, hm, hn₁⟩
      ⟨hbindings', hmaxDepth', hhosts', hworld', news', hm', hn₁'⟩
    have hnews : news.map Event.erase = news'.map Event.erase :=
      List.append_cancel_left (hn₁.symm.trans hn₁')
    exact ⟨hleft, hright, ⟨n₁, ⟨hbindings, hmaxDepth, hhosts, hworld⟩, hbindings', hmaxDepth',
      hhosts', hworld'⟩, h.steps.trans (SameNews.sameSteps ⟨news, news', hm, hm', hnews⟩)⟩
  rw [show f'.map (View.erasing forget).relabel = f.map (View.erasing forget).relabel from heq.symm]
    at hends'
  show Ends _ _ _ _ _ _ _ (Evaluation.eval .byIdentity fuel 0 f m)
    (Evaluation.eval .byIdentity fuel 0 f' m')
  generalize Evaluation.eval .byIdentity fuel 0 f m = e at hends ⊢
  generalize Evaluation.eval .byIdentity fuel 0 f' m' = e' at hends' ⊢
  generalize Evaluation.eval _ fuel 0 _ n = e'' at hends hends'
  cases hends with
  | ok hℓ hleft hsees hv =>
    cases hends' with
    | ok hℓ' hright hsees' hv' =>
      exact .ok hℓ hℓ' (htwins hleft hright hsees hsees') (hv.1.symm.trans hv'.1)
  | error hℓ hleft hsees =>
    cases hends' with
    | error hℓ' hright hsees' => exact .error hℓ hℓ' (htwins hleft hright hsees hsees')

/-- A remark on one of two twins. -/
theorem remark_left (h : Twins held forget start start' ℓ ℓ' m m') {event : Event Nat}
    (hevent : event.isStep = false) (hnone : event.definition? = none) :
    Twins held forget start start' ℓ ℓ' { m with events := m.events.push event } m' := by
  obtain ⟨n, hn, hn'⟩ := h.alike
  exact ⟨h.left.emit (by simp [hnone]), h.right,
    ⟨n, ⟨hn.bindings, hn.maxDepth, hn.hosts, hn.host⟩, hn'⟩, h.steps.remark_left hevent⟩

theorem afterFailure (h : Twins held forget start start' ℓ ℓ' m m') (index index' : Nat)
    (failure : Failure) : Twins held forget start start' ℓ ℓ' (m.afterFailure index failure)
      (m'.afterFailure index' failure) :=
  ((h.remark_left rfl rfl).symm.remark_left rfl rfl).symm

/-- Twins come to the same result for a form; its number does not matter. -/
theorem resultOf (h : Twins held forget start start' ℓ ℓ' m m') {f f' : Node} (hf : f.Respects ℓ)
    (hf' : f'.Respects ℓ') (heq : f.erase = f'.erase) (fuel index index' : Nat) :
    Ends held forget start start' ℓ ℓ' (fun e e' => e.map Value.erase = e'.map Value.erase)
      (Program.resultOf (Program.evalTop .byIdentity fuel) index f m)
      (Program.resultOf (Program.evalTop .byIdentity fuel) index' f' m') := by
  have hends := h.evalTop hf hf' heq fuel
  simp only [Program.resultOf, Run.attempt, bind, EStateM.bind]
  generalize Program.evalTop .byIdentity fuel f m = e at hends ⊢
  generalize Program.evalTop .byIdentity fuel f' m' = e' at hends ⊢
  cases hends with
  | ok hℓ hℓ' htwins hv => exact .ok hℓ hℓ' htwins (congrArg Except.ok hv)
  | @error _ _ stop _ _ hℓ hℓ' htwins =>
    cases stop with
    | outOfFuel => exact .error hℓ hℓ' htwins
    | failed failure => exact .ok hℓ hℓ' (htwins.afterFailure index index' failure) rfl

/-- Twins evaluate one form after another in the same way; the numbers of the forms do not
matter. -/
theorem evalForms (h : Twins held forget start start' ℓ ℓ' m m') {fs fs' : List Node}
    (hfs : ∀ f ∈ fs, f.Respects ℓ) (hfs' : ∀ f ∈ fs', f.Respects ℓ')
    (heq : fs.map Form.erase = fs'.map Form.erase) (fuel : Nat) (policy : Policy)
    (index index' : Nat) : Ends held forget start start' ℓ ℓ'
      (fun es es' => es.map (Except.map Value.erase) = es'.map (Except.map Value.erase))
      (Program.evalForms (Program.evalTop .byIdentity fuel) policy index fs m)
      (Program.evalForms (Program.evalTop .byIdentity fuel) policy index' fs' m') := by
  induction fs generalizing fs' ℓ ℓ' m m' index index' with
  | nil =>
    obtain rfl : fs' = [] := List.map_eq_nil_iff.1 heq.symm
    exact .ok List.prefix_rfl List.prefix_rfl h rfl
  | cons f fs ih =>
    obtain ⟨f', fs', rfl, hf', hrest⟩ := List.map_eq_cons_iff.1 heq.symm
    obtain ⟨hf, hfs⟩ := List.forall_mem_cons.1 hfs
    obtain ⟨hf₁, hfs'⟩ := List.forall_mem_cons.1 hfs'
    rw [Program.evalForms_cons, Program.evalForms_cons]
    refine Ends.bind (h.resultOf hf hf₁ hf'.symm fuel index index') ?_
    intro ℓ₁ ℓ₁' e e' m₁ m₁' hℓ hℓ' htwins he
    have hvalue := Outcome.valueOf?_eq_none_congr he
    by_cases hstop : policy = .halt ∧ Outcome.valueOf? e = none
    · rw [if_pos hstop, if_pos ⟨hstop.1, hvalue.1 hstop.2⟩]
      exact .ok List.prefix_rfl List.prefix_rfl htwins (congrArg (· :: []) he)
    · rw [if_neg hstop, if_neg fun hstop' => hstop ⟨hstop'.1, hvalue.2 hstop'.2⟩]
      refine Ends.bind (ih htwins (fun g hg => (hfs g hg).mono hℓ)
        (fun g hg => (hfs' g hg).mono hℓ') hrest.symm (index + 1) (index' + 1)) ?_
      intro _ _ es es' _ _ _ _ htwins hes
      refine .ok List.prefix_rfl List.prefix_rfl htwins ?_
      rw [List.map_cons, List.map_cons, he, hes]

/-! ### Reading -/

/-- The left one of two twins reads a text. -/
theorem read_left (h : Twins held forget start start' ℓ ℓ' m m') {source : String}
    {trees : List Tree} (hread : Reader.read Reader.defaultLimit source = .ok trees) :
    ∃ forms m₁ ℓ₁, Program.read .byIdentity source m = .ok forms m₁ ∧
      forms.map Form.erase = trees ∧ ℓ <+: ℓ₁ ∧ (∀ f ∈ forms, f.Respects ℓ₁) ∧
      Twins held forget start start' ℓ₁ ℓ' m₁ m' := by
  have hresult := Form.respects_freshenAll trees ℓ
  rw [← h.left.supply] at hresult
  obtain ⟨ℓ₁, hℓ, hlength, hforms⟩ := hresult
  refine ⟨_, _, ℓ₁, Program.read_eq_of_read .byIdentity hread m,
    Form.erase_freshenAll_trees id trees m.world.next, hℓ, hforms, ?_⟩
  obtain ⟨n, hn, hn'⟩ := h.alike
  have hminted : Twins held forget start start' ℓ₁ ℓ' { m with
      world := { m.world with next := (Form.freshenAll id trees m.world.next).2 } } m' :=
    ⟨Machine.Respects.setNext hℓ h.left hlength, h.right,
      ⟨n, ⟨hn.bindings, hn.maxDepth, hn.hosts, hn.host⟩, hn'⟩, h.steps⟩
  exact hminted.remark_left rfl rfl

/-- The right one of two twins reads a text. -/
theorem read_right (h : Twins held forget start start' ℓ ℓ' m m') {source : String}
    {trees : List Tree} (hread : Reader.read Reader.defaultLimit source = .ok trees) :
    ∃ forms m₁' ℓ₁', Program.read .byIdentity source m' = .ok forms m₁' ∧
      forms.map Form.erase = trees ∧ ℓ' <+: ℓ₁' ∧ (∀ f ∈ forms, f.Respects ℓ₁') ∧
      Twins held forget start start' ℓ ℓ₁' m m₁' := by
  obtain ⟨forms, m₁', ℓ₁', hm, htrees, hℓ', hforms, htwins⟩ := h.symm.read_left hread
  exact ⟨forms, m₁', ℓ₁', hm, htrees, hℓ', hforms, htwins.symm⟩

end Machine.Twins

end SubstLisp
