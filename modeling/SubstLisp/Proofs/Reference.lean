import SubstLisp.Proofs.Workspace

/-!
# Evaluation without labels

Evaluation knows parameters by labels, takes fresh labels for every call and every list that a
template makes, and moves labelled nodes between code, values and definitions. None of this can be
observed: the evaluation of trees without labels, in which a call puts in all arguments at once by
the spelling of the parameters, comes to the same end, with the same bindings and the same events.
Host functions have to be honest, and must not look at labels.

## What is proved

* `Template.erase_expand` — expanding a template commutes with forgetting labels.
* `View.erasing` — forgetting labels is a view.
* `Workspace.Reachable.eval_erase` — in every workspace that an embedding program can come to,
  evaluation with labels and evaluation without them end alike, and so do two evaluations that
  differ in labels only.
-/

namespace SubstLisp

variable {σ τ α β : Type}

/-! ### Related results -/

theorem Alike.bind {ε γ δ : Type} {R : α → β → Prop} {S : σ → τ → Prop} {T : γ → δ → Prop}
    {x : EStateM ε σ α} {y : EStateM ε τ β} {k : α → EStateM ε σ γ} {k' : β → EStateM ε τ δ}
    {s : σ} {t : τ} (hxy : Alike R S (x s) (y t))
    (hk : ∀ a b s t, R a b → S s t → Alike T S (k a s) (k' b t)) :
    Alike T S ((x >>= k) s) ((y >>= k') t) := by
  show Alike T S (EStateM.bind x k s) (EStateM.bind y k' t)
  unfold EStateM.bind
  generalize x s = e at hxy ⊢
  generalize y t = e' at hxy ⊢
  cases hxy with
  | ok hR hS => exact hk _ _ _ _ hR hS
  | error hS => exact .error hS

/-- Two computations that end like a third one end alike. -/
theorem Alike.join {ε ρ γ : Type} {R : α → γ → Prop} {R' : β → γ → Prop} {S : σ → ρ → Prop}
    {S' : τ → ρ → Prop} {e : EStateM.Result ε σ α} {e' : EStateM.Result ε τ β}
    {e'' : EStateM.Result ε ρ γ} (h : Alike R S e e'') (h' : Alike R' S' e' e'') :
    Alike (fun a b => ∃ c, R a c ∧ R' b c) (fun s t => ∃ r, S s r ∧ S' t r) e e' := by
  cases h with
  | ok hR hS => cases h' with | ok hR' hS' => exact .ok ⟨_, hR, hR'⟩ ⟨_, hS, hS'⟩
  | error hS => cases h' with | error hS' => exact .error ⟨_, hS, hS'⟩

theorem Alike.imp {ε : Type} {R R' : α → β → Prop} {S S' : σ → τ → Prop}
    {e : EStateM.Result ε σ α} {e' : EStateM.Result ε τ β} (h : Alike R S e e')
    (hR : ∀ a b, R a b → R' a b) (hS : ∀ s t, S s t → S' s t) : Alike R' S' e e' := by
  cases h with
  | ok hR' hS' => exact .ok (hR _ _ hR') (hS _ _ hS')
  | error hS' => exact .error (hS _ _ hS')

/-! ### Templates -/

namespace Template

/-- The expansions of several templates, one after another, given the law for each of them. -/
theorem erase_expandAll_of {fs : List Node}
    (hexpand : ∀ f ∈ fs, ∀ s s' : Trail, s'.sizes = s.sizes →
      Alike (fun code code' => code' = code.erase) (fun s s' : Trail => s'.sizes = s.sizes)
        (expand id f s) (expand (fun _ => ()) f.erase s'))
    (s s' : Trail) (hs : s'.sizes = s.sizes) :
    Alike (fun codes codes' => codes' = codes.map Form.erase)
      (fun s s' : Trail => s'.sizes = s.sizes)
      (expandAll id fs s) (expandAll (fun _ => ()) (fs.map Form.erase) s') := by
  induction fs generalizing s s' with
  | nil => exact .ok rfl hs
  | cons f fs ih =>
    refine Alike.bind (hexpand f List.mem_cons_self s s' hs) ?_
    rintro code _ s₁ s₁' rfl hs₁
    refine Alike.bind (ih (fun g hg => hexpand g (List.mem_cons_of_mem f hg)) s₁ s₁' hs₁) ?_
    rintro codes _ s₂ s₂' rfl hs₂
    exact .ok rfl hs₂

/-- Expanding a template commutes with forgetting labels. -/
theorem erase_expand (f : Node) (s s' : Trail) (hs : s'.sizes = s.sizes) :
    Alike (fun code code' => code' = code.erase) (fun s s' : Trail => s'.sizes = s.sizes)
      (expand id f s) (expand (fun _ => ()) f.erase s') := by
  induction f using Form.induction generalizing s s' with
  | atom label text => exact .ok rfl hs
  | string label text => exact .ok rfl hs
  | list label items ih =>
    cases items with
    | nil => exact .ok (by simp) hs
    | cons head operands =>
      have hhead : head.erase.atomText? = head.atomText? := Form.atomText?_map _ head
      simp only [Form.erase_list, List.map_cons, expand, hhead]
      split
      · refine Alike.bind (erase_expandAll_of (fun g hg => ih g (List.mem_cons_of_mem _ hg)) s s' hs)
          ?_
        rintro codes _ s₁ s₁' rfl hs₁
        exact .ok (by simp) (by simp [hs₁])
      · split
        · cases operands with
          | nil => exact .error hs
          | cons quoted rest => exact .ok rfl hs
        · rw [Form.erase_tree]
          exact .error hs

end Template

/-! ### Freshly read forms -/

namespace Form

variable {ι κ : Type}

/-- Labels are all that freshly labelled forms have beside the forms, given the law for each. -/
theorem erase_freshenAll_of {label : Nat → κ} {fs : List (Form ι)}
    (hfreshen : ∀ f ∈ fs, ∀ next, (freshen label f next).1.erase = f.erase) (next : Nat) :
    (freshenAll label fs next).1.map erase = fs.map erase := by
  induction fs generalizing next with
  | nil => rfl
  | cons f fs ih =>
    show (freshen label f next).1.erase :: (freshenAll label fs (freshen label f next).2).1.map erase = _
    rw [hfreshen f List.mem_cons_self, ih fun g hg => hfreshen g (List.mem_cons_of_mem f hg)]
    rfl

/-- Labels are all that a freshly labelled form has beside the form. -/
theorem erase_freshen (label : Nat → κ) (f : Form ι) (next : Nat) :
    (freshen label f next).1.erase = f.erase := by
  induction f generalizing next with
  | atom l text => rfl
  | string l text => rfl
  | list l items ih =>
    show (list _ (freshenAll label items next).1).erase = _
    rw [erase_list, erase_list, erase_freshenAll_of ih]

theorem erase_freshenAll (label : Nat → κ) (fs : List (Form ι)) (next : Nat) :
    (freshenAll label fs next).1.map erase = fs.map erase :=
  erase_freshenAll_of (fun f _ => erase_freshen label f) next

/-- Trees have no labels to forget. -/
theorem map_erase_trees (trees : List Tree) : trees.map erase = trees := by
  rw [show (erase : Tree → Tree) = id from funext erase_tree, List.map_id]

theorem erase_freshenAll_trees (label : Nat → κ) (trees : List Tree) (next : Nat) :
    (freshenAll label trees next).1.map erase = trees :=
  (erase_freshenAll label trees next).trans (map_erase_trees trees)

end Form

/-! ### Forgetting labels -/

/-- A host function does not look at labels: it acts like one on values without labels. -/
def HostFunction.ErasesTo (forget : σ → τ) (f : HostFunction Nat σ) (g : HostFunction Unit τ) :
    Prop :=
  ∀ v world next, Alike (fun r r' => r' = r.erase) (fun w w' : World _ => w'.host = forget w.host)
    (f v world) (g v.erase ⟨next, forget world.host⟩)

/-- A run seen without labels; `forget` is how the state of the host is seen. -/
def View.erasing (forget : σ → τ) : View .byName σ τ where
  relabel _ := ()
  Worlds w w' := w'.host = forget w.host
  Hosts := HostFunction.ErasesTo forget
  note_eq := rfl
  tie_map parameters body := (Form.erase_tie parameters body).symm
  apply hw hd hoperands := ⟨(hd.erase_apply hoperands _).symm, hw⟩
  expand := by
    intro w w' f hw
    have h := Template.erase_expand f ⟨w.next, #[]⟩ ⟨w'.next, #[]⟩ rfl
    show Alike _ _ _ (Template.expand (fun _ => ()) f.erase _)
    generalize Template.expand id f ⟨w.next, #[]⟩ = e at h ⊢
    generalize Template.expand (fun _ => ()) f.erase ⟨w'.next, #[]⟩ = e' at h ⊢
    cases h with
    | ok hcode hsizes => exact .ok hcode ⟨hsizes, hw⟩
    | error hsizes => exact .error ⟨hsizes, hw⟩
  freshen := by
    intro w w' trees hw
    refine ⟨?_, hw⟩
    have hnamed := Form.erase_freshenAll_trees (fun _ => ()) trees w'.next
    rw [Form.map_erase_trees] at hnamed
    exact hnamed.trans (Form.erase_freshenAll_trees id trees w.next).symm
  act := by
    rintro w ⟨next, _⟩ f f' v rfl hf
    exact hf v w next

/-- A machine without labels is what is left of another when its labels are forgotten. What has
happened before and how many labels have been given out does not matter. -/
structure Machine.ErasesTo (forget : σ → τ) (m : Machine Nat σ) (n : Machine Unit τ) : Prop where
  bindings : n.environment.bindings = m.environment.bindings.map Binding.erase
  maxDepth : n.environment.maxDepth = m.environment.maxDepth
  hosts : ∀ name, Option.Rel (HostFunction.ErasesTo forget) (m.environment.hosts.find? name)
    (n.environment.hosts.find? name)
  host : n.world.host = forget m.world.host

/-- Two machines differ in labels only: nothing else is left of one than of the other. -/
def Machine.Alike (forget : σ → τ) (m m' : Machine Nat σ) : Prop :=
  ∃ n, m.ErasesTo forget n ∧ m'.ErasesTo forget n

/-- From `m` to `m'` the same has happened as from `n` to `n'`, but for labels. -/
def Machine.SameNews {ι κ : Type} (m m' : Machine ι σ) (n n' : Machine κ τ) : Prop :=
  ∃ news news', m'.events.toList = m.events.toList ++ news ∧
    n'.events.toList = n.events.toList ++ news' ∧ news.map Event.erase = news'.map Event.erase

/-- Machines that differ in labels only bind the same names to things that differ in labels
only. -/
theorem Machine.Alike.bindings {forget : σ → τ} {m m' : Machine Nat σ} (h : m.Alike forget m') :
    m.environment.bindings.map Binding.erase = m'.environment.bindings.map Binding.erase := by
  obtain ⟨n, hn, hn'⟩ := h
  rw [← hn.bindings, hn'.bindings]

/-- What has happened as on a third machine has happened on both. -/
theorem Machine.SameNews.join {ρ : Type} {m m' : Machine Nat σ} {n n' : Machine Nat τ}
    {r r' : Machine Unit ρ} (h : m.SameNews m' r r') (h' : n.SameNews n' r r') :
    m.SameNews m' n n' := by
  obtain ⟨news, seen, hm, hr, heq⟩ := h
  obtain ⟨news', seen', hn, hr', heq'⟩ := h'
  obtain rfl : seen = seen' := List.append_cancel_left (hr.symm.trans hr')
  exact ⟨news, news', hm, hn, heq.trans heq'.symm⟩

/-! ### Two evaluations -/

namespace Workspace

variable {held : σ → List Node} {forget : σ → τ} {s : Workspace σ}

/-- Evaluation without labels ends like evaluation with labels. -/
theorem Reachable.erase_evalTop (hs : s.Reachable held) {f : Node} (hf : f ∈ s.forms)
    {n : Machine Unit τ} (hn : s.machine.ErasesTo forget n) (fuel : Nat) :
    Alike (fun v v' => v' = v.erase)
      (fun m n' => m.ErasesTo forget n' ∧ s.machine.SameNews m n n')
      (Program.evalTop .byIdentity fuel f s.machine) (Program.evalTop .byName fuel f.erase n) := by
  obtain ⟨ℓ, hrespects⟩ := hs.respects
  have hsees : (View.erasing forget).Sees s.machine.events.toList n.events.toList s.machine n :=
    ⟨hn.bindings, hn.maxDepth, hn.hosts, hn.host, [], by simp, by simp⟩
  have hends := View.follows_eval fuel 0 (hrespects.forms f hf) s.machine n hrespects.machine hsees
  have hmachines : ∀ {m n'}, (View.erasing forget).Sees s.machine.events.toList n.events.toList m n' →
      m.ErasesTo forget n' ∧ s.machine.SameNews m n n' := by
    rintro m n' ⟨hbindings, hmaxDepth, hhosts, hworld, news, hm, hn'⟩
    exact ⟨⟨hbindings, hmaxDepth, hhosts, hworld⟩, news, news.map Event.erase, hm, hn', by simp⟩
  show Alike _ _ _ (Evaluation.eval .byName fuel 0 (f.map fun _ => ()) n)
  generalize Evaluation.eval .byName fuel 0 (f.map _) n = e' at hends ⊢
  unfold Program.evalTop
  generalize Evaluation.eval .byIdentity fuel 0 f s.machine = e at hends ⊢
  cases hends with
  | ok _ _ hsees' hv => exact .ok hv.1 (hmachines hsees')
  | error _ _ hsees' => exact .error (hmachines hsees')

/-- **Labels cannot be observed**: in every workspace that an embedding program can come to,
evaluation without labels ends like evaluation with labels, with the same value or failure, the same
bindings and the same events; and evaluations in two workspaces that differ in labels only end
alike, whatever has happened before. -/
theorem Reachable.eval_erase (hs : s.Reachable held) {f : Node} (hf : f ∈ s.forms) (fuel : Nat) :
    (∀ n : Machine Unit τ, s.machine.ErasesTo forget n →
      Alike (fun v v' => v' = v.erase)
        (fun m n' => m.ErasesTo forget n' ∧ s.machine.SameNews m n n')
        (Program.evalTop .byIdentity fuel f s.machine)
        (Program.evalTop .byName fuel f.erase n)) ∧
    ∀ s' : Workspace σ, s'.Reachable held → ∀ f' ∈ s'.forms, f.erase = f'.erase →
      s.machine.Alike forget s'.machine →
      Alike (fun v v' => v.erase = v'.erase)
        (fun m m' => m.Alike forget m' ∧ s.machine.SameNews m s'.machine m')
        (Program.evalTop .byIdentity fuel f s.machine)
        (Program.evalTop .byIdentity fuel f' s'.machine) := by
  refine ⟨fun n hn => hs.erase_evalTop hf hn fuel, ?_⟩
  intro s' hs' f' hf' heq hmachines
  obtain ⟨n, hn, hn'⟩ := hmachines
  have hend := hs.erase_evalTop hf hn fuel
  have hend' := hs'.erase_evalTop hf' hn' fuel
  rw [← heq] at hend'
  refine (hend.join hend').imp ?_ ?_
  · rintro v v' ⟨_, rfl, h⟩
    exact h
  · rintro m m' ⟨n', ⟨hm, hnews⟩, hm', hnews'⟩
    exact ⟨⟨n', hm, hm'⟩, hnews.join hnews'⟩

/-- A workspace in which a function is defined that uses its parameter twice, and a call of it. -/
def doubling : Workspace Unit :=
  let x : Node := .atom 0 "x"
  let plus : Node := .atom 1 "+"
  let body : Node := .list 2 [plus, x, x]
  let d : Definition Nat := ⟨"twice", [x], body⟩
  { machine := ⟨Environment.empty.define "twice" (.functionDef d), ⟨6, ()⟩,
      #[.defined "twice" (.functionDef d) none]⟩
    shelf := []
    forms := [.list 5 [.atom 3 "twice", .atom 4 "21"], .atom 4 "21", .atom 3 "twice", body, plus, x]
    definitions := [d] }

theorem reachable_doubling : doubling.Reachable fun _ => [] := by
  refine ⟨(), rfl, ?_⟩
  refine .head (.handle (.atom "x")) ?_
  refine .head (.handle (.atom "+")) ?_
  refine .head (.handle (@Workbench.Step.list _ _ [.atom 1 "+", .atom 0 "x", .atom 0 "x"] ?_)) ?_
  · simp [initial, Machine.initial]
  refine .head (@Step.make _ _ _ "twice" [.atom 0 "x"] _ _ ?_ List.mem_cons_self rfl) ?_
  · simp [initial, Machine.initial]
  refine .head (@Step.define _ _ _ "twice" (.functionDef _) List.mem_cons_self) ?_
  refine .head (.handle (.atom "twice")) ?_
  refine .head (.handle (.atom "21")) ?_
  refine .head (.handle (@Workbench.Step.list _ _ [.atom 3 "twice", .atom 4 "21"] ?_)) ?_
  · exact List.cons_subset.2 ⟨.tail _ (.head _), List.cons_subset.2 ⟨.head _, List.nil_subset _⟩⟩
  exact .refl

/-- The machine on which the function is defined, without labels. -/
def doublingTrees : Machine Unit Unit where
  environment := Environment.empty.define "twice" (.functionDef ⟨"twice", [.atom () "x"],
    .list () [.atom () "+", .atom () "x", .atom () "x"]⟩)
  world := ⟨0, ()⟩
  events := #[]

theorem erasesTo_doublingTrees : doubling.machine.ErasesTo id doublingTrees where
  bindings := rfl
  maxDepth := rfl
  hosts _ := .none
  host := rfl

/-- A parameter that occurs twice, with labels and without: twice 21 is 42. -/
theorem Reachable.eval_erase_doubling : doubling.Reachable (fun _ => []) ∧
    doubling.machine.ErasesTo id doublingTrees ∧
    Alike (fun v v' => v' = v.erase)
      (fun m n' => m.ErasesTo id n' ∧ doubling.machine.SameNews m doublingTrees n')
      (Program.evalTop .byIdentity 3 (.list 5 [.atom 3 "twice", .atom 4 "21"]) doubling.machine)
      (Program.evalTop .byName 3 (.list () [.atom () "twice", .atom () "21"]) doublingTrees) ∧
    (∃ v m, Program.evalTop .byIdentity 3 (.list 5 [.atom 3 "twice", .atom 4 "21"])
      doubling.machine = .ok v m ∧ v.erase = .number 42) ∧
    ∃ n, Program.evalTop .byName 3 (.list () [.atom () "twice", .atom () "21"]) doublingTrees =
      .ok (.number 42) n := by
  have halike := (reachable_doubling.eval_erase List.mem_cons_self 3).1 doublingTrees
    erasesTo_doublingTrees
  have hvalue : (Ending.success? (Program.evalTop .byIdentity 3
      (.list 5 [.atom 3 "twice", .atom 4 "21"]) doubling.machine)).map (fun p => p.1.erase) =
        some (.number 42) := by
    decide +kernel
  have hvalue' : (Ending.success? (Program.evalTop .byName 3
      (.list () [.atom () "twice", .atom () "21"]) doublingTrees)).map Prod.fst =
        some (.number 42) := by
    decide +kernel
  obtain ⟨v, m, hm, hv⟩ := Ending.of_success?_map hvalue
  obtain ⟨_, n, hn, rfl⟩ := Ending.of_success?_map hvalue'
  exact ⟨reachable_doubling, erasesTo_doublingTrees, halike, ⟨v, m, hm, hv⟩, n, hn⟩

end Workspace

end SubstLisp
