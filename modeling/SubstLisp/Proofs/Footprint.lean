import SubstLisp.Proofs.Simulation
import SubstLisp.Proofs.Symbols

/-!
# The footprint of evaluation

What evaluation may change, and what it may make it out of. Names stay bound, and the host functions
and the depth limit stay as they are. The names that are bound anew, and the symbols in what there is
afterwards, come from three sources: the form, what names were bound to before, and what host
functions have given back on the way. No symbol is made of anything else: a string may name an
operator that is applied, but nothing can be bound by it.

## What is proved

* `Footprint.simulation` — what has been changed so far keeps to the sources so far, whatever
  evaluation does next.
* `Evaluation.footprint` — how evaluation of a form leaves the machine, whether or not it succeeds.
-/

namespace SubstLisp

variable {ι σ α β : Type}

/-! ### Sources of symbols -/

/-- The symbols in what a value quotes. -/
def Value.symbols (v : Value ι) : List String := v.quotations.flatMap Form.symbols

/-- The symbols in what a name is bound to. -/
def Binding.symbols : Binding ι → List String
  | functionDef d => d.symbols
  | macroDef d => d.symbols
  | value v => v.symbols

/-- Some name is bound to something in which the symbol occurs. -/
def Environment.Mentions (env : Environment ι σ) (text : String) : Prop :=
  ∃ name b, env.find? name = some b ∧ text ∈ b.symbols

/-- The symbols that come with an event from outside: those in what a host function gives back. -/
def Event.symbols : Event ι → List String
  | hostReturned _ result => result.symbols
  | _ => []

/-- The symbol occurs in the form, in what a name is bound to at the start, or in what a host
function has given back by one of the events since then. -/
def Known (start : Machine ι σ) (form : Form ι) (events : List (Event ι)) (text : String) : Prop :=
  text ∈ form.symbols ∨ start.environment.Mentions text ∨
    ∃ event ∈ events.drop start.events.size, text ∈ event.symbols

/-- How a machine is left by what keeps to the sources of symbols. -/
structure Footprint (start : Machine ι σ) (form : Form ι) (m : Machine ι σ) : Prop where
  /-- No event is taken back. -/
  events : start.events.toList <+: m.events.toList
  /-- The host functions are the same. -/
  hosts : m.environment.hosts = start.environment.hosts
  /-- The depth limit is the same. -/
  maxDepth : m.environment.maxDepth = start.environment.maxDepth
  /-- Names stay bound. -/
  bound : ∀ name, (start.environment.find? name).isSome → (m.environment.find? name).isSome
  /-- A name that is bound anew is known. -/
  changed : ∀ name, m.environment.find? name ≠ start.environment.find? name →
    Known start form m.events.toList name
  /-- The symbols in what names are bound to are known. -/
  mentions : ∀ text, m.environment.Mentions text → Known start form m.events.toList text

namespace Footprint

variable {start : Machine Nat σ} {form : Node} {m m' : Machine Nat σ} {w w' : List (Event Nat)}

theorem known_later {text : String} (h : w <+: w') (ht : Known start form w text) :
    Known start form w' text := by
  rcases ht with ht | ht | ⟨event, hevent, ht⟩
  · exact .inl ht
  · exact .inr (.inl ht)
  · obtain ⟨news, rfl⟩ := h
    refine .inr (.inr ⟨event, ?_, ht⟩)
    rw [List.drop_append]
    exact List.mem_append_left _ hevent

/-- At the start nothing has changed. -/
theorem refl (start : Machine Nat σ) (form : Node) : Footprint start form start where
  events := List.prefix_rfl
  hosts := rfl
  maxDepth := rfl
  bound _ h := h
  changed _ h := absurd rfl h
  mentions _ h := .inr (.inl h)

/-- The environment is left alone, and events may be added. -/
theorem of_environment_eq (h : Footprint start form m) (henvironment : m'.environment = m.environment)
    (hevents : m.events.toList <+: m'.events.toList) : Footprint start form m' where
  events := h.events.trans hevents
  hosts := by rw [henvironment, h.hosts]
  maxDepth := by rw [henvironment, h.maxDepth]
  bound := by
    rw [henvironment]
    exact h.bound
  changed name hname := by
    rw [henvironment] at hname
    exact known_later hevents (h.changed name hname)
  mentions text htext := by
    rw [henvironment] at htext
    exact known_later hevents (h.mentions text htext)

/-- A known name is bound to something in which all symbols are known. -/
theorem define (h : Footprint start form m) {name : String} {b : Binding Nat}
    (hname : Known start form m.events.toList name)
    (hb : ∀ text ∈ b.symbols, Known start form m.events.toList text) (event : Event Nat) :
    Footprint start form { m with
      environment := m.environment.define name b
      events := m.events.push event } := by
  have hevents : m.events.toList <+: (m.events.push event).toList := by simp
  refine ⟨h.events.trans hevents, h.hosts, h.maxDepth, ?_, ?_, ?_⟩
  · intro other hother
    rw [Environment.find?_define]
    split
    · rfl
    · exact h.bound other hother
  · intro other hother
    rw [Environment.find?_define] at hother
    split at hother
    · next heq =>
      subst heq
      exact known_later hevents hname
    · exact known_later hevents (h.changed other hother)
  · rintro text ⟨other, b', hother, htext⟩
    rw [Environment.find?_define] at hother
    split at hother
    · cases hother
      exact known_later hevents (hb text htext)
    · exact known_later hevents (h.mentions text ⟨other, b', hother, htext⟩)

/-! ### Evaluation keeps to the sources -/

variable (start form)

/-- From a machine that keeps to the sources so far, the run goes on to one that does. -/
def Follows (w : List (Event Nat)) (R : List (Event Nat) → α → β → Prop) (x : Run Nat σ α) : Prop :=
  ∀ m, m.events.toList = w → Footprint start form m →
    Footprint start form (Ending.machine (x m)) ∧ w <+: (Ending.machine (x m)).events.toList ∧
      ∀ a m', x m = .ok a m' → ∃ b, R m'.events.toList a b

variable {start form}

/-- A computation that leaves the environment alone and adds to the events. -/
theorem follows_of_environment_eq {R : List (Event Nat) → α → β → Prop} {x : Run Nat σ α}
    (henvironment : ∀ m, (Ending.machine (x m)).environment = m.environment)
    (hevents : ∀ m, m.events.toList <+: (Ending.machine (x m)).events.toList)
    (hR : ∀ m a m', m.events.toList = w → Footprint start form m → x m = .ok a m' →
      ∃ b, R m'.events.toList a b) : Follows start form w R x := by
  rintro m rfl hm
  exact ⟨hm.of_environment_eq (henvironment m) (hevents m), hevents m, fun a m' => hR m a m' rfl hm⟩

theorem follows_bind {γ δ : Type} {R : List (Event Nat) → α → β → Prop}
    {S : List (Event Nat) → γ → δ → Prop} {x : Run Nat σ α} {k : α → Run Nat σ γ}
    (hx : Follows start form w R x)
    (hk : ∀ w', w <+: w' → ∀ a b, R w' a b → Follows start form w' S (k a)) :
    Follows start form w S (x >>= k) := by
  intro m hw hm
  obtain ⟨hfoot, hprefix, hR⟩ := hx m hw hm
  simp only [bind, EStateM.bind]
  cases h : x m with
  | error s m' =>
    rw [h] at hfoot hprefix
    exact ⟨hfoot, hprefix, by rintro _ _ ⟨⟩⟩
  | ok a m' =>
    rw [h] at hfoot hprefix
    obtain ⟨b, hb⟩ := hR a m' h
    obtain ⟨hfoot', hprefix', hS⟩ := hk _ hprefix a b hb m' rfl hfoot
    exact ⟨hfoot', hprefix.trans hprefix', hS⟩

theorem follows_note {R : List (Event Nat) → α → β → Prop} {x : Run Nat σ α}
    (g : Failure → Failure) (hx : Follows start form w R x) :
    Follows start form w R (Run.mapFailure g x) := by
  intro m hw hm
  have h := hx m hw hm
  unfold Run.mapFailure
  cases hxm : x m with
  | ok a m' =>
    rw [hxm] at h
    exact h
  | error s m' =>
    rw [hxm] at h
    cases s with
    | outOfFuel => exact h
    | failed failure => exact ⟨h.1, h.2.1, by rintro _ _ ⟨⟩⟩

theorem follows_pure {R : List (Event Nat) → α → β → Prop} {a : α} {b : β} (h : R w a b) :
    Follows start form w R (pure a) := by
  refine follows_of_environment_eq (fun _ => rfl) (fun _ => List.prefix_rfl) ?_
  rintro m _ _ rfl - ⟨⟩
  exact ⟨b, h⟩

theorem follows_throw {R : List (Event Nat) → α → β → Prop} (stop : Stop) :
    Follows start form w R (throw stop) := by
  refine follows_of_environment_eq (fun _ => rfl) (fun _ => List.prefix_rfl) ?_
  rintro _ _ _ - - ⟨⟩

theorem follows_checkDepth (depth : Nat) :
    Follows start form w (fun _ _ (_ : Unit) => True) (Evaluation.checkDepth depth) := by
  have hmachine : ∀ m : Machine Nat σ, Ending.machine (Evaluation.checkDepth depth m) = m := by
    intro m
    rw [Evaluation.checkDepth_eq]
    split
    · split <;> rfl
    · rfl
  exact follows_of_environment_eq (fun m => by rw [hmachine])
    (fun m => (hmachine m).symm ▸ List.prefix_rfl) fun _ _ _ _ _ _ => ⟨(), trivial⟩

theorem follows_find? (name : String) : Follows start form w
    (fun w b b' => b' = b.map (Binding.map id) ∧
      (∀ d, b = some (.functionDef d) ∨ b = some (.macroDef d) →
        ∀ text ∈ d.symbols, Known start form w text) ∧
      ∀ v, b = some (.value v) → ∀ f ∈ v.quotations, f.DrawnFrom (Known start form w))
    (Run.find? name) := by
  refine follows_of_environment_eq (fun _ => rfl) (fun _ => List.prefix_rfl) ?_
  rintro m _ _ rfl hm ⟨⟩
  have hknown : ∀ b, m.environment.find? name = some b → ∀ text ∈ b.symbols,
      Known start form m.events.toList text := fun b hb text ht => hm.mentions text ⟨name, b, hb, ht⟩
  refine ⟨_, rfl, ?_, fun v hv f hf text ht => hknown _ hv text (List.mem_flatMap.2 ⟨f, hf, ht⟩)⟩
  rintro d (hd | hd) <;> exact hknown _ hd

theorem follows_emit (event : Event Nat) :
    Follows start form w (fun _ _ (_ : Unit) => True) (Run.emit event) :=
  follows_of_environment_eq (fun _ => rfl) (fun m => by simp [Run.emit, Ending.machine])
    fun _ _ _ _ _ _ => ⟨(), trivial⟩

theorem follows_define {name : String} {b : Binding Nat} (hname : Known start form w name)
    (hb : ∀ text ∈ b.symbols, Known start form w text) :
    Follows start form w (fun _ _ (_ : Unit) => True) (Run.define name b) := by
  rintro m rfl hm
  refine ⟨hm.define hname hb _, ?_, fun _ _ _ => ⟨(), trivial⟩⟩
  show m.events.toList <+: (m.events.push _).toList
  simp

theorem follows_apply {d : Definition Nat} {operands : List Node}
    (hd : ∀ text ∈ d.symbols, Known start form w text)
    (h : ∀ f ∈ operands, f.DrawnFrom (Known start form w)) : Follows start form w
      (fun w f f' => f' = f.map id ∧ f.DrawnFrom (Known start form w))
      (Run.minting (Convention.byIdentity.apply d operands)) := by
  refine follows_of_environment_eq (fun _ => rfl) (fun _ => List.prefix_rfl) ?_
  rintro m _ _ rfl - ⟨⟩
  refine ⟨_, rfl, Definition.drawnFrom_apply (fun text ht => ?_) h m.world.next⟩
  exact hd text (List.mem_append_right _ ht)

theorem follows_expand {f : Node} (hf : f.DrawnFrom (Known start form w)) : Follows start form w
      (fun w f f' => f' = f.map id ∧ f.DrawnFrom (Known start form w))
      (Run.expanding (Template.expand id f)) := by
  refine follows_of_environment_eq (fun m => ?_) (fun m => ?_) ?_
  · simp only [Run.expanding]
    cases Template.expand id f ⟨m.world.next, #[]⟩ <;> rfl
  · simp only [Run.expanding]
    cases Template.expand id f ⟨m.world.next, #[]⟩ <;> simp [Ending.machine]
  · rintro m _ _ rfl - h
    simp only [Run.expanding] at h
    cases hcode : Template.expand id f ⟨m.world.next, #[]⟩ with
    | error fault trail =>
      rw [hcode] at h
      cases h
    | ok code trail =>
      rw [hcode] at h
      cases h
      have hknown := Template.drawnFrom_expand hf _ _ _ hcode
      exact ⟨_, rfl, hknown.imp fun _ => known_later (by simp)⟩

/-- What a host function gives back is known by the event that reports it. -/
theorem follows_answer (name : String) (x : EStateM Error (World σ) (Value Nat)) :
    Follows start form w
      (fun w v v' => v' = v.map id ∧ ∀ f ∈ v.quotations, f.DrawnFrom (Known start form w))
      (Run.answering name x) := by
  refine follows_of_environment_eq (fun m => ?_) (fun m => ?_) ?_
  · rw [Run.answering_eq]
    cases x m.world <;> rfl
  · rw [Run.answering_eq]
    cases x m.world <;> simp [Ending.machine]
  · rintro m _ _ rfl hm h
    rw [Run.answering_eq] at h
    split at h
    · cases h
      -- The report stands behind the events of the start, so it counts as one since then.
      have hsize : start.events.size ≤ m.events.toList.length := by
        simpa using hm.events.length_le
      refine ⟨_, rfl, fun f hf text ht =>
        .inr (.inr ⟨.hostReturned name _, ?_, List.mem_flatMap.2 ⟨f, hf, ht⟩⟩)⟩
      simp [List.drop_append_of_le_length hsize]
    · cases h

variable (start form)

/-- Evaluation keeps to the sources of symbols. -/
def simulation : Simulation Convention.byIdentity Convention.byIdentity σ σ where
  relabel := id
  World := List (Event Nat)
  Later w w' := w <+: w'
  later_refl _ := List.prefix_rfl
  later_trans := List.IsPrefix.trans
  Admits w f := f.DrawnFrom (Known start form w)
  admits_later h hf := hf.imp fun _ => known_later h
  admits_items hf hmem := Form.drawnFrom_list.1 hf _ hmem
  AdmitsDefinition w d := ∀ text ∈ d.symbols, Known start form w text
  admitsDefinition_later h hd text ht := known_later h (hd text ht)
  AdmitsHost _ _ _ := True
  admitsHost_later _ h := h
  Follows w R x _ := Follows start form w R x
  pure := follows_pure
  bind := follows_bind
  fail _ := follows_throw _
  note _ h := follows_note _ h
  checkDepth _ := follows_checkDepth
  find? _ := follows_find?
  host? _ name := by
    refine follows_of_environment_eq (fun _ => rfl) (fun _ => List.prefix_rfl) ?_
    rintro m f _ - - -
    refine ⟨f, ?_⟩
    cases f with
    | none => exact .none
    | some f => exact .some trivial
  emit _ event _ := follows_emit event
  define {w label name b} hname hd hv := by
    refine follows_define (Form.drawnFrom_atom.1 hname) ?_
    cases b with
    | functionDef d => exact hd d (.inl rfl)
    | macroDef d => exact hd d (.inr rfl)
    | value v =>
      intro text ht
      obtain ⟨f, hf, ht⟩ := List.mem_flatMap.1 ht
      exact hv v rfl f hf text ht
  admitsDefinition hparameters hbody _ text ht := by
    rcases List.mem_append.1 ht with ht | ht
    · obtain ⟨f, hf, ht⟩ := List.mem_flatMap.1 ht
      exact hparameters f hf text ht
    · exact hbody text (by simpa [Convention.byIdentity] using ht)
  tie_map := Convention.byIdentity.tie_map_id
  apply := follows_apply
  expand := follows_expand
  answer name _ _ := follows_answer name _

end Footprint

namespace Evaluation

/-- **The footprint of evaluation.** Whether or not evaluation of a form succeeds, names stay bound
and the host functions and the depth limit stay as they are; every name that is bound anew, and every
symbol in what names are bound to afterwards, occurs in the form, in what names were bound to before
or in what a host function has given back meanwhile, and so does every symbol in a value that the
form has. -/
theorem footprint (fuel depth : Nat) (form : Node) (m : Machine Nat σ) :
    let ending := eval .byIdentity fuel depth form m
    Footprint m form (Ending.machine ending) ∧
      ∀ v m', ending = .ok v m' → ∀ text ∈ v.symbols, Known m form m'.events.toList text := by
  intro ending
  have hform : form.DrawnFrom (Known m form m.events.toList) := fun text ht => .inl ht
  obtain ⟨hfoot, -, hvalue⟩ := (Footprint.simulation m form).eval
    (fun _ => Footprint.follows_throw _) fuel depth m.events.toList form hform m rfl
    (Footprint.refl m form)
  refine ⟨hfoot, fun v m' h text ht => ?_⟩
  obtain ⟨_, -, hquotations⟩ := hvalue v m' h
  obtain ⟨f, hf, ht⟩ := List.mem_flatMap.1 ht
  exact hquotations f hf text ht

/-- The form `((concat "set" "q") x "y")`. -/
def computedOperator : Node :=
  .list 0 [.list 1 [.atom 2 "concat", .string 3 "set", .string 4 "q"], .atom 5 "x", .string 6 "y"]

/-- A string names the operator, and the name that is bound is an atom of the form. -/
theorem footprint_computedOperator :
    let m := Ending.machine (eval .byIdentity 5 0 computedOperator (Machine.initial ()))
    m.environment.bindings.names = ["x"] ∧ Footprint (Machine.initial ()) computedOperator m :=
  ⟨by decide +kernel, (footprint 5 0 computedOperator (Machine.initial ())).1⟩

end Evaluation

end SubstLisp
