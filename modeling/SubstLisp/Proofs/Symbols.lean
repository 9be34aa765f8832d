import SubstLisp.Proofs.Linked

/-!
# Symbols

The symbols of a form are the texts of its atoms; a string literal has none. Whatever is made of
forms is made of their symbols: tying and copying keep them, and substitution and the expansion of
templates draw on those of the forms that they are given.

Substitution and expansion do more than that. They put forms into lists and take them out, so they
keep every property that a list has exactly when its items have it (`Form.Hereditary`).

## What is proved

* `Form.Hereditary.apply`, `Definition.drawnFrom_apply` — the body of a definition with arguments
  put in has every hereditary property of the body and the arguments, and draws on their symbols.
* `Form.Hereditary.expand`, `Template.drawnFrom_expand` — likewise the code that a template stands
  for.
-/

namespace SubstLisp

variable {ι κ : Type}

/-! ### Hereditary properties -/

namespace Form

/-- A property that a list has exactly when all of its items have it, whatever its label. -/
def Hereditary (Q : Form ι → Prop) : Prop :=
  ∀ label items, Q (list label items) ↔ ∀ f ∈ items, Q f

variable {Q : Form ι → Prop}

theorem Hereditary.substitute [DecidableEq ι] (hQ : Hereditary Q) {target : ι}
    {replacement f : Form ι} (hf : Q f) (h : Q replacement) :
    Q (Form.substitute target replacement f) := by
  induction f with
  | atom label text =>
    rw [Form.substitute]
    split
    · exact h
    · exact hf
  | string label text =>
    rw [Form.substitute]
    split
    · exact h
    · exact hf
  | list label items ih =>
    rw [Form.substitute, substituteAll_eq_map]
    split
    · exact h
    · rw [hQ, List.forall_mem_map]
      exact fun f hmem => ih f hmem ((hQ label items).1 hf f hmem)

theorem Hereditary.substituteEach [DecidableEq ι] (hQ : Hereditary Q)
    {replacements : List (ι × Form ι)} {f : Form ι} (hf : Q f) (h : ∀ r ∈ replacements, Q r.2) :
    Q (Form.substituteEach replacements f) := by
  induction replacements generalizing f with
  | nil => exact hf
  | cons r rs ih =>
    obtain ⟨hr, hrs⟩ := List.forall_mem_cons.1 h
    exact ih (hQ.substitute hf hr) hrs

/-- The body of a definition with arguments put in has every hereditary property of the body and the
arguments that copying keeps. -/
theorem Hereditary.apply {Q : Node → Prop} (hQ : Hereditary Q)
    (hcopies : ∀ (rename : Nat → Nat) f, Q f → Q (f.map rename)) {d : Definition Nat}
    {operands : List Node} (hd : Q d.body) (h : ∀ f ∈ operands, Q f) (next : Nat) :
    Q (Convention.byIdentity.apply d operands next).1 := by
  obtain ⟨rename, -, hcopy⟩ := Node.instantiate_spec d.parameters d.body next
  show Q (Form.substituteEach ((Node.instantiate d.parameters d.body next).1.1.zip operands)
    (Node.instantiate d.parameters d.body next).1.2)
  rw [hcopy]
  exact hQ.substituteEach (hcopies rename d.body hd) fun r hr => h r.2 (List.of_mem_zip hr).2

end Form

/-! ### Symbols of forms -/

namespace Form

mutual

/-- The texts of the atoms in a form, in order. -/
def symbols : Form ι → List String
  | atom _ text => [text]
  | string _ _ => []
  | list _ items => symbolsAll items

/-- The texts of the atoms in the forms of a list, in order. -/
def symbolsAll : List (Form ι) → List String
  | [] => []
  | f :: fs => symbols f ++ symbolsAll fs

end

@[simp]
theorem symbolsAll_eq_flatMap (fs : List (Form ι)) : symbolsAll fs = fs.flatMap symbols := by
  induction fs with
  | nil => rfl
  | cons f fs ih => simp [symbolsAll, ih]

@[simp]
theorem symbols_map (g : ι → κ) (f : Form ι) : (f.map g).symbols = f.symbols := by
  induction f with
  | atom => rfl
  | string => rfl
  | list label items ih =>
    simp only [map_list, symbols, symbolsAll_eq_flatMap, List.flatMap_map]
    exact List.flatMap_congr ih

/-- Tying changes labels only. -/
@[simp]
theorem symbols_tie (parameters : List (Form ι)) (f : Form ι) :
    (f.tie parameters).symbols = f.symbols := by
  rw [← symbols_map (fun _ => ()) (f.tie parameters), ← symbols_map (fun _ => ()) f]
  exact congrArg symbols (erase_tie parameters f)

/-- Every symbol of a form has a property. -/
def DrawnFrom (P : String → Prop) (f : Form ι) : Prop := ∀ text ∈ f.symbols, P text

variable {P : String → Prop}

theorem drawnFrom_atom {label : ι} {text : String} : (atom label text).DrawnFrom P ↔ P text := by
  simp [DrawnFrom, symbols]

theorem drawnFrom_list {label : ι} {items : List (Form ι)} :
    (list label items).DrawnFrom P ↔ ∀ f ∈ items, f.DrawnFrom P := by
  simp only [DrawnFrom, symbols, symbolsAll_eq_flatMap, List.mem_flatMap]
  exact ⟨fun h f hf text ht => h text ⟨f, hf, ht⟩, fun h text ⟨f, hf, ht⟩ => h f hf text ht⟩

theorem hereditary_drawnFrom : Hereditary (DrawnFrom P : Form ι → Prop) :=
  fun _ _ => drawnFrom_list

theorem DrawnFrom.imp {Q : String → Prop} {f : Form ι} (hf : f.DrawnFrom P)
    (hPQ : ∀ text, P text → Q text) : f.DrawnFrom Q := fun text ht => hPQ text (hf text ht)

end Form

/-! ### Calls -/

/-- The symbols of the parameters and the body of a definition. -/
def Definition.symbols (d : Definition ι) : List String :=
  d.parameters.flatMap Form.symbols ++ d.body.symbols

/-- The body of a definition with arguments put in draws on the definition and the arguments. -/
theorem Definition.drawnFrom_apply {P : String → Prop} {d : Definition Nat} {operands : List Node}
    (hd : d.body.DrawnFrom P) (h : ∀ f ∈ operands, f.DrawnFrom P) (next : Nat) :
    (Convention.byIdentity.apply d operands next).1.DrawnFrom P :=
  Form.hereditary_drawnFrom.apply
    (fun rename f hf => by rwa [Form.DrawnFrom, Form.symbols_map]) hd h next

/-! ### Templates -/

namespace Template

theorem of_bind_eq_ok {α β : Type} {x : Expanding α} {k : α → Expanding β} {b : β}
    {s s' : Trail} (h : (x >>= k) s = .ok b s') : ∃ a t, x s = .ok a t ∧ k a t = .ok b s' := by
  simp only [bind, EStateM.bind] at h
  split at h
  · next a t hx => exact ⟨a, t, hx, h⟩
  · cases h

/-- What an expansion gives has a property. -/
def Gives {α : Type} (P : α → Prop) (x : Expanding α) : Prop :=
  ∀ trail a trail', x trail = .ok a trail' → P a

theorem Gives.pure {α : Type} {P : α → Prop} {a : α} (h : P a) : Gives P (Pure.pure a) := by
  rintro _ _ _ ⟨⟩
  exact h

theorem Gives.throw {α : Type} {P : α → Prop} (fault : TemplateFault) :
    Gives P (MonadExcept.throw fault) := by
  rintro _ _ _ ⟨⟩

theorem Gives.bind {α β : Type} {P : α → Prop} {Q : β → Prop} {x : Expanding α}
    {k : α → Expanding β} (hx : Gives P x) (hk : ∀ a, P a → Gives Q (k a)) : Gives Q (x >>= k) := by
  intro trail b trail' h
  obtain ⟨a, _, ha, hb⟩ := of_bind_eq_ok h
  exact hk a (hx _ _ _ ha) _ _ _ hb

/-- The codes of the templates of a list, given the law for each of them. -/
theorem gives_expandAll_of {Q : Form ι → Prop} {label : Nat → ι} {fs : List (Form ι)}
    (h : ∀ f ∈ fs, Gives Q (expand label f)) :
    Gives (fun codes => ∀ f ∈ codes, Q f) (expandAll label fs) := by
  induction fs with
  | nil => exact .pure (by simp)
  | cons f fs ih =>
    obtain ⟨hf, hfs⟩ := List.forall_mem_cons.1 h
    exact hf.bind fun code hcode => (ih hfs).bind fun codes hcodes =>
      .pure (List.forall_mem_cons.2 ⟨hcode, hcodes⟩)

end Template

/-- The code that a template stands for has every hereditary property of the template. -/
theorem Form.Hereditary.expand {Q : Form ι → Prop} (hQ : Hereditary Q) {label : Nat → ι}
    {f : Form ι} (hf : Q f) : Template.Gives Q (Template.expand label f) := by
  induction f with
  | atom => exact .pure hf
  | string => exact .pure hf
  | list l items ih =>
    cases items with
    | nil => exact .pure hf
    | cons head operands =>
      have hoperands := (List.forall_mem_cons.1 ((hQ l _).1 hf)).2
      simp only [Template.expand]
      split
      · refine (Template.gives_expandAll_of fun g hg =>
          ih g (List.mem_cons_of_mem _ hg) (hoperands g hg)).bind ?_
        rintro codes hcodes _ _ _ ⟨⟩
        exact (hQ _ codes).2 hcodes
      · split
        · cases operands with
          | nil => exact .throw _
          | cons quoted rest => exact .pure (hoperands quoted List.mem_cons_self)
        · exact .throw _

/-- The code that a template stands for draws on the template. -/
theorem Template.drawnFrom_expand {P : String → Prop} {label : Nat → ι} {f : Form ι}
    (hf : f.DrawnFrom P) : Gives (Form.DrawnFrom P) (expand label f) :=
  Form.hereditary_drawnFrom.expand hf

end SubstLisp
