import Mathlib.Logic.Relation
import SubstLisp.Form.Diagnosis
import SubstLisp.Proofs.Linked

/-!
# Handling forms

What a program can do with forms when labels are beyond its reach: it reads and makes new forms,
takes forms apart, copies them, ties them, puts one into another and expands templates. It may keep
and forget forms at will, and may put a form in for any label whatsoever.

A host function is honest when it comes by its forms in no other way.

## What is proved

* `Workbench.Step.respects` — every operation keeps to one labelling, extended by the labels that
  it takes.
* `Workbench.Reaches.respects` — so does every sequence of operations.
-/

namespace SubstLisp

/-- The supply of labels and the forms at hand. -/
structure Workbench where
  /-- The next number of the supply. -/
  next : Nat
  /-- The forms at hand. -/
  forms : List Node

namespace Workbench

/-- One operation on forms. -/
inductive Step : Workbench → Workbench → Prop where
  /-- Reads a text. -/
  | read {next : Nat} {forms : List Node} {limit : Nat} {source : String} {trees : List Tree} :
      Reader.read limit source = .ok trees →
      Step ⟨next, forms⟩
        ⟨(Form.freshenAll id trees next).2, (Form.freshenAll id trees next).1 ++ forms⟩
  /-- Makes an atom. -/
  | atom {next : Nat} {forms : List Node} (text : String) :
      Step ⟨next, forms⟩ ⟨next + 1, .atom next text :: forms⟩
  /-- Makes a string literal. -/
  | string {next : Nat} {forms : List Node} (text : String) :
      Step ⟨next, forms⟩ ⟨next + 1, .string next text :: forms⟩
  /-- Makes a list of forms. -/
  | list {next : Nat} {forms items : List Node} : items ⊆ forms →
      Step ⟨next, forms⟩ ⟨next + 1, .list next items :: forms⟩
  /-- Takes an item of a list. -/
  | item {next : Nat} {forms : List Node} {label : Nat} {items : List Node} {f : Node} :
      .list label items ∈ forms → f ∈ items → Step ⟨next, forms⟩ ⟨next, f :: forms⟩
  /-- Forgets forms, or has them several times. -/
  | keep {next : Nat} {forms kept : List Node} : kept ⊆ forms →
      Step ⟨next, forms⟩ ⟨next, kept⟩
  /-- Copies a form with fresh labels. -/
  | deepCopy {next : Nat} {forms : List Node} {f : Node} : f ∈ forms →
      Step ⟨next, forms⟩ ⟨(f.deepCopy next).2, (f.deepCopy next).1 :: forms⟩
  /-- Ties a form to parameters. -/
  | tie {next : Nat} {forms parameters : List Node} {f : Node} : parameters ⊆ forms → f ∈ forms →
      Step ⟨next, forms⟩ ⟨next, f.tie parameters :: forms⟩
  /-- Puts a form in for a label. -/
  | substitute {next : Nat} {forms : List Node} {replacement f : Node} (target : Nat) :
      replacement ∈ forms → f ∈ forms →
      Step ⟨next, forms⟩ ⟨next, Form.substitute target replacement f :: forms⟩
  /-- Copies a body with its parameters. -/
  | instantiate {next : Nat} {forms parameters : List Node} {f : Node} :
      parameters ⊆ forms → f ∈ forms →
      Step ⟨next, forms⟩
        ⟨(Node.instantiate parameters f next).2, (Node.instantiate parameters f next).1.2 :: forms⟩
  /-- Expands a template. -/
  | expand {next : Nat} {forms : List Node} {f code : Node} {trail : Template.Trail} : f ∈ forms →
      Template.expand id f ⟨next, #[]⟩ = .ok code trail →
      Step ⟨next, forms⟩ ⟨trail.next, code :: forms⟩
  /-- Fails to expand a template. -/
  | expandFailed {next : Nat} {forms : List Node} {f : Node} {fault : TemplateFault}
      {trail : Template.Trail} : f ∈ forms →
      Template.expand id f ⟨next, #[]⟩ = .error fault trail →
      Step ⟨next, forms⟩ ⟨trail.next, forms⟩

/-- A sequence of operations. -/
abbrev Reaches : Workbench → Workbench → Prop := Relation.ReflTransGen Step

/-- All labels at hand have been given out for the shapes of their nodes, and these are all labels
that have been given out. -/
structure Respects (ℓ : Labelling) (b : Workbench) : Prop where
  next : b.next = ℓ.length
  forms : ∀ f ∈ b.forms, f.Respects ℓ

variable {ℓ : Labelling} {b b' : Workbench}

/-- A labelling that accounts for a new form accounts for those that were at hand before. -/
theorem respects_cons {next : Nat} {forms : List Node} {f : Node}
    (hforms : ∀ g ∈ forms, g.Respects ℓ) (h : ℓ.ExtendsTo next f.Respects) :
    ∃ ℓ', ℓ <+: ℓ' ∧ Respects ℓ' ⟨next, f :: forms⟩ := by
  obtain ⟨ℓ', hprefix, hnext, hf⟩ := h
  exact ⟨ℓ', hprefix, hnext.symm,
    List.forall_mem_cons.2 ⟨hf, fun g hg => (hforms g hg).mono hprefix⟩⟩

/-- Every operation keeps to one labelling, extended by the labels that it takes. -/
theorem Step.respects (h : Step b b') (hb : b.Respects ℓ) : ∃ ℓ', ℓ <+: ℓ' ∧ b'.Respects ℓ' := by
  obtain ⟨hnext, hforms⟩ := hb
  cases h with
  | @read next forms _ _ trees =>
    subst hnext
    obtain ⟨ℓ', hprefix, hlength, htrees⟩ := Form.respects_freshenAll trees ℓ
    refine ⟨ℓ', hprefix, hlength.symm, ?_⟩
    intro f hf
    rcases List.mem_append.1 hf with hf | hf
    · exact htrees f hf
    · exact (hforms f hf).mono hprefix
  | atom text =>
    subst hnext
    exact respects_cons hforms ⟨ℓ ++ [.atom text], List.prefix_append _ _, by simp,
      Form.respects_atom.2 (Form.getElem?_concat ℓ _)⟩
  | string text =>
    subst hnext
    exact respects_cons hforms ⟨ℓ ++ [.string text], List.prefix_append _ _, by simp,
      Form.respects_string.2 (Form.getElem?_concat ℓ _)⟩
  | list hitems =>
    subst hnext
    exact respects_cons hforms ⟨ℓ ++ [.list], List.prefix_append _ _, by simp,
      Form.respects_list.2 ⟨Form.getElem?_concat ℓ _, fun f hf =>
        (hforms f (hitems hf)).mono (List.prefix_append _ _)⟩⟩
  | item hlist hf =>
    exact respects_cons hforms ⟨ℓ, List.prefix_rfl, hnext.symm,
      (Form.respects_list.1 (hforms _ hlist)).2 _ hf⟩
  | keep hkept => exact ⟨ℓ, List.prefix_rfl, hnext, fun f hf => hforms f (hkept hf)⟩
  | deepCopy hf =>
    subst hnext
    exact respects_cons hforms (Form.respects_deepCopy (hforms _ hf))
  | tie hps hf =>
    exact respects_cons hforms ⟨ℓ, List.prefix_rfl, hnext.symm,
      (hforms _ hf).tie fun p hp => hforms p (hps hp)⟩
  | substitute target hr hf =>
    exact respects_cons hforms ⟨ℓ, List.prefix_rfl, hnext.symm,
      (hforms _ hf).substitute (hforms _ hr)⟩
  | instantiate _ hf =>
    subst hnext
    exact respects_cons hforms (Form.respects_instantiate (hforms _ hf))
  | expand hf hok =>
    subst hnext
    have hcode := Template.respects_expand _ ℓ (hforms _ hf) #[]
    rw [hok] at hcode
    exact respects_cons hforms hcode
  | expandFailed hf herror =>
    subst hnext
    have hcode := Template.respects_expand _ ℓ (hforms _ hf) #[]
    rw [herror] at hcode
    obtain ⟨ℓ', hprefix, hlength, -⟩ := hcode
    exact ⟨ℓ', hprefix, hlength.symm, fun f hf => (hforms f hf).mono hprefix⟩

/-- Every sequence of operations keeps to one labelling, extended by the labels that it takes. -/
theorem Reaches.respects (h : Reaches b b') (hb : b.Respects ℓ) :
    ∃ ℓ', ℓ <+: ℓ' ∧ b'.Respects ℓ' := by
  induction h with
  | refl => exact ⟨ℓ, List.prefix_rfl, hb⟩
  | tail _ hstep ih =>
    obtain ⟨ℓ₁, h₁, hb₁⟩ := ih
    obtain ⟨ℓ₂, h₂, hb₂⟩ := hstep.respects hb₁
    exact ⟨ℓ₂, h₁.trans h₂, hb₂⟩

end Workbench

/-- A host function comes by the forms in its result, and by those that it leaves with the host, by
operations on the forms that it has: those it was made with, those its argument quotes and those
with the host. -/
def HostFunction.Honest {σ : Type} (held : σ → List Node) (own : List Node)
    (f : HostFunction Nat σ) : Prop :=
  ∀ v world,
    let start : Workbench := ⟨world.next, own ++ v.quotations ++ held world.host⟩
    match f v world with
    | .ok result world' =>
      start.Reaches ⟨world'.next, result.quotations ++ held world'.host⟩
    | .error _ world' => start.Reaches ⟨world'.next, held world'.host⟩

end SubstLisp
