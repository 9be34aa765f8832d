import SubstLisp.Proofs.Calculation

/-!
# Printed values

A value that is printed can be read as a program. A number is printed as its numeral, a string as a
literal and a quoted form behind a quotation mark; run as a program, such a text gives the value
back, on every machine. Nothing that a name is bound to gets in between: numerals and the operator
of a quotation are looked at before any binding.

## What is proved

* `Value.read_text` — the printed form of such a value is read as one form.
* `Evaluation.eval_literal` — this form evaluates to the value.
* `Program.run_text` — from the printed form of a value back to the value.
-/

namespace SubstLisp

variable {ι σ : Type}

/-! ### Values that are read back -/

namespace Value

/-- The form that a value is printed as; lists of values and the absence of a value have none. -/
def literal? : Value ι → Option Tree
  | number n => some (.atom () (Numeral.text n.toInt))
  | string text => some (.string () text)
  | quote form => some (.list () [.atom () "quote", form.erase])
  | _ => none

/-- Whether the printed form of a value can be read as the value: that of a number always, that of a
string without quotation marks, and that of a quoted form if the quotation is readable. -/
def ReadsBack : Value ι → Prop
  | number _ => True
  | string text => '"' ∉ text.toList
  | quote form => (Form.list () [.atom () "quote", form.erase]).Readable Reader.defaultLimit 0
  | _ => False

/-- **The printed form of a value is read as one form.** -/
theorem read_text {v : Value ι} (h : v.ReadsBack) :
    ∃ tree, v.literal? = some tree ∧ Reader.read Reader.defaultLimit v.text = .ok [tree] := by
  cases v with
  | nil => exact h.elim
  | list items => exact h.elim
  | number n =>
    have hreadable : (Calculation.literal n).form.Readable Reader.defaultLimit 0 :=
      Calculation.readable_form _ (Nat.zero_le _)
    have hread := Reader.read_of_spaced (List.forall_mem_singleton.2 hreadable) (.one _)
    rw [List.map_singleton, Form.erase_tree] at hread
    exact ⟨_, rfl, hread⟩
  | string text =>
    have hreadable : (Form.string () text).Readable Reader.defaultLimit 0 := h
    exact ⟨_, rfl, Reader.read_of_spaced (List.forall_mem_singleton.2 hreadable) (.one _)⟩
  | quote form =>
    obtain ⟨-, -, hform, -⟩ := h
    have hform : form.Readable (1 + 255) 1 := Form.readable_erase.1 hform
    refine ⟨_, rfl, Reader.read_eq_ok_iff.2 ?_⟩
    -- A quotation mark stands right before a datum, and takes one of the 256 levels.
    have hdatum : Reader.Datum 256 ('\'' :: (form.text.toList ++ []))
        (.list () [.atom () "quote", form.erase]) [] :=
      .quotation rfl (hform.datum Reader.startsNoDatum_nil)
    rw [List.append_nil] at hdatum
    have hforms : Reader.Forms (Reader.Datum 256) [] [] := .done rfl
    have htext : (quote form).text.toList = '\'' :: form.text.toList := by simp [text]
    rw [htext]
    exact hforms.cons hdatum

end Value

/-! ### Evaluation -/

namespace Evaluation

variable {c : Convention ι} {m : Machine ι σ}

/-- A quotation has the quoted form as its value. -/
theorem evalForm_quotation {depth : Nat} (h : checkDepth depth m = .ok () m) (inner : Evaluator ι σ)
    (label label' : ι) (form : Form ι) :
    evalForm c inner depth (.list label [.atom label' "quote", form]) m = .ok (.quote form) m := by
  simp only [evalForm, bind, EStateM.bind, h]
  rfl

/-- **The form that a value is printed as evaluates to the value**, with one level of evaluation. -/
theorem eval_literal {depth : Nat} (h : checkDepth depth m = .ok () m) {v : Value ι} {f : Form ι}
    (hf : v.literal? = some f.erase) (fuel : Nat) :
    ∃ w, eval c (fuel + 1) depth f m = .ok w m ∧ w.same v = true := by
  cases v with
  | nil => cases hf
  | list items => cases hf
  | number n =>
    obtain ⟨label, rfl⟩ := Form.erase_eq_atom_iff.1 (Option.some.inj hf).symm
    exact ⟨.number n, evalForm_numeral h _ label n, Value.same_iff.2 rfl⟩
  | string text =>
    obtain ⟨label, rfl⟩ := Form.erase_eq_string_iff.1 (Option.some.inj hf).symm
    refine ⟨.string text, ?_, Value.same_iff.2 rfl⟩
    simp only [eval, evalForm, bind, EStateM.bind, h]
    rfl
  | quote form =>
    obtain ⟨label, items, rfl, hitems⟩ := Form.erase_eq_list_iff.1 (Option.some.inj hf).symm
    obtain ⟨head, _, rfl, hhead, hrest⟩ := List.map_eq_cons_iff.1 hitems
    obtain ⟨label', rfl⟩ := Form.erase_eq_atom_iff.1 hhead
    obtain ⟨quoted, rfl, hquoted⟩ := List.map_eq_singleton_iff.1 hrest
    refine ⟨.quote quoted, evalForm_quotation h _ label label' quoted, Value.same_iff.2 ?_⟩
    exact congrArg Value.quote hquoted

/-- At the top level only a limit of zero is in the way. -/
theorem checkDepth_zero (h : ∀ limit, m.environment.maxDepth = some limit → 0 < limit) :
    checkDepth 0 m = .ok () m := by
  rw [checkDepth_eq]
  cases hmax : m.environment.maxDepth with
  | none => rfl
  | some limit => exact if_neg (Nat.not_le.2 (h limit hmax))

end Evaluation

/-! ### Running the printed form -/

namespace Program

/-- **Printed values read back.** The printed form of a value that can be read back, run on any
machine whose depth limit is not zero, gives the value; nothing is changed but that the reading is
reported, and no host function is called. -/
theorem run_text {v : Value Nat} (hv : v.ReadsBack) (m : Machine Nat σ)
    (hlimit : ∀ limit, m.environment.maxDepth = some limit → 0 < limit) (fuel : Nat) :
    ∃ w m', run .byIdentity (fuel + 1) v.text m = .ok w m' ∧ w.same v = true ∧
      m'.environment = m.environment ∧ m'.world.host = m.world.host ∧
      m'.events = m.events.push (.read 1) := by
  obtain ⟨tree, htree, hread⟩ := Value.read_text hv
  obtain ⟨form, next, rfl, hrun⟩ := run_of_read .byIdentity (fuel + 1) hread m
  have hdepth : Evaluation.checkDepth 0 (m.afterReading next 1) = .ok () (m.afterReading next 1) :=
    Evaluation.checkDepth_zero hlimit
  obtain ⟨w, heval, hsame⟩ := @Evaluation.eval_literal _ _ .byIdentity _ 0 hdepth v form htree fuel
  exact ⟨w, m.afterReading next 1, hrun.trans heval, hsame, rfl, rfl, rfl⟩

/-- A quoted list that holds a quotation mark and an empty list, where the operator of quotations is
bound to a number and evaluation may not nest at all. -/
theorem run_text_quotation :
    let v : Value Nat := .quote (.list 0 [.atom 1 "'", .list 2 []])
    let m : Machine Nat Unit :=
      { Machine.initial () with
        environment := { Environment.empty.define "quote" (.value (.number 0)) with
          maxDepth := some 1 } }
    v.ReadsBack ∧ (∀ limit, m.environment.maxDepth = some limit → 0 < limit) ∧
      v.text = "'(' ())" ∧
      ∃ w m', run .byIdentity 1 v.text m = .ok w m' ∧ w.same v = true ∧
        m'.environment = m.environment ∧ m'.world.host = m.world.host ∧
        m'.events = m.events.push (.read 1) := by
  intro v m
  have hv : v.ReadsBack := by
    simp [v, Value.ReadsBack, Form.Readable, Form.ReadableAll, Reader.isWord_quote,
      Reader.isWord_quotationMark, Reader.defaultLimit]
  have hlimit : ∀ limit, m.environment.maxDepth = some limit → 0 < limit := by
    rintro _ ⟨⟩
    exact Nat.one_pos
  exact ⟨hv, hlimit, by decide, run_text hv m hlimit 0⟩

end Program

end SubstLisp
