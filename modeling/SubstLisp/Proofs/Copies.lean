import Mathlib.Data.List.Nodup
import SubstLisp.Proofs.Relabelling

/-!
# Copies

What a copy of a form is: the form with its labels renamed one for one to numbers that the supply
has given since. Forms that are copied together are renamed together, so that nodes share a label
in the copies exactly when they share one in the originals.

## What is proved

* `Node.copy_spec` — while copying goes on, every copy is the original under the renaming so far.
* `Node.deepCopy_spec`, `Node.instantiate_spec` — the law for one form, and for a body with its
  parameters.
* `Node.isCopy_instantiate` — copies share labels where the originals do, and none with what was
  there before or with another copy.
-/

namespace SubstLisp

/-! ### Labels under a change of labels -/

namespace Form

variable {ι κ : Type}

/-- Only the labels in use matter to a change of labels. -/
theorem map_congr {g h : ι → κ} {f : Form ι} (hgh : ∀ label ∈ f.labels, g label = h label) :
    f.map g = f.map h := by
  induction f with
  | atom label text => exact congrArg (atom · text) (hgh label (by simp [labels]))
  | string label text => exact congrArg (string · text) (hgh label (by simp [labels]))
  | list label items ih =>
    simp only [labels, labelsAll_eq_flatMap, List.forall_mem_cons, List.mem_flatMap,
      forall_exists_index, and_imp] at hgh
    rw [map_list, map_list, hgh.1,
      List.map_congr_left fun f hf => ih f hf fun label hlabel => hgh.2 label f hf hlabel]

theorem label_mem_labels (f : Form ι) : f.label ∈ f.labels := by
  cases f <;> simp [label, labels]

theorem labels_map (g : ι → κ) (f : Form ι) : (f.map g).labels = f.labels.map g := by
  induction f with
  | atom => rfl
  | string => rfl
  | list label items ih =>
    simp only [map_list, labels, labelsAll_eq_flatMap, List.map_cons, List.flatMap_map,
      List.map_flatMap]
    exact congrArg _ (List.flatMap_congr ih)

end Form

/-- A renaming of labels, one for one, to numbers between two states of the supply. -/
structure Renaming (rename : Nat → Nat) (labels : List Nat) (next next' : Nat) : Prop where
  injective : ∀ a ∈ labels, ∀ b ∈ labels, rename a = rename b → a = b
  fresh : ∀ a ∈ labels, next ≤ rename a ∧ rename a < next'
  le : next ≤ next'

/-- Labels that are renamed one for one are equal at two places where they were equal before. -/
theorem Renaming.getElem?_eq_iff {rename : Nat → Nat} {labels originals : List Nat}
    {next next' : Nat} (h : Renaming rename labels next next') (hsub : originals ⊆ labels)
    (i j : Nat) :
    (originals.map rename)[i]? = (originals.map rename)[j]? ↔ originals[i]? = originals[j]? := by
  rw [List.getElem?_map, List.getElem?_map]
  refine ⟨?_, congrArg (Option.map rename)⟩
  intro heq
  cases hi : originals[i]? with
  | none =>
    rw [hi] at heq
    exact (Option.map_eq_none_iff.1 heq.symm).symm
  | some a =>
    rw [hi] at heq
    obtain ⟨b, hj, hab⟩ := Option.map_eq_some_iff.1 heq.symm
    rw [hj, h.injective b (hsub (List.mem_of_getElem? hj)) a (hsub (List.mem_of_getElem? hi)) hab]

namespace Node

namespace Copying

/-- The renaming so far. -/
def rename (s : Copying) (label : Nat) : Nat := (s.renamed.lookup label).getD label

/-- Every label met has a copy of its own, taken from the supply since it stood at `start`. -/
structure Started (start : Nat) (s : Copying) : Prop where
  le : start ≤ s.next
  fresh : ∀ entry ∈ s.renamed, start ≤ entry.2 ∧ entry.2 < s.next
  nodup : (s.renamed.map Prod.snd).Nodup

/-- Copying goes on from `s` to `s'`, and meets the given labels on the way. -/
structure Meets (start : Nat) (labels : List Nat) (s s' : Copying) : Prop where
  started : s'.Started start
  kept : ∀ {label copy}, s.renamed.lookup label = some copy → s'.renamed.lookup label = some copy
  met : ∀ label ∈ labels, ∃ copy, s'.renamed.lookup label = some copy

variable {start : Nat} {s s' s'' : Copying}

theorem Started.nil : Started start ⟨[], start⟩ :=
  ⟨Nat.le_refl start, fun _ h => absurd h List.not_mem_nil, List.nodup_nil⟩

theorem Meets.nil (h : s.Started start) : Meets start [] s s :=
  ⟨h, id, fun _ h => absurd h List.not_mem_nil⟩

theorem Meets.append {labels labels' : List Nat} (h : Meets start labels s s')
    (h' : Meets start labels' s' s'') : Meets start (labels ++ labels') s s'' := by
  refine ⟨h'.started, fun hl => h'.kept (h.kept hl), ?_⟩
  intro label hlabel
  rcases List.mem_append.1 hlabel with hlabel | hlabel
  · obtain ⟨copy, hcopy⟩ := h.met label hlabel
    exact ⟨copy, h'.kept hcopy⟩
  · exact h'.met label hlabel

/-- What has been renamed stays renamed in this way. -/
theorem Meets.rename_eq {labels labels' : List Nat} (h : Meets start labels s s')
    (h' : Meets start labels' s' s'') : ∀ label ∈ labels, s'.rename label = s''.rename label := by
  intro label hlabel
  obtain ⟨copy, hcopy⟩ := h.met label hlabel
  rw [rename, rename, hcopy, h'.kept hcopy]

theorem mem_of_lookup {label copy : Nat} (h : s.renamed.lookup label = some copy) :
    (label, copy) ∈ s.renamed := by
  obtain ⟨before, after, heq, -⟩ := List.lookup_eq_some_iff.1 h
  simp [heq]

/-- The labels met are renamed one for one, to numbers of the supply. -/
theorem Meets.isRenaming {labels : List Nat} (h : Meets start labels s s') :
    Renaming s'.rename labels start s'.next := by
  refine ⟨?_, ?_, h.started.le⟩
  · intro a ha b hb hab
    obtain ⟨copy, hcopy⟩ := h.met a ha
    obtain ⟨copy', hcopy'⟩ := h.met b hb
    obtain rfl : copy = copy' := by simpa [Copying.rename, hcopy, hcopy'] using hab
    have hentry := List.inj_on_of_nodup_map h.started.nodup (mem_of_lookup hcopy)
      (mem_of_lookup hcopy') rfl
    exact congrArg Prod.fst hentry
  · intro a ha
    obtain ⟨copy, hcopy⟩ := h.met a ha
    simpa [Copying.rename, hcopy] using h.started.fresh _ (mem_of_lookup hcopy)

end Copying

open Copying

variable {start : Nat} {s : Copying}

/-- The copy of a label is the one that it is renamed to. -/
theorem copyLabel_spec (h : s.Started start) (label : Nat) :
    Meets start [label] s (copyLabel label s).2 ∧
      (copyLabel label s).1 = (copyLabel label s).2.rename label := by
  unfold copyLabel
  split
  · next copy hcopy => exact ⟨⟨h, id, by simp [hcopy]⟩, by simp [rename, hcopy]⟩
  · next hnone =>
    refine ⟨⟨⟨Nat.le_succ_of_le h.le, ?_, ?_⟩, ?_, by simp⟩, ?_⟩
    · refine List.forall_mem_cons.2 ⟨⟨h.le, Nat.lt_succ_self _⟩, ?_⟩
      intro entry hentry
      obtain ⟨hle, hlt⟩ := h.fresh entry hentry
      exact ⟨hle, Nat.lt_succ_of_lt hlt⟩
    · refine List.nodup_cons.2 ⟨?_, h.nodup⟩
      intro hmem
      obtain ⟨entry, hentry, heq⟩ := List.mem_map.1 hmem
      exact absurd heq (Nat.ne_of_lt (h.fresh entry hentry).2)
    · intro other copy hother
      have hne : other ≠ label := by
        rintro rfl
        simp [hnone] at hother
      simp [List.lookup_cons, beq_false_of_ne hne, hother]
    · simp [rename]

/-- Copies of several forms, one after another, given the law for each of them. -/
theorem copyAll_spec_of {fs : List Node}
    (hcopy : ∀ f ∈ fs, ∀ {s : Copying}, s.Started start →
      Meets start f.labels s (copy f s).2 ∧ (copy f s).1 = f.map (copy f s).2.rename)
    (h : s.Started start) :
    Meets start (fs.flatMap Form.labels) s (copyAll fs s).2 ∧
      (copyAll fs s).1 = fs.map (Form.map (copyAll fs s).2.rename) := by
  induction fs generalizing s with
  | nil => exact ⟨.nil h, rfl⟩
  | cons f fs ih =>
    obtain ⟨hf, hf'⟩ := hcopy f List.mem_cons_self h
    obtain ⟨hfs, hfs'⟩ := ih (fun g hg => hcopy g (List.mem_cons_of_mem f hg)) hf.started
    refine ⟨hf.append hfs, ?_⟩
    show (copy f s).1 :: (copyAll fs (copy f s).2).1 = _
    rw [hf', hfs', Form.map_congr (hf.rename_eq hfs)]
    rfl

/-- While copying goes on, the copy of a form is the form under the renaming so far. -/
theorem copy_spec (f : Node) (h : s.Started start) :
    Meets start f.labels s (copy f s).2 ∧ (copy f s).1 = f.map (copy f s).2.rename := by
  induction f using Form.induction generalizing s with
  | atom label text =>
    obtain ⟨hmeets, heq⟩ := copyLabel_spec h label
    exact ⟨hmeets, congrArg (Form.atom · text) heq⟩
  | string label text =>
    obtain ⟨hmeets, heq⟩ := copyLabel_spec h label
    exact ⟨hmeets, congrArg (Form.string · text) heq⟩
  | list label items ih =>
    obtain ⟨hlabel, hlabel'⟩ := copyLabel_spec h label
    obtain ⟨hitems, hitems'⟩ := copyAll_spec_of ih hlabel.started
    rw [Form.labels, Form.labelsAll_eq_flatMap]
    refine ⟨hlabel.append hitems, ?_⟩
    show Form.list (copyLabel label s).1 (copyAll items (copyLabel label s).2).1 = _
    rw [hlabel', hitems', hlabel.rename_eq hitems label List.mem_cons_self, Form.map_list]
    rfl

/-- A copy of a form is the form with its labels renamed to fresh ones. -/
theorem deepCopy_spec (f : Node) (next : Nat) :
    ∃ rename, Renaming rename f.labels next (f.deepCopy next).2 ∧
      (f.deepCopy next).1 = f.map rename := by
  have hnil : Started next ⟨[], next⟩ := .nil
  obtain ⟨hmeets, hcopy⟩ := copy_spec f hnil
  exact ⟨_, hmeets.isRenaming, hcopy⟩

/-- A body copied with its parameters is the body with its labels renamed to fresh ones, and the
labels of the parameters are renamed in the same way. -/
theorem instantiate_spec (parameters : List Node) (body : Node) (next : Nat) :
    ∃ rename, Renaming rename (parameters.flatMap Form.labels ++ body.labels) next
        (instantiate parameters body next).2 ∧
      (instantiate parameters body next).1 =
        (parameters.map fun p => rename p.label, body.map rename) := by
  have hnil : Started next ⟨[], next⟩ := .nil
  obtain ⟨hps, hps'⟩ := copyAll_spec_of (fun f _ _ => @copy_spec _ _ f) hnil
  obtain ⟨hbody, hbody'⟩ := copy_spec body hps.started
  refine ⟨_, (hps.append hbody).isRenaming, ?_⟩
  show ((copyAll parameters _).1.map Form.label, (copy body (copyAll parameters _).2).1) = _
  rw [hbody', hps', List.map_map]
  refine Prod.ext (List.map_congr_left ?_) rfl
  intro p hp
  have hmem := List.mem_flatMap.2 ⟨p, hp, p.label_mem_labels⟩
  exact (Form.label_map _ p).trans (hps.rename_eq hbody p.label hmem)

/-! ### What copies share -/

/-- A body has been copied with its parameters, of which the labels are kept, while the supply went
from `next` to `next'`. -/
structure IsCopy (parameters : List Node) (body : Node) (labels : List Nat) (copy : Node)
    (next next' : Nat) : Prop where
  /-- The copy is the body but for labels. -/
  erase_eq : copy.erase = body.erase
  /-- One renaming gives all labels, one for one and from the supply. -/
  renamed : ∃ rename, Renaming rename (parameters.flatMap Form.labels ++ body.labels) next next' ∧
    labels = parameters.map (fun p => rename p.label) ∧ copy = body.map rename
  /-- Two nodes, or a node and a parameter, share a label exactly when the originals do. -/
  sharing : ∀ i j : Nat, (labels ++ copy.labels)[i]? = (labels ++ copy.labels)[j]? ↔
    (parameters.map Form.label ++ body.labels)[i]? = (parameters.map Form.label ++ body.labels)[j]?
  /-- No label had been given out before, and all have been given out by now. -/
  fresh : ∀ label ∈ labels ++ copy.labels, next ≤ label ∧ label < next'

/-- What one renaming gives is a copy. -/
theorem isCopy_of_renaming {parameters : List Node} {body : Node} {rename : Nat → Nat}
    {next next' : Nat}
    (h : Renaming rename (parameters.flatMap Form.labels ++ body.labels) next next') :
    IsCopy parameters body (parameters.map fun p => rename p.label) (body.map rename) next
      next' := by
  have hsub : parameters.map Form.label ++ body.labels ⊆
      parameters.flatMap Form.labels ++ body.labels := by
    refine List.append_subset.2 ⟨?_, List.subset_append_right _ _⟩
    intro label hlabel
    obtain ⟨p, hp, rfl⟩ := List.mem_map.1 hlabel
    exact List.mem_append_left _ (List.mem_flatMap.2 ⟨p, hp, p.label_mem_labels⟩)
  have hlabels : (parameters.map fun p => rename p.label) ++ (body.map rename).labels =
      (parameters.map Form.label ++ body.labels).map rename := by
    rw [Form.labels_map, List.map_append, List.map_map]
    rfl
  refine ⟨Form.erase_map rename body, ⟨rename, h, rfl, rfl⟩, ?_, ?_⟩
  · rw [hlabels]
    exact h.getElem?_eq_iff hsub
  · intro label hlabel
    rw [hlabels] at hlabel
    obtain ⟨a, ha, rfl⟩ := List.mem_map.1 hlabel
    exact h.fresh a (hsub ha)

/-- A copy shares no label with a later one. -/
theorem IsCopy.disjoint {ps ps' : List Node} {body body' : Node} {labels labels' : List Nat}
    {copy copy' : Node} {next after later last : Nat} (h : IsCopy ps body labels copy next after)
    (h' : IsCopy ps' body' labels' copy' later last) (hle : after ≤ later) :
    (labels ++ copy.labels).Disjoint (labels' ++ copy'.labels) := by
  intro label hmem hmem'
  have hlt := (h.fresh label hmem).2
  have hge := (h'.fresh label hmem').1
  omega

theorem isCopy_deepCopy (f : Node) (next : Nat) :
    IsCopy [] f [] (f.deepCopy next).1 next (f.deepCopy next).2 := by
  obtain ⟨rename, hrename, hcopy⟩ := deepCopy_spec f next
  rw [hcopy]
  exact @isCopy_of_renaming [] f rename _ _ hrename

/-- **Copies are fresh and keep what is shared.** A body that is copied with its parameters is the
same but for labels, and one renaming, one for one, gives the labels of its nodes and those that are
returned for the parameters. None of them had been given out before. So two of them are equal
exactly when the originals are, and a copy shares no label with one that is made later. All this
holds of a single form that is copied as well. -/
theorem isCopy_instantiate (parameters : List Node) (body : Node) (next : Nat) :
    let (labels, copy) := (instantiate parameters body next).1
    (IsCopy parameters body labels copy next (instantiate parameters body next).2 ∧
      ∀ later, (instantiate parameters body next).2 ≤ later →
        let (labels', copy') := (instantiate parameters body later).1
        (labels ++ copy.labels).Disjoint (labels' ++ copy'.labels)) ∧
    IsCopy [] body [] (body.deepCopy next).1 next (body.deepCopy next).2 ∧
      ∀ later, (body.deepCopy next).2 ≤ later →
        (body.deepCopy next).1.labels.Disjoint (body.deepCopy later).1.labels := by
  have hcopy : ∀ next, IsCopy parameters body (instantiate parameters body next).1.1
      (instantiate parameters body next).1.2 next (instantiate parameters body next).2 := by
    intro next
    obtain ⟨rename, hrename, hinstantiate⟩ := instantiate_spec parameters body next
    rw [hinstantiate]
    exact isCopy_of_renaming hrename
  have hdeep := isCopy_deepCopy body
  exact ⟨⟨hcopy next, fun later hle => (hcopy next).disjoint (hcopy later) hle⟩, hdeep next,
    fun later hle => (hdeep next).disjoint (hdeep later) hle⟩

/-- A body in which the parameter occurs twice, copied at once and later on. -/
theorem isCopy_instantiate_twice :
    let v : Node := .atom 7 "v"
    let body : Node := .list 2 [.atom 5 "list", v, v]
    (instantiate [v] body 9 = (([9], .list 10 [.atom 11 "list", .atom 9 "v", .atom 9 "v"]), 12)) ∧
      12 ≤ 20 ∧ [9, 10, 11, 9, 9].Disjoint [20, 21, 22, 20, 20] := by
  intro v body
  exact ⟨rfl, by decide, (isCopy_instantiate [v] body 9).1.2 20 (by decide)⟩

end Node

end SubstLisp
