import SubstLisp.Proofs.Scanning
import SubstLisp.Proofs.Twins

/-!
# Programs in pieces

A program whose text is two texts on lines of their own, read and run as a whole or piece by piece.

The reader looks past a word for its end, and a comment ends with its line: so a newline settles
whatever the first text leaves in progress, and what is read of it does not depend on what follows.
What is read of the second text does not depend on what was read before. The forms get other labels
when the texts are read one at a time, as the second is read when the forms of the first have been
evaluated; the machines are twins.

## What is proved

* `Reader.readForms_append` — the forms of two texts, or the refusal of the second.
* `Program.evalForms_append` — one sequence of forms after another, under each policy.
* `Workspace.Reachable.runAll_append` — to run a program as a whole is to run it piece by piece.
-/

namespace SubstLisp

/-! ### Reading -/

namespace Reader

open Text (isBlank byteLength)

/-- What comes after blanks and comments stays there when more text follows. -/
theorem skipTriviaFrom_append {inComment : Bool} {s : List Char}
    (h : skipTriviaFrom inComment s ≠ []) (t : List Char) :
    skipTriviaFrom inComment (s ++ t) = skipTriviaFrom inComment s ++ t := by
  induction s generalizing inComment with
  | nil => exact absurd rfl h
  | cons c s ih =>
    cases inComment with
    | true => exact ih h
    | false =>
      simp only [List.cons_append, skipTriviaFrom] at h ⊢
      by_cases hc : c = ';'
      · rw [if_pos hc] at h
        rw [if_pos hc, if_pos hc, ih h]
      · rw [if_neg hc] at h
        rw [if_neg hc, if_neg hc]
        by_cases hblank : isBlank c = true
        · rw [if_pos hblank] at h
          rw [if_pos hblank, if_pos hblank, ih h]
        · rw [if_neg hblank, if_neg hblank, List.cons_append]

theorem skipTrivia_append {s : List Char} (h : skipTrivia s ≠ []) (t : List Char) :
    skipTrivia (s ++ t) = skipTrivia s ++ t := skipTriviaFrom_append h t

/-- A newline ends the comment that there may be. -/
theorem skipTriviaFrom_append_newline {inComment : Bool} {s : List Char}
    (h : skipTriviaFrom inComment s = []) (t : List Char) :
    skipTriviaFrom inComment (s ++ '\n' :: t) = skipTrivia t := by
  induction s generalizing inComment with
  | nil => cases inComment <;> rfl
  | cons c s ih =>
    cases inComment with
    | true => exact ih h
    | false =>
      simp only [List.cons_append, skipTriviaFrom] at h ⊢
      by_cases hc : c = ';'
      · rw [if_pos hc] at h
        rw [if_pos hc, ih h]
      · rw [if_neg hc] at h
        rw [if_neg hc]
        by_cases hblank : isBlank c = true
        · rw [if_pos hblank] at h
          rw [if_pos hblank, ih h]
        · rw [if_neg hblank] at h
          cases h

theorem StartsNoDatum.append {s t : List Char} (hs : StartsNoDatum s) (ht : StartsNoDatum t) :
    StartsNoDatum (s ++ t) := by
  cases s with
  | nil => exact ht
  | cons c s => exact startsNoDatum_cons.2 (startsNoDatum_cons.1 hs)

theorem EndsAtom.append {s t : List Char} (hs : EndsAtom s) (ht : StartsNoDatum t) :
    EndsAtom (s ++ t) := by
  cases s with
  | nil => exact ht.endsAtom
  | cons c s => exact fun d hd => hs d hd

theorem Datum.skipTrivia_ne_nil {room : Nat} {s r : List Char} {f : Tree}
    (h : Datum room (skipTrivia s) f r) : skipTrivia s ≠ [] := by
  intro hnil
  rw [hnil] at h
  exact h.not_startsNoDatum startsNoDatum_nil

/-- The items of a list when more text follows it, given the law for each. -/
theorem items_append {room : Nat} {s t r : List Char} {items : List Tree}
    (hdatum : ∀ s f r, Datum room s f r → Datum room (s ++ t) f (r ++ t))
    (h : Items (Datum room) s items r) : Items (Datum room) (s ++ t) items (r ++ t) := by
  induction h with
  | done hend =>
    refine .done ?_
    rw [skipTrivia_append (hend ▸ List.cons_ne_nil _ _), hend]
    rfl
  | @more s r f fs hclose hf _ ih =>
    have hne := hf.skipTrivia_ne_nil
    have hskip := skipTrivia_append hne t
    refine .more ?_ (hskip ▸ hdatum _ _ _ hf) ih
    rw [hskip]
    intro u hu
    obtain ⟨c, cs, hcons⟩ := List.exists_cons_of_ne_nil hne
    rw [hcons] at hu
    cases hu
    exact hclose cs hcons

/-- What is read of a datum does not depend on what follows it, if no datum starts there. -/
theorem Datum.append {room : Nat} {s t r : List Char} {f : Tree} (h : Datum room s f r)
    (ht : StartsNoDatum t) : Datum room (s ++ t) f (r ++ t) := by
  have hstring : ∀ {inner : Option Grammar} {literal r : List Char}, '"' ∉ literal →
      DatumWith inner ('"' :: (literal ++ '"' :: r) ++ t) (.string () (String.ofList literal))
        (r ++ t) := by
    intro inner literal r hliteral
    rw [List.cons_append, List.append_assoc, List.cons_append]
    exact .string hliteral
  have hatom : ∀ {inner : Option Grammar} {c : Char} {cs r : List Char}, c ≠ '\'' →
      (∀ d ∈ c :: cs, isAtomChar d = true) → EndsAtom r →
      DatumWith inner (c :: (cs ++ r) ++ t) (.atom () (String.ofList (c :: cs))) (r ++ t) := by
    intro inner c cs r hc hcs hr
    rw [List.cons_append, List.append_assoc]
    exact .atom hc hcs (hr.append ht)
  induction room generalizing s r f with
  | zero =>
    cases h with
    | string hliteral => exact hstring hliteral
    | atom hc hcs hr => exact hatom hc hcs hr
    | quotation hinner => cases hinner
    | mark hinner => cases hinner
    | list hinner => cases hinner
  | succ room ih =>
    cases h with
    | string hliteral => exact hstring hliteral
    | atom hc hcs hr => exact hatom hc hcs hr
    | quotation hinner hf =>
      cases hinner
      exact .quotation rfl (ih hf)
    | mark hinner hs =>
      cases hinner
      exact @DatumWith.mark _ (Datum room) _ rfl (hs.append ht)
    | list hinner hitems =>
      cases hinner
      exact .list rfl (items_append (fun _ _ _ => ih) hitems)

theorem readForms_of_strayClose {limit : Nat} {s cs : List Char} (h : skipTrivia s = ')' :: cs) :
    readForms limit s = .error ⟨.strayClose, ')' :: cs⟩ := by
  rw [readForms]
  split
  · next hnil => cases hnil.symm.trans h
  · next hcons =>
    cases hcons.symm.trans h
    rfl

/-- The reader begins with the first character that is neither blank nor in a comment. -/
theorem readForms_congr {limit : Nat} {s s' : List Char} (h : skipTrivia s = skipTrivia s') :
    readForms limit s = readForms limit s' := by
  cases hskip : skipTrivia s' with
  | nil =>
    rw [hskip] at h
    rw [readForms_iff.2 (.done h), readForms_iff.2 (.done hskip)]
  | cons c cs =>
    rw [hskip] at h
    by_cases hc : c = ')'
    · subst hc
      rw [readForms_of_strayClose h, readForms_of_strayClose hskip]
    · rw [readForms_of_skipTrivia h hc, readForms_of_skipTrivia hskip hc]

/-- **Reading two texts**: with a newline between them, if the first text can be read, the forms are
those of the first and those of the second, or the second is refused for the same fault at the same
place. -/
theorem readForms_append {limit : Nat} {a : List Char} {fa : List Tree}
    (h : readForms limit a = .ok fa) (b : List Char) :
    readForms limit (a ++ '\n' :: b) = (do
      let fb ← readForms limit b
      .ok (fa ++ fb)) := by
  have hforms := readForms_iff.1 h
  clear h
  induction hforms with
  | done hend =>
    rw [readForms_congr (skipTriviaFrom_append_newline hend b)]
    exact (bind_pure _).symm
  | @more s r f fs hclose hf _ ih =>
    have hne := hf.skipTrivia_ne_nil
    obtain ⟨c, cs, hcons⟩ := List.exists_cons_of_ne_nil hne
    have hc : c ≠ ')' := by
      rintro rfl
      exact hclose cs hcons
    have hskip : skipTrivia (s ++ '\n' :: b) = c :: (cs ++ '\n' :: b) := by
      rw [skipTrivia_append hne, hcons, List.cons_append]
    have hdatum : Datum limit (c :: (cs ++ '\n' :: b)) f (r ++ '\n' :: b) := by
      rw [hcons] at hf
      exact hf.append (startsNoDatum_cons.2 (.inl Text.isBlank_newline))
    rw [← grammar_readDatum] at hdatum
    obtain ⟨hlt, hread⟩ := hdatum
    rw [readForms_of_skipTrivia hskip hc, hread]
    show (do let forms ← readForms limit (r ++ '\n' :: b); .ok (f :: forms)) = _
    rw [ih, bind_assoc]
    rfl

/-- What a refusal leaves of a text is a part of it. -/
theorem offset_add_of_readForms {limit : Nat} {s : List Char} {refusal : Refusal}
    (h : readForms limit s = .error refusal) :
    refusal.offset s + byteLength refusal.rest = byteLength s := by
  obtain ⟨before, rfl⟩ := (isIn_of_readForms h).suffix
  rw [refusal.offset_append, Text.byteLength_append]

/-- The diagnosis of a refusal as it is when so many bytes stand in front of the text `s` in the
text `source`. -/
def Refusal.diagnosisIn (limit : Nat) (source : String) (before : Nat) (s : List Char)
    (refusal : Refusal) : Diagnosis :=
  .around source.toList (before + refusal.offset s) refusal.fault.kind
    (refusal.fault.detail limit (before + refusal.offset s)) refusal.found?

theorem readForms_of_read {limit : Nat} {source : String} {forms : List Tree}
    (h : read limit source = .ok forms) : readForms limit source.toList = .ok forms := by
  unfold read at h
  cases hforms : readForms limit source.toList with
  | error refusal =>
    rw [hforms] at h
    cases h
  | ok forms' =>
    rw [hforms] at h
    cases h
    rfl

section

variable {limit : Nat} {a b : String} {fa : List Tree} (ha : read limit a = .ok fa)

include ha

theorem read_append_of_ok {fb : List Tree} (hb : readForms limit b.toList = .ok fb) :
    read limit (a ++ "\n" ++ b) = .ok (fa ++ fb) := by
  have happend := readForms_append (readForms_of_read ha) b.toList
  have htext : (a ++ "\n" ++ b).toList = a.toList ++ '\n' :: b.toList := by simp
  rw [read, htext, happend, hb]
  rfl

theorem read_append_of_error {refusal : Refusal} (hb : readForms limit b.toList = .error refusal) :
    read limit (a ++ "\n" ++ b) = .error (refusal.diagnosisIn limit (a ++ "\n" ++ b)
      (byteLength a.toList + 1) b.toList) := by
  have happend := readForms_append (readForms_of_read ha) b.toList
  have htext : (a ++ "\n" ++ b).toList = a.toList ++ '\n' :: b.toList := by simp
  have hoffset : refusal.offset (a.toList ++ '\n' :: b.toList) =
      byteLength a.toList + 1 + refusal.offset b.toList := by
    have hrest := offset_add_of_readForms hb
    have hnewline : '\n'.utf8Size = 1 := rfl
    simp only [Refusal.offset, Text.byteLength_append, Text.byteLength_cons] at hrest ⊢
    omega
  rw [read, htext, happend, hb]
  simp only [Refusal.diagnosisIn, htext, ← hoffset]
  rfl

end

end Reader

/-! ### Running -/

namespace Outcome

variable {ι : Type}

theorem isSuccess_cons (result : Except Failure (Value ι))
    (results : List (Except Failure (Value ι))) (n : Nat) :
    (Outcome.mk (result :: results) (n + 1)).isSuccess =
      ((valueOf? result).isSome && (Outcome.mk results n).isSuccess) := by
  simp [isSuccess, Bool.and_assoc]

/-- Whether forms have values does not depend on labels. -/
theorem isSuccess_congr {results results' : List (Except Failure (Value ι))}
    (h : results.map (Except.map Value.erase) = results'.map (Except.map Value.erase)) (n : Nat) :
    (Outcome.mk results n).isSuccess = (Outcome.mk results' n).isSuccess := by
  have hall : ∀ results : List (Except Failure (Value ι)),
      results.all (fun result => (valueOf? result).isSome) =
        (results.map (Except.map Value.erase)).all (fun result => (valueOf? result).isSome) := by
    intro results
    rw [List.all_map]
    refine congrArg results.all (funext ?_)
    rintro (_ | _) <;> rfl
  have hlength : results.length = results'.length := by
    simpa using congrArg List.length h
  simp only [isSuccess, hall, h, hlength]

end Outcome

namespace Program

variable {ι σ : Type}

/-- One sequence of forms after another: a halting run stays with the first if it is no success. -/
theorem evalForms_append (evaluate : Form ι → Run ι σ (Value ι)) (policy : Policy) (index : Nat)
    (before after : List (Form ι)) :
    evalForms evaluate policy index (before ++ after) = (do
      let results ← evalForms evaluate policy index before
      if policy = .keepGoing ∨ (Outcome.mk results before.length).isSuccess = true then
        return results ++ (← evalForms evaluate policy (index + before.length) after)
      else return results) := by
  induction before generalizing index with
  | nil => simp [evalForms, Outcome.isSuccess]
  | cons form before ih =>
    rw [List.cons_append, evalForms_cons, evalForms_cons, bind_assoc]
    refine bind_congr fun first => ?_
    by_cases hstop : policy = .halt ∧ Outcome.valueOf? first = none
    · -- the run stays with the first form, which is no success
      rw [if_pos hstop, if_pos hstop, pure_bind, if_neg]
      simp [hstop.1, hstop.2, Outcome.isSuccess_cons]
    · have hgoes : ∀ results, policy = .keepGoing ∨
          (Outcome.mk (first :: results) (before.length + 1)).isSuccess = true ↔
            policy = .keepGoing ∨ (Outcome.mk results before.length).isSuccess = true := by
        intro results
        cases policy with
        | keepGoing => simp
        | halt =>
          have hsome : (Outcome.valueOf? first).isSome = true :=
            Option.isSome_iff_ne_none.2 fun hnone => hstop ⟨rfl, hnone⟩
          rw [Outcome.isSuccess_cons, hsome, Bool.true_and]
      rw [if_neg hstop, if_neg hstop, ih, bind_assoc, bind_assoc]
      refine bind_congr fun results => ?_
      rw [pure_bind, List.length_cons, if_congr (hgoes results) rfl rfl, Nat.add_right_comm,
        Nat.add_assoc]
      split <;> simp

/-- A run that goes on does so with one sequence of forms after another. -/
theorem keepGoing_append (evaluate : Form ι → Run ι σ (Value ι)) (index : Nat)
    (before after : List (Form ι)) :
    evalForms evaluate .keepGoing index (before ++ after) = (do
      let results ← evalForms evaluate .keepGoing index before
      return results ++ (← evalForms evaluate .keepGoing (index + before.length) after)) := by
  rw [evalForms_append]
  simp only [true_or, if_true]

/-- Runs the program of two texts piece by piece; after the first text a halting run goes on only if
it was a success. -/
def runPieces (c : Convention ι) (fuel : Nat) (policy : Policy) (a b : String) :
    Run ι σ (List (Except Failure (Value ι))) := do
  let first ← runAll c fuel policy a
  if policy = .keepGoing ∨ first.isSuccess = true then
    return first.results ++ (← runAll c fuel policy b).results
  else return first.results

end Program

namespace Workspace

variable {σ τ : Type} {held : σ → List Node} {forget : σ → τ} {s : Workspace σ}

/-- To run a text as a whole is to run it piece by piece. -/
theorem Reachable.runPieces_alike (hs : s.Reachable held) {n : Machine Unit τ}
    (hn : s.machine.ErasesTo forget n) {a b : String} {fa fb : List Tree}
    (ha : Reader.read Reader.defaultLimit a = .ok fa)
    (hb : Reader.read Reader.defaultLimit b = .ok fb)
    (hwhole : Reader.read Reader.defaultLimit (a ++ "\n" ++ b) = .ok (fa ++ fb)) (fuel : Nat)
    (policy : Policy) :
    Alike (fun outcome results => outcome.formCount = fa.length + fb.length ∧
        outcome.results.map (Except.map Value.erase) = results.map (Except.map Value.erase))
      (fun m m' => m.Alike forget m' ∧ s.machine.SameSteps m s.machine m')
      (Program.runAll .byIdentity fuel policy (a ++ "\n" ++ b) s.machine)
      (Program.runPieces .byIdentity fuel policy a b s.machine) := by
  obtain ⟨ℓ, hrespects⟩ := hs.respects
  have htwins : Machine.Twins held forget s.machine s.machine ℓ ℓ s.machine s.machine :=
    ⟨hrespects.machine, hrespects.machine, ⟨n, hn, hn⟩, .refl _ _⟩
  obtain ⟨forms, m₁, ℓ₁, hread, htrees, -, hforms, htwins⟩ := htwins.read_left hwhole
  obtain ⟨ga, gb, rfl, hga, hgb⟩ := List.map_eq_append_iff.1 htrees
  obtain ⟨ga', m₁', ℓ₁', hread', hga', -, hforms', htwins⟩ := htwins.read_right ha
  obtain ⟨hleft, hright⟩ := List.forall_mem_append.1 hforms
  have hlength : ga.length = ga'.length := by
    simpa using congrArg List.length (hga.trans hga'.symm)
  have hcount : (ga ++ gb).length = fa.length + fb.length := by
    rw [List.length_append, ← hga, ← hgb, List.length_map, List.length_map]
  suffices hends : Machine.Twins.Ends held forget s.machine s.machine ℓ₁ ℓ₁' _ _ _ from hends.alike
  rw [Program.runAll_of_read hread, Program.evalForms_append, bind_assoc, Program.runPieces,
    Run.bind_of_eq (Program.runAll_of_read hread' fuel policy), bind_assoc]
  refine Machine.Twins.Ends.bind (htwins.evalForms hleft hforms' (hga.trans hga'.symm) fuel policy
    1 1) ?_
  intro ℓ₂ ℓ₂' es es' m₂ m₂' hℓ hℓ' htwins hes
  rw [pure_bind, Outcome.isSuccess_congr hes, hlength]
  by_cases hcond : policy = .keepGoing ∨ (Outcome.mk es' ga'.length).isSuccess = true
  · rw [if_pos hcond, if_pos hcond, bind_assoc]
    obtain ⟨gb', m₃', ℓ₃', hreadb, hgb', hℓ₃', hformsb, htwins⟩ := htwins.read_right hb
    rw [Run.bind_of_eq (Program.runAll_of_read hreadb fuel policy), bind_assoc]
    have hends := htwins.evalForms (fun f hf => (hright f hf).mono hℓ) hformsb
      (hgb.trans hgb'.symm) fuel policy (1 + ga'.length) 1
    refine Machine.Twins.Ends.later List.prefix_rfl hℓ₃' (hends.bind ?_)
    intro _ _ fs fs' _ _ _ _ htwins hfs
    refine .ok List.prefix_rfl List.prefix_rfl htwins ⟨hcount, ?_⟩
    rw [List.map_append, List.map_append, hes, hfs]
  · rw [if_neg hcond, if_neg hcond]
    exact .ok List.prefix_rfl List.prefix_rfl htwins ⟨hcount, hes⟩

/-- **A program as a whole and in pieces.** Two texts with a newline between them, of which the
first can be read, are read as the forms of the first and those of the second; or they cannot be
read for the fault of the second, which is found as many bytes later. To run the whole then has the
same results, with the same steps and the same bindings, as to run the first text and, where that
does not halt, the second on the machine that the first has left, in every workspace that an
embedding program can come to. -/
theorem Reachable.runAll_append (hs : s.Reachable held) {n : Machine Unit τ}
    (hn : s.machine.ErasesTo forget n) {a : String} {fa : List Tree}
    (ha : Reader.read Reader.defaultLimit a = .ok fa) (b : String) :
    match Reader.readForms Reader.defaultLimit b.toList with
    | .error refusal =>
      Reader.read Reader.defaultLimit b =
          .error (refusal.diagnosisIn Reader.defaultLimit b 0 b.toList) ∧
        Reader.read Reader.defaultLimit (a ++ "\n" ++ b) =
          .error (refusal.diagnosisIn Reader.defaultLimit (a ++ "\n" ++ b)
            (Text.byteLength a.toList + 1) b.toList)
    | .ok fb =>
      Reader.read Reader.defaultLimit b = .ok fb ∧
        Reader.read Reader.defaultLimit (a ++ "\n" ++ b) = .ok (fa ++ fb) ∧
        ∀ fuel policy, Alike
          (fun outcome results => outcome.formCount = fa.length + fb.length ∧
            outcome.results.map (Except.map Value.erase) = results.map (Except.map Value.erase))
          (fun m m' => m.Alike forget m' ∧ s.machine.SameSteps m s.machine m')
          (Program.runAll .byIdentity fuel policy (a ++ "\n" ++ b) s.machine)
          (Program.runPieces .byIdentity fuel policy a b s.machine) := by
  cases hb : Reader.readForms Reader.defaultLimit b.toList with
  | error refusal =>
    refine ⟨?_, Reader.read_append_of_error ha hb⟩
    rw [Reader.read, hb, Reader.Refusal.diagnosisIn, Nat.zero_add]
    rfl
  | ok fb =>
    have hread : Reader.read Reader.defaultLimit b = .ok fb := by
      rw [Reader.read, hb]
      rfl
    have hwhole := Reader.read_append_of_ok ha hb
    exact ⟨hread, hwhole, hs.runPieces_alike hn ha hread hwhole⟩

/-- A comment at the end of the first text, and a call in the second that needs what the first has
bound. -/
theorem Reachable.runAll_append_comment :
    let a := "(setq x 21) ; and then"
    let b := "(twice x)"
    let fa : List Tree := [.list () [.atom () "setq", .atom () "x", .atom () "21"]]
    let fb : List Tree := [.list () [.atom () "twice", .atom () "x"]]
    doubling.Reachable (fun _ => []) ∧ doubling.machine.ErasesTo id doublingTrees ∧
      Reader.read Reader.defaultLimit a = .ok fa ∧
      Reader.read Reader.defaultLimit (a ++ "\n" ++ b) = .ok (fa ++ fb) ∧
      Alike (fun outcome results => outcome.formCount = 2 ∧
          outcome.results.map (Except.map Value.erase) = results.map (Except.map Value.erase))
        (fun m m' => m.Alike id m' ∧ doubling.machine.SameSteps m doubling.machine m')
        (Program.runAll .byIdentity 3 .halt (a ++ "\n" ++ b) doubling.machine)
        (Program.runPieces .byIdentity 3 .halt a b doubling.machine) := by
  intro a b fa fb
  have hscan : Scanner.scan Reader.defaultLimit "(setq x 21) ; and then".toList = .ok fa := rfl
  have hscan' : Scanner.scan Reader.defaultLimit "(twice x)".toList = .ok fb := rfl
  have ha : Reader.read Reader.defaultLimit a = .ok fa := Scanner.read_of_scan hscan
  have hb : Reader.read Reader.defaultLimit b = .ok fb := Scanner.read_of_scan hscan'
  have h := reachable_doubling.runAll_append erasesTo_doublingTrees ha b
  rw [Reader.readForms_of_read hb] at h
  obtain ⟨-, hwhole, halike⟩ := h
  exact ⟨reachable_doubling, erasesTo_doublingTrees, ha, hwhole, halike 3 .halt⟩

end Workspace

end SubstLisp
