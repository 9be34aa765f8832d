import SubstLisp.Proofs.Grammar

/-!
# Refusals

Why texts are refused, as rules beside those of the grammar. A list or a quotation is refused where
there is no room for it, and a string literal where it is not closed; every other refusal of a datum
comes from inside it. Data one after the other are refused for the first of them that is, or for
what ends them.

Every fault is blamed on a parenthesis or a quotation mark. By the rules, a refusal of a text holds
the part of it that begins at such a character: for a list that is not closed this is in front of
all that has been read of it.

## What is proved

* `refused_of_readItems`, `refused_of_readForms`, `refused_of_readDatumWith` — the reader refuses
  only by the rules.
* `Datum.takesFront` — a datum is taken from the front of a text.
* `isIn_of_readForms` — a refusal of a text begins inside it, at a character to blame.
-/

namespace SubstLisp.Reader

open Text (isBlank)

variable {limit : Nat}

/-! ### The rules -/

/-- Data one after the other are refused: what ends them is, or the first of them that is refused,
behind others that are not. -/
inductive SequenceRefused (datum : DatumReader) (refusedEnd : List Char → Prop)
    (refusal : Refusal) : List Char → Prop where
  /-- The end of the sequence is refused. -/
  | done {s : List Char} : refusedEnd (skipTrivia s) →
      SequenceRefused datum refusedEnd refusal s
  /-- The next datum is refused. -/
  | here {s : List Char} : datum (skipTrivia s) = .error refusal →
      SequenceRefused datum refusedEnd refusal s
  /-- What is behind the next datum is refused. -/
  | later {s r : List Char} {f : Tree} : datum.grammar (skipTrivia s) f r →
      SequenceRefused datum refusedEnd refusal r → SequenceRefused datum refusedEnd refusal s

/-- The items of a list are refused: the text ends before the list does, or one of them is. -/
abbrev ItemsRefused (datum : DatumReader) (opening : List Char) (refusal : Refusal) :
    List Char → Prop :=
  SequenceRefused datum (fun t => t = [] ∧ refusal = ⟨.unclosedList, opening⟩) refusal

/-- The forms of a text are refused: a parenthesis closes no list, or one of them is. -/
abbrev FormsRefused (datum : DatumReader) (refusal : Refusal) : List Char → Prop :=
  SequenceRefused datum (fun t => ∃ r, t = ')' :: r ∧ refusal = ⟨.strayClose, t⟩) refusal

/-- A datum is refused, given the way to look for the data inside lists and quotations, if there is
room for any. -/
inductive DatumRefused (inner : Option DatumReader) : Refusal → List Char → Prop where
  /-- There is no room for a list or a quotation. -/
  | tooDeep {c : Char} {s : List Char} : inner = none → c = '\'' ∨ c = '(' →
      DatumRefused inner ⟨.tooDeep, c :: s⟩ (c :: s)
  /-- The datum after a quotation mark is refused. -/
  | quotation {datum : DatumReader} {refusal : Refusal} {s : List Char} : inner = some datum →
      datum s = .error refusal → DatumRefused inner refusal ('\'' :: s)
  /-- The items of a list are refused. -/
  | list {datum : DatumReader} {refusal : Refusal} {s : List Char} : inner = some datum →
      ItemsRefused datum ('(' :: s) refusal s → DatumRefused inner refusal ('(' :: s)
  /-- A string literal is not closed. -/
  | string {s : List Char} : '"' ∉ s → DatumRefused inner ⟨.unclosedString, '"' :: s⟩ ('"' :: s)

/-! ### The reader follows the rules -/

theorem skipTriviaFrom_eq_cons {inComment : Bool} {s cs : List Char} {c : Char}
    (h : skipTriviaFrom inComment s = c :: cs) : isBlank c = false ∧ c ≠ ';' := by
  induction s generalizing inComment with
  | nil => cases h
  | cons d s ih =>
    cases inComment with
    | true => exact ih h
    | false =>
      simp only [skipTriviaFrom] at h
      split at h
      · exact ih h
      · next hcomment =>
        split at h
        · exact ih h
        · next hblank =>
          cases h
          exact ⟨by simpa using hblank, hcomment⟩

/-- Behind blanks and comments a datum starts unless a list or the text ends there. -/
theorem not_startsNoDatum_of_skipTrivia {s cs : List Char} {c : Char}
    (h : skipTrivia s = c :: cs) (hc : c ≠ ')') : ¬ StartsNoDatum (c :: cs) := by
  obtain ⟨hblank, hcomment⟩ := skipTriviaFrom_eq_cons h
  simp [startsNoDatum_cons, hblank, hc, hcomment]

/-- Without a quotation mark in it a string literal is not closed. -/
theorem closeString_eq_none_iff {s : List Char} : closeString s = none ↔ '"' ∉ s := by
  constructor
  · intro h hmem
    obtain ⟨literal, r, rfl, hliteral⟩ := List.eq_append_cons_of_mem hmem
    obtain ⟨_, hsome⟩ := @closeString_eq_some_iff (literal ++ '"' :: r) r (String.ofList literal)
      |>.2 ⟨by rwa [String.toList_ofList], by rw [String.toList_ofList]⟩
    rw [h] at hsome
    cases hsome
  · intro hmem
    cases h : closeString s with
    | none => rfl
    | some found =>
      obtain ⟨literal, r, hr⟩ := found
      obtain ⟨-, rfl⟩ := closeString_eq_some_iff.1 ⟨hr, h⟩
      simp at hmem

/-- Items of a list are only refused by the rules. -/
theorem refused_of_readItems {datum : DatumReader} (hcomplete : datum.Complete)
    {opening s : List Char} {refusal : Refusal} (h : readItems datum opening s = .error refusal) :
    ItemsRefused datum opening refusal s := by
  induction hn : s.length using Nat.strongRecOn generalizing s with
  | ind n ih =>
    rw [readItems] at h
    split at h
    · next hskip =>
      cases h
      exact .done ⟨hskip, rfl⟩
    · next c cs hskip =>
      simp only at h
      split at h
      · cases h
      · next hc =>
        rcases of_bind_eq_error h with h | ⟨_ | ⟨item, r, hr⟩, hdatum, h⟩
        · exact .here (hskip ▸ h)
        · exact absurd ((hcomplete _).1 hdatum) (not_startsNoDatum_of_skipTrivia hskip hc)
        · have hitem : datum.grammar (skipTrivia s) item r := by
            rw [hskip]
            exact ⟨hr, hdatum⟩
          have hlt := length_lt_of_skipTrivia_eq_cons hskip hr
          rcases of_bind_eq_error h with h | ⟨_, -, h⟩
          · exact .later hitem (ih r.length (hn ▸ hlt) h rfl)
          · cases h

/-- Forms of a text are only refused by the rules. -/
theorem refused_of_readForms {s : List Char} {refusal : Refusal}
    (h : readForms limit s = .error refusal) : FormsRefused (readDatum limit) refusal s := by
  induction hn : s.length using Nat.strongRecOn generalizing s with
  | ind n ih =>
    rw [readForms] at h
    split at h
    · cases h
    · next c cs hskip =>
      split at h
      · next hc =>
        cases h
        exact .done ⟨cs, by rw [hskip, hc], by rw [hskip]⟩
      · next hc =>
        rcases of_bind_eq_error h with h | ⟨_ | ⟨form, r, hr⟩, hdatum, h⟩
        · exact .here (hskip ▸ h)
        · exact absurd ((complete_readDatum limit _).1 hdatum)
            (not_startsNoDatum_of_skipTrivia hskip hc)
        · have hform : (readDatum limit).grammar (skipTrivia s) form r := by
            rw [hskip]
            exact ⟨hr, hdatum⟩
          have hlt := length_lt_of_skipTrivia_eq_cons hskip hr
          rcases of_bind_eq_error h with h | ⟨_, -, h⟩
          · exact .later hform (ih r.length (hn ▸ hlt) h rfl)
          · cases h

/-- A datum is only refused by the rules. -/
theorem refused_of_readDatumWith {inner : Option DatumReader}
    (hinner : ∀ datum ∈ inner, datum.Complete) {s : List Char} {refusal : Refusal}
    (h : readDatumWith inner s = .error refusal) : DatumRefused inner refusal s := by
  cases s with
  | nil => cases h
  | cons c s =>
    simp only [readDatumWith] at h
    split at h
    · next hc =>
      cases inner with
      | none =>
        cases h
        exact .tooDeep rfl (.inl hc)
      | some datum =>
        subst hc
        rcases of_bind_eq_error h with h | ⟨_ | _, -, h⟩
        · exact .quotation rfl h
        · cases h
        · cases h
    split at h
    · next hc =>
      cases inner with
      | none =>
        cases h
        exact .tooDeep rfl (.inr hc)
      | some datum =>
        subst hc
        rcases of_bind_eq_error h with h | ⟨_, -, h⟩
        · exact .list rfl (refused_of_readItems (hinner datum rfl) h)
        · cases h
    split at h
    · next hc =>
      subst hc
      split at h
      · next hclose =>
        cases h
        exact .string (closeString_eq_none_iff.1 hclose)
      · cases h
    · cases h

/-! ### What is taken from the front of a text -/

/-- The data of a grammar are taken from the front of a text. -/
def Grammar.TakesFront (datum : Grammar) : Prop := ∀ {s f r}, datum s f r → r <:+ s

theorem Items.suffix {datum : Grammar} (hdatum : datum.TakesFront) {s r : List Char}
    {items : List Tree} (h : Items datum s items r) : r <:+ s := by
  induction h with
  | @done s hclose =>
    have hskip := skipTrivia_suffix s
    rw [hclose] at hskip
    exact (List.suffix_cons ')' r).trans hskip
  | @more s r' f fs _ hf _ ih => exact (ih.trans (hdatum hf)).trans (skipTrivia_suffix s)

theorem DatumWith.takesFront {inner : Option Grammar}
    (hinner : ∀ datum ∈ inner, datum.TakesFront) : Grammar.TakesFront (DatumWith inner) := by
  intro s f r h
  cases h with
  | @quotation _ s _ _ hsome hf => exact (hinner _ hsome hf).trans (List.suffix_cons '\'' s)
  | mark => exact List.suffix_cons _ _
  | @list _ s _ _ hsome hitems =>
    exact (Items.suffix (hinner _ hsome) hitems).trans (List.suffix_cons '(' s)
  | @string literal r _ => exact ⟨'"' :: (literal ++ ['"']), by simp⟩
  | @atom c cs r _ _ _ => exact ⟨c :: cs, rfl⟩

/-- A datum is taken from the front of a text. -/
theorem Datum.takesFront (room : Nat) : (Datum room).TakesFront := by
  induction room with
  | zero => exact DatumWith.takesFront (by simp)
  | succ room ih =>
    refine DatumWith.takesFront ?_
    rintro _ ⟨⟩
    exact ih

/-! ### Where texts are refused -/

/-- The characters that a fault can be blamed on. -/
def Fault.culprits : Fault → List Char
  | .unclosedList => ['(']
  | .unclosedString => ['"']
  | .strayClose => [')']
  | .tooDeep => ['\'', '(']
  | .noDatum => []

/-- A refusal begins inside a text, at a character that its fault is to be blamed on. -/
structure Refusal.IsIn (s : List Char) (refusal : Refusal) : Prop where
  suffix : refusal.rest <:+ s
  culprit : ∃ c ∈ refusal.fault.culprits, refusal.rest.head? = some c

theorem Refusal.IsIn.trans {s t : List Char} {refusal : Refusal} (h : refusal.IsIn s)
    (hs : s <:+ t) : refusal.IsIn t :=
  ⟨h.suffix.trans hs, h.culprit⟩

/-- A refusal at the front of a text, for a fault of its first character. -/
theorem Refusal.isIn_front {fault : Fault} {c : Char} (h : c ∈ fault.culprits) (s : List Char) :
    Refusal.IsIn (c :: s) ⟨fault, c :: s⟩ :=
  ⟨List.suffix_rfl, c, h, rfl⟩

/-- What a way to look for a datum refuses, it refuses inside the text. -/
def DatumReader.RefusesInside (datum : DatumReader) : Prop :=
  ∀ s refusal, datum s = .error refusal → refusal.IsIn s

/-- A sequence of data at the end of a text `t` is refused inside `t` if what ends it is. -/
theorem SequenceRefused.isIn {datum : DatumReader} {refusedEnd : List Char → Prop}
    {refusal : Refusal} {s t : List Char} (h : SequenceRefused datum refusedEnd refusal s)
    (hfront : datum.grammar.TakesFront) (hinside : datum.RefusesInside)
    (hend : ∀ r, r <:+ t → refusedEnd r → refusal.IsIn t) (hs : s <:+ t) : refusal.IsIn t := by
  -- `t` stays as it is while `s` gets shorter: an open list is refused from its parenthesis on
  induction h with
  | @done s h => exact hend _ ((skipTrivia_suffix s).trans hs) h
  | @here s h => exact (hinside _ _ h).trans ((skipTrivia_suffix s).trans hs)
  | @later s r f hf _ ih => exact ih ((hfront hf).trans ((skipTrivia_suffix s).trans hs))

theorem DatumRefused.isIn {inner : Option DatumReader}
    (hinner : ∀ datum ∈ inner, datum.grammar.TakesFront ∧ datum.RefusesInside)
    {s : List Char} {refusal : Refusal} (h : DatumRefused inner refusal s) : refusal.IsIn s := by
  cases h with
  | @tooDeep c s _ hc =>
    refine Refusal.isIn_front ?_ s
    rcases hc with rfl | rfl <;> decide
  | @quotation datum _ s hsome h =>
    obtain ⟨-, hinside⟩ := hinner datum hsome
    exact (hinside s refusal h).trans (List.suffix_cons '\'' s)
  | @list datum _ s hsome h =>
    obtain ⟨hfront, hinside⟩ := hinner datum hsome
    refine h.isIn hfront hinside ?_ (List.suffix_cons '(' s)
    rintro _ - ⟨-, rfl⟩
    exact Refusal.isIn_front (by decide) s
  | @string s _ => exact Refusal.isIn_front (by decide) s

/-- What is refused as a datum is refused inside the text. -/
theorem refusesInside_readDatum (room : Nat) : (readDatum room).RefusesInside := by
  induction room with
  | zero =>
    intro s refusal h
    exact (@refused_of_readDatumWith none (by simp) s refusal h).isIn (by simp)
  | succ room ih =>
    intro s refusal h
    refine (@refused_of_readDatumWith (some (readDatum room)) ?_ s refusal h).isIn ?_
    · rintro _ ⟨⟩
      exact complete_readDatum room
    · rintro _ ⟨⟩
      rw [grammar_readDatum]
      exact ⟨Datum.takesFront room, ih⟩

/-- A text is refused inside it, at a character to blame. -/
theorem isIn_of_readForms {s : List Char} {refusal : Refusal}
    (h : readForms limit s = .error refusal) : refusal.IsIn s := by
  have hfront : (readDatum limit).grammar.TakesFront := grammar_readDatum limit ▸ Datum.takesFront limit
  refine (refused_of_readForms h).isIn hfront (refusesInside_readDatum limit) ?_ List.suffix_rfl
  rintro _ hr ⟨r, rfl, rfl⟩
  exact (Refusal.isIn_front (by decide) r).trans hr

end SubstLisp.Reader
