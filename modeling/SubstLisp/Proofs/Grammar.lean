import SubstLisp.Form.Reader

/-!
# The grammar of forms

What the reader accepts, as a relation between a text, a form that it starts with and the rest of
the text. The rules are those of the language: a quotation mark quotes the datum that follows it at
once and is an atom when none does, a string literal ends at the next quotation mark, an atom ends
where no further character can belong to it. Lists and quotations use up one level of the room that
is left; blanks and comments stand before data and before a closing parenthesis.

## What is proved

* `complete_readDatum` — no datum starts at the end of a text or at a character that separates
  data, and one starts everywhere else.
* `grammar_readDatum` — under every limit the data that are found are those of the grammar.
* `readForms_iff` — the reader reads exactly the texts of the grammar.
-/

namespace SubstLisp.Reader

open Text (isBlank)

/-! ### Characters -/

theorem isAtomChar_iff {c : Char} : isAtomChar c = true ↔
    isBlank c = false ∧ c ≠ '(' ∧ c ≠ ')' ∧ c ≠ '"' ∧ c ≠ ';' := by
  simp [isAtomChar, and_assoc]

/-- A text at whose start no datum starts. -/
def StartsNoDatum (s : List Char) : Prop :=
  ∀ c, s.head? = some c → isBlank c = true ∨ c = ')' ∨ c = ';'

/-- A text at whose start no atom goes on. -/
def EndsAtom (s : List Char) : Prop := ∀ c, s.head? = some c → isAtomChar c = false

theorem takeWhile_append_of_endsAtom {cs r : List Char} (hcs : ∀ c ∈ cs, isAtomChar c = true)
    (hr : EndsAtom r) : (cs ++ r).takeWhile isAtomChar = cs := by
  rw [List.takeWhile_append_of_pos hcs]
  cases r with
  | nil => simp
  | cons c r => simp [hr c rfl]

theorem dropWhile_append_of_endsAtom {cs r : List Char} (hcs : ∀ c ∈ cs, isAtomChar c = true)
    (hr : EndsAtom r) : (cs ++ r).dropWhile isAtomChar = r := by
  rw [List.dropWhile_append_of_pos hcs]
  cases r with
  | nil => simp
  | cons c r => simp [hr c rfl]

theorem takeWhile_of_endsAtom {s : List Char} (h : EndsAtom s) : s.takeWhile isAtomChar = [] :=
  @takeWhile_append_of_endsAtom [] s (fun _ h => absurd h List.not_mem_nil) h

theorem dropWhile_of_endsAtom {s : List Char} (h : EndsAtom s) : s.dropWhile isAtomChar = s :=
  @dropWhile_append_of_endsAtom [] s (fun _ h => absurd h List.not_mem_nil) h

theorem endsAtom_dropWhile (s : List Char) : EndsAtom (s.dropWhile isAtomChar) := by
  intro c hc
  have h := List.head?_dropWhile_not isAtomChar s
  rw [hc] at h
  simpa using h

/-! ### Blanks and comments -/

/-- A blank is skipped. -/
theorem skipTrivia_cons_of_isBlank {c : Char} (h : isBlank c = true) (s : List Char) :
    skipTrivia (c :: s) = skipTrivia s := by
  have hne : c ≠ ';' := by
    rintro rfl
    exact absurd h (by decide)
  simp [skipTrivia, skipTriviaFrom, h, hne]

/-- Blanks are skipped. -/
theorem skipTrivia_append_of_isBlank {sep : List Char} (h : ∀ c ∈ sep, isBlank c = true)
    (s : List Char) : skipTrivia (sep ++ s) = skipTrivia s := by
  induction sep with
  | nil => rfl
  | cons c sep ih =>
    rw [List.cons_append, skipTrivia_cons_of_isBlank (h c List.mem_cons_self)]
    exact ih fun d hd => h d (List.mem_cons_of_mem c hd)

/-- What is neither blank nor the start of a comment is not skipped. -/
theorem skipTrivia_cons {c : Char} (hblank : isBlank c = false) (hne : c ≠ ';') (s : List Char) :
    skipTrivia (c :: s) = c :: s := by
  simp [skipTrivia, skipTriviaFrom, hblank, hne]

/-! ### The rules -/

/-- A relation between a text, a form at its start and the rest of the text. -/
abbrev Grammar := List Char → Tree → List Char → Prop

/-- Data one after the other, with blanks and comments between them, up to a text that ends the
sequence. -/
inductive Sequence (datum : Grammar) (isEnd : List Char → Prop) :
    List Char → List Tree → Prop where
  /-- The sequence is over. -/
  | done {s : List Char} : isEnd (skipTrivia s) → Sequence datum isEnd s []
  /-- One datum more. -/
  | more {s r : List Char} {f : Tree} {fs : List Tree} :
      (∀ t, skipTrivia s ≠ ')' :: t) → datum (skipTrivia s) f r → Sequence datum isEnd r fs →
      Sequence datum isEnd s (f :: fs)

/-- The items of a list up to its closing parenthesis. -/
abbrev Items (datum : Grammar) (s : List Char) (items : List Tree) (r : List Char) : Prop :=
  Sequence datum (· = ')' :: r) s items

/-- The forms of a text. -/
abbrev Forms (datum : Grammar) (s : List Char) (forms : List Tree) : Prop :=
  Sequence datum (· = []) s forms

/-- A datum, given the grammar of the data inside lists and quotations, if there is room for any. -/
inductive DatumWith (inner : Option Grammar) : Grammar where
  /-- A datum after a quotation mark. -/
  | quotation {datum : Grammar} {s r : List Char} {f : Tree} : inner = some datum → datum s f r →
      DatumWith inner ('\'' :: s) (.list () [.atom () "quote", f]) r
  /-- A quotation mark that no datum follows. -/
  | mark {datum : Grammar} {s : List Char} : inner = some datum → StartsNoDatum s →
      DatumWith inner ('\'' :: s) (.atom () "'") s
  /-- A list. -/
  | list {datum : Grammar} {s r : List Char} {items : List Tree} : inner = some datum →
      Items datum s items r → DatumWith inner ('(' :: s) (.list () items) r
  /-- A string literal. -/
  | string {literal r : List Char} : '"' ∉ literal →
      DatumWith inner ('"' :: (literal ++ '"' :: r)) (.string () (String.ofList literal)) r
  /-- An atom. -/
  | atom {c : Char} {cs r : List Char} : c ≠ '\'' → (∀ d ∈ c :: cs, isAtomChar d = true) →
      EndsAtom r → DatumWith inner (c :: (cs ++ r)) (.atom () (String.ofList (c :: cs))) r

/-- A datum in which lists and quotations nest to at most the given depth. -/
def Datum : (room : Nat) → Grammar
  | 0 => DatumWith none
  | room + 1 => DatumWith (some (Datum room))

/-! ### The reader follows the rules -/

/-- The grammar that a way to look for a datum follows. -/
def DatumReader.grammar (datum : DatumReader) : Grammar :=
  fun s f r => ∃ h, datum s = .ok (some (f, ⟨r, h⟩))

/-- A way to look for a datum that misses none. -/
def DatumReader.Complete (datum : DatumReader) : Prop :=
  ∀ s, datum s = .ok none ↔ StartsNoDatum s

theorem startsNoDatum_nil : StartsNoDatum [] := fun _ h => absurd h (by simp)

theorem startsNoDatum_cons {c : Char} {s : List Char} :
    StartsNoDatum (c :: s) ↔ isBlank c = true ∨ c = ')' ∨ c = ';' := by
  simp [StartsNoDatum]

theorem StartsNoDatum.endsAtom {s : List Char} (h : StartsNoDatum s) : EndsAtom s := by
  intro c hc
  rw [← Bool.not_eq_true, isAtomChar_iff]
  rintro ⟨hblank, -, hclose, -, hcomment⟩
  rcases h c hc with hc | hc | hc
  · simp [hblank] at hc
  · exact hclose hc
  · exact hcomment hc

theorem readAtom_eq_none_iff {c : Char} {s : List Char} :
    readAtom (c :: s) = none ↔ isAtomChar c = false := by
  cases h : isAtomChar c <;> simp [readAtom, h]

theorem readAtom_eq_some_iff {c : Char} {s r : List Char} {f : Tree} :
    (∃ h, readAtom (c :: s) = some (f, ⟨r, h⟩)) ↔
      isAtomChar c = true ∧ f = .atom () (String.ofList (c :: s.takeWhile isAtomChar)) ∧
        r = s.dropWhile isAtomChar := by
  constructor
  · rintro ⟨h, he⟩
    rw [readAtom] at he
    split at he
    · next hc =>
      cases he
      exact ⟨hc, rfl, rfl⟩
    · cases he
  · rintro ⟨hc, rfl, rfl⟩
    exact ⟨Nat.lt_succ_of_le (length_dropWhile_le _ s), by rw [readAtom, if_pos hc]⟩

theorem readAtom_of_endsAtom {c : Char} {cs r : List Char}
    (hcs : ∀ d ∈ c :: cs, isAtomChar d = true) (hr : EndsAtom r) :
    ∃ h, readAtom (c :: (cs ++ r)) = some (.atom () (String.ofList (c :: cs)), ⟨r, h⟩) := by
  obtain ⟨hc, hcs⟩ := List.forall_mem_cons.1 hcs
  exact readAtom_eq_some_iff.2 ⟨hc, by rw [takeWhile_append_of_endsAtom hcs hr],
    (dropWhile_append_of_endsAtom hcs hr).symm⟩

/-- The text after an opening quotation mark is closed by the first one in it. -/
theorem closeString_eq_some_iff {s r : List Char} {literal : String} :
    (∃ h, closeString s = some (literal, ⟨r, h⟩)) ↔
      '"' ∉ literal.toList ∧ s = literal.toList ++ '"' :: r := by
  have hsplit := List.takeWhile_append_dropWhile (p := (· != '"')) (l := s)
  constructor
  · rintro ⟨h, he⟩
    rw [closeString] at he
    split at he
    · cases he
    · next c r hdrop =>
      have hc := List.head?_dropWhile_not (· != '"') s
      rw [hdrop] at hc hsplit
      obtain rfl : c = '"' := by simpa using hc
      cases he
      refine ⟨?_, by simpa using hsplit.symm⟩
      intro hmem
      rw [String.toList_ofList] at hmem
      simpa using List.all_eq_true.1 List.all_takeWhile _ hmem
  · rintro ⟨hliteral, rfl⟩
    have hpos : ∀ c ∈ literal.toList, (c != '"') = true := by
      intro c hc
      have hne : c ≠ '"' := fun h => hliteral (h ▸ hc)
      simpa using hne
    have htake : (literal.toList ++ '"' :: r).takeWhile (· != '"') = literal.toList := by
      rw [List.takeWhile_append_of_pos hpos]; simp
    have hdrop : (literal.toList ++ '"' :: r).dropWhile (· != '"') = '"' :: r := by
      rw [List.dropWhile_append_of_pos hpos]; simp
    refine ⟨by simp; omega, ?_⟩
    rw [closeString]
    split
    · next h => simp [hdrop] at h
    · next c r' h =>
      rw [hdrop] at h
      cases h
      simp [htake]

/-- What comes out of two steps of reading comes out of the second one. -/
theorem of_bind_eq_ok {ε α β : Type} {x : Except ε α} {k : α → Except ε β} {b : β}
    (h : x >>= k = .ok b) : ∃ a, x = .ok a ∧ k a = .ok b := by
  cases x with
  | error e => cases h
  | ok a => exact ⟨a, rfl, h⟩

/-- Where two steps of reading are refused, the first one is or the second one is. -/
theorem of_bind_eq_error {ε α β : Type} {x : Except ε α} {k : α → Except ε β} {e : ε}
    (h : x >>= k = .error e) : x = .error e ∨ ∃ a, x = .ok a ∧ k a = .error e := by
  cases x with
  | error e' =>
    cases h
    exact .inl rfl
  | ok a => exact .inr ⟨a, rfl, h⟩

/-- A datum starts at an opening parenthesis and at either kind of quotation mark. -/
theorem readDatumWith_ne_none {inner : Option DatumReader} {c : Char} {s : List Char}
    (hc : c = '\'' ∨ c = '(' ∨ c = '"') : readDatumWith inner (c :: s) ≠ .ok none := by
  intro h
  rcases hc with rfl | rfl | rfl
  · cases inner with
    | none => cases h
    | some datum =>
      obtain ⟨_ | found, -, h⟩ := of_bind_eq_ok h
      · exact absurd (readAtom_eq_none_iff.1 (Except.ok.inj h)) (by decide)
      · cases h
  · cases inner with
    | none => cases h
    | some datum =>
      obtain ⟨found, -, h⟩ := of_bind_eq_ok h
      cases h
  · simp only [readDatumWith] at h
    split at h
    · next hne => exact absurd hne (by decide)
    · cases hclose : closeString s <;> simp [hclose] at h

theorem complete_readDatumWith (inner : Option DatumReader) :
    (readDatumWith inner).Complete := by
  intro s
  cases s with
  | nil => simp [readDatumWith, startsNoDatum_nil]
  | cons c s =>
    rw [startsNoDatum_cons]
    by_cases hc : c = '\'' ∨ c = '(' ∨ c = '"'
    · refine iff_of_false (readDatumWith_ne_none hc) ?_
      rcases hc with rfl | rfl | rfl <;> decide
    · obtain ⟨hquote, hopen, hmark⟩ : c ≠ '\'' ∧ c ≠ '(' ∧ c ≠ '"' := by simpa using hc
      simp only [readDatumWith, if_neg hquote, if_neg hopen, if_neg hmark]
      rw [Except.ok.injEq, readAtom_eq_none_iff, ← Bool.not_eq_true, isAtomChar_iff]
      simp only [ne_eq, hopen, hmark, not_false_eq_true, true_and]
      cases isBlank c <;> simp [Classical.or_iff_not_imp_left]

/-- What is left after a datum is shorter than the text before the blanks in front of it. -/
theorem length_lt_of_skipTrivia_eq_cons {s cs r : List Char} {c : Char}
    (hskip : skipTrivia s = c :: cs) (hr : r.length < (c :: cs).length) : r.length < s.length := by
  have hle := length_skipTrivia_le s
  rw [hskip] at hle
  omega

/-- In front of an item the reader reads this item and then the others. -/
theorem readItems_of_skipTrivia {datum : DatumReader} {opening s cs : List Char} {c : Char}
    (hskip : skipTrivia s = c :: cs) (hc : c ≠ ')') : readItems datum opening s =
      (do
        match ← datum (c :: cs) with
        | none => .error ⟨.noDatum, c :: cs⟩
        | some (item, ⟨r, hr⟩) =>
          let (items, ⟨r', hr'⟩) ← readItems datum opening r
          .ok (item :: items,
            ⟨r', Nat.lt_trans hr' (length_lt_of_skipTrivia_eq_cons hskip hr)⟩)) := by
  rw [readItems]
  split
  · next hnil => cases hnil.symm.trans hskip
  · next hcons =>
    cases hcons.symm.trans hskip
    simp only [if_neg hc]
    refine bind_congr ?_
    rintro (_ | ⟨_, _, _⟩) <;> rfl

/-- In front of a form the reader reads this form and then the others. -/
theorem readForms_of_skipTrivia {limit : Nat} {s cs : List Char} {c : Char}
    (hskip : skipTrivia s = c :: cs) (hc : c ≠ ')') : readForms limit s =
      (do
        match ← readDatum limit (c :: cs) with
        | none => .error ⟨.noDatum, c :: cs⟩
        | some (form, ⟨r, _⟩) =>
          let forms ← readForms limit r
          .ok (form :: forms)) := by
  rw [readForms]
  split
  · next hnil => cases hnil.symm.trans hskip
  · next hcons =>
    cases hcons.symm.trans hskip
    simp only [if_neg hc]
    refine bind_congr ?_
    rintro (_ | ⟨_, _, _⟩) <;> rfl

theorem Sequence.more_of_cons {datum : Grammar} {isEnd : List Char → Prop} {s cs r : List Char}
    {c : Char} {f : Tree} {fs : List Tree} (hskip : skipTrivia s = c :: cs) (hc : c ≠ ')')
    (hdatum : datum (c :: cs) f r) (h : Sequence datum isEnd r fs) :
    Sequence datum isEnd s (f :: fs) := by
  refine .more ?_ (hskip ▸ hdatum) h
  intro t ht
  rw [hskip] at ht
  cases ht
  exact hc rfl

/-- What the reader takes for the items of a list follows the rules. -/
theorem items_of_readItems {datum : DatumReader} {opening : List Char} {items : List Tree}
    {s r : List Char} {h : r.length < s.length}
    (hread : readItems datum opening s = .ok (items, ⟨r, h⟩)) :
    Items datum.grammar s items r := by
  induction hn : s.length using Nat.strongRecOn generalizing s items with
  | ind n ih =>
    rw [readItems] at hread
    split at hread
    · cases hread
    · next c cs hskip =>
      simp only at hread
      split at hread
      · next hc =>
        cases hread
        exact .done (hc ▸ hskip)
      · next hc =>
        obtain ⟨_ | ⟨item, r₁, hr₁⟩, hdatum, hread⟩ := of_bind_eq_ok hread
        · cases hread
        · obtain ⟨⟨items', r', hr'⟩, hrest, hread⟩ := of_bind_eq_ok hread
          cases hread
          have hlt := length_lt_of_skipTrivia_eq_cons hskip hr₁
          exact .more_of_cons hskip hc ⟨hr₁, hdatum⟩ (ih r₁.length (hn ▸ hlt) hrest rfl)

/-- The reader takes what follows the rules for the items of a list. -/
theorem readItems_of_items {datum : DatumReader} (opening : List Char) {items : List Tree}
    {s r : List Char} (h : Items datum.grammar s items r) :
    ∃ h, readItems datum opening s = .ok (items, ⟨r, h⟩) := by
  induction h with
  | @done s hskip =>
    have hle := length_skipTrivia_le s
    refine ⟨by simp only [hskip, List.length_cons] at hle; omega, ?_⟩
    rw [readItems]
    split
    · next h => simp [hskip] at h
    · next c cs h =>
      rw [hskip] at h
      cases h
      rfl
  | @more s r' f fs hclose hdatum _ ih =>
    obtain ⟨hr', hrest⟩ := ih
    have hle := length_skipTrivia_le s
    refine ⟨by obtain ⟨hr, -⟩ := hdatum; omega, ?_⟩
    obtain ⟨c, cs, hskip⟩ :=
      List.exists_cons_of_length_pos (Nat.zero_lt_of_lt (show r'.length < _ from hdatum.1))
    rw [hskip] at hdatum
    obtain ⟨hr, hdatum⟩ := hdatum
    rw [readItems_of_skipTrivia hskip fun hc => hclose cs (hc ▸ hskip)]
    simp [hdatum, hrest, bind, Except.bind]

theorem readItems_iff {datum : DatumReader} {opening : List Char} {items : List Tree}
    {s r : List Char} :
    (∃ h, readItems datum opening s = .ok (items, ⟨r, h⟩)) ↔ Items datum.grammar s items r :=
  ⟨fun ⟨_, h⟩ => items_of_readItems h, readItems_of_items opening⟩

/-- What is found at a quotation mark is a quotation or the mark. -/
theorem datumWith_of_quotationMark {inner : Option DatumReader}
    (hinner : ∀ datum ∈ inner, datum.Complete) {s r : List Char} {f : Tree}
    (h : (readDatumWith inner).grammar ('\'' :: s) f r) :
    DatumWith (inner.map DatumReader.grammar) ('\'' :: s) f r := by
  obtain ⟨hr, h⟩ := h
  cases inner with
  | none => cases h
  | some datum =>
    obtain ⟨_ | ⟨quoted, r₁, hr₁⟩, hdatum, h⟩ := of_bind_eq_ok h
    · have hnone := (hinner datum rfl s).1 hdatum
      obtain ⟨-, rfl, rfl⟩ := readAtom_eq_some_iff.1 ⟨hr, Except.ok.inj h⟩
      rw [takeWhile_of_endsAtom hnone.endsAtom, dropWhile_of_endsAtom hnone.endsAtom]
      exact .mark rfl hnone
    · cases h
      exact .quotation rfl ⟨hr₁, hdatum⟩

/-- What is found at an opening parenthesis is a list. -/
theorem datumWith_of_opening {inner : Option DatumReader} {s r : List Char} {f : Tree}
    (h : (readDatumWith inner).grammar ('(' :: s) f r) :
    DatumWith (inner.map DatumReader.grammar) ('(' :: s) f r := by
  obtain ⟨hr, h⟩ := h
  cases inner with
  | none => cases h
  | some datum =>
    obtain ⟨⟨items, r₁, hr₁⟩, hitems, h⟩ := of_bind_eq_ok h
    cases h
    exact .list rfl (readItems_iff.1 ⟨hr₁, hitems⟩)

/-- What is found when data inside lists and quotations are looked for in one way follows the
rules for the data that this way finds. -/
theorem datumWith_of_readDatumWith {inner : Option DatumReader}
    (hinner : ∀ datum ∈ inner, datum.Complete) {s r : List Char} {f : Tree}
    (h : (readDatumWith inner).grammar s f r) :
    DatumWith (inner.map DatumReader.grammar) s f r := by
  cases s with
  | nil =>
    obtain ⟨hr, h⟩ := h
    cases h
  | cons c s =>
    by_cases hquote : c = '\''
    · subst hquote
      exact datumWith_of_quotationMark hinner h
    by_cases hopen : c = '('
    · subst hopen
      exact datumWith_of_opening h
    obtain ⟨hr, h⟩ := h
    simp only [readDatumWith, if_neg hquote, if_neg hopen] at h
    by_cases hmark : c = '"'
    · subst hmark
      rw [if_pos rfl] at h
      cases hclose : closeString s with
      | none => simp [hclose] at h
      | some found =>
        obtain ⟨literal, r₁, hr₁⟩ := found
        have hr : f = .string () literal ∧ r = r₁ := by
          simpa [hclose, eq_comm] using h
        obtain ⟨rfl, rfl⟩ := hr
        obtain ⟨hliteral, rfl⟩ := closeString_eq_some_iff.1 ⟨hr₁, hclose⟩
        simpa using DatumWith.string hliteral
    · rw [if_neg hmark] at h
      obtain ⟨hc, rfl, rfl⟩ := readAtom_eq_some_iff.1 ⟨hr, Except.ok.inj h⟩
      have hcs : ∀ d ∈ c :: s.takeWhile isAtomChar, isAtomChar d = true :=
        List.forall_mem_cons.2 ⟨hc, List.all_eq_true.1 List.all_takeWhile⟩
      have hatom := @DatumWith.atom (inner.map DatumReader.grammar) c _ _ hquote hcs
        (endsAtom_dropWhile s)
      rwa [List.takeWhile_append_dropWhile] at hatom

/-- What follows the rules is found. -/
theorem readDatumWith_of_datumWith {inner : Option DatumReader}
    (hinner : ∀ datum ∈ inner, datum.Complete) {s r : List Char} {f : Tree}
    (h : DatumWith (inner.map DatumReader.grammar) s f r) :
    (readDatumWith inner).grammar s f r := by
  cases h with
  | quotation hsome hdatum =>
    obtain ⟨datum, rfl, rfl⟩ := Option.map_eq_some_iff.1 hsome
    obtain ⟨hr, hdatum⟩ := hdatum
    exact ⟨Nat.lt_succ_of_lt hr, by simp [readDatumWith, hdatum, bind, Except.bind]⟩
  | mark hsome hnone =>
    obtain ⟨datum, rfl, rfl⟩ := Option.map_eq_some_iff.1 hsome
    have hdatum := (hinner datum rfl r).2 hnone
    have hmark : ∀ d ∈ ['\''], isAtomChar d = true := List.forall_mem_singleton.2 (by decide)
    obtain ⟨hr, hatom⟩ := readAtom_of_endsAtom hmark hnone.endsAtom
    exact ⟨hr, by simpa [readDatumWith, hdatum, bind, Except.bind] using hatom⟩
  | @list _ s _ _ hsome hitems =>
    obtain ⟨datum, rfl, rfl⟩ := Option.map_eq_some_iff.1 hsome
    obtain ⟨hr, hitems⟩ := readItems_of_items ('(' :: s) hitems
    exact ⟨Nat.lt_succ_of_lt hr, by simp [readDatumWith, hitems, bind, Except.bind]⟩
  | @string literal _ hliteral =>
    obtain ⟨hr, hclose⟩ := closeString_eq_some_iff.2
      ⟨(String.toList_ofList (l := literal)).symm ▸ hliteral, by rw [String.toList_ofList]⟩
    exact ⟨Nat.lt_succ_of_lt hr, by simp [readDatumWith, hclose]⟩
  | @atom c cs _ hquote hcs hends =>
    obtain ⟨hr, hatom⟩ := readAtom_of_endsAtom hcs hends
    obtain ⟨-, hopen, -, hmark, -⟩ := isAtomChar_iff.1 (hcs c List.mem_cons_self)
    exact ⟨hr, by simp [readDatumWith, hquote, hopen, hmark, hatom]⟩

/-- A datum is found exactly when the rules derive it. -/
theorem grammar_readDatumWith {inner : Option DatumReader}
    (hinner : ∀ datum ∈ inner, datum.Complete) :
    (readDatumWith inner).grammar = DatumWith (inner.map DatumReader.grammar) := by
  funext s f r
  exact propext ⟨datumWith_of_readDatumWith hinner, readDatumWith_of_datumWith hinner⟩

/-- No datum starts at the end of a text or at a character that separates data, and one starts
everywhere else, under every limit. -/
theorem complete_readDatum (room : Nat) : (readDatum room).Complete := by
  cases room with
  | zero => exact complete_readDatumWith none
  | succ room => exact complete_readDatumWith (some (readDatum room))

/-- Under every limit the reader finds exactly the data of the grammar. -/
theorem grammar_readDatum (room : Nat) : (readDatum room).grammar = Datum room := by
  induction room with
  | zero => exact @grammar_readDatumWith none (by simp)
  | succ room ih =>
    refine (@grammar_readDatumWith (some (readDatum room)) ?_).trans ?_
    · rintro _ ⟨⟩
      exact complete_readDatum room
    · rw [Option.map_some, ih, Datum]

/-- What the reader reads a text as follows the rules. -/
theorem forms_of_readForms {limit : Nat} {s : List Char} {forms : List Tree}
    (h : readForms limit s = .ok forms) : Forms (readDatum limit).grammar s forms := by
  induction hn : s.length using Nat.strongRecOn generalizing s forms with
  | ind n ih =>
    rw [readForms] at h
    split at h
    · next hskip =>
      cases h
      exact .done hskip
    · next c cs hskip =>
      split at h
      · cases h
      · next hc =>
        obtain ⟨_ | ⟨form, r, hr⟩, hdatum, h⟩ := of_bind_eq_ok h
        · cases h
        · obtain ⟨forms', hrest, h⟩ := of_bind_eq_ok h
          cases h
          have hlt := length_lt_of_skipTrivia_eq_cons hskip hr
          exact .more_of_cons hskip hc ⟨hr, hdatum⟩ (ih r.length (hn ▸ hlt) hrest rfl)

/-- The reader reads a text as what follows the rules. -/
theorem readForms_of_forms {limit : Nat} {s : List Char} {forms : List Tree}
    (h : Forms (readDatum limit).grammar s forms) : readForms limit s = .ok forms := by
  induction h with
  | done hskip =>
    rw [readForms]
    split
    · rfl
    · next h => simp [hskip] at h
  | @more s r f fs hclose hdatum _ ih =>
    obtain ⟨c, cs, hskip⟩ :=
      List.exists_cons_of_length_pos (Nat.zero_lt_of_lt (show r.length < _ from hdatum.1))
    rw [hskip] at hdatum
    obtain ⟨hr, hdatum⟩ := hdatum
    rw [readForms_of_skipTrivia hskip fun hc => hclose cs (hc ▸ hskip)]
    simp [hdatum, ih, bind, Except.bind]

/-- The reader reads exactly the texts of the grammar, each as the forms that the grammar
derives. -/
theorem readForms_iff {limit : Nat} {s : List Char} {forms : List Tree} :
    readForms limit s = .ok forms ↔ Forms (Datum limit) s forms := by
  rw [← grammar_readDatum]
  exact ⟨forms_of_readForms, readForms_of_forms⟩

end SubstLisp.Reader
