import SubstLisp.Form.Diagnosis
import SubstLisp.Form.Printer
import SubstLisp.Proofs.Grammar

/-!
# Readable forms

Which forms the reader can give, and that printing inverts it. A form is readable under a nesting
limit when its atoms and string literals can be written down and every list, and every atom that is
a lone quotation mark, stands inside fewer lists than the limit allows: the reader takes a
quotation mark for the start of a quotation first, so it needs room for one.

## What is proved

* `Datum.readable` — every datum of the grammar is readable.
* `Form.Readable.datum` — the written form of a readable form is a datum, whatever separates it
  from the text behind it.
* `read_text_iff` — the readable sequences of forms are exactly those that some text is read as,
  and their written forms with blanks between them are such a text.
-/

namespace SubstLisp

universe u

open Text (isBlank)

/-! ### Readable forms -/

/-- A word that can be written as an atom. -/
structure IsWord (word : String) : Prop where
  /-- It is not empty. -/
  ne_empty : word ≠ ""
  /-- No character of it is blank or has a meaning of its own. -/
  plain : ∀ c ∈ word.toList, isBlank c = false ∧ c ≠ '(' ∧ c ≠ ')' ∧ c ≠ '"' ∧ c ≠ ';'
  /-- It starts with a quotation mark only if it is one. -/
  mark : word.toList.head? = some '\'' → word = "'"

namespace Form

variable {ι : Type u} {limit enclosing : Nat}

mutual

/-- Whether a form inside so many lists can be read under a nesting limit. -/
def Readable (limit enclosing : Nat) : Form ι → Prop
  | atom _ word => IsWord word ∧ (word = "'" → enclosing < limit)
  | string _ literal => '"' ∉ literal.toList
  | list _ items => enclosing < limit ∧ ReadableAll limit (enclosing + 1) items

/-- Whether all the forms of a list inside so many lists can be read under a nesting limit. -/
def ReadableAll (limit enclosing : Nat) : List (Form ι) → Prop
  | [] => True
  | f :: fs => Readable limit enclosing f ∧ ReadableAll limit enclosing fs

end

@[simp]
theorem readableAll_iff {fs : List (Form ι)} :
    ReadableAll limit enclosing fs ↔ ∀ f ∈ fs, f.Readable limit enclosing := by
  induction fs with
  | nil => simp [ReadableAll]
  | cons f fs ih => simp [ReadableAll, ih]

/-- Labels do not matter. -/
@[simp]
theorem readable_erase {f : Form ι} :
    f.erase.Readable limit enclosing ↔ f.Readable limit enclosing := by
  induction f generalizing enclosing with
  | atom => rfl
  | string => rfl
  | list label items ih =>
    simp only [erase_list, Readable, readableAll_iff, List.forall_mem_map]
    exact and_congr_right fun _ => forall₂_congr fun f hf => ih f hf

end Form

/-! ### What is read is readable -/

namespace Reader

theorem isWord_quotationMark : IsWord "'" := by
  refine ⟨by decide, ?_, fun _ => rfl⟩
  intro c hc
  obtain rfl : c = '\'' := by simpa using hc
  decide

theorem isWord_quote : IsWord "quote" := by
  have hplain : "quote".toList.all isAtomChar = true := by decide
  exact ⟨by decide, fun c hc => isAtomChar_iff.1 (List.all_eq_true.1 hplain c hc), by decide⟩

theorem ofList_cons_ne_quotationMark {c : Char} (h : c ≠ '\'') (cs : List Char) :
    String.ofList (c :: cs) ≠ "'" := by
  intro hmark
  have hchars := congrArg String.toList hmark
  rw [String.toList_ofList] at hchars
  exact h (List.cons.inj hchars).1

theorem isWord_of_isAtomChar {c : Char} {cs : List Char} (hquote : c ≠ '\'')
    (hcs : ∀ d ∈ c :: cs, isAtomChar d = true) : IsWord (String.ofList (c :: cs)) := by
  refine ⟨?_, ?_, ?_⟩
  · intro h
    simpa using congrArg String.toList h
  · intro d hd
    exact isAtomChar_iff.1 (hcs d (by simpa using hd))
  · intro h
    simp [hquote] at h

/-- If data are readable inside one list more then so are the data in a sequence. -/
theorem Sequence.readable {datum : Grammar} {isEnd : List Char → Prop} {limit enclosing : Nat}
    (hdatum : ∀ {s f r}, datum s f r → f.Readable limit enclosing) {s : List Char}
    {fs : List Tree} (h : Sequence datum isEnd s fs) : ∀ f ∈ fs, f.Readable limit enclosing := by
  induction h with
  | done => exact fun _ h => absurd h List.not_mem_nil
  | more _ hf _ ih => exact List.forall_mem_cons.2 ⟨hdatum hf, ih⟩

/-- A datum is readable if there is a list less to go for the data inside it, and these are
readable. -/
theorem DatumWith.readable {inner : Option Grammar} {limit enclosing : Nat}
    (hinner : ∀ datum ∈ inner, enclosing < limit ∧
      ∀ {s f r}, datum s f r → f.Readable limit (enclosing + 1))
    {s r : List Char} {f : Tree} (h : DatumWith inner s f r) : f.Readable limit enclosing := by
  cases h with
  | quotation hsome hdatum =>
    obtain ⟨hlt, hreadable⟩ := hinner _ hsome
    exact ⟨hlt, ⟨isWord_quote, fun h => absurd h (by decide)⟩, hreadable hdatum, trivial⟩
  | mark hsome _ => exact ⟨isWord_quotationMark, fun _ => (hinner _ hsome).1⟩
  | list hsome hitems =>
    obtain ⟨hlt, hreadable⟩ := hinner _ hsome
    exact ⟨hlt, Form.readableAll_iff.2 (hitems.readable hreadable)⟩
  | string hliteral => simpa [Form.Readable] using hliteral
  | @atom c cs _ hquote hcs _ =>
    refine ⟨isWord_of_isAtomChar hquote hcs, ?_⟩
    exact fun h => absurd h (ofList_cons_ne_quotationMark hquote cs)

theorem Datum.of_forall {room : Nat} {s r : List Char} {f : Tree}
    (h : ∀ inner, DatumWith inner s f r) : Datum room s f r := by
  cases room <;> exact h _

/-- Every datum of the grammar is readable. -/
theorem Datum.readable {room enclosing : Nat} {s r : List Char} {f : Tree}
    (h : Datum room s f r) : f.Readable (enclosing + room) enclosing := by
  induction room generalizing enclosing s f r with
  | zero => exact DatumWith.readable (by simp) h
  | succ room ih =>
    refine DatumWith.readable ?_ h
    rintro _ ⟨⟩
    refine ⟨by omega, ?_⟩
    intro _ _ _ h
    rw [← Nat.succ_add_eq_add_succ]
    exact ih h

/-! ### What is readable is read -/

/-- Written forms with blanks, at least one, between each two neighbours. -/
inductive Spaced : List String → String → Prop where
  /-- Nothing. -/
  | none : Spaced [] ""
  /-- One form. -/
  | one (text : String) : Spaced [text] text
  /-- A form before others. -/
  | more {text blanks rest : String} {texts : List String} :
      blanks ≠ "" → (∀ c ∈ blanks.toList, isBlank c = true) → texts ≠ [] → Spaced texts rest →
      Spaced (text :: texts) (text ++ blanks ++ rest)

/-- Forms joined by blanks are spaced. -/
theorem spaced_intercalate {blanks : String} (hne : blanks ≠ "")
    (hblanks : ∀ c ∈ blanks.toList, isBlank c = true) (texts : List String) :
    Spaced texts (blanks.intercalate texts) := by
  induction texts with
  | nil => exact .none
  | cons text texts ih =>
    cases texts with
    | nil => exact .one text
    | cons next texts =>
      rw [String.intercalate_cons_cons]
      exact .more hne hblanks (List.cons_ne_nil _ _) ih

theorem spaced_space (texts : List String) : Spaced texts (" ".intercalate texts) := by
  have hblank : " ".toList.all isBlank = true := by decide
  exact spaced_intercalate (by decide) (List.all_eq_true.1 hblank) texts

/-- Where a datum of the grammar starts there is nothing to skip, and no list ends. -/
theorem Datum.not_startsNoDatum {room : Nat} {s r : List Char} {f : Tree} (h : Datum room s f r) :
    ¬ StartsNoDatum s := by
  intro hs
  rw [← grammar_readDatum] at h
  obtain ⟨_, hsome⟩ := h
  rw [(complete_readDatum room s).2 hs] at hsome
  cases hsome

theorem skipTrivia_of_not_startsNoDatum {s : List Char} (h : ¬ StartsNoDatum s) :
    skipTrivia s = s ∧ ∀ t, s ≠ ')' :: t := by
  cases s with
  | nil => exact absurd startsNoDatum_nil h
  | cons c s =>
    rw [startsNoDatum_cons, not_or, not_or] at h
    obtain ⟨hblank, hclose, hcomment⟩ := h
    refine ⟨skipTrivia_cons (by simpa using hblank) hcomment s, ?_⟩
    rintro t ⟨⟩
    exact hclose rfl

theorem startsNoDatum_append_of_isBlank {blanks : String} (hne : blanks ≠ "")
    (hblanks : ∀ c ∈ blanks.toList, isBlank c = true) (s : List Char) :
    StartsNoDatum (blanks.toList ++ s) := by
  cases h : blanks.toList with
  | nil => exact absurd (String.toList_eq_nil_iff.1 h) hne
  | cons c cs => exact startsNoDatum_cons.2 (.inl (hblanks c (by simp [h])))

/-- A sequence may start with blanks. -/
theorem Sequence.append_of_isBlank {datum : Grammar} {isEnd : List Char → Prop}
    {blanks s : List Char} {fs : List Tree} (hblanks : ∀ c ∈ blanks, isBlank c = true)
    (h : Sequence datum isEnd s fs) : Sequence datum isEnd (blanks ++ s) fs := by
  have hskip := skipTrivia_append_of_isBlank hblanks s
  cases h with
  | done hend => exact .done (hskip ▸ hend)
  | more hclose hf hfs => exact .more (hskip ▸ hclose) (hskip ▸ hf) hfs

/-- A datum may stand in front of a sequence. -/
theorem Sequence.cons {room : Nat} {isEnd : List Char → Prop} {s r : List Char} {f : Tree}
    {fs : List Tree} (hfs : Sequence (Datum room) isEnd r fs) (hf : Datum room s f r) :
    Sequence (Datum room) isEnd s (f :: fs) := by
  obtain ⟨hskip, hclose⟩ := skipTrivia_of_not_startsNoDatum hf.not_startsNoDatum
  exact .more (by rwa [hskip]) (by rwa [hskip]) hfs

/-- The sequence of the data whose written forms are given with blanks between them. -/
theorem sequence_of_spaced {ι : Type u} {room : Nat} {isEnd : List Char → Prop} {r : List Char}
    (hr : StartsNoDatum r) (hend : isEnd (skipTrivia r)) {fs : List (Form ι)} {text : String}
    (hdatum : ∀ f ∈ fs, ∀ r, StartsNoDatum r →
      Datum room (f.text.toList ++ r) f.erase r)
    (h : Spaced (fs.map Form.text) text) :
    Sequence (Datum room) isEnd (text.toList ++ r) (fs.map Form.erase) := by
  generalize htexts : fs.map Form.text = texts at h
  induction h generalizing fs with
  | none =>
    obtain rfl := List.map_eq_nil_iff.1 htexts
    exact .done hend
  | one text =>
    obtain ⟨f, rfl, rfl⟩ := List.map_eq_singleton_iff.1 htexts
    exact (Sequence.done hend).cons (hdatum f List.mem_cons_self r hr)
  | @more text blanks rest texts hne hblanks _ _ ih =>
    obtain ⟨f, fs, rfl, rfl, rfl⟩ := List.map_eq_cons_iff.1 htexts
    obtain ⟨hf, hfs⟩ := List.forall_mem_cons.1 hdatum
    rw [String.toList_append, String.toList_append, List.append_assoc, List.append_assoc]
    exact ((ih hfs rfl).append_of_isBlank hblanks).cons
      (hf _ (startsNoDatum_append_of_isBlank hne hblanks _))

end Reader

/-- The written form of a readable form is a datum, whatever separates it from the text behind
it. -/
theorem Form.Readable.datum {ι : Type u} {room enclosing : Nat} {f : Form ι}
    (h : f.Readable (enclosing + room) enclosing) {r : List Char} (hr : Reader.StartsNoDatum r) :
    Reader.Datum room (f.text.toList ++ r) f.erase r := by
  induction f generalizing room enclosing r with
  | atom label word =>
    obtain ⟨hword, hmark⟩ := h
    by_cases hquote : word = "'"
    · obtain ⟨room, rfl⟩ : ∃ n, room = n + 1 :=
        Nat.exists_eq_succ_of_ne_zero (by have := hmark hquote; omega)
      have hdatum : Reader.Datum (room + 1) ('\'' :: r) (.atom () "'") r := .mark rfl hr
      simpa [text, hquote] using hdatum
    · cases hchars : word.toList with
      | nil => exact absurd (String.toList_eq_nil_iff.1 hchars) hword.ne_empty
      | cons c cs =>
        obtain rfl : word = String.ofList (c :: cs) := by rw [← hchars, String.ofList_toList]
        have hc : c ≠ '\'' := fun hc => hquote (hword.mark (by simp [hc]))
        have hcs : ∀ d ∈ c :: cs, Reader.isAtomChar d = true := fun d hd =>
          Reader.isAtomChar_iff.2 (hword.plain d (by simpa using hd))
        have hdatum : Reader.Datum room (c :: (cs ++ r)) (.atom () (String.ofList (c :: cs))) r :=
          Reader.Datum.of_forall fun _ => .atom hc hcs hr.endsAtom
        simpa [text] using hdatum
  | string label literal =>
    have hdatum : Reader.Datum room ('"' :: (literal.toList ++ '"' :: r))
        (.string () (String.ofList literal.toList)) r :=
      Reader.Datum.of_forall fun _ => .string h
    simpa [text] using hdatum
  | list label items ih =>
    obtain ⟨hroom, hitems⟩ := h
    rw [readableAll_iff] at hitems
    obtain ⟨room, rfl⟩ : ∃ n, room = n + 1 := Nat.exists_eq_succ_of_ne_zero (by omega)
    rw [Nat.add_comm room, ← Nat.add_assoc] at hitems
    have hclose : Reader.StartsNoDatum (')' :: r) := Reader.startsNoDatum_cons.2 (by simp)
    have hseq : Reader.Items (Reader.Datum room)
        ((" ".intercalate (items.map text)).toList ++ ')' :: r) (items.map erase) r := by
      refine Reader.sequence_of_spaced hclose ?_ (fun f hf r hr => ih f hf (hitems f hf) hr)
        (Reader.spaced_space _)
      exact Reader.skipTrivia_cons (by decide) (by decide) r
    have hdatum : Reader.Datum (room + 1)
        ('(' :: ((" ".intercalate (items.map text)).toList ++ ')' :: r))
        (.list () (items.map erase)) r := .list rfl hseq
    simpa [text] using hdatum

/-! ### The forms that some text is read as -/

namespace Reader

theorem read_eq_ok_iff {limit : Nat} {source : String} {forms : List Tree} :
    read limit source = .ok forms ↔ Forms (Datum limit) source.toList forms := by
  rw [← readForms_iff, read]
  cases readForms limit source.toList with
  | error refusal =>
    constructor
    · intro h
      cases h
    · intro h
      cases h
  | ok found =>
    show Except.ok found = Except.ok forms ↔ Except.ok found = Except.ok forms
    rw [Except.ok.injEq, Except.ok.injEq]

/-- What a text is read as is readable. -/
theorem readable_of_read {limit : Nat} {source : String} {forms : List Tree}
    (h : read limit source = .ok forms) : ∀ f ∈ forms, f.Readable limit 0 :=
  Sequence.readable (fun {_ f _} h => (Nat.zero_add limit ▸ h.readable : f.Readable limit 0))
    (read_eq_ok_iff.1 h)

/-- The written forms of readable forms with blanks between them are read as these forms. -/
theorem read_of_spaced {ι : Type u} {limit : Nat} {forms : List (Form ι)} {text : String}
    (hforms : ∀ f ∈ forms, f.Readable limit 0) (htext : Spaced (forms.map Form.text) text) :
    read limit text = .ok (forms.map Form.erase) := by
  rw [read_eq_ok_iff, ← List.append_nil text.toList]
  refine sequence_of_spaced startsNoDatum_nil ?_ ?_ htext
  · rfl
  · intro f hf r hr
    have h : f.Readable (0 + limit) 0 := by simpa using hforms f hf
    exact h.datum hr

/-- Some text is read as given forms exactly when these are readable; then their written forms with
blanks between them are such a text, and so they are when the forms have been read from any other
text. -/
theorem read_text_iff {ι : Type u} (limit : Nat) (forms : List (Form ι)) :
    ((∃ source, read limit source = .ok (forms.map Form.erase)) ↔
      ∀ f ∈ forms, f.Readable limit 0) ∧
    ((∀ f ∈ forms, f.Readable limit 0) → ∀ text, Spaced (forms.map Form.text) text →
      read limit text = .ok (forms.map Form.erase)) ∧
    (∀ source, read limit source = .ok (forms.map Form.erase) →
      ∀ text, Spaced (forms.map Form.text) text →
        read limit text = .ok (forms.map Form.erase)) := by
  have hread : ∀ source, read limit source = .ok (forms.map Form.erase) →
      ∀ f ∈ forms, f.Readable limit 0 := by
    intro source h f hf
    exact Form.readable_erase.1 (readable_of_read h _ (List.mem_map_of_mem hf))
  refine ⟨⟨?_, ?_⟩, ?_, ?_⟩
  · rintro ⟨source, h⟩
    exact hread source h
  · intro h
    exact ⟨_, read_of_spaced h (spaced_space _)⟩
  · intro h text htext
    exact read_of_spaced h htext
  · intro source h text htext
    exact read_of_spaced (hread source h) htext

/-- A quotation is printed in full and read back, in front of a lone quotation mark. -/
theorem read_text_iff_quotation :
    (∀ f ∈ [Form.list () [.atom () "quote", .list () [.atom () "a"]], .atom () "'"],
      f.Readable 2 0) ∧
    read 2 "(quote (a))\n'" =
      .ok [.list () [.atom () "quote", .list () [.atom () "a"]], .atom () "'"] := by
  have hatom : ['a'].all isAtomChar = true := by decide
  have hblank : "\n".toList.all isBlank = true := by decide
  have ha : IsWord "a" := isWord_of_isAtomChar (by decide) (List.all_eq_true.1 hatom)
  have hforms : ∀ f ∈ [Form.list () [.atom () "quote", .list () [.atom () "a"]], .atom () "'"],
      f.Readable 2 0 := by
    simp [Form.Readable, Form.ReadableAll, isWord_quote, isWord_quotationMark, ha]
  refine ⟨hforms, (read_text_iff 2 _).2.1 hforms _ ?_⟩
  exact @Spaced.more _ "\n" _ _ (by decide) (List.all_eq_true.1 hblank) (List.cons_ne_nil _ _) (.one _)

end Reader

end SubstLisp
