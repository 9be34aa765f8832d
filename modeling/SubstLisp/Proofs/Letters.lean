import Mathlib.Data.List.DropRight
import SubstLisp.Proofs.Readable

/-!
# Letters in their places

What stands in a comment, what in a string literal and what in neither is settled for a text from
left to right, before it is read. A text is normalised by what its characters are in their places:
comments are taken out, up to the ends of their lines, then one space is written for every run of
blanks and none at the two ends. String literals are left as they are, and when a literal is not
closed so is all the text behind its quotation mark.

## What is proved

* `Text.letters_normalise` — what is left of a text has the places that it had.
* `Text.literalChars_normalise` — normalising keeps string literals.
* `Reader.literalChars_of_read` — reading keeps them, too.
-/

namespace SubstLisp.Text

/-- Where a character of a text stands. -/
inductive Place where
  /-- Neither in a comment nor in a string literal. -/
  | code
  /-- In a comment, which ends before the end of its line. -/
  | comment
  /-- In a string literal, from its opening to its closing quotation mark. -/
  | literal
  deriving DecidableEq, Repr

namespace Place

/-- Where a character stands, by the place that the text before it leads to. -/
def of : Place → Char → Place
  | code, c => if c = '"' then literal else if c = ';' then comment else code
  | comment, c => if c = '\n' then code else comment
  | literal, _ => literal

/-- The place that a text leads to with one character more. -/
def behind (p : Place) (c : Char) : Place := if p = literal ∧ c = '"' then code else p.of c

end Place

/-- A character of a text with its place. -/
structure Letter where
  /-- The character. -/
  char : Char
  /-- Where it stands. -/
  place : Place
  deriving DecidableEq, Repr

/-- The characters of a text with their places, for a text that starts at a given place. -/
def letters (p : Place) : List Char → List Letter
  | [] => []
  | c :: cs => ⟨c, p.of c⟩ :: letters (p.behind c) cs

/-- The text of letters. -/
def chars (xs : List Letter) : List Char := xs.map Letter.char

/-- A blank outside of comments and string literals. -/
def Letter.isGap (x : Letter) : Bool := x.place = .code && isBlank x.char

/-- A space outside of comments and string literals. -/
def Letter.space : Letter := ⟨' ', .code⟩

/-- The letters outside of comments. -/
def uncommented (xs : List Letter) : List Letter := xs.filter (·.place ≠ .comment)

/-- The letters with one space for every run of gaps. -/
def collapse : List Letter → List Letter
  | [] => []
  | x :: xs =>
    if x.isGap then if xs.head?.any Letter.isGap then collapse xs else .space :: collapse xs
    else x :: collapse xs

/-- The letters without the gaps at both ends. -/
def trimGaps (xs : List Letter) : List Letter :=
  (xs.dropWhile Letter.isGap).rdropWhile Letter.isGap

/-- The letters of the normal form of a text. -/
def normalLetters (source : List Char) : List Letter :=
  trimGaps (collapse (uncommented (letters .code source)))

/-- The normal form of a text: without comments, with one space for every run of blanks between
words and none at the ends, and with its string literals as they are. -/
def normalise (source : String) : String := String.ofList (chars (normalLetters source.toList))

/-- The semicolon in the literal begins no comment, and the blanks in it stay. -/
example : normalise " (a ;b\n\t'c  \";  \" ) ; d" = "(a 'c \";  \" )" := by decide

/-! ### What stays in its place -/

/-- Letters that stand in their places in a text that starts at a given place, none in a comment. -/
inductive Placed : Place → List Letter → Prop where
  /-- Nothing. -/
  | nil {p : Place} : Placed p []
  /-- One letter more. -/
  | cons {p : Place} {c : Char} {xs : List Letter} : p.of c ≠ .comment → Placed (p.behind c) xs →
      Placed p (⟨c, p.of c⟩ :: xs)

namespace Place

theorem behind_of_ne_literal {p : Place} (hp : p ≠ .literal) (c : Char) : p.behind c = p.of c :=
  if_neg fun h => hp h.1

theorem behind_ne_comment {p : Place} {c : Char} (h : p.of c ≠ .comment) :
    p.behind c ≠ .comment := by
  unfold behind
  split
  · decide
  · exact h

/-- Outside of comments only code leads to code. -/
theorem eq_code_of_of {p : Place} {c : Char} (hp : p ≠ .comment) (h : p.of c = .code) :
    p = .code := by
  cases p with
  | code => rfl
  | comment => exact absurd rfl hp
  | literal => cases h

/-- A blank in the code stays there. -/
theorem of_blank {c : Char} (hc : isBlank c = true) : code.of c = .code := by
  have hquote : c ≠ '"' := by
    rintro rfl
    cases hc
  have hcomment : c ≠ ';' := by
    rintro rfl
    cases hc
  simp [of, hquote, hcomment]

end Place

namespace Placed

variable {p : Place} {xs ys : List Letter}

/-- Letters in their places are the letters of their text. -/
theorem letters_chars (h : Placed p xs) : letters p (chars xs) = xs := by
  induction h with
  | nil => rfl
  | cons _ _ ih => exact congrArg _ ih

/-- A gap in its place stands in the code, and so does what follows. -/
theorem of_gap {x : Letter} (hp : p ≠ .comment) (h : Placed p (x :: xs)) (hx : x.isGap = true) :
    p = .code ∧ isBlank x.char = true ∧ Placed .code xs := by
  cases h with
  | @cons _ c _ hof hxs =>
    simp only [Letter.isGap, Bool.and_eq_true, decide_eq_true_eq] at hx
    obtain rfl := Place.eq_code_of_of hp hx.1
    refine ⟨rfl, hx.2, ?_⟩
    rwa [Place.behind_of_ne_literal (by decide), Place.of_blank hx.2] at hxs

theorem space (h : Placed .code xs) : Placed .code (.space :: xs) :=
  @cons .code ' ' xs (by decide) h

theorem left (h : Placed p (xs ++ ys)) : Placed p xs := by
  induction xs generalizing p with
  | nil => exact .nil
  | cons x xs ih =>
    cases h with
    | cons hof hxs => exact .cons hof (ih hxs)

/-- Collapsing leaves letters in their places. -/
theorem collapse (hp : p ≠ .comment) (h : Placed p xs) : Placed p (Text.collapse xs) := by
  induction xs generalizing p with
  | nil => exact .nil
  | cons x xs ih =>
    rw [Text.collapse]
    split
    · next hgap =>
      obtain ⟨rfl, -, hxs⟩ := h.of_gap hp hgap
      split
      · exact ih hp hxs
      · exact (ih hp hxs).space
    · cases h with
      | cons hof hxs => exact .cons hof (ih (Place.behind_ne_comment hof) hxs)

theorem dropWhile (h : Placed .code xs) : Placed .code (xs.dropWhile Letter.isGap) := by
  induction xs with
  | nil => exact .nil
  | cons x xs ih =>
    rw [List.dropWhile_cons]
    split
    · next hgap => exact ih (h.of_gap (by decide) hgap).2.2
    · exact h

/-- Trimming leaves letters in their places. -/
theorem trimGaps (h : Placed .code xs) : Placed .code (Text.trimGaps xs) := by
  obtain ⟨ys, hys⟩ := List.rdropWhile_prefix Letter.isGap (xs.dropWhile Letter.isGap)
  exact (hys ▸ h.dropWhile).left

end Placed

/-- In a comment that a character begins the text goes on with the comment. -/
theorem Place.eq_of_of_comment {p : Place} {c : Char} (hp : p ≠ .comment) (h : p.of c = .comment) :
    p = .code ∧ c = ';' ∧ p.behind c = .comment := by
  cases p with
  | comment => exact absurd rfl hp
  | literal => cases h
  | code =>
    simp only [of] at h
    split at h
    · cases h
    · split at h
      · next hc =>
        subst hc
        exact ⟨rfl, rfl, rfl⟩
      · cases h

theorem uncommented_cons_of_ne {x : Letter} (h : x.place ≠ .comment) (xs : List Letter) :
    uncommented (x :: xs) = x :: uncommented xs := by
  simp [uncommented, h]

theorem uncommented_cons_of_eq {x : Letter} (h : x.place = .comment) (xs : List Letter) :
    uncommented (x :: xs) = uncommented xs := by
  simp [uncommented, h]

/-- In a comment a letter is dropped unless it ends the line. -/
theorem uncommented_letters_comment_cons {c : Char} (hc : c ≠ '\n') (cs : List Char) :
    uncommented (letters .comment (c :: cs)) = uncommented (letters .comment cs) := by
  have hof : Place.comment.of c = .comment := by simp [Place.of, hc]
  rw [letters, uncommented_cons_of_eq hof, Place.behind_of_ne_literal (by decide), hof]

/-- Without its comments a text has its letters in their places: after a comment the text goes on,
at the end of the line, where it stood before. -/
theorem placed_uncommented (cs : List Char) :
    (∀ p : Place, p ≠ .comment → Placed p (uncommented (letters p cs))) ∧
      Placed .code (uncommented (letters .comment cs)) := by
  induction cs with
  | nil => exact ⟨fun _ _ => .nil, .nil⟩
  | cons c cs ih =>
    obtain ⟨hkeep, hskip⟩ := ih
    refine ⟨fun p hp => ?_, ?_⟩
    · by_cases hof : p.of c = .comment
      · obtain ⟨rfl, -, hbehind⟩ := Place.eq_of_of_comment hp hof
        rw [letters, uncommented_cons_of_eq hof, hbehind]
        exact hskip
      · rw [letters, uncommented_cons_of_ne hof]
        exact .cons hof (hkeep _ (Place.behind_ne_comment hof))
    · by_cases hc : c = '\n'
      · subst hc
        exact @Placed.cons .code '\n' _ (by decide) (hkeep .code (by decide))
      · rw [uncommented_letters_comment_cons hc]
        exact hskip

theorem placed_normalLetters (source : List Char) : Placed .code (normalLetters source) :=
  (((placed_uncommented source).1 .code (by decide)).collapse (by decide)).trimGaps

/-- The letters of the normal form have the places that they had in the text. -/
theorem letters_normalise (source : String) :
    letters .code (normalise source).toList = normalLetters source.toList := by
  rw [normalise, String.toList_ofList, (placed_normalLetters _).letters_chars]

/-! ### String literals -/

/-- What stands in the string literals of a text, with their quotation marks. -/
def literalChars (p : Place) (source : List Char) : List Char :=
  chars ((letters p source).filter (·.place = .literal))

theorem Letter.place_of_isGap {x : Letter} (h : x.isGap = true) : x.place ≠ .literal := by
  intro hplace
  simp [isGap, hplace] at h

/-- Without gaps at the start there are the same string literals. -/
theorem filter_dropWhile (xs : List Letter) :
    (xs.dropWhile Letter.isGap).filter (·.place = .literal) =
      xs.filter (·.place = .literal) := by
  induction xs with
  | nil => rfl
  | cons x xs ih =>
    rw [List.dropWhile_cons]
    split
    · next hgap => rw [ih, List.filter_cons_of_neg (by simpa using Letter.place_of_isGap hgap)]
    · rfl

/-- Without gaps at the end there are the same string literals. -/
theorem filter_rdropWhile (xs : List Letter) :
    (xs.rdropWhile Letter.isGap).filter (·.place = .literal) =
      xs.filter (·.place = .literal) := by
  rw [List.rdropWhile, List.filter_reverse, filter_dropWhile, List.filter_reverse,
    List.reverse_reverse]

theorem filter_collapse (xs : List Letter) :
    (collapse xs).filter (·.place = .literal) = xs.filter (·.place = .literal) := by
  induction xs with
  | nil => rfl
  | cons x xs ih =>
    rw [collapse]
    split
    · next hgap =>
      rw [List.filter_cons_of_neg (by simpa using Letter.place_of_isGap hgap), ← ih]
      split <;> rfl
    · rw [List.filter_cons, List.filter_cons, ih]

theorem filter_uncommented (xs : List Letter) :
    (uncommented xs).filter (·.place = .literal) = xs.filter (·.place = .literal) := by
  rw [uncommented, List.filter_filter]
  refine List.filter_congr fun x _ => ?_
  cases x.place <;> rfl

/-- The normal form has the string literals of the text. -/
theorem literalChars_normalise (source : String) :
    literalChars .code (normalise source).toList = literalChars .code source.toList := by
  rw [literalChars, letters_normalise, normalLetters, trimGaps, filter_rdropWhile,
    filter_dropWhile, filter_collapse, filter_uncommented, literalChars]

theorem literalChars_cons (p : Place) (c : Char) (cs : List Char) :
    literalChars p (c :: cs) =
      if p.of c = .literal then c :: literalChars (p.behind c) cs
      else literalChars (p.behind c) cs := by
  rw [literalChars, letters, List.filter_cons]
  split <;> simp_all [literalChars, chars]

/-- A character that begins neither a string literal nor a comment stands outside of both. -/
theorem literalChars_cons_of_ne {c : Char} (h : c ≠ '"' ∧ c ≠ ';') (r : List Char) :
    literalChars .code (c :: r) = literalChars .code r := by
  have hof : Place.code.of c = .code := by simp [Place.of, h]
  rw [literalChars_cons, Place.behind_of_ne_literal (by decide), hof, if_neg (by decide)]

theorem literalChars_append {cs : List Char} (h : ∀ c ∈ cs, c ≠ '"' ∧ c ≠ ';') (r : List Char) :
    literalChars .code (cs ++ r) = literalChars .code r := by
  induction cs with
  | nil => rfl
  | cons c cs ih =>
    obtain ⟨hc, hcs⟩ := List.forall_mem_cons.1 h
    rw [List.cons_append, literalChars_cons_of_ne hc, ih hcs]

/-- A string literal runs to the next quotation mark. -/
theorem literalChars_literal {literal : List Char} (h : '"' ∉ literal) (r : List Char) :
    literalChars .literal (literal ++ '"' :: r) = literal ++ '"' :: literalChars .code r := by
  induction literal with
  | nil => exact literalChars_cons .literal '"' r
  | cons c literal ih =>
    obtain ⟨hc, h⟩ := List.ne_and_not_mem_of_not_mem_cons h
    have hbehind : Place.literal.behind c = .literal := if_neg fun h => hc h.2.symm
    rw [List.cons_append, literalChars_cons, hbehind, ih h]
    rfl

end SubstLisp.Text

namespace SubstLisp

universe u

/-! ### The string literals of forms -/

namespace Form

variable {ι : Type u}

mutual

/-- The texts of the string literals in a form, in order. -/
def literals : Form ι → List String
  | atom _ _ => []
  | string _ text => [text]
  | list _ items => literalsAll items

/-- The texts of the string literals in the forms of a list, in order. -/
def literalsAll : List (Form ι) → List String
  | [] => []
  | f :: fs => literals f ++ literalsAll fs

end

@[simp]
theorem literalsAll_eq_flatMap (fs : List (Form ι)) : literalsAll fs = fs.flatMap literals := by
  induction fs with
  | nil => rfl
  | cons f fs ih => simp [literalsAll, ih]

end Form

namespace Reader

open Text

/-- Texts between quotation marks. -/
def quoted (texts : List String) : List Char :=
  texts.flatMap fun text => '"' :: (text.toList ++ ['"'])

/-- Blanks and comments hold no string literal. -/
theorem literalChars_skipTriviaFrom (inComment : Bool) (s : List Char) :
    literalChars (if inComment then .comment else .code) s =
      literalChars .code (skipTriviaFrom inComment s) := by
  induction s generalizing inComment with
  | nil => cases inComment <;> rfl
  | cons c s ih =>
    cases inComment with
    | true =>
      rw [skipTriviaFrom, ← ih, literalChars_cons]
      by_cases hc : c = '\n' <;> simp [Place.of, Place.behind, hc]
    | false =>
      simp only [skipTriviaFrom]
      by_cases hc : c = ';'
      · subst hc
        rw [if_pos rfl, ← ih]
        exact literalChars_cons .code ';' s
      · rw [if_neg hc]
        by_cases hblank : isBlank c = true
        · have hof := Place.of_blank hblank
          rw [if_pos hblank, ← ih]
          simp [literalChars_cons, Place.behind, hof]
        · rw [if_neg hblank]
          rfl

theorem literalChars_skipTrivia (s : List Char) :
    literalChars .code (skipTrivia s) = literalChars .code s :=
  (literalChars_skipTriviaFrom false s).symm

/-- If data have the string literals of their texts then so has a sequence of data. -/
theorem Sequence.literalChars {datum : Grammar} {isEnd : List Char → Prop} {rest : List Char}
    (hdatum : ∀ {s f r}, datum s f r →
      Text.literalChars .code s = quoted f.literals ++ Text.literalChars .code r)
    (hend : ∀ s, isEnd s → Text.literalChars .code s = rest) {s : List Char} {fs : List Tree}
    (h : Sequence datum isEnd s fs) :
    Text.literalChars .code s = quoted (fs.flatMap Form.literals) ++ rest := by
  induction h with
  | done h => rw [← literalChars_skipTrivia, hend _ h]; rfl
  | more _ hf _ ih =>
    rw [← literalChars_skipTrivia, hdatum hf, ih, List.flatMap_cons, quoted, quoted, quoted,
      List.flatMap_append, List.append_assoc]

/-- The string literals of a datum are those of its text. -/
theorem DatumWith.literalChars {inner : Option Grammar}
    (hinner : ∀ datum ∈ inner, ∀ {s f r}, datum s f r →
      Text.literalChars .code s = quoted f.literals ++ Text.literalChars .code r)
    {s r : List Char} {f : Tree} (h : DatumWith inner s f r) :
    Text.literalChars .code s = quoted f.literals ++ Text.literalChars .code r := by
  cases h with
  | @quotation datum s _ f hsome hf =>
    have hliterals : (Form.list () [.atom () "quote", f]).literals = f.literals := by
      simp [Form.literals]
    rw [hliterals, ← hinner datum hsome hf]
    exact literalChars_cons_of_ne (by decide) s
  | @mark datum _ hsome hnone => exact literalChars_cons_of_ne (by decide) r
  | @list datum s _ items hsome hitems =>
    have hclose : ∀ t, t = ')' :: r → Text.literalChars .code t = Text.literalChars .code r := by
      rintro _ rfl
      exact literalChars_cons_of_ne (by decide) r
    have hsequence := hitems.literalChars (hinner datum hsome) hclose
    rw [Form.literals, Form.literalsAll_eq_flatMap, ← hsequence]
    exact literalChars_cons_of_ne (by decide) s
  | @string literal _ hliteral =>
    rw [literalChars_cons]
    show '"' :: Text.literalChars .literal (literal ++ '"' :: r) = _
    rw [literalChars_literal hliteral]
    simp [Form.literals, quoted]
  | @atom c cs _ hquote hcs hends =>
    refine @literalChars_append (c :: cs) ?_ r
    intro d hd
    exact (isAtomChar_iff.1 (hcs d hd)).2.2.2

/-- The string literals of a datum are those of its text. -/
theorem Datum.literalChars {room : Nat} {s r : List Char} {f : Tree} (h : Datum room s f r) :
    Text.literalChars .code s = quoted f.literals ++ Text.literalChars .code r := by
  induction room generalizing s r f with
  | zero => exact DatumWith.literalChars (by simp) h
  | succ room ih =>
    refine DatumWith.literalChars ?_ h
    rintro _ ⟨⟩
    exact ih

/-- String literals are read as they are. -/
theorem literalChars_of_read {limit : Nat} {source : String} {forms : List Tree}
    (h : read limit source = .ok forms) :
    literalChars .code source.toList = quoted (forms.flatMap Form.literals) := by
  have hend : ∀ s : List Char, s = [] → literalChars .code s = [] := by
    rintro _ rfl
    rfl
  have hforms := Sequence.literalChars Datum.literalChars hend (read_eq_ok_iff.1 h)
  rwa [List.append_nil] at hforms

end Reader

end SubstLisp
