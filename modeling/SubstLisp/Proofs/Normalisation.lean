import SubstLisp.Proofs.Letters
import SubstLisp.Proofs.Scanning

/-!
# Reading normal texts

Comments and the choice of blanks do not matter to the reader: a text and its normal form are read
as the same forms, or are refused for the same kind of mistake at the same character.

The scanner shows it. What it comes to is its verdict, without the offsets that comments and blanks
change. A blank in the code ends the word in progress and does nothing else, so a second one does
nothing at all, and neither does a comment, for the end of its line or of the text does as much.

## What is proved

* `verdict_congr` — scans from states that differ in offsets only come to the same.
* `place_step` — the scanner takes every character for what its place says.
* `verdict_uncommented`, `verdict_collapse`, `verdict_dropWhile`, `verdict_rdropWhile` — each part
  of normalising does nothing to the verdict.
* `Reader.read_normalise` — reading commutes with normalising.
-/

namespace SubstLisp.Scanner

open Reader
open Text (Place isBlank)

variable {limit : Nat}

/-! ### Scanning without offsets -/

/-- What is open, without its offset. -/
def Frame.bare : Frame → Frame
  | .list _ items => .list 0 items
  | .quote => .quote

/-- What the next character may belong to, without its offset. -/
def Mode.bare : Mode → Mode
  | .string _ chars => .string 0 chars
  | mode => mode

/-- The state without offsets. -/
def State.bare (s : State) : State := ⟨0, s.forms, s.frames.map Frame.bare, s.mode.bare⟩

/-- The kind of a mishap and what was found, without the offset. -/
def Mishap.bare (m : Mishap) : Diagnosis.Kind × Char := (m.kind, m.found)

/-- The outcome of a step without offsets. -/
def bareStep (x : Except Mishap State) : Except (Diagnosis.Kind × Char) State :=
  (x.map State.bare).mapError Mishap.bare

@[simp]
theorem Frame.bare_list (opening : Nat) (items : List Tree) :
    (list opening items).bare = list 0 items := rfl

@[simp]
theorem Frame.bare_bare (frame : Frame) : frame.bare.bare = frame.bare := by
  cases frame <;> rfl

@[simp]
theorem Mode.bare_bare (mode : Mode) : mode.bare.bare = mode.bare := by
  cases mode <;> rfl

@[simp]
theorem State.bare_bare (s : State) : s.bare.bare = s.bare := by
  simp [State.bare]

theorem bareStep_ok (s : State) : bareStep (.ok s) = .ok s.bare := rfl

/-- States that differ in offsets only. -/
theorem bareStep_ok_congr {s t : State} (h : s.bare = t.bare) :
    bareStep (.ok s) = bareStep (.ok t) := by
  rw [bareStep_ok, bareStep_ok, h]

theorem complete_map_bare (datum : Tree) (forms : List Tree) (frames : List Frame) :
    complete datum forms (frames.map Frame.bare) =
      ((complete datum forms frames).1, (complete datum forms frames).2.map Frame.bare) := by
  induction frames generalizing datum with
  | nil => rfl
  | cons frame frames ih =>
    cases frame with
    | list opening items => rfl
    | quote => exact ih _

theorem add_bare (s : State) (datum : Tree) : s.bare.add datum = (s.add datum).bare := by
  simp only [State.add, State.bare, complete_map_bare, Mode.bare]

theorem endWord_bare (s : State) (c : Char) : s.bare.endWord c = (s.endWord c).bare := by
  obtain ⟨offset, forms, frames, mode⟩ := s
  cases mode with
  | atom chars =>
    simp only [State.endWord, State.bare, Mode.bare]
    split
    · rfl
    · exact add_bare ⟨offset, forms, frames, .atom chars⟩ _
  | quoteMark =>
    simp only [State.endWord, State.bare, Mode.bare]
    split
    · exact add_bare ⟨offset, forms, frames, .quoteMark⟩ _
    · rfl
  | _ => rfl

theorem bareStep_openAt {s t opened opened' : State} {c : Char}
    (hframes : s.frames.length = t.frames.length) (hopened : opened.bare = opened'.bare) :
    bareStep (openAt limit s c opened) = bareStep (openAt limit t c opened') := by
  simp only [openAt, hframes]
  split
  · rfl
  · exact bareStep_ok_congr hopened

theorem bareStep_begin (s : State) (c : Char) :
    bareStep (begin limit s.bare c) = bareStep (begin limit s c) := by
  have hlength : s.bare.frames.length = s.frames.length := List.length_map _
  simp only [begin]
  split
  · exact bareStep_ok_congr (State.bare_bare s)
  split
  · exact bareStep_ok_congr (by simp [State.bare])
  split
  · exact bareStep_openAt hlength (by simp [State.bare])
  split
  · exact bareStep_openAt hlength (by simp [State.bare])
  split
  · exact bareStep_ok_congr (by simp [State.bare, Mode.bare])
  split
  · obtain ⟨offset, forms, frames, mode⟩ := s
    cases frames with
    | nil => rfl
    | cons frame frames =>
      cases frame with
      | list opening items =>
        refine bareStep_ok_congr ?_
        have hadd := add_bare ⟨offset, forms, frames, mode⟩ (.list () items.reverse)
        exact (congrArg State.bare hadd).trans (State.bare_bare _)
      | quote => rfl
  · exact bareStep_ok_congr (by simp [State.bare])

theorem bareStep_advance (s : State) (c : Char) :
    bareStep (advance limit s.bare c) = bareStep (advance limit s c) := by
  obtain ⟨offset, forms, frames, mode⟩ := s
  cases mode with
  | between => exact bareStep_begin ⟨offset, forms, frames, .between⟩ c
  | quoteMark => exact bareStep_begin ⟨offset, forms, frames, .quoteMark⟩ c
  | comment =>
    refine bareStep_ok_congr ?_
    simp only
    split <;> simp [State.bare]
  | atom chars => exact bareStep_ok_congr (by simp [State.bare])
  | string opening chars =>
    refine bareStep_ok_congr ?_
    simp only
    split
    · have hadd := add_bare ⟨offset, forms, frames, .string opening chars⟩
        (.string () (String.ofList chars.reverse))
      exact (congrArg State.bare hadd).trans (State.bare_bare _)
    · simp [State.bare, Mode.bare]

theorem bareStep_step (s : State) (c : Char) :
    bareStep (step limit s.bare c) = bareStep (step limit s c) := by
  have hoffset : ∀ x : Except Mishap State, bareStep (do
      let s ← x
      .ok { s with offset := s.offset + c.utf8Size }) = bareStep x := by
    intro x
    cases x <;> rfl
  simp only [step, hoffset, endWord_bare]
  exact bareStep_advance _ c

/-! ### Verdicts -/

/-- What scanning a text from a state on comes to, without offsets. -/
def verdict (limit : Nat) (s : State) (cs : List Char) : Except (Diagnosis.Kind × Char) (List Tree) :=
  (run limit s cs).mapError Mishap.bare

/-- A scan goes on with the outcome of the first step. -/
theorem verdict_cons (s : State) (c : Char) (cs : List Char) :
    verdict limit s (c :: cs) =
      ((step limit s c).mapError Mishap.bare).bind (verdict limit · cs) := by
  rw [verdict, run_cons]
  cases step limit s c <;> rfl

/-- An open list is one whatever its offset. -/
theorem isSome_openList?_bare (frames : List Frame) :
    (openList? (frames.map Frame.bare)).isSome = (openList? frames).isSome := by
  induction frames with
  | nil => rfl
  | cons frame frames ih =>
    cases frame with
    | list opening items => rfl
    | quote => exact ih

theorem finish_bare (s : State) :
    (finish s.bare).mapError Mishap.bare = (finish s).mapError Mishap.bare := by
  have hend := endWord_bare s ' '
  obtain ⟨offset, forms, frames, mode⟩ := s
  cases mode with
  | string opening chars => rfl
  | _ =>
    simp only [finish, State.bare, Mode.bare] at hend ⊢
    rw [hend]
    clear hend
    generalize State.endWord _ ' ' = t
    have hopen := isSome_openList?_bare t.frames
    cases h : openList? t.frames with
    | none =>
      rw [h, Option.isSome_none, Option.isSome_eq_false_iff, Option.isNone_iff_eq_none] at hopen
      rw [hopen]
    | some opening =>
      rw [h] at hopen
      obtain ⟨opening', h'⟩ := Option.isSome_iff_exists.1 hopen
      rw [h']
      rfl

/-- Offsets do not matter. -/
theorem verdict_bare (s : State) (cs : List Char) :
    verdict limit s.bare cs = verdict limit s cs := by
  induction cs generalizing s with
  | nil => exact finish_bare s
  | cons c cs ih =>
    have hstep := @bareStep_step limit s c
    rw [verdict_cons, verdict_cons]
    cases hs : step limit s c with
    | error m =>
      rw [hs] at hstep
      cases ht : step limit s.bare c with
      | error m' =>
        rw [ht] at hstep
        exact congrArg Except.error (Except.error.inj hstep)
      | ok t => rw [ht] at hstep; cases hstep
    | ok s' =>
      rw [hs] at hstep
      cases ht : step limit s.bare c with
      | error m' => rw [ht] at hstep; cases hstep
      | ok t =>
        rw [ht] at hstep
        have hbare : t.bare = s'.bare := Except.ok.inj hstep
        show verdict limit t cs = verdict limit s' cs
        rw [← ih t, hbare, ih s']

/-- A scan comes to the same from states that differ in offsets only. -/
theorem verdict_congr {s t : State} (h : s.bare = t.bare) (cs : List Char) :
    verdict limit s cs = verdict limit t cs := by
  rw [← verdict_bare s, h, verdict_bare]

theorem verdict_of_step {s s' t : State} {c : Char} (h : step limit s c = .ok s')
    (hbare : s'.bare = t.bare) (cs : List Char) :
    verdict limit s (c :: cs) = verdict limit t cs := by
  rw [verdict, run_cons_of_ok h]
  exact verdict_congr hbare cs

/-! ### Where the scanner stands -/

/-- The place that a scan has led to. -/
def State.place (s : State) : Place :=
  match s.mode with
  | .comment => .comment
  | .string _ _ => .literal
  | _ => .code

theorem place_endWord (s : State) (c : Char) : (s.endWord c).place = s.place := by
  obtain ⟨offset, forms, frames, mode⟩ := s
  cases mode with
  | atom chars =>
    simp only [State.endWord]
    split <;> rfl
  | quoteMark =>
    simp only [State.endWord]
    split <;> rfl
  | _ => rfl

theorem place_begin {s s' : State} {c : Char} (hs : s.mode = .between ∨ s.mode = .quoteMark)
    (h : begin limit s c = .ok s') : s'.place = Place.code.of c := by
  have hcode : s.place = .code := by
    rcases hs with hs | hs <;> simp [State.place, hs]
  unfold begin openAt at h
  split at h
  · next hblank =>
    cases h
    rw [Place.of_blank hblank]
    exact hcode
  split at h
  · next hc =>
    cases h
    subst hc
    rfl
  split at h
  · next hc =>
    subst hc
    split at h <;> cases h
    exact hcode
  split at h
  · next hc =>
    subst hc
    split at h <;> cases h
    rfl
  split at h
  · next hc =>
    cases h
    subst hc
    rfl
  split at h
  · next hc =>
    subst hc
    split at h <;> cases h
    rfl
  · next hcomment _ _ hquote _ =>
    cases h
    simp [State.place, Place.of, hcomment, hquote]

/-- A word that a character leaves in progress goes on with it. -/
theorem isAtomChar_of_endWord {s : State} {c : Char} {chars : List Char}
    (h : (s.endWord c).mode = .atom chars) : isAtomChar c = true := by
  obtain ⟨offset, forms, frames, mode⟩ := s
  cases mode with
  | atom chars' =>
    simp only [State.endWord] at h
    split at h
    · assumption
    · cases h
  | quoteMark =>
    simp only [State.endWord] at h
    split at h <;> cases h
  | _ => cases h

/-- The scanner takes every character for what its place says. -/
theorem place_step {s s' : State} {c : Char} (h : step limit s c = .ok s') :
    s'.place = s.place.behind c := by
  obtain ⟨next, hnext, h⟩ := of_bind_eq_ok h
  cases h
  show next.place = _
  rw [← place_endWord s c]
  generalize hword : s.endWord c = word at hnext
  unfold advance at hnext
  split at hnext
  · next hmode =>
    cases hnext
    split <;> simp_all [State.place, Place.behind, Place.of]
  · next chars hmode =>
    cases hnext
    have hchar := isAtomChar_of_endWord (hword ▸ hmode)
    obtain ⟨-, -, -, hquote, hcomment⟩ := isAtomChar_iff.1 hchar
    simp [State.place, hmode, Place.behind, Place.of, hquote, hcomment]
  · next opening chars hmode =>
    cases hnext
    split
    · next hc =>
      subst hc
      simp [State.place, hmode, Place.behind, State.add]
    · next hc => simp [State.place, hmode, Place.behind, Place.of, hc]
  · next hcomment hatom hstring =>
    have hbegins : word.mode = .between ∨ word.mode = .quoteMark := by
      cases hmode : word.mode with
      | between => exact .inl rfl
      | quoteMark => exact .inr rfl
      | comment => exact absurd hmode hcomment
      | atom chars => exact absurd hmode (hatom chars)
      | string opening chars => exact absurd hmode (hstring opening chars)
    have hcode : word.place = .code := by
      rcases hbegins with hmode | hmode <;> simp [State.place, hmode]
    rw [place_begin hbegins hnext, hcode]
    rfl

/-- Texts that come to the same behind a character come to the same with it. -/
theorem verdict_cons_congr {s : State} {c : Char} {cs ds : List Char}
    (h : ∀ s' : State, s'.place = s.place.behind c → verdict limit s' cs = verdict limit s' ds) :
    verdict limit s (c :: cs) = verdict limit s (c :: ds) := by
  rw [verdict_cons, verdict_cons]
  cases hs : step limit s c with
  | error m => rfl
  | ok s' => exact h s' (place_step hs)

/-! ### Blanks and comments -/

/-- The state with the word in progress ended. -/
def State.settle (s : State) : State := s.endWord ' '

/-- What separates words ends the word in progress. -/
theorem endWord_eq_settle (s : State) {c : Char} (hc : isBlank c = true ∨ c = ';') :
    s.endWord c = s.settle := by
  have hatom : isAtomChar c = false := by
    rcases hc with hc | rfl
    · simp [isAtomChar, hc]
    · decide
  have hends : (isBlank c || c == ')' || c == ';') = true := by
    rcases hc with hc | rfl
    · simp [hc]
    · decide
  obtain ⟨offset, forms, frames, mode⟩ := s
  cases mode with
  | atom chars => simp only [State.settle, State.endWord, hatom]; rfl
  | quoteMark => simp only [State.settle, State.endWord, hends]; rfl
  | _ => rfl

theorem mode_settle {s : State} (hs : s.place = .code) : s.settle.mode = .between := by
  obtain ⟨offset, forms, frames, mode⟩ := s
  cases mode with
  | comment => cases hs
  | string opening chars => cases hs
  | _ => rfl

theorem place_settle (s : State) : s.settle.place = s.place := place_endWord s ' '

/-- A separator or the end of the text ends the word in progress. -/
theorem verdict_settle {s : State} (hs : s.place = .code) (cs : List Char)
    (hcs : isBlank (cs.headD ' ') = true ∨ cs.headD ' ' = ';') :
    verdict limit s cs = verdict limit s.settle cs := by
  have hstring : ∀ opening chars, s.mode ≠ .string opening chars := by
    intro opening chars hmode
    simp [State.place, hmode] at hs
  rw [verdict, verdict, run_of_endWord (endWord_eq_settle s hcs) (mode_settle hs) hstring]

/-- A blank between words does nothing. -/
theorem verdict_blank_of_between {s : State} (hs : s.mode = .between) {c : Char}
    (hc : isBlank c = true) (cs : List Char) :
    verdict limit s (c :: cs) = verdict limit s cs := by
  obtain ⟨offset, forms, frames, mode⟩ := s
  cases hs
  have hstep : step limit ⟨offset, forms, frames, .between⟩ c =
      .ok ⟨offset + c.utf8Size, forms, frames, .between⟩ := by
    simp [step, State.endWord, advance, begin, hc, bind, Except.bind]
  refine verdict_of_step hstep ?_ cs
  rfl

/-- A blank ends the word in progress and does nothing else. -/
theorem verdict_blank {s : State} (hs : s.place = .code) {c : Char} (hc : isBlank c = true)
    (cs : List Char) : verdict limit s (c :: cs) = verdict limit s.settle cs := by
  rw [verdict_settle hs (c :: cs) (.inl hc), verdict_blank_of_between (mode_settle hs) hc]

/-- The state with the word in progress ended and a comment begun. -/
def State.commenting (s : State) : State := { s.settle with mode := .comment }

theorem verdict_semicolon {s : State} (hs : s.place = .code) (cs : List Char) :
    verdict limit s (';' :: cs) = verdict limit s.commenting cs := by
  rw [verdict_settle hs (';' :: cs) (.inr rfl), State.commenting]
  have hmode := mode_settle hs
  generalize s.settle = t at hmode
  obtain ⟨offset, forms, frames, mode⟩ := t
  cases hmode
  have hstep : step limit ⟨offset, forms, frames, .between⟩ ';' =
      .ok ⟨offset + ';'.utf8Size, forms, frames, .comment⟩ := rfl
  refine verdict_of_step hstep ?_ cs
  rfl

/-- What stands in a comment does nothing. -/
theorem verdict_commenting_cons (s : State) {c : Char} (hc : c ≠ '\n') (cs : List Char) :
    verdict limit s.commenting (c :: cs) = verdict limit s.commenting cs := by
  have hstep : step limit s.commenting c =
      .ok { s.commenting with offset := s.commenting.offset + c.utf8Size } := by
    simp [step, State.commenting, State.endWord, advance, hc, bind, Except.bind]
  refine verdict_of_step hstep ?_ cs
  rfl

/-- At the end of its line a comment is forgotten. -/
theorem verdict_commenting_newline {s : State} (hs : s.place = .code) (cs : List Char) :
    verdict limit s.commenting ('\n' :: cs) = verdict limit s.settle cs := by
  have hstep : step limit s.commenting '\n' =
      .ok { s.settle with
        offset := s.settle.offset + '\n'.utf8Size
        mode := .between } := rfl
  refine verdict_of_step hstep ?_ cs
  simp [State.bare, mode_settle hs]

/-- At the end of the text a comment is forgotten. -/
theorem verdict_commenting_nil {s : State} (hs : s.place = .code) :
    verdict limit s.commenting [] = verdict limit s [] := by
  rw [verdict_settle hs [] (.inl Text.isBlank_space), State.commenting]
  have hmode := mode_settle hs
  generalize s.settle = t at hmode
  obtain ⟨offset, forms, frames, mode⟩ := t
  cases hmode
  rfl

/-! ### Normal texts -/

open Text

/-- Comments do nothing. -/
theorem verdict_uncommented (cs : List Char) :
    (∀ s : State, s.place ≠ .comment →
      verdict limit s (chars (uncommented (letters s.place cs))) = verdict limit s cs) ∧
    ∀ s : State, s.place = .code →
      verdict limit s (chars (uncommented (letters .comment cs))) =
        verdict limit s.commenting cs := by
  induction cs with
  | nil => exact ⟨fun _ _ => rfl, fun s hs => (verdict_commenting_nil hs).symm⟩
  | cons c cs ih =>
    obtain ⟨hkeep, hskip⟩ := ih
    refine ⟨fun s hs => ?_, fun s hs => ?_⟩
    · by_cases hof : s.place.of c = .comment
      · obtain ⟨hcode, rfl, hbehind⟩ := Place.eq_of_of_comment hs hof
        rw [letters, uncommented_cons_of_eq hof, hbehind, hskip s hcode, verdict_semicolon hcode]
      · rw [letters, uncommented_cons_of_ne hof]
        refine verdict_cons_congr ?_
        intro s' hs'
        rw [← hs']
        exact hkeep s' (hs' ▸ Place.behind_ne_comment hof)
    · by_cases hc : c = '\n'
      · subst hc
        have hsettle : s.settle.place = .code := (place_settle s).trans hs
        have hrest := hkeep s.settle (by simp [hsettle])
        rw [hsettle] at hrest
        rw [verdict_commenting_newline hs, ← hrest]
        exact verdict_blank hs isBlank_newline _
      · rw [uncommented_letters_comment_cons hc, hskip s hs, verdict_commenting_cons s hc]

/-- A gap before a gap does nothing, and one blank is as good as another. -/
theorem verdict_collapse {xs : List Letter} (s : State) (hs : s.place ≠ .comment)
    (h : Placed s.place xs) :
    verdict limit s (chars (collapse xs)) = verdict limit s (chars xs) := by
  induction xs generalizing s with
  | nil => rfl
  | cons x xs ih =>
    rw [collapse]
    split
    · next hgap =>
      obtain ⟨hcode, hblank, hxs⟩ := h.of_gap hs hgap
      have hsettle : s.settle.place = .code := (place_settle s).trans hcode
      have hx : verdict limit s (chars (x :: xs)) = verdict limit s.settle (chars xs) :=
        verdict_blank hcode hblank _
      have hrest := ih s.settle (by simp [hsettle]) (hsettle ▸ hxs)
      split
      · next hnext =>
        have hhead : isBlank ((chars xs).headD ' ') = true := by
          cases xs with
          | nil => cases hnext
          | cons y ys => exact (hxs.of_gap (by decide) hnext).2.1
        rw [hx, ← verdict_settle hcode (chars xs) (.inl hhead)]
        exact ih s hs (hcode ▸ hxs)
      · rw [hx, ← hrest]
        exact verdict_blank hcode isBlank_space _
    · cases h with
      | cons hof hxs =>
        refine verdict_cons_congr ?_
        intro s' hs'
        exact ih s' (hs' ▸ Place.behind_ne_comment hof) (hs' ▸ hxs)

/-- Gaps at the start do nothing. -/
theorem verdict_dropWhile {xs : List Letter} {s : State} (hs : s.mode = .between)
    (h : Placed .code xs) :
    verdict limit s (chars (xs.dropWhile Letter.isGap)) = verdict limit s (chars xs) := by
  induction xs with
  | nil => rfl
  | cons x xs ih =>
    rw [List.dropWhile_cons]
    split
    · next hgap =>
      obtain ⟨-, hblank, hxs⟩ := h.of_gap (by decide) hgap
      rw [ih hxs]
      exact (verdict_blank_of_between hs hblank _).symm
    · rfl

/-- A gap at the end does nothing. -/
theorem verdict_concat_gap {xs : List Letter} {x : Letter} (hx : x.isGap = true) (s : State)
    (hs : s.place ≠ .comment) (h : Placed s.place (xs ++ [x])) :
    verdict limit s (chars (xs ++ [x])) = verdict limit s (chars xs) := by
  induction xs generalizing s with
  | nil =>
    obtain ⟨hcode, hblank, -⟩ := h.of_gap hs hx
    exact (verdict_blank hcode hblank []).trans
      (verdict_settle hcode [] (.inl isBlank_space)).symm
  | cons y xs ih =>
    cases h with
    | cons hof hxs =>
      refine verdict_cons_congr ?_
      intro s' hs'
      exact ih s' (hs' ▸ Place.behind_ne_comment hof) (hs' ▸ hxs)

/-- Gaps at the end do nothing. -/
theorem verdict_rdropWhile {xs : List Letter} {s : State} (hs : s.place ≠ .comment)
    (h : Placed s.place xs) :
    verdict limit s (chars (xs.rdropWhile Letter.isGap)) = verdict limit s (chars xs) := by
  induction xs using List.reverseRecOn with
  | nil => rfl
  | append_singleton xs x ih =>
    rw [List.rdropWhile_concat]
    split
    · next hgap => rw [ih h.left, verdict_concat_gap hgap s hs h]
    · rfl

/-- A scan of a text and one of its normal form come to the same. -/
theorem verdict_normalise (source : String) :
    verdict limit .initial (normalise source).toList = verdict limit .initial source.toList := by
  have hinitial : State.initial.place ≠ .comment := by decide
  have huncommented := (placed_uncommented source.toList).1 .code (by decide)
  have hcollapsed := huncommented.collapse (by decide)
  rw [normalise, String.toList_ofList, normalLetters, trimGaps,
    verdict_rdropWhile hinitial hcollapsed.dropWhile, verdict_dropWhile rfl hcollapsed,
    verdict_collapse _ hinitial huncommented]
  exact (verdict_uncommented source.toList).1 .initial hinitial

end SubstLisp.Scanner

namespace SubstLisp.Reader

open Text

/-- The kind of mistake and what was found at its place. -/
def gist (d : Diagnosis) : Diagnosis.Kind × Option String := (d.kind, d.found?)

/-- What the reader tells of a text is, apart from places, what a scan comes to. -/
theorem read_mapError_gist (limit : Nat) (source : String) :
    (read limit source).mapError gist =
      (Scanner.verdict limit .initial source.toList).mapError
        fun m => (m.1, some (String.ofList [m.2])) := by
  show _ = ((Scanner.scan limit source.toList).mapError _).mapError _
  cases hscan : Scanner.scan limit source.toList with
  | ok forms =>
    rw [Scanner.read_of_scan hscan]
    rfl
  | error m =>
    rw [Scanner.read_of_scan_error hscan]
    rfl

/-- **Reading commutes with normalising.** A text and its normal form are read as the same forms, or
refused for the same kind of mistake at the same character. String literals are kept as they are, by
normalising and by reading. -/
theorem read_normalise (limit : Nat) (source : String) :
    (read limit (normalise source)).mapError gist = (read limit source).mapError gist ∧
      literalChars .code (normalise source).toList = literalChars .code source.toList ∧
      ∀ forms, read limit source = .ok forms →
        quoted (forms.flatMap Form.literals) = literalChars .code source.toList := by
  refine ⟨?_, literalChars_normalise source, fun forms h => (literalChars_of_read h).symm⟩
  rw [read_mapError_gist, read_mapError_gist, Scanner.verdict_normalise]

/-- A string literal with a semicolon and a line end in it, behind a comment with a quotation mark
in it; another comment ends the word before it. -/
theorem read_normalise_comments :
    let source := "(a ;\"\n\t\"; \n\" 'b;c\n) ; d"
    let forms : List Tree := [.list () [.atom () "a", .string () "; \n",
      .list () [.atom () "quote", .atom () "b"]]]
    normalise source = "(a \"; \n\" 'b )" ∧ read 2 source = .ok forms ∧
      read 2 (normalise source) = .ok forms ∧
      quoted (forms.flatMap Form.literals) = literalChars .code source.toList := by
  intro source forms
  have hscan : Scanner.scan 2 "(a ;\"\n\t\"; \n\" 'b;c\n) ; d".toList = .ok forms := rfl
  have hread : read 2 source = .ok forms := Scanner.read_of_scan hscan
  obtain ⟨hgist, -, hliterals⟩ := read_normalise 2 source
  refine ⟨by decide, hread, ?_, hliterals forms hread⟩
  rw [hread] at hgist
  cases hnormal : read 2 (normalise source) with
  | ok forms' => rw [hnormal] at hgist; exact congrArg Except.ok (Except.ok.inj hgist)
  | error d => rw [hnormal] at hgist; cases hgist

end SubstLisp.Reader
