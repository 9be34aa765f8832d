import Mathlib.Data.List.TakeWhile
import SubstLisp.Proofs.Pieces

/-!
# Lines of programs

A line can be read with blanks at its ends or without them, and lines can be read one at a time or
joined. A blank moves the reader on: whatever is in progress ends at a blank as it ends at the end
of the text, but for a string literal, which is not closed by either.

## What is proved

* `Scanner.scan_append_of_isBlank` — blanks at the end of a text do not matter to the scanner.
* `Reader.read_trim` — a line that can be read is read without the blanks at its ends as well.
* `Reader.read_intercalate` — lines that can be read, joined by newlines, are read as all their
  forms.
-/

namespace SubstLisp

open Text (isBlank trim trimStart trimEnd)

/-! ### Blanks at the ends of a text -/

theorem Text.exists_trimStart (cs : List Char) :
    ∃ blanks, cs = blanks ++ trimStart cs ∧ ∀ c ∈ blanks, isBlank c = true :=
  ⟨cs.takeWhile isBlank, (List.takeWhile_append_dropWhile).symm, fun _ hc =>
    List.mem_takeWhile_imp hc⟩

theorem Text.exists_trimEnd (cs : List Char) :
    ∃ blanks, cs = trimEnd cs ++ blanks ∧ ∀ c ∈ blanks, isBlank c = true := by
  obtain ⟨blanks, hsplit, hblanks⟩ := exists_trimStart cs.reverse
  refine ⟨blanks.reverse, ?_, fun c hc => hblanks c (List.mem_reverse.1 hc)⟩
  rw [trimEnd, ← List.reverse_append, ← hsplit, List.reverse_reverse]

namespace Scanner

variable {limit : Nat}

/-- At a blank the text may as well end. -/
theorem finish_step_of_isBlank {c : Char} (hc : isBlank c = true) (s : State) :
    ∃ s', step limit s c = .ok s' ∧ finish s' = finish s := by
  have hatom : Reader.isAtomChar c = false := by simp [Reader.isAtomChar, hc]
  obtain ⟨offset, forms, frames, mode⟩ := s
  cases mode with
  | between =>
    refine ⟨⟨offset + c.utf8Size, forms, frames, .between⟩, ?_, rfl⟩
    simp [step, State.endWord, advance, begin, hc, bind, Except.bind]
  | comment =>
    refine ⟨⟨offset + c.utf8Size, forms, frames, if c = '\n' then .between else .comment⟩, ?_, ?_⟩
    · by_cases hnewline : c = '\n' <;>
        simp [step, State.endWord, advance, hnewline, bind, Except.bind]
    · by_cases hnewline : c = '\n' <;> simp [finish, State.endWord, hnewline]
  | atom chars =>
    let added := State.add ⟨offset, forms, frames, .atom chars⟩
      (.atom () (String.ofList chars.reverse))
    refine ⟨{ added with offset := offset + c.utf8Size }, ?_, rfl⟩
    simp [step, State.endWord, hatom, added, State.add, advance, begin, hc, bind, Except.bind]
  | string opening chars =>
    have hquote : c ≠ '"' := by
      rintro rfl
      exact absurd hc (by decide)
    refine ⟨⟨offset + c.utf8Size, forms, frames, .string opening (c :: chars)⟩, ?_, rfl⟩
    simp [step, State.endWord, advance, hquote, bind, Except.bind]
  | quoteMark =>
    let added := State.add ⟨offset, forms, frames, .quoteMark⟩ (.atom () "'")
    refine ⟨{ added with offset := offset + c.utf8Size }, ?_, rfl⟩
    simp [step, State.endWord, added, State.add, advance, begin, hc, bind, Except.bind]

theorem run_of_isBlank {blanks : List Char} (h : ∀ c ∈ blanks, isBlank c = true) (s : State) :
    run limit s blanks = finish s := by
  induction blanks generalizing s with
  | nil => rfl
  | cons c blanks ih =>
    obtain ⟨hc, hblanks⟩ := List.forall_mem_cons.1 h
    obtain ⟨s', hstep, hfinish⟩ := @finish_step_of_isBlank limit c hc s
    rw [run_cons_of_ok hstep, ih hblanks, hfinish]

/-- Blanks at the end of a text do not matter to the scanner. -/
theorem scan_append_of_isBlank (cs : List Char) {blanks : List Char}
    (h : ∀ c ∈ blanks, isBlank c = true) : scan limit (cs ++ blanks) = scan limit cs := by
  rw [scan, feed_append, bind_assoc]
  exact bind_congr fun s => run_of_isBlank h s

end Scanner

/-! ### Lines -/

namespace Reader

variable {limit : Nat}

/-- A line that can be read is read without the blanks at its ends as well. -/
theorem read_trim {line : String} {trees : List Tree} (h : read limit line = .ok trees) :
    read limit (String.ofList (trim line.toList)) = .ok trees := by
  obtain ⟨before, hsplit, hbefore⟩ := Text.exists_trimStart line.toList
  obtain ⟨after, hsplit', hafter⟩ := Text.exists_trimEnd (trimStart line.toList)
  have hread := readForms_of_read h
  rw [hsplit, readForms_congr (skipTrivia_append_of_isBlank hbefore _)] at hread
  have hscan := Scanner.scan_of_readForms hread
  rw [hsplit', Scanner.scan_append_of_isBlank _ hafter] at hscan
  refine Scanner.read_of_scan ?_
  rw [String.toList_ofList]
  exact hscan

/-- Lines that can be read, joined by newlines, are read as all their forms. -/
theorem read_intercalate {lines : List String} {parts : List (List Tree)}
    (h : List.Forall₂ (fun line trees => read limit line = .ok trees) lines parts) :
    read limit ("\n".intercalate lines) = .ok parts.flatten := by
  induction h with
  | nil =>
    rw [String.intercalate_nil]
    exact Scanner.read_of_scan rfl
  | @cons line trees lines parts hline hlines ih =>
    cases hlines with
    | nil => simpa using hline
    | cons =>
      rw [String.intercalate_cons_cons, List.flatten_cons]
      exact read_append_of_ok hline (readForms_of_read ih)

end Reader

end SubstLisp
