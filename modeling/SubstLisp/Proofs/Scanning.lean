import SubstLisp.Form.Diagnosis
import SubstLisp.Form.Scanner
import SubstLisp.Proofs.Readable
import SubstLisp.Proofs.Refusals

/-!
# Scanning is reading

The reader goes down into data and comes back, and tries a quotation before it settles for an atom.
The scanner takes one character after the other and keeps what is open on a stack. Both give the
same forms, or the same fault at the same place.

The recursion of the reader is followed from outside: where the reader is about to look for a datum,
the scanner stands between two words with one frame for each list and quotation around it. Scanning
the text of a datum comes to adding the datum, and scanning a text whose datum is refused comes to
the mishap at that place, whatever is open around it and whatever follows.

## What is proved

* `scans_datum` — the text of a datum adds the datum to what is open.
* `stops_datum` — a text whose datum is refused ends the scan at the same place.
* `read_eq_scan` — the reader and the scanner give the same forms, or mistakes of the same kind at
  the same place.
-/

namespace SubstLisp.Scanner

open Reader
open Text (isBlank byteLength)

variable {limit total : Nat}

/-! ### Scanning from the middle of a text -/

/-- The forms of a text of which a part has been read. -/
def run (limit : Nat) (s : State) (cs : List Char) : Except Mishap (List Tree) := do
  finish (← feed limit s cs)

theorem run_nil (s : State) : run limit s [] = finish s := rfl

theorem run_cons (s : State) (c : Char) (cs : List Char) :
    run limit s (c :: cs) = (do run limit (← step limit s c) cs) := by
  simp only [run, feed, List.foldlM_cons, bind_assoc]

theorem run_cons_of_ok {s s' : State} {c : Char} (h : step limit s c = .ok s') (cs : List Char) :
    run limit s (c :: cs) = run limit s' cs := by
  rw [run_cons, h]
  rfl

theorem run_cons_of_error {s : State} {c : Char} {m : Mishap} (h : step limit s c = .error m)
    (cs : List Char) : run limit s (c :: cs) = .error m := by
  rw [run_cons, h]
  rfl

/-- The state in which a number of bytes has been read and the next character begins something
new. -/
def State.between (offset : Nat) (forms : List Tree) (frames : List Frame) : State :=
  ⟨offset, forms, frames, .between⟩

@[simp]
theorem State.offset_between (offset : Nat) (forms : List Tree) (frames : List Frame) :
    (State.between offset forms frames).offset = offset := rfl

@[simp]
theorem State.frames_between (offset : Nat) (forms : List Tree) (frames : List Frame) :
    (State.between offset forms frames).frames = frames := rfl

/-- Once the word in progress is ended by what follows, it does not matter that it was in
progress. -/
theorem run_of_endWord {s s' : State} {cs : List Char} (hend : s.endWord (cs.headD ' ') = s')
    (hbetween : s'.mode = .between) (hstring : ∀ opening chars, s.mode ≠ .string opening chars) :
    run limit s cs = run limit s' cs := by
  obtain ⟨offset, forms, frames, mode⟩ := s'
  cases hbetween
  cases cs with
  | nil =>
    rw [run_nil, run_nil]
    unfold finish
    split
    · next opening chars hmode => exact absurd hmode (hstring opening chars)
    · rw [List.headD_nil] at hend
      rw [hend]
      rfl
  | cons c cs =>
    have hstep : step limit s c = step limit ⟨offset, forms, frames, .between⟩ c := by
      rw [List.headD_cons] at hend
      simp only [step, hend]
      rfl
    rw [run_cons, run_cons, hstep]

/-! ### Blanks, comments and words -/

theorem step_between (o : Nat) (forms : List Tree) (frames : List Frame) (c : Char) :
    step limit (.between o forms frames) c =
      (do
        let s ← begin limit (.between o forms frames) c
        .ok { s with offset := s.offset + c.utf8Size }) := rfl

theorem run_skipTriviaFrom (inComment : Bool) (o : Nat) (forms : List Tree) (frames : List Frame)
    (cs : List Char) :
    ∃ o', o' + byteLength (skipTriviaFrom inComment cs) = o + byteLength cs ∧
      run limit ⟨o, forms, frames, if inComment then .comment else .between⟩ cs =
        run limit (.between o' forms frames) (skipTriviaFrom inComment cs) := by
  induction cs generalizing inComment o with
  | nil => cases inComment <;> exact ⟨o, rfl, rfl⟩
  | cons c cs ih =>
    rw [Text.byteLength_cons, ← Nat.add_assoc]
    cases inComment with
    | true =>
      have hstep : step limit ⟨o, forms, frames, .comment⟩ c = .ok ⟨o + c.utf8Size, forms, frames,
          if c != '\n' then .comment else .between⟩ := by
        by_cases hc : c = '\n' <;> simp [step, State.endWord, advance, hc, bind, Except.bind]
      rw [if_pos rfl, run_cons_of_ok hstep]
      exact ih _ _
    | false =>
      simp only [skipTriviaFrom]
      split
      · next hc =>
        have hstep : step limit (.between o forms frames) c =
            .ok ⟨o + c.utf8Size, forms, frames, .comment⟩ := by
          subst hc
          rfl
        obtain ⟨o', ho', hrun⟩ := ih true (o + c.utf8Size)
        exact ⟨o', ho', (run_cons_of_ok hstep cs).trans hrun⟩
      · next hc =>
        split
        · next hblank =>
          have hstep : step limit (.between o forms frames) c =
              .ok (.between (o + c.utf8Size) forms frames) := by
            rw [step_between, begin, if_pos hblank]
            rfl
          obtain ⟨o', ho', hrun⟩ := ih false (o + c.utf8Size)
          exact ⟨o', ho', (run_cons_of_ok hstep cs).trans hrun⟩
        · exact ⟨o, (Nat.add_assoc _ _ _).symm, rfl⟩

/-- Blanks and comments move the scanner on and change nothing else. -/
theorem run_skipTrivia (o : Nat) (forms : List Tree) (frames : List Frame) (cs : List Char) :
    ∃ o', o' + byteLength (skipTrivia cs) = o + byteLength cs ∧
      run limit (.between o forms frames) cs =
        run limit (.between o' forms frames) (skipTrivia cs) :=
  run_skipTriviaFrom false o forms frames cs

theorem isAtomChar_headD_of_endsAtom {s : List Char} (h : EndsAtom s) :
    isAtomChar (s.headD ' ') = false := by
  cases s with
  | nil => decide
  | cons c s => exact h c rfl

theorem startsNoDatum_iff_headD {s : List Char} : StartsNoDatum s ↔
    (isBlank (s.headD ' ') || s.headD ' ' == ')' || s.headD ' ' == ';') = true := by
  cases s with
  | nil => exact iff_of_true startsNoDatum_nil (by decide)
  | cons c s => simp [startsNoDatum_cons, or_assoc]

/-- An atom in progress is added when no further character can belong to it. -/
theorem run_atom {cs r : List Char} (hcs : ∀ c ∈ cs, isAtomChar c = true) (hr : EndsAtom r)
    (o : Nat) (forms : List Tree) (frames : List Frame) (chars : List Char) :
    run limit ⟨o, forms, frames, .atom chars⟩ (cs ++ r) =
      run limit ((State.between (o + byteLength cs) forms frames).add
        (.atom () (String.ofList (chars.reverse ++ cs)))) r := by
  induction cs generalizing o chars with
  | nil =>
    refine run_of_endWord ?_ rfl (fun _ _ => nofun)
    simp only [State.endWord, List.nil_append, isAtomChar_headD_of_endsAtom hr]
    simp [State.add, State.between]
  | cons c cs ih =>
    obtain ⟨hc, hcs⟩ := List.forall_mem_cons.1 hcs
    have hstep : step limit ⟨o, forms, frames, .atom chars⟩ c =
        .ok ⟨o + c.utf8Size, forms, frames, .atom (c :: chars)⟩ := by
      simp [step, State.endWord, advance, hc, bind, Except.bind]
    rw [List.cons_append, run_cons_of_ok hstep, ih hcs]
    simp [Nat.add_assoc]

/-- A string literal in progress is added at the next quotation mark. -/
theorem run_string {literal : List Char} (h : '"' ∉ literal) (r : List Char) (o : Nat)
    (forms : List Tree) (frames : List Frame) (opening : Nat) (chars : List Char) :
    run limit ⟨o, forms, frames, .string opening chars⟩ (literal ++ '"' :: r) =
      run limit ((State.between (o + byteLength literal + '"'.utf8Size) forms frames).add
        (.string () (String.ofList (chars.reverse ++ literal)))) r := by
  induction literal generalizing o chars with
  | nil =>
    rw [List.append_nil]
    exact run_cons_of_ok rfl r
  | cons c literal ih =>
    obtain ⟨hc, h⟩ := List.ne_and_not_mem_of_not_mem_cons h
    have hstep : step limit ⟨o, forms, frames, .string opening chars⟩ c =
        .ok ⟨o + c.utf8Size, forms, frames, .string opening (c :: chars)⟩ := by
      simp [step, State.endWord, advance, hc.symm, bind, Except.bind]
    rw [List.cons_append, run_cons_of_ok hstep, ih h]
    simp [Nat.add_assoc]

/-- A string literal that is not closed is reported at its opening mark. -/
theorem run_string_of_not_mem {s : List Char} (h : '"' ∉ s) (o : Nat) (forms : List Tree)
    (frames : List Frame) (opening : Nat) (chars : List Char) :
    run limit ⟨o, forms, frames, .string opening chars⟩ s =
      .error ⟨.incomplete, opening, '"'⟩ := by
  induction s generalizing o chars with
  | nil => rfl
  | cons c s ih =>
    obtain ⟨hc, h⟩ := List.ne_and_not_mem_of_not_mem_cons h
    have hstep : step limit ⟨o, forms, frames, .string opening chars⟩ c =
        .ok ⟨o + c.utf8Size, forms, frames, .string opening (c :: chars)⟩ := by
      simp [step, State.endWord, advance, hc.symm, bind, Except.bind]
    rw [run_cons_of_ok hstep, ih h]

/-- A quotation mark that no datum follows is an atom. -/
theorem run_quoteMark_of_startsNoDatum {s : List Char} (h : StartsNoDatum s) (o : Nat)
    (forms : List Tree) (frames : List Frame) :
    run limit ⟨o, forms, frames, .quoteMark⟩ s =
      run limit ((State.between o forms frames).add (.atom () "'")) s := by
  refine run_of_endWord ?_ rfl (fun _ _ => nofun)
  simp only [State.endWord, startsNoDatum_iff_headD.1 h]
  rfl

/-- A quotation mark that a datum follows opens a quotation. -/
theorem run_quoteMark_of_not_startsNoDatum {s : List Char} (h : ¬ StartsNoDatum s) (o : Nat)
    (forms : List Tree) (frames : List Frame) :
    run limit ⟨o, forms, frames, .quoteMark⟩ s =
      run limit (.between o forms (.quote :: frames)) s := by
  refine run_of_endWord ?_ rfl (fun _ _ => nofun)
  rw [startsNoDatum_iff_headD, Bool.not_eq_true] at h
  simp only [State.endWord, h]
  rfl

/-! ### Beginnings -/

section

variable (o : Nat) (forms : List Tree) (frames : List Frame)

theorem step_opening_of_lt (h : frames.length < limit) :
    step limit (.between o forms frames) '(' =
      .ok (.between (o + '('.utf8Size) forms (.list o [] :: frames)) := by
  have hbegin : begin limit (.between o forms frames) '(' =
      openAt limit (.between o forms frames) '(' (.between o forms (.list o [] :: frames)) := rfl
  rw [step_between, hbegin, openAt, State.frames_between, if_neg (Nat.not_le.2 h)]
  rfl

theorem step_quotationMark_of_lt (h : frames.length < limit) :
    step limit (.between o forms frames) '\'' =
      .ok ⟨o + '\''.utf8Size, forms, frames, .quoteMark⟩ := by
  have hbegin : begin limit (.between o forms frames) '\'' =
      openAt limit (.between o forms frames) '\'' ⟨o, forms, frames, .quoteMark⟩ := rfl
  rw [step_between, hbegin, openAt, State.frames_between, if_neg (Nat.not_le.2 h)]
  rfl

/-- Nothing is opened inside as many lists and quotations as there may be. -/
theorem step_of_le (h : limit ≤ frames.length) {c : Char} (hc : c = '\'' ∨ c = '(') :
    step limit (.between o forms frames) c = .error ⟨.tooDeeplyNested, o, c⟩ := by
  have hbegin : ∃ opened, begin limit (.between o forms frames) c =
      openAt limit (.between o forms frames) c opened := by
    rcases hc with rfl | rfl <;> exact ⟨_, rfl⟩
  obtain ⟨opened, hbegin⟩ := hbegin
  rw [step_between, hbegin, openAt, State.frames_between, if_pos h]
  rfl

theorem step_of_isAtomChar {c : Char} (hc : isAtomChar c = true) (hquote : c ≠ '\'') :
    step limit (.between o forms frames) c = .ok ⟨o + c.utf8Size, forms, frames, .atom [c]⟩ := by
  obtain ⟨hblank, hopen, hclose, hmark, hcomment⟩ := isAtomChar_iff.1 hc
  rw [step_between]
  simp [begin, hblank, hopen, hclose, hmark, hcomment, hquote, State.between, bind, Except.bind]

end

/-! ### Data that are read -/

/-- Scanning a text that starts with a datum comes to adding the datum and scanning the rest, in as
many lists and quotations. -/
def Scans (limit depth : Nat) (datum : Grammar) : Prop :=
  ∀ {s f r}, datum s f r → ∀ o forms frames, frames.length = depth →
    ∃ o', o' + byteLength r = o + byteLength s ∧
      run limit (.between o forms frames) s = run limit ((State.between o' forms frames).add f) r

theorem scans_items {depth : Nat} {datum : Grammar} (hdatum : Scans limit (depth + 1) datum)
    {s r : List Char} {items : List Tree} (h : Items datum s items r) (o : Nat)
    (forms : List Tree) {frames : List Frame} (hdepth : frames.length = depth) (opening : Nat)
    (before : List Tree) :
    ∃ o', o' + byteLength r = o + byteLength s ∧
      run limit (.between o forms (.list opening before :: frames)) s =
        run limit ((State.between o' forms frames).add (.list () (before.reverse ++ items))) r := by
  induction h generalizing o before with
  | @done s hclose =>
    obtain ⟨o', ho', hrun⟩ :=
      @run_skipTrivia limit o forms (.list opening before :: frames) s
    rw [hclose] at ho' hrun
    refine ⟨o' + ')'.utf8Size, ?_, ?_⟩
    · rw [← ho', Text.byteLength_cons, Nat.add_assoc]
    · rw [hrun, List.append_nil]
      exact run_cons_of_ok rfl r
  | @more s r' f fs hclose hf _ ih =>
    obtain ⟨o₁, ho₁, hrun₁⟩ :=
      @run_skipTrivia limit o forms (.list opening before :: frames) s
    obtain ⟨o₂, ho₂, hrun₂⟩ :=
      hdatum hf o₁ forms (.list opening before :: frames) (by rw [List.length_cons, hdepth])
    obtain ⟨o', ho', hrun⟩ := ih o₂ (f :: before)
    refine ⟨o', by omega, ?_⟩
    rw [hrun₁, hrun₂]
    rw [List.reverse_cons, List.append_assoc] at hrun
    exact hrun

theorem scans_datumWith {depth : Nat} {inner : Option Grammar}
    (hinner : ∀ datum ∈ inner, depth < limit ∧ Scans limit (depth + 1) datum ∧
      ∀ {s f r}, datum s f r → ¬ StartsNoDatum s) : Scans limit depth (DatumWith inner) := by
  intro s f r h o forms frames hdepth
  cases h with
  | @quotation datum s _ f hsome hf =>
    obtain ⟨hlt, hscans, hstarts⟩ := hinner datum hsome
    obtain ⟨o', ho', hrun⟩ := hscans hf (o + '\''.utf8Size) forms (.quote :: frames)
      (by rw [List.length_cons, hdepth])
    refine ⟨o', by rw [ho', Text.byteLength_cons, Nat.add_assoc], ?_⟩
    rw [run_cons_of_ok (step_quotationMark_of_lt o forms frames (hdepth ▸ hlt)),
      run_quoteMark_of_not_startsNoDatum (hstarts hf), hrun]
    rfl
  | @mark datum s hsome hnone =>
    obtain ⟨hlt, -⟩ := hinner datum hsome
    refine ⟨o + '\''.utf8Size, by rw [Text.byteLength_cons, Nat.add_assoc], ?_⟩
    rw [run_cons_of_ok (step_quotationMark_of_lt o forms frames (hdepth ▸ hlt)),
      run_quoteMark_of_startsNoDatum hnone]
  | @list datum s _ items hsome hitems =>
    obtain ⟨hlt, hscans, -⟩ := hinner datum hsome
    obtain ⟨o', ho', hrun⟩ := scans_items hscans hitems (o + '('.utf8Size) forms hdepth o []
    refine ⟨o', by rw [ho', Text.byteLength_cons, Nat.add_assoc], ?_⟩
    rw [run_cons_of_ok (step_opening_of_lt o forms frames (hdepth ▸ hlt)), hrun]
    rfl
  | @string literal _ hliteral =>
    have hstep : step limit (.between o forms frames) '"' =
        .ok ⟨o + '"'.utf8Size, forms, frames, .string o []⟩ := rfl
    refine ⟨o + '"'.utf8Size + byteLength literal + '"'.utf8Size, ?_, ?_⟩
    · simp only [Text.byteLength_cons, Text.byteLength_append]
      omega
    · rw [run_cons_of_ok hstep, run_string hliteral]
      rfl
  | @atom c cs _ hquote hcs hends =>
    obtain ⟨hc, hcs⟩ := List.forall_mem_cons.1 hcs
    refine ⟨o + c.utf8Size + byteLength cs, ?_, ?_⟩
    · simp only [Text.byteLength_cons, Text.byteLength_append]
      omega
    · rw [run_cons_of_ok (step_of_isAtomChar o forms frames hc hquote), run_atom hcs hends]
      rfl

/-- The text of a datum adds the datum to what is open. -/
theorem scans_datum {room depth : Nat} (h : depth + room = limit) :
    Scans limit depth (Datum room) := by
  induction room generalizing depth with
  | zero => exact scans_datumWith (by simp)
  | succ room ih =>
    refine scans_datumWith ?_
    rintro _ ⟨⟩
    exact ⟨by omega, ih (by omega), Datum.not_startsNoDatum⟩

theorem scans_forms {s : List Char} {fs : List Tree} (h : Forms (Datum limit) s fs) (o : Nat)
    (before : List Tree) : run limit (.between o before []) s = .ok (before.reverse ++ fs) := by
  induction h generalizing o before with
  | @done s hend =>
    obtain ⟨o', -, hrun⟩ := @run_skipTrivia limit o before [] s
    rw [hrun, hend, List.append_nil]
    rfl
  | @more s r f fs _ hf _ ih =>
    obtain ⟨o₁, -, hrun₁⟩ := @run_skipTrivia limit o before [] s
    obtain ⟨o₂, -, hrun₂⟩ := scans_datum (Nat.zero_add limit) hf o₁ before [] rfl
    have hrun := ih o₂ (f :: before)
    rw [List.reverse_cons, List.append_assoc] at hrun
    rw [hrun₁, hrun₂]
    exact hrun

/-! ### Data that are refused -/

/-- A mishap tells of a refusal, in a text of so many bytes. -/
structure Mishap.Reports (total : Nat) (refusal : Refusal) (m : Mishap) : Prop where
  kind : m.kind = refusal.fault.kind
  wording : ∀ limit, m.wording limit = refusal.fault.detail limit m.offset
  offset : m.offset + byteLength refusal.rest = total
  found : refusal.rest.head? = some m.found

/-- Scanning a text whose datum is refused, in as many lists and quotations, ends at the place of
the refusal. -/
def Stops (limit depth : Nat) (datum : DatumReader) : Prop :=
  ∀ s refusal, datum s = .error refusal → ∀ o forms frames, frames.length = depth →
    ∃ m, run limit (.between o forms frames) s = .error m ∧
      m.Reports (o + byteLength s) refusal

theorem stops_items {depth : Nat} {datum : DatumReader}
    (hscans : Scans limit (depth + 1) datum.grammar) (hstops : Stops limit (depth + 1) datum)
    {opening s : List Char} {refusal : Refusal} (h : ItemsRefused datum opening refusal s)
    (o : Nat) {start : Nat} (forms : List Tree) {frames : List Frame}
    (hdepth : frames.length = depth)
    (hstart : start + byteLength opening = o + byteLength s) (hopening : opening.head? = some '(')
    (before : List Tree) :
    ∃ m, run limit (.between o forms (.list start before :: frames)) s = .error m ∧
      m.Reports (o + byteLength s) refusal := by
  induction h generalizing o before with
  | @done s hend =>
    obtain ⟨o₁, ho₁, hrun₁⟩ := @run_skipTrivia limit o forms (.list start before :: frames) s
    obtain ⟨hskip, rfl⟩ := hend
    rw [hskip] at ho₁ hrun₁
    rw [hrun₁, ← ho₁]
    exact ⟨⟨.incomplete, start, '('⟩, rfl, rfl, fun _ => rfl, hstart.trans ho₁.symm, hopening⟩
  | @here s hdatum =>
    obtain ⟨o₁, ho₁, hrun₁⟩ := @run_skipTrivia limit o forms (.list start before :: frames) s
    rw [hrun₁, ← ho₁]
    exact hstops _ _ hdatum o₁ forms _ (by rw [List.length_cons, hdepth])
  | @later s r item hitem _ ih =>
    obtain ⟨o₁, ho₁, hrun₁⟩ := @run_skipTrivia limit o forms (.list start before :: frames) s
    obtain ⟨o₂, ho₂, hrun₂⟩ := hscans hitem o₁ forms (.list start before :: frames)
      (by rw [List.length_cons, hdepth])
    rw [hrun₁, ← ho₁, hrun₂, ← ho₂]
    exact ih o₂ (by omega) (item :: before)

theorem stops_datumWith {depth : Nat} {inner : Option DatumReader}
    (hnone : inner = none → limit ≤ depth)
    (hinner : ∀ datum ∈ inner, depth < limit ∧ datum.Complete ∧
      Scans limit (depth + 1) datum.grammar ∧ Stops limit (depth + 1) datum) :
    Stops limit depth (readDatumWith inner) := by
  intro s refusal h o forms frames hdepth
  cases refused_of_readDatumWith (fun datum hsome => (hinner datum hsome).2.1) h with
  | @tooDeep c s hinner hc =>
    have hstep := step_of_le o forms frames (hdepth ▸ hnone hinner) hc
    exact ⟨_, run_cons_of_error hstep s, rfl, fun _ => rfl, rfl, rfl⟩
  | @quotation datum _ s hsome hquoted =>
    obtain ⟨hlt, hcomplete, -, hstops⟩ := hinner datum hsome
    have hstarts : ¬ StartsNoDatum s := by
      intro hs
      rw [(hcomplete s).2 hs] at hquoted
      cases hquoted
    rw [run_cons_of_ok (step_quotationMark_of_lt o forms frames (hdepth ▸ hlt)),
      run_quoteMark_of_not_startsNoDatum hstarts, Text.byteLength_cons, ← Nat.add_assoc]
    exact hstops s refusal hquoted (o + '\''.utf8Size) forms (.quote :: frames)
      (by rw [List.length_cons, hdepth])
  | @list datum _ s hsome hitems =>
    obtain ⟨hlt, -, hscans, hstops⟩ := hinner datum hsome
    rw [run_cons_of_ok (step_opening_of_lt o forms frames (hdepth ▸ hlt)),
      Text.byteLength_cons, ← Nat.add_assoc]
    refine stops_items hscans hstops hitems _ forms hdepth ?_ rfl []
    rw [Text.byteLength_cons, Nat.add_assoc]
  | @string s hmem =>
    have hstep : step limit (.between o forms frames) '"' =
        .ok ⟨o + '"'.utf8Size, forms, frames, .string o []⟩ := rfl
    rw [run_cons_of_ok hstep, run_string_of_not_mem hmem]
    exact ⟨_, rfl, rfl, fun _ => rfl, rfl, rfl⟩

/-- A text whose datum is refused ends the scan at the same place. -/
theorem stops_datum {room depth : Nat} (h : depth + room = limit) :
    Stops limit depth (readDatum room) := by
  induction room generalizing depth with
  | zero => exact stops_datumWith (fun _ => h ▸ Nat.le_refl _) (by simp)
  | succ room ih =>
    refine stops_datumWith (fun h => nomatch h) ?_
    rintro _ ⟨⟩
    refine ⟨by omega, complete_readDatum room, ?_, ih (by omega)⟩
    rw [grammar_readDatum]
    exact scans_datum (by omega)

theorem stops_forms {s : List Char} {refusal : Refusal}
    (h : FormsRefused (readDatum limit) refusal s) (o : Nat) (before : List Tree) :
    ∃ m, run limit (.between o before []) s = .error m ∧ m.Reports (o + byteLength s) refusal := by
  induction h generalizing o before with
  | @done s hend =>
    obtain ⟨o₁, ho₁, hrun₁⟩ := @run_skipTrivia limit o before [] s
    obtain ⟨r, hskip, rfl⟩ := hend
    rw [hrun₁, ← ho₁, hskip]
    exact ⟨⟨.unbalancedClose, o₁, ')'⟩, rfl, rfl, fun _ => rfl, rfl, rfl⟩
  | @here s hdatum =>
    obtain ⟨o₁, ho₁, hrun₁⟩ := @run_skipTrivia limit o before [] s
    rw [hrun₁, ← ho₁]
    exact stops_datum (Nat.zero_add limit) _ _ hdatum o₁ before [] rfl
  | @later s r form hform _ ih =>
    obtain ⟨o₁, ho₁, hrun₁⟩ := @run_skipTrivia limit o before [] s
    rw [grammar_readDatum] at hform
    obtain ⟨o₂, ho₂, hrun₂⟩ := scans_datum (Nat.zero_add limit) hform o₁ before [] rfl
    rw [hrun₁, ← ho₁, hrun₂, ← ho₂]
    exact ih o₂ (form :: before)

/-! ### Whole texts -/

/-- What the reader tells of a refusal is what the scanner tells of the mishap. -/
theorem Mishap.Reports.diagnosis_eq {source : List Char} {refusal : Refusal} {m : Mishap}
    (h : m.Reports (byteLength source) refusal) (limit : Nat) :
    refusal.diagnosis limit source = m.diagnosis limit source := by
  have hoffset : refusal.offset source = m.offset := Nat.sub_eq_of_eq_add h.offset.symm
  simp only [Refusal.diagnosis, Diagnosis.around, Mishap.diagnosis, Refusal.found?, hoffset, h.kind,
    h.wording, h.found, Option.map_some]

/-- What is read is scanned. -/
theorem scan_of_readForms {s : List Char} {forms : List Tree} (h : readForms limit s = .ok forms) :
    scan limit s = .ok forms :=
  scans_forms (readForms_iff.1 h) 0 []

/-- What cannot be read cannot be scanned, for the same fault at the same place. -/
theorem scan_of_readForms_error {s : List Char} {refusal : Refusal}
    (h : readForms limit s = .error refusal) :
    ∃ m, scan limit s = .error m ∧ m.Reports (byteLength s) refusal := by
  have hstops := stops_forms (refused_of_readForms h) 0 []
  rwa [Nat.zero_add] at hstops

/-- What is scanned is read. -/
theorem read_of_scan {source : String} {forms : List Tree}
    (h : scan limit source.toList = .ok forms) : Reader.read limit source = .ok forms := by
  unfold Reader.read
  cases hread : readForms limit source.toList with
  | ok forms' =>
    rw [scan_of_readForms hread] at h
    cases h
    rfl
  | error refusal =>
    obtain ⟨m, hscan, -⟩ := scan_of_readForms_error hread
    rw [hscan] at h
    cases h

/-- What cannot be scanned cannot be read, and the diagnosis is that of the mishap. -/
theorem read_of_scan_error {source : String} {m : Mishap}
    (h : scan limit source.toList = .error m) :
    Reader.read limit source = .error (m.diagnosis limit source.toList) := by
  unfold Reader.read
  cases hread : readForms limit source.toList with
  | ok forms =>
    rw [scan_of_readForms hread] at h
    cases h
  | error refusal =>
    obtain ⟨m', hscan, hm⟩ := scan_of_readForms_error hread
    rw [hscan] at h
    cases h
    exact congrArg Except.error (hm.diagnosis_eq limit)

/-- **The reader and the scanner agree.** On every text, under every limit, the reader gives the
forms that the scanner gives; or it gives a diagnosis of the same kind, in the scanner's words for
it, with the character that the scanner stopped at and the excerpt around its place. -/
theorem read_eq_scan (limit : Nat) (source : String) :
    match scan limit source.toList with
    | .ok forms => Reader.read limit source = .ok forms
    | .error m => ∃ d, Reader.read limit source = .error d ∧ d.kind = m.kind ∧
        d.detail = m.wording limit ∧ d.found? = some (String.ofList [m.found]) ∧
        d.context? = some (Text.excerpt source.toList m.offset) := by
  cases h : scan limit source.toList with
  | ok forms => exact read_of_scan h
  | error m => exact ⟨_, read_of_scan_error h, rfl, rfl, rfl, rfl⟩

/-- Every kind of mistake, behind a letter of two bytes. A string literal that is not closed comes
before the list around it, and what opens too much before both. -/
theorem read_eq_scan_mistakes :
    (∃ d, Reader.read 2 "(é)) (" = .error d ∧ d.kind = .unbalancedClose ∧
      d.detail = "Unexpected ')' at position 4" ∧ d.found? = some ")") ∧
    (∃ d, Reader.read 2 "é ('(a \"b)" = .error d ∧ d.kind = .tooDeeplyNested ∧
      d.detail = "Expression too deeply nested (max depth: 2)" ∧ d.found? = some "(") ∧
    (∃ d, Reader.read 3 "é ('(a \"b)" = .error d ∧ d.kind = .incomplete ∧
      d.detail = "Unterminated string literal" ∧ d.found? = some "\"") ∧
    ∃ d, Reader.read 3 "é ('(a b)" = .error d ∧ d.kind = .incomplete ∧
      d.detail = "Unterminated list: missing ')'" ∧ d.found? = some "(" := by
  have hmistake : ∀ {limit : Nat} {source : String} {m : Mishap},
      scan limit source.toList = .error m → ∃ d, Reader.read limit source = .error d ∧
        d.kind = m.kind ∧ d.detail = m.wording limit ∧
        d.found? = some (String.ofList [m.found]) := by
    intro limit source m hscan
    have hagree := read_eq_scan limit source
    rw [hscan] at hagree
    obtain ⟨d, hread, hkind, hdetail, hfound, -⟩ := hagree
    exact ⟨d, hread, hkind, hdetail, hfound⟩
  exact ⟨hmistake (m := ⟨.unbalancedClose, 4, ')'⟩) rfl,
    hmistake (m := ⟨.tooDeeplyNested, 5, '('⟩) rfl, hmistake (m := ⟨.incomplete, 8, '"'⟩) rfl,
    hmistake (m := ⟨.incomplete, 3, '('⟩) rfl⟩

end SubstLisp.Scanner
