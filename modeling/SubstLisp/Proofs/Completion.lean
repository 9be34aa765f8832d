import SubstLisp.Proofs.Scanning

/-!
# Texts that go on

Which faults of a text more text can mend. A scan that stops at a character has looked at nothing
behind it, so it stops there whatever follows. A scan that gets to the end of its text can always be
completed: the comment or the string literal in progress is ended and every open list is closed.
Quotations need nothing of their own, for they are only opened by the character that begins their
datum.

## What is proved

* `settled_feed` — wherever something new may begin, no quotation is innermost.
* `kind_of_step` — a character is only refused for closing nothing or opening too much.
* `run_closing` — what is left open can be closed.
* `read_incomplete_iff` — a text is incomplete exactly when it is refused and more text mends it;
  every other fault stays, at the same place.
-/

namespace SubstLisp

variable {limit : Nat}

namespace Scanner

open Reader
open Text (isBlank)

/-! ### Between words -/

/-- The innermost thing that is open, if there is any, is a list. -/
def NoQuoteOnTop (frames : List Frame) : Prop := ∀ rest, frames ≠ .quote :: rest

theorem noQuoteOnTop_list (opening : Nat) (items : List Tree) (frames : List Frame) :
    NoQuoteOnTop (.list opening items :: frames) := fun _ => nofun

/-- A complete datum completes every quotation that waits for it. -/
theorem noQuoteOnTop_complete (datum : Tree) (forms : List Tree) (frames : List Frame) :
    NoQuoteOnTop (complete datum forms frames).2 := by
  induction frames generalizing datum with
  | nil => exact fun _ => nofun
  | cons frame frames ih =>
    cases frame with
    | list opening items => exact noQuoteOnTop_list opening _ frames
    | quote => exact ih _

/-- Where something new may begin, no quotation waits for it. -/
def State.Settled (s : State) : Prop :=
  s.mode = .between ∨ s.mode = .comment → NoQuoteOnTop s.frames

theorem settled_initial : State.initial.Settled := fun _ _ => nofun

theorem settled_add (s : State) (datum : Tree) : (s.add datum).Settled :=
  fun _ => noQuoteOnTop_complete datum s.forms s.frames

/-- A state at a character that is not part of a word which it ends: only where the character begins
a datum may a quotation wait for one. -/
structure State.Awaits (s : State) (c : Char) : Prop where
  mode_ne : s.mode ≠ .quoteMark
  between : s.mode = .between → StartsNoDatum [c] → NoQuoteOnTop s.frames
  comment : s.mode = .comment → NoQuoteOnTop s.frames

theorem State.Awaits.mode_eq_between {s : State} {c : Char} (h : s.Awaits c)
    (hcomment : s.mode ≠ .comment) (hatom : ∀ chars, s.mode ≠ .atom chars)
    (hstring : ∀ opening chars, s.mode ≠ .string opening chars) : s.mode = .between := by
  cases hmode : s.mode with
  | between => rfl
  | comment => exact absurd hmode hcomment
  | atom chars => exact absurd hmode (hatom chars)
  | string opening chars => exact absurd hmode (hstring opening chars)
  | quoteMark => exact absurd hmode h.mode_ne

theorem awaits_add (s : State) (datum : Tree) (c : Char) : (s.add datum).Awaits c :=
  ⟨nofun, fun h _ => settled_add s datum (.inl h), fun h => settled_add s datum (.inr h)⟩

theorem awaits_endWord {s : State} (h : s.Settled) (c : Char) : (s.endWord c).Awaits c := by
  unfold State.endWord
  split
  · next chars hmode =>
    split
    · exact ⟨by simp [hmode], by simp [hmode], by simp [hmode]⟩
    · exact awaits_add s _ c
  · split
    · exact awaits_add s _ c
    · next hstarts =>
      refine ⟨nofun, fun _ hc => absurd ?_ hstarts, nofun⟩
      exact startsNoDatum_iff_headD.1 hc
  · next hatom hquote =>
    exact ⟨hquote, fun hmode _ => h (.inl hmode), fun hmode => h (.inr hmode)⟩

theorem settled_begin {s s' : State} {c : Char} (hmode : s.mode = .between) (hs : s.Awaits c)
    (h : begin limit s c = .ok s') : s'.Settled := by
  unfold begin openAt at h
  split at h
  · next hblank =>
    cases h
    exact fun _ => hs.between hmode (startsNoDatum_cons.2 (.inl hblank))
  split at h
  · next hc =>
    cases h
    exact fun _ => hs.between hmode (startsNoDatum_cons.2 (.inr (.inr hc)))
  split at h
  · split at h <;> cases h
    exact fun _ => noQuoteOnTop_list _ _ _
  split at h
  · split at h <;> cases h
    exact fun hmode' => by simp at hmode'
  split at h
  · cases h
    exact fun hmode' => by simp at hmode'
  split at h
  · split at h <;> cases h
    exact settled_add _ _
  · cases h
    exact fun hmode' => by simp at hmode'

/-- One character keeps a state settled. -/
theorem settled_step {s s' : State} {c : Char} (hs : s.Settled) (h : step limit s c = .ok s') :
    s'.Settled := by
  have hawaits := awaits_endWord hs c
  generalize hword : s.endWord c = word at hawaits
  obtain ⟨next, hnext, h⟩ := of_bind_eq_ok h
  rw [hword] at hnext
  cases h
  show next.Settled
  unfold advance at hnext
  split at hnext
  · next hmode =>
    cases hnext
    split <;> exact fun _ => hawaits.comment hmode
  · cases hnext
    exact fun hmode' => by simp at hmode'
  · cases hnext
    split
    · exact settled_add _ _
    · exact fun hmode' => by simp at hmode'
  · next hcomment hatom hstring =>
    exact settled_begin (hawaits.mode_eq_between hcomment hatom hstring) hawaits hnext

/-- Wherever the scanner gets to, it is settled. -/
theorem settled_feed {s s' : State} {cs : List Char} (hs : s.Settled)
    (h : feed limit s cs = .ok s') : s'.Settled := by
  induction cs generalizing s with
  | nil =>
    cases h
    exact hs
  | cons c cs ih =>
    rw [feed, List.foldlM_cons] at h
    obtain ⟨next, hnext, h⟩ := of_bind_eq_ok h
    exact ih (settled_step hs hnext) h

/-! ### Refusals -/

theorem kind_of_begin {s : State} {c : Char} {m : Mishap} (hmode : s.mode = .between)
    (hs : s.Awaits c) (h : begin limit s c = .error m) :
    (m.kind = .unbalancedClose ∧ c = ')' ∧ s.frames = []) ∨
      (m.kind = .tooDeeplyNested ∧ (c = '(' ∨ c = '\'') ∧ limit ≤ s.frames.length) := by
  unfold begin openAt at h
  split at h
  · cases h
  split at h
  · cases h
  split at h
  · next hc =>
    split at h <;> cases h
    next hle => exact .inr ⟨rfl, .inl hc, hle⟩
  split at h
  · next hc =>
    split at h <;> cases h
    next hle => exact .inr ⟨rfl, .inr hc, hle⟩
  split at h
  · cases h
  split at h
  · next hc =>
    subst hc
    have htop := hs.between hmode (startsNoDatum_cons.2 (.inr (.inl rfl)))
    split at h
    · cases h
    · next hlist =>
      cases h
      cases hframes : s.frames with
      | nil => exact .inl ⟨rfl, rfl, rfl⟩
      | cons frame frames =>
        cases frame with
        | list opening items => exact absurd hframes (hlist opening items frames)
        | quote => exact absurd hframes (htop frames)
  · cases h

/-- A character is only refused because it closes a list and nothing is open, or because it opens
something and as much is open as may be. -/
theorem kind_of_step {s : State} {c : Char} {m : Mishap} (hs : s.Settled)
    (h : step limit s c = .error m) :
    (m.kind = .unbalancedClose ∧ c = ')' ∧ (s.endWord c).frames = []) ∨
      (m.kind = .tooDeeplyNested ∧ (c = '(' ∨ c = '\'') ∧ limit ≤ (s.endWord c).frames.length) := by
  have hawaits := awaits_endWord hs c
  rcases of_bind_eq_error h with h | ⟨_, -, h⟩
  · unfold advance at h
    split at h
    · cases h
    · cases h
    · cases h
    · next hcomment hatom hstring =>
      exact kind_of_begin (hawaits.mode_eq_between hcomment hatom hstring) hawaits h
  · cases h

theorem kind_of_feed_error {s : State} {cs : List Char} {m : Mishap} (hs : s.Settled)
    (h : feed limit s cs = .error m) : m.kind = .unbalancedClose ∨ m.kind = .tooDeeplyNested := by
  induction cs generalizing s with
  | nil => cases h
  | cons c cs ih =>
    rw [feed, List.foldlM_cons] at h
    rcases of_bind_eq_error h with h | ⟨next, hnext, h⟩
    · exact (kind_of_step hs h).imp (fun h => h.1) fun h => h.1
    · exact ih (settled_step hs hnext) h

theorem kind_of_finish {s : State} {m : Mishap} (h : finish s = .error m) :
    m.kind = .incomplete := by
  unfold finish at h
  split at h
  · cases h
    rfl
  · simp only at h
    split at h <;> cases h
    rfl

/-! ### Completing a text -/

/-- The number of lists that are open. -/
def openLists : List Frame → Nat
  | [] => 0
  | .list _ _ :: frames => openLists frames + 1
  | .quote :: frames => openLists frames

theorem openLists_complete (datum : Tree) (forms : List Tree) (frames : List Frame) :
    openLists (complete datum forms frames).2 = openLists frames := by
  induction frames generalizing datum with
  | nil => rfl
  | cons frame frames ih =>
    cases frame with
    | list opening items => rfl
    | quote => exact ih _

/-- So many closing parentheses. -/
def closeLists (n : Nat) : List Char := List.replicate n ')'

/-- What completes a text that is scanned to this state: the end of the comment or the string literal
in progress, and a closing parenthesis for every open list. -/
def State.closing (s : State) : List Char :=
  match s.mode with
  | .comment => '\n' :: closeLists (openLists s.frames)
  | .string _ _ => '"' :: closeLists (openLists s.frames)
  | _ => closeLists (openLists s.frames)

theorem startsNoDatum_closeLists (n : Nat) : StartsNoDatum (closeLists n) := by
  cases n with
  | zero => exact startsNoDatum_nil
  | succ n => exact startsNoDatum_cons.2 (.inr (.inl rfl))

/-- As many closing parentheses as lists are open complete a text between words. -/
theorem run_closeLists (o : Nat) (forms : List Tree) {frames : List Frame}
    (htop : NoQuoteOnTop frames) :
    ∃ fs, run limit (.between o forms frames) (closeLists (openLists frames)) = .ok fs := by
  induction hn : openLists frames generalizing o forms frames with
  | zero =>
    cases frames with
    | nil => exact ⟨_, rfl⟩
    | cons frame frames =>
      cases frame with
      | list opening items => cases hn
      | quote => exact absurd rfl (htop frames)
  | succ n ih =>
    cases frames with
    | nil => cases hn
    | cons frame frames =>
      cases frame with
      | list opening items =>
        have hn' : openLists (complete (.list () items.reverse) forms frames).2 = n := by
          rw [openLists_complete]
          exact Nat.succ.inj hn
        obtain ⟨fs, hfs⟩ := ih (o + ')'.utf8Size) _ (noQuoteOnTop_complete _ forms frames) hn'
        exact ⟨fs, (run_cons_of_ok rfl _).trans hfs⟩
      | quote => exact absurd rfl (htop frames)

/-- They do so as well when a datum has just been added. -/
theorem run_add_closeLists (o : Nat) (forms : List Tree) (frames : List Frame) (datum : Tree) :
    ∃ fs, run limit ((State.between o forms frames).add datum) (closeLists (openLists frames)) =
      .ok fs := by
  rw [← openLists_complete datum forms frames]
  exact run_closeLists o _ (noQuoteOnTop_complete datum forms frames)

/-- What is left open can be closed. -/
theorem run_closing {s : State} (hs : s.Settled) : ∃ fs, run limit s s.closing = .ok fs := by
  obtain ⟨o, forms, frames, mode⟩ := s
  cases mode with
  | between => exact run_closeLists o forms (hs (.inl rfl))
  | comment =>
    obtain ⟨fs, hfs⟩ := run_closeLists (o + '\n'.utf8Size) forms (hs (.inr rfl))
    exact ⟨fs, (run_cons_of_ok rfl _).trans hfs⟩
  | atom chars =>
    have hrun := @run_atom limit [] _ (fun _ h => absurd h List.not_mem_nil)
      (startsNoDatum_closeLists (openLists frames)).endsAtom o forms frames chars
    obtain ⟨fs, hfs⟩ := run_add_closeLists _ forms frames _
    exact ⟨fs, hrun.trans hfs⟩
  | string opening chars =>
    obtain ⟨fs, hfs⟩ := run_add_closeLists (o + '"'.utf8Size) forms frames
      (.string () (String.ofList chars.reverse))
    exact ⟨fs, (run_cons_of_ok rfl _).trans hfs⟩
  | quoteMark =>
    obtain ⟨fs, hfs⟩ := run_add_closeLists o forms frames (.atom () "'")
    exact ⟨fs, (run_quoteMark_of_startsNoDatum (startsNoDatum_closeLists _) o forms frames).trans
      hfs⟩

end Scanner

/-! ### Whole texts -/

namespace Reader

open Scanner

/-- What stops a scan at a character of a text is told of every text that begins so. -/
theorem read_append_of_feed_error {source : String} {m : Mishap}
    (h : feed limit .initial source.toList = .error m) (more : String) :
    read limit (source ++ more) = .error (m.diagnosis limit (source ++ more).toList) := by
  refine read_of_scan_error ?_
  rw [scan, String.toList_append, feed_append, h]
  rfl

/-- A text that is scanned to its end can be completed. -/
theorem exists_read_append_of_feed {source : String} {s : State}
    (h : feed limit .initial source.toList = .ok s) :
    ∃ more forms, read limit (source ++ more) = .ok forms := by
  obtain ⟨forms, hrun⟩ := @run_closing limit s (settled_feed settled_initial h)
  refine ⟨String.ofList s.closing, forms, read_of_scan ?_⟩
  rw [scan, String.toList_append, String.toList_ofList, feed_append, h]
  exact hrun

/-- A text that is scanned to its end is incomplete if it is refused. -/
theorem kind_of_feed {source : String} {s : State} {d : Diagnosis}
    (h : feed limit .initial source.toList = .ok s) (hread : read limit source = .error d) :
    d.kind = .incomplete := by
  have hscan : scan limit source.toList = finish s := by
    rw [scan, h]
    rfl
  cases hfinish : finish s with
  | ok forms =>
    rw [read_of_scan (hscan.trans hfinish)] at hread
    cases hread
  | error m =>
    rw [read_of_scan_error (hscan.trans hfinish)] at hread
    cases hread
    exact kind_of_finish hfinish

/-- **A text is incomplete when more text can mend it**, and only then: it is refused as incomplete
exactly when it is refused and some continuation of it is read. If it is refused otherwise, a
closing parenthesis closes nothing or the limit is exceeded, and every continuation of it is
refused in the same words, for the same character at the same place. -/
theorem read_incomplete_iff (limit : Nat) (source : String) :
    ((∃ d, read limit source = .error d ∧ d.kind = .incomplete) ↔
      (∃ d, read limit source = .error d) ∧
        ∃ more forms, read limit (source ++ more) = .ok forms) ∧
    ∀ d, read limit source = .error d → d.kind ≠ .incomplete →
      (d.kind = .unbalancedClose ∨ d.kind = .tooDeeplyNested) ∧
      ∀ more, ∃ d', read limit (source ++ more) = .error d' ∧
        d'.kind = d.kind ∧ d'.detail = d.detail ∧ d'.found? = d.found? := by
  cases hfeed : feed limit .initial source.toList with
  | ok s =>
    refine ⟨⟨?_, ?_⟩, ?_⟩
    · rintro ⟨d, hread, -⟩
      exact ⟨⟨d, hread⟩, exists_read_append_of_feed hfeed⟩
    · rintro ⟨⟨d, hread⟩, -⟩
      exact ⟨d, hread, kind_of_feed hfeed hread⟩
    · intro d hread hkind
      exact absurd (kind_of_feed hfeed hread) hkind
  | error m =>
    have hmore := read_append_of_feed_error hfeed
    have hread := hmore ""
    rw [String.append_empty] at hread
    have hkind := kind_of_feed_error settled_initial hfeed
    refine ⟨⟨?_, ?_⟩, ?_⟩
    · rintro ⟨d, hd, hincomplete⟩
      rw [hread] at hd
      cases hd
      rcases hkind with h | h <;> exact absurd (h.symm.trans hincomplete) (by decide)
    · rintro ⟨-, more, forms, hforms⟩
      rw [hmore more] at hforms
      cases hforms
    · intro d hd _
      rw [hread] at hd
      cases hd
      exact ⟨hkind, fun more => ⟨_, hmore more, rfl, rfl, rfl⟩⟩

/-- A list with a lone quotation mark and a comment in it can be completed, a closing parenthesis too
many cannot be mended. -/
theorem read_incomplete_iff_unfinished :
    (∃ d, read 3 "(a ('; b" = .error d ∧ d.kind = .incomplete) ∧
      (∃ more forms, read 3 ("(a ('; b" ++ more) = .ok forms) ∧
      ∃ d, read 2 "(a)) (" = .error d ∧ d.kind ≠ .incomplete ∧
        ∀ more, ∃ d', read 2 ("(a)) (" ++ more) = .error d' ∧
          d'.kind = .unbalancedClose ∧ d'.detail = "Unexpected ')' at position 3" ∧
          d'.found? = some ")" := by
  have hopen := @read_of_scan_error 3 "(a ('; b" _ rfl
  have hstray := @read_of_scan_error 2 "(a)) (" _ rfl
  have hcompletable := (read_incomplete_iff 3 "(a ('; b").1.1 ⟨_, hopen, rfl⟩
  have hpermanent := (read_incomplete_iff 2 "(a)) (").2 _ hstray (by decide)
  exact ⟨⟨_, hopen, rfl⟩, hcompletable.2, _, hstray, by decide, hpermanent.2⟩

end Reader

end SubstLisp
