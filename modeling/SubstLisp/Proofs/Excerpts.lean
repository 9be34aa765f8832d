import SubstLisp.Proofs.Refusals
import SubstLisp.Proofs.Scanning

/-!
# Excerpts show their place

What a user sees of a text around a mistake in it. A byte offset is a place in a text when the text
falls into two parts there; offsets inside a character are none. The excerpt around a place is a
piece of the text with the place in it, with marks where it is cut off and on a single line.

The reader names the place of a mistake by what is left of the text there. That is a part of the
text that begins with the character to blame, so its offset is a place before the end.

## What is proved

* `Text.exists_splitsAt_iff` — the places of a text are the positions between its characters.
* `Text.excerpt_eq_of_splitsAt` — what an excerpt consists of.
* `Reader.Refusal.IsIn.splitsAt` — where the reader refuses a text, the text has a place.
* `Reader.excerpt_shows` — excerpts show their places, and diagnoses have a place to show.
-/

namespace SubstLisp

namespace Text

/-! ### Places -/

/-- A text falls into two parts at a byte offset. An offset past the end is the end. -/
structure SplitsAt (source : List Char) (offset : Nat) (before rest : List Char) : Prop where
  /-- These are its parts. -/
  parts : source = before ++ rest
  /-- The first one has as many bytes as the offset says. -/
  size : byteLength before = min offset (byteLength source)

theorem splitsAt_append (before rest : List Char) :
    SplitsAt (before ++ rest) (byteLength before) before rest :=
  ⟨rfl, by rw [byteLength_append, Nat.min_eq_left (Nat.le_add_right _ _)]⟩

theorem byteLength_eq_utf8ByteSize (cs : List Char) :
    byteLength cs = (String.ofList cs).utf8ByteSize := by
  induction cs with
  | nil => rfl
  | cons c cs ih =>
    rw [byteLength_cons, ih, String.ofList_cons, String.utf8ByteSize_append,
      String.utf8ByteSize_singleton]

theorem byteLength_toList (s : String) : byteLength s.toList = s.utf8ByteSize := by
  rw [byteLength_eq_utf8ByteSize, String.ofList_toList]

/-- A text falls into two parts at the positions between its characters, at its ends, and past its
end. -/
theorem exists_splitsAt_iff {source : String} {offset : Nat} :
    (∃ before rest, SplitsAt source.toList offset before rest) ↔
      String.Pos.Raw.IsValid source ⟨min offset source.utf8ByteSize⟩ := by
  rw [String.Pos.Raw.isValid_iff_exists_append]
  constructor
  · rintro ⟨before, rest, hparts, hsize⟩
    refine ⟨String.ofList before, String.ofList rest, ?_, ?_⟩
    · rw [← String.ofList_append, ← hparts, String.ofList_toList]
    · rw [byteLength_toList, byteLength_eq_utf8ByteSize] at hsize
      rw [← hsize]
      rfl
  · rintro ⟨before, rest, rfl, hpos⟩
    refine ⟨before.toList, rest.toList, String.toList_append, ?_⟩
    rw [byteLength_toList, byteLength_toList]
    exact (congrArg String.Pos.Raw.byteIdx hpos).symm

/-- An offset past the end counts as the end. -/
theorem charsWithin_min (offset : Nat) (s : List Char) :
    charsWithin (min offset (byteLength s)) s = charsWithin offset s := by
  induction s generalizing offset with
  | nil => rfl
  | cons c s ih =>
    rw [byteLength_cons, charsWithin, charsWithin]
    by_cases hc : c.utf8Size ≤ offset
    · have hrest : min offset (c.utf8Size + byteLength s) - c.utf8Size =
          min (offset - c.utf8Size) (byteLength s) := by omega
      rw [if_pos hc, if_pos (by omega), hrest, ih]
    · rw [if_neg hc, if_neg (by omega)]

/-- In front of a place stand the characters of the first part. -/
theorem SplitsAt.charsWithin_eq {source before rest : List Char} {offset : Nat}
    (h : SplitsAt source offset before rest) : charsWithin offset source = before.length := by
  rw [← charsWithin_min, ← h.size, h.parts]
  exact charsWithin_byteLength_append before rest

namespace Excerpt

/-! ### What an excerpt consists of -/

/-- The characters `window` are the piece of the text `before ++ rest` that an excerpt around the
place between the parts shows: `lead` is cut off in front of it and `trail` behind it. -/
structure Frames (before rest lead window trail : List Char) : Prop where
  /-- It is a piece of the text. -/
  parts : before ++ rest = lead ++ (window ++ trail)
  /-- It begins twenty characters before the place, or where the text begins. -/
  length_lead : lead.length = before.length - 20
  /-- It has sixty characters, or ends where the text ends. -/
  length_window : window.length = min 60 ((before ++ rest).length - lead.length)
  /-- The character at the place, if there is one, is in it. -/
  place : ∀ c after, rest = c :: after → window[before.length - lead.length]? = some c

/-- A piece of a text with a mark at each end where something is cut off. -/
def framed (lead window trail : List Char) : List Char :=
  (if lead = [] then [] else "[...]".toList) ++ window ++
    (if trail = [] then [] else "[...]".toList)

/-- A text with its line feeds written out and its carriage returns left out. -/
def flattened (cs : List Char) : List Char :=
  (cs.flatMap fun c => if c = '\n' then ['\\', 'n'] else [c]).filter (· != '\r')

theorem oneLine_eq_flattened (cs : List Char) : oneLine cs = flattened cs := by
  rw [oneLine, flattened, List.filter_flatMap]
  congr 1
  funext c
  by_cases hfeed : c = '\n'
  · subst hfeed
    decide
  by_cases hreturn : c = '\r'
  · subst hreturn
    decide
  · simp [inlineChar, hfeed, hreturn]

/-- What is cut off in front of the window. -/
def front (source : List Char) (before : Nat) : List Char := source.take (start before)

/-- What is cut off behind the window. -/
def back (source : List Char) (before : Nat) : List Char := (source.drop (start before)).drop width

theorem length_front {source : List Char} {before : Nat} (h : before ≤ source.length) :
    (front source before).length = start before := by
  rw [front, List.length_take]
  simp only [start]
  omega

theorem length_window (source : List Char) (before : Nat) :
    (window source before).length = min width (source.length - start before) := by
  rw [window, List.length_take, List.length_drop]

theorem back_eq_nil_iff {source : List Char} {before : Nat} :
    back source before = [] ↔ ¬ start before + (window source before).length < source.length := by
  rw [back, List.drop_eq_nil_iff, List.length_drop, length_window]
  omega

/-- The window around a place has the place in it. -/
theorem frames_window (before rest : List Char) :
    Frames before rest (front (before ++ rest) before.length)
      (window (before ++ rest) before.length) (back (before ++ rest) before.length) := by
  have hle : before.length ≤ (before ++ rest).length := by simp
  refine ⟨?_, length_front hle, ?_, ?_⟩
  · rw [front, window, back, List.take_append_drop, List.take_append_drop]
  · rw [length_window, length_front hle]
    rfl
  · rintro c after rfl
    -- the place is at most twenty characters into the window, which reaches further
    have hplace : start before.length + (before.length - start before.length) = before.length := by
      simp only [start]
      omega
    have hlt : before.length - start before.length < width := by
      simp only [start, lead, width]
      omega
    rw [length_front hle, window, List.getElem?_take_of_lt hlt, List.getElem?_drop, hplace,
      List.getElem?_append_right (Nat.le_refl _), Nat.sub_self]
    rfl

/-- There is a mark exactly where something is cut off. -/
theorem marked_eq_framed {source : List Char} {before : Nat} (h : before ≤ source.length) :
    marked source before =
      framed (front source before) (window source before) (back source before) := by
  have hfront : front source before = [] ↔ ¬ 0 < start before := by
    rw [← List.length_eq_zero_iff, length_front h]
    omega
  simp only [marked, framed, hfront, back_eq_nil_iff, ite_not]
  rfl

end Excerpt

/-- The excerpt around a place shows a piece of the text with the place in it. -/
theorem excerpt_eq_of_splitsAt {source before rest : List Char} {offset : Nat}
    (h : SplitsAt source offset before rest) :
    ∃ lead window trail, Excerpt.Frames before rest lead window trail ∧
      (excerpt source offset).toList = Excerpt.flattened (Excerpt.framed lead window trail) := by
  refine ⟨_, _, _, Excerpt.frames_window before rest, ?_⟩
  have hle : before.length ≤ (before ++ rest).length := by simp
  rw [excerpt, String.toList_ofList, Excerpt.oneLine_eq_flattened, h.charsWithin_eq, h.parts,
    Excerpt.marked_eq_framed hle]

end Text

namespace Reader

open Text

/-! ### Where the reader refuses a text -/

/-- Where the reader refuses a text, the text has a place, and the character to blame stands right
behind it. -/
theorem Refusal.IsIn.splitsAt {s : List Char} {refusal : Refusal} (h : refusal.IsIn s) :
    ∃ before c after, SplitsAt s (refusal.offset s) before (c :: after) ∧
      refusal.offset s < byteLength s ∧ refusal.found? = some (String.ofList [c]) ∧
      c ∈ refusal.fault.culprits := by
  obtain ⟨⟨before, rfl⟩, c, hc, hhead⟩ := h
  obtain ⟨after, hrest⟩ := List.head?_eq_some_iff.1 hhead
  have hpos := c.utf8Size_pos
  refine ⟨before, c, after, ?_, ?_, ?_, hc⟩
  · rw [refusal.offset_append, ← hrest]
    exact splitsAt_append before refusal.rest
  · rw [refusal.offset_append, byteLength_append, hrest, byteLength_cons]
    omega
  · rw [Refusal.found?, hhead]
    rfl

/-! ### Whole texts -/

theorem exists_of_read_error {limit : Nat} {source : String} {d : Diagnosis}
    (h : read limit source = .error d) : ∃ refusal, readForms limit source.toList = .error refusal ∧
      d = refusal.diagnosis limit source.toList := by
  unfold read at h
  cases hforms : readForms limit source.toList with
  | ok forms =>
    rw [hforms] at h
    cases h
  | error refusal =>
    rw [hforms] at h
    cases h
    exact ⟨refusal, rfl, rfl⟩

/-- **An excerpt shows its place, and a diagnosis has a place to show.** The places of a text are
the boundaries of its characters. The excerpt around a place is on one line; apart from that it is a
piece of the text from twenty characters before the place on, sixty characters long where the text
is, with marks where it is cut off, and the character at the place is in it. Where a text cannot be
read, the excerpt in the diagnosis is taken around a place before the end of the text, and what is
reported as found is the character there, one that the fault is to be blamed on. -/
theorem excerpt_shows (source : String) :
    (∀ offset, (∃ before rest, SplitsAt source.toList offset before rest) ↔
      String.Pos.Raw.IsValid source ⟨min offset source.utf8ByteSize⟩) ∧
    (∀ offset before rest, SplitsAt source.toList offset before rest → ∀ kind detail found?,
      ∃ context lead window trail,
        (Diagnosis.around source.toList offset kind detail found?).context? = some context ∧
        Excerpt.Frames before rest lead window trail ∧
        context.toList = Excerpt.flattened (Excerpt.framed lead window trail) ∧
        '\n' ∉ context.toList ∧ '\r' ∉ context.toList) ∧
    ∀ limit d, read limit source = .error d → ∃ refusal before c after,
      readForms limit source.toList = .error refusal ∧
      d = .around source.toList (refusal.offset source.toList) refusal.fault.kind
        (refusal.fault.detail limit (refusal.offset source.toList)) (some (String.ofList [c])) ∧
      SplitsAt source.toList (refusal.offset source.toList) before (c :: after) ∧
      refusal.offset source.toList < source.utf8ByteSize ∧
      c ∈ refusal.fault.culprits := by
  refine ⟨fun offset => exists_splitsAt_iff, ?_, ?_⟩
  · intro offset before rest hsplit kind detail found?
    obtain ⟨lead, window, trail, hframes, htext⟩ := excerpt_eq_of_splitsAt hsplit
    have hflat : '\n' ∉ (excerpt source.toList offset).toList ∧
        '\r' ∉ (excerpt source.toList offset).toList := by
      rw [excerpt, String.toList_ofList]
      exact oneLine_flat _
    exact ⟨_, lead, window, trail, rfl, hframes, htext, hflat⟩
  · intro limit d h
    obtain ⟨refusal, hread, rfl⟩ := exists_of_read_error h
    obtain ⟨before, c, after, hsplit, hlt, hfound, hc⟩ := (isIn_of_readForms hread).splitsAt
    rw [byteLength_toList] at hlt
    exact ⟨refusal, before, c, after, hread, by rw [← hfound]; rfl, hsplit, hlt, hc⟩

/-- Three lines with a closing parenthesis too many, behind letters of two bytes. -/
def strayLines : String :=
  "(setq πr 3)\r\n(concat \"§ \" 'πr))\r\n(setq s (* πr πr)) ; and so on, line after line"

/-- The parenthesis has thirty characters in front of it that take up thirty-three bytes, and the
text is cut off at both ends. -/
theorem excerpt_shows_strayLines :
    ∃ d refusal before after lead window trail,
      read 3 strayLines = .error d ∧ d.detail = "Unexpected ')' at position 33" ∧
      d.found? = some ")" ∧
      d.context? =
        some "[...])\\n(concat \"§ \" 'πr))\\n(setq s (* πr πr)) ; and so on, line [...]" ∧
      readForms 3 strayLines.toList = .error refusal ∧
      SplitsAt strayLines.toList (refusal.offset strayLines.toList) before (')' :: after) ∧
      Excerpt.Frames before (')' :: after) lead window trail ∧
      d.context?.map String.toList =
        some (Excerpt.flattened (Excerpt.framed lead window trail)) := by
  have hscan : Scanner.scan 3 strayLines.toList = .error ⟨.unbalancedClose, 33, ')'⟩ := rfl
  have hread := Scanner.read_of_scan_error hscan
  obtain ⟨-, hshown, hplace⟩ := excerpt_shows strayLines
  obtain ⟨refusal, before, c, after, hforms, hd, hsplit, -, -⟩ := hplace 3 _ hread
  have hfound : some (String.ofList [')']) = some (String.ofList [c]) :=
    congrArg Diagnosis.found? hd
  obtain rfl := List.singleton_inj.1 (String.ofList_injective (Option.some.inj hfound))
  obtain ⟨context, lead, window, trail, hcontext, hframes, htext, -⟩ :=
    hshown _ _ _ hsplit refusal.fault.kind
      (refusal.fault.detail 3 (refusal.offset strayLines.toList)) (some (String.ofList [')']))
  rw [← hd] at hcontext
  refine ⟨_, refusal, before, after, lead, window, trail, hread, by decide, rfl, by decide,
    hforms, hsplit, hframes, ?_⟩
  rw [hcontext, Option.map_some, htext]

end Reader

end SubstLisp
