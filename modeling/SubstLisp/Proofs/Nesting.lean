import SubstLisp.Proofs.Scanning

/-!
# The nesting limit

How high the nesting limit has to be for a text that can be read under some limit: as high as its
forms nest, and neither blanks and comments nor the choice between a list and the quotation that
stands for it play a part.

A lone quotation mark is an atom, but nests like an empty list here. The reader takes it for the
start of a quotation until it has looked behind it, and by then has refused it where there is no
room for one.

## What is proved

* `Datum.of_nesting_le` — a datum is one under every limit that its form nests within.
* `tooDeep_of_lt_nesting` — under every lower limit its text is refused.
* `read_of_nesting` — a text that is read under some limit is read as the same forms under the
  limits that these nest within, and is too deeply nested under the others.
-/

namespace SubstLisp

universe u

namespace Form

variable {ι : Type u}

mutual

/-- How deep lists nest in a form, when a lone quotation mark counts as `mark` of them. -/
def nesting (mark : Nat) : Form ι → Nat
  | atom _ word => if word = "'" then mark else 0
  | string _ _ => 0
  | list _ items => nestingAll mark items + 1

/-- How deep lists nest in the forms of a list. -/
def nestingAll (mark : Nat) : List (Form ι) → Nat
  | [] => 0
  | f :: fs => max (nesting mark f) (nestingAll mark fs)

end

theorem nestingAll_le_iff {mark n : Nat} {fs : List (Form ι)} :
    nestingAll mark fs ≤ n ↔ ∀ f ∈ fs, f.nesting mark ≤ n := by
  induction fs with
  | nil => simp [nestingAll]
  | cons f fs ih => simp only [nestingAll, Nat.max_le, ih, List.forall_mem_cons]

theorem nestingAll_bounds_of {fs : List (Form ι)}
    (h : ∀ f ∈ fs, f.nesting 0 ≤ f.nesting 1 ∧ f.nesting 1 ≤ f.nesting 0 + 1) :
    nestingAll 0 fs ≤ nestingAll 1 fs ∧ nestingAll 1 fs ≤ nestingAll 0 fs + 1 := by
  have hle := nestingAll_le_iff.1 (Nat.le_refl (nestingAll 0 fs))
  have hle' := nestingAll_le_iff.1 (Nat.le_refl (nestingAll 1 fs))
  constructor
  · exact nestingAll_le_iff.2 fun f hf => Nat.le_trans (h f hf).1 (hle' f hf)
  · exact nestingAll_le_iff.2 fun f hf => Nat.le_trans (h f hf).2 (Nat.succ_le_succ (hle f hf))

theorem nesting_bounds (f : Form ι) :
    f.nesting 0 ≤ f.nesting 1 ∧ f.nesting 1 ≤ f.nesting 0 + 1 := by
  induction f with
  | atom label word =>
    simp only [nesting]
    split <;> simp
  | string => simp [nesting]
  | list label items ih =>
    obtain ⟨hlower, hupper⟩ := nestingAll_bounds_of ih
    exact ⟨Nat.succ_le_succ hlower, Nat.succ_le_succ hupper⟩

/-- Lone quotation marks make a difference of at most one level. -/
theorem nestingAll_bounds (fs : List (Form ι)) :
    nestingAll 0 fs ≤ nestingAll 1 fs ∧ nestingAll 1 fs ≤ nestingAll 0 fs + 1 :=
  nestingAll_bounds_of fun f _ => nesting_bounds f

/-- A quotation nests one deeper than what it quotes. -/
theorem nesting_quotation (mark : Nat) (f : Form ι) (label label' : ι) :
    (list label [atom label' "quote", f]).nesting mark = f.nesting mark + 1 := by
  simp [nesting, nestingAll]

end Form

namespace Reader

/-! ### Where there is room -/

theorem Sequence.imp {datum datum' : Grammar} {isEnd : List Char → Prop} {s : List Char}
    {fs : List Tree} (h : Sequence datum isEnd s fs)
    (himp : ∀ f ∈ fs, ∀ {s r}, datum s f r → datum' s f r) : Sequence datum' isEnd s fs := by
  induction h with
  | done hend => exact .done hend
  | more hclose hf _ ih =>
    obtain ⟨hhead, htail⟩ := List.forall_mem_cons.1 himp
    exact .more hclose (hhead hf) (ih htail)

theorem DatumWith.of_nesting_le {inner : Option Grammar}
    (hinner : ∀ datum ∈ inner, ∀ {s f r room}, datum s f r → f.nesting 1 ≤ room → Datum room s f r)
    {s r : List Char} {f : Tree} {room : Nat} (h : DatumWith inner s f r)
    (hle : f.nesting 1 ≤ room) : Datum room s f r := by
  cases h with
  | quotation hsome hf =>
    rw [Form.nesting_quotation] at hle
    obtain ⟨room, rfl⟩ := Nat.exists_eq_add_of_le' (Nat.lt_of_lt_of_le (Nat.succ_pos _) hle)
    exact .quotation rfl (hinner _ hsome hf (Nat.le_of_succ_le_succ hle))
  | mark _ hnone =>
    obtain ⟨room, rfl⟩ := Nat.exists_eq_add_of_le' (show 1 ≤ room from hle)
    exact .mark rfl hnone
  | list hsome hitems =>
    obtain ⟨room, rfl⟩ := Nat.exists_eq_add_of_le' (Nat.lt_of_lt_of_le (Nat.succ_pos _) hle)
    have hitems_le := Form.nestingAll_le_iff.1 (Nat.le_of_succ_le_succ hle)
    exact .list rfl (hitems.imp fun f hf _ _ h => hinner _ hsome h (hitems_le f hf))
  | string hliteral => exact Datum.of_forall fun _ => .string hliteral
  | atom hquote hcs hends => exact Datum.of_forall fun _ => .atom hquote hcs hends

/-- A datum is one under every limit that its form nests within. -/
theorem Datum.of_nesting_le {room room' : Nat} {s r : List Char} {f : Tree} (h : Datum room s f r)
    (hle : f.nesting 1 ≤ room') : Datum room' s f r := by
  induction room generalizing room' s f r with
  | zero => exact DatumWith.of_nesting_le (by simp) h hle
  | succ room ih =>
    refine DatumWith.of_nesting_le ?_ h hle
    rintro _ ⟨⟩ _ _ _ _ h hle
    exact ih h hle

/-! ### Where there is none -/

/-- The text is refused for nesting too deeply. -/
def TooDeep {α : Type} (x : Except Refusal α) : Prop :=
  ∃ refusal, x = .error refusal ∧ refusal.fault = .tooDeep

theorem TooDeep.bind {α β : Type} {x : Except Refusal α} (h : TooDeep x)
    (k : α → Except Refusal β) : TooDeep (x >>= k) := by
  obtain ⟨refusal, rfl, hfault⟩ := h
  exact ⟨refusal, rfl, hfault⟩

/-- A sequence is refused at the first of its data that nests too deeply; `Refused` is what it means
for the reader of the sequence to refuse a text. -/
theorem Sequence.refused {limit room : Nat} {isEnd : List Char → Prop}
    (Refused : List Char → Prop) {s : List Char} {fs : List Tree}
    (h : Sequence (Datum limit) isEnd s fs)
    (hdeep : ∀ {s f r}, Datum limit s f r → room < f.nesting 1 → TooDeep (readDatum room s))
    (hhead : ∀ {s c cs}, skipTrivia s = c :: cs → c ≠ ')' → TooDeep (readDatum room (c :: cs)) →
      Refused s)
    (htail : ∀ {s c cs f r}, skipTrivia s = c :: cs → c ≠ ')' → Datum room (c :: cs) f r →
      Refused r → Refused s)
    (hlt : room < Form.nestingAll 1 fs) : Refused s := by
  induction h with
  | done => exact absurd hlt (Nat.not_lt_zero room)
  | @more s r f fs hclose hf _ ih =>
    cases hskip : skipTrivia s with
    | nil =>
      rw [hskip] at hf
      exact absurd startsNoDatum_nil hf.not_startsNoDatum
    | cons c cs =>
      have hc : c ≠ ')' := fun hc => hclose cs (hc ▸ hskip)
      rw [hskip] at hf
      by_cases hle : f.nesting 1 ≤ room
      · have hlt' : room < Form.nestingAll 1 fs := by
          simp only [Form.nestingAll] at hlt
          omega
        exact htail hskip hc (hf.of_nesting_le hle) (ih hlt')
      · exact hhead hskip hc (hdeep hf (Nat.lt_of_not_le hle))

theorem tooDeep_items {limit room : Nat} {s r : List Char} {items : List Tree}
    (h : Items (Datum limit) s items r)
    (hdeep : ∀ {s f r}, Datum limit s f r → room < f.nesting 1 → TooDeep (readDatum room s))
    (hlt : room < Form.nestingAll 1 items) (opening : List Char) :
    TooDeep (readItems (readDatum room) opening s) := by
  refine h.refused (fun s => TooDeep (readItems (readDatum room) opening s)) hdeep ?_ ?_ hlt
  · intro s c cs hskip hc hhead
    rw [readItems_of_skipTrivia hskip hc]
    exact hhead.bind _
  · intro s c cs f r hskip hc hf htail
    obtain ⟨hr, hdatum⟩ := (grammar_readDatum room).symm ▸ hf
    rw [readItems_of_skipTrivia hskip hc, hdatum]
    exact htail.bind _

theorem tooDeep_forms {limit room : Nat} {s : List Char} {forms : List Tree}
    (h : Forms (Datum limit) s forms)
    (hdeep : ∀ {s f r}, Datum limit s f r → room < f.nesting 1 → TooDeep (readDatum room s))
    (hlt : room < Form.nestingAll 1 forms) : TooDeep (readForms room s) := by
  refine h.refused (fun s => TooDeep (readForms room s)) hdeep ?_ ?_ hlt
  · intro s c cs hskip hc hhead
    rw [readForms_of_skipTrivia hskip hc]
    exact hhead.bind _
  · intro s c cs f r hskip hc hf htail
    obtain ⟨hr, hdatum⟩ := (grammar_readDatum room).symm ▸ hf
    rw [readForms_of_skipTrivia hskip hc, hdatum]
    exact htail.bind _

theorem tooDeep_of_datumWith {limit : Nat} {inner : Option Grammar} {room : Nat} {s r : List Char}
    {f : Tree} (h : DatumWith inner s f r)
    (hinner : ∀ datum ∈ inner, datum = Datum limit ∧ ∀ {s f r room}, Datum limit s f r →
      room < f.nesting 1 → TooDeep (readDatum room s))
    (hlt : room < f.nesting 1) : TooDeep (readDatum room s) := by
  cases h with
  | quotation hsome hf =>
    obtain ⟨rfl, hdeep⟩ := hinner _ hsome
    cases room with
    | zero => exact ⟨_, rfl, rfl⟩
    | succ room =>
      rw [Form.nesting_quotation] at hlt
      exact (hdeep hf (Nat.lt_of_succ_lt_succ hlt)).bind _
  | mark hsome hnone =>
    cases room with
    | zero => exact ⟨_, rfl, rfl⟩
    | succ room => exact absurd hlt (by simp [Form.nesting])
  | list hsome hitems =>
    obtain ⟨rfl, hdeep⟩ := hinner _ hsome
    cases room with
    | zero => exact ⟨_, rfl, rfl⟩
    | succ room =>
      exact (tooDeep_items hitems hdeep (Nat.lt_of_succ_lt_succ hlt) _).bind _
  | string => exact absurd hlt (Nat.not_lt_zero room)
  | @atom c cs _ hquote hcs _ =>
    rw [Form.nesting, if_neg (ofList_cons_ne_quotationMark hquote cs)] at hlt
    exact absurd hlt (Nat.not_lt_zero room)

/-- A text that starts with a datum is refused under every limit that its form nests beyond. -/
theorem tooDeep_of_lt_nesting {limit room : Nat} {s r : List Char} {f : Tree}
    (h : Datum limit s f r) (hlt : room < f.nesting 1) : TooDeep (readDatum room s) := by
  induction limit generalizing room s f r with
  | zero => exact @tooDeep_of_datumWith 0 none _ _ _ _ h (by simp) hlt
  | succ limit ih =>
    refine @tooDeep_of_datumWith limit _ _ _ _ _ h ?_ hlt
    rintro _ ⟨⟩
    exact ⟨rfl, ih⟩

/-! ### Whole texts -/

/-- **The nesting limit depends on the forms alone.** A text that is read under some limit is read
as the same forms under every limit that they nest within, and is too deeply nested under every
other one. That a lone quotation mark counts makes a difference for at most one limit, the level
at which the lists of the forms nest. -/
theorem read_of_nesting {limit : Nat} {source : String} {forms : List Tree}
    (h : read limit source = .ok forms) :
    (∀ room, Form.nestingAll 1 forms ≤ room → read room source = .ok forms) ∧
    (∀ room, room < Form.nestingAll 1 forms →
      ∃ d, read room source = .error d ∧ d.kind = .tooDeeplyNested) ∧
    Form.nestingAll 0 forms ≤ Form.nestingAll 1 forms ∧
    Form.nestingAll 1 forms ≤ Form.nestingAll 0 forms + 1 := by
  rw [read_eq_ok_iff] at h
  refine ⟨?_, ?_, Form.nestingAll_bounds forms⟩
  · intro room hle
    rw [read_eq_ok_iff]
    rw [Form.nestingAll_le_iff] at hle
    exact h.imp fun f hf _ _ hdatum => hdatum.of_nesting_le (hle f hf)
  · intro room hlt
    obtain ⟨refusal, hread, hfault⟩ := tooDeep_forms h tooDeep_of_lt_nesting hlt
    refine ⟨refusal.diagnosis room source.toList, ?_, ?_⟩
    · rw [read, hread]
      rfl
    · simp [Refusal.diagnosis, Diagnosis.around, hfault, Fault.kind]

/-- A quotation of a quotation beside a list that holds a lone quotation mark. -/
theorem read_of_nesting_quotations :
    read 7 "''x ('; y\n)" = .ok [.list () [.atom () "quote", .list () [.atom () "quote", .atom () "x"]],
        .list () [.atom () "'"]] ∧
      read 2 "''x ('; y\n)" = .ok [.list () [.atom () "quote", .list () [.atom () "quote", .atom () "x"]],
        .list () [.atom () "'"]] ∧
      ∃ d, read 1 "''x ('; y\n)" = .error d ∧ d.kind = .tooDeeplyNested := by
  have hread := @Scanner.read_of_scan 7 "''x ('; y\n)" _ rfl
  obtain ⟨hok, hdeep, -⟩ := read_of_nesting hread
  exact ⟨hread, hok 2 (by decide), hdeep 1 (by decide)⟩

/-- In `(' x)` lists nest one deep, and yet one level is not enough: the lone quotation mark is
refused as the start of a quotation. -/
theorem lone_quotationMark_tooDeep :
    read 2 "(' x)" = .ok [.list () [.atom () "'", .atom () "x"]] ∧
      Form.nestingAll 0 [Form.list () [.atom () "'", .atom () "x"]] = 1 ∧
      ∃ d, read 1 "(' x)" = .error d ∧ d.kind = .tooDeeplyNested :=
  ⟨Scanner.read_of_scan rfl, rfl, _, Scanner.read_of_scan_error rfl, rfl⟩

end Reader

end SubstLisp
