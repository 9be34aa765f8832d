import SubstLisp.Proofs.Numerals
import SubstLisp.Proofs.Relabelling
import SubstLisp.Value.Json

/-!
# Values as JSON text

A value that quotes nothing has a JSON text, and reading the text gives the value back. Of the
limits on nesting only the one of the text reader decides: there is none on writing, and what the
text reader lets pass is well within the limit of the conversion. A value that quotes something has
no JSON text, and the first quotation is the one that is reported.

## What is proved

* `Value.toJson_eq` — what a value is as JSON.
* `Value.readWithin_readValue` — the text of a value is read as the value where its lists nest within
  the room, and refused where they do not.
* `Value.ofJsonText_jsonText` — writing a value and reading it again.
-/

namespace SubstLisp

variable {ι α : Type}

/-! ### The JSON of a value -/

namespace Value

mutual

/-- How deep lists nest in a value. -/
def nesting : Value ι → Nat
  | list items => nestingAll items + 1
  | _ => 0

/-- How deep lists nest in the values of a list at most. -/
def nestingAll : List (Value ι) → Nat
  | [] => 0
  | v :: vs => max (nesting v) (nestingAll vs)

end

mutual

/-- The JSON of a value that quotes nothing; a quotation is left out. -/
def json : Value ι → Json
  | nil => .null
  | number n => .number (.integer n.toInt)
  | string text => .string text
  | list items => .array (jsonAll items)
  | quote _ => .null

/-- The JSON of the values of a list. -/
def jsonAll : List (Value ι) → List Json
  | [] => []
  | v :: vs => json v :: jsonAll vs

end

@[simp]
theorem jsonAll_eq_map (vs : List (Value ι)) : jsonAll vs = vs.map json := by
  induction vs with
  | nil => rfl
  | cons v vs ih => simp [jsonAll, ih]

theorem nestingAll_le_iff {vs : List (Value ι)} {n : Nat} :
    nestingAll vs ≤ n ↔ ∀ v ∈ vs, v.nesting ≤ n := by
  induction vs with
  | nil => simp [nestingAll]
  | cons v vs ih => rw [nestingAll, Nat.max_le, ih, List.forall_mem_cons]

/-- What the values of a list are as JSON, given the law for each of them. -/
theorem toJsonAll_eq_of {vs : List (Value ι)} (h : ∀ v ∈ vs, v.toJson =
      match v.quotations with
      | [] => .ok v.json
      | f :: _ => .error (.typing (.quotedInJson f.erase))) :
    toJsonAll vs =
      match vs.flatMap quotations with
      | [] => .ok (vs.map json)
      | f :: _ => .error (.typing (.quotedInJson f.erase)) := by
  induction vs with
  | nil => rfl
  | cons v vs ih =>
    obtain ⟨hv, hvs⟩ := List.forall_mem_cons.1 h
    simp only [toJsonAll, hv, List.flatMap_cons]
    cases v.quotations with
    | cons f fs => rfl
    | nil =>
      rw [ih hvs, List.nil_append]
      cases vs.flatMap quotations <;> rfl

/-- A value that quotes nothing has its JSON, and otherwise the first quotation is reported. -/
theorem toJson_eq (v : Value ι) : v.toJson =
    match v.quotations with
    | [] => .ok v.json
    | f :: _ => .error (.typing (.quotedInJson f.erase)) := by
  induction v with
  | list items ih =>
    simp only [toJson, toJsonAll_eq_of ih, quotations_list, json, jsonAll_eq_map]
    cases items.flatMap quotations <;> rfl
  | _ => rfl

/-- The values of the JSON of a list, given the law for each of them. -/
theorem ofJsonAllWithin_json_of {room : Nat} {vs : List (Value ι)}
    (h : ∀ v ∈ vs, ofJsonWithin room v.json = .ok v) :
    ofJsonAllWithin room (vs.map json) = .ok vs := by
  induction vs with
  | nil => rfl
  | cons v vs ih =>
    obtain ⟨hv, hvs⟩ := List.forall_mem_cons.1 h
    simp only [List.map_cons, ofJsonAllWithin, hv, ih hvs]
    rfl

/-- The JSON of a value is converted back where lists nest within the room. -/
theorem ofJsonWithin_json {room : Nat} {v : Value ι} (hquote : v.quotations = [])
    (hroom : v.nesting < room) : ofJsonWithin room v.json = .ok v := by
  obtain ⟨room, rfl⟩ : ∃ n, room = n + 1 := Nat.exists_eq_succ_of_ne_zero (by omega)
  induction v generalizing room with
  | number n => simp [json, ofJsonWithin, Json.Number.word?]
  | list items ih =>
    have hitems : ∀ v ∈ items, ofJsonWithin room v.json = .ok v := by
      intro v hv
      simp only [nesting, Nat.add_lt_add_iff_right] at hroom
      have hnesting : v.nesting ≤ nestingAll items := nestingAll_le_iff.1 (Nat.le_refl _) v hv
      have hv' : v.quotations = [] := by simp_all
      obtain ⟨room, rfl⟩ : ∃ n, room = n + 1 := Nat.exists_eq_succ_of_ne_zero (by omega)
      exact ih v hv hv' room (by omega)
    simp only [json, jsonAll_eq_map, ofJsonWithin, ofJsonAllWithin_json_of hitems]
    rfl
  | quote form => cases hquote
  | _ => rfl

end Value

/-! ### Reading -/

namespace Json.Reader

/-- Reading at the start of a text gives something and leaves the rest of the text. -/
def Gives (read : Reads α) (s : List Char) (a : α) (r : List Char) : Prop :=
  ∃ h, read s = some (a, ⟨r, h⟩)

/-- What reading at the start of a text gives and the rest of the text, if it gives anything. -/
def result (read : Reads α) (s : List Char) : Option (α × List Char) :=
  (read s).map fun (a, r) => (a, r.1)

theorem Gives.result_eq {read : Reads α} {s r : List Char} {a : α} (h : Gives read s a r) :
    result read s = some (a, r) := by
  obtain ⟨hlt, h⟩ := h
  rw [result, h]
  rfl

/-! #### Strings -/

theorem gives_readEscape {x c : Char} (hx : x ≠ 'u') (hc : letterEscape? x = some c)
    (s : List Char) : Gives readEscape (x :: s) c s :=
  ⟨Nat.lt_succ_self _, by simp only [readEscape, if_neg hx, hc]⟩

theorem hexQuad?_hexDigit : ∀ n < 32,
    hexQuad? '0' '0' (hexDigit (n / 16)) (hexDigit (n % 16)) = some n := by
  decide

/-- A control character is read from four hexadecimal digits. -/
theorem gives_readEscape_units {c : Char} (hc : c.toNat < 32) (s : List Char) :
    Gives readEscape
      ('u' :: '0' :: '0' :: hexDigit (c.toNat / 16) :: hexDigit (c.toNat % 16) :: s) c s := by
  have hhigh : isHighSurrogate c.toNat = false := by
    simp only [isHighSurrogate, Bool.and_eq_false_iff, decide_eq_false_iff_not]
    omega
  have hlow : isLowSurrogate c.toNat = false := by
    simp only [isLowSurrogate, Bool.and_eq_false_iff, decide_eq_false_iff_not]
    omega
  refine ⟨by simp only [List.length_cons]; omega, ?_⟩
  simp [readEscape, readUnits, hexQuad?_hexDigit _ hc, hhigh, hlow, Char.ofNat_toNat]

theorem gives_readChars_escape {s t r : List Char} {c : Char} {cs : List Char}
    (hescape : Gives readEscape s c t) (h : Gives readChars t cs r) :
    Gives readChars ('\\' :: s) (c :: cs) r := by
  obtain ⟨hlt, hescape⟩ := hescape
  obtain ⟨hlt', h⟩ := h
  refine ⟨Nat.lt_succ_of_lt (Nat.lt_trans hlt' hlt), ?_⟩
  rw [readChars]
  simp [hescape, h]

theorem gives_readChars_plain {s r : List Char} {c : Char} {cs : List Char} (hquote : c ≠ '"')
    (hbackslash : c ≠ '\\') (hcontrol : ¬ c.toNat < 32) (h : Gives readChars s cs r) :
    Gives readChars (c :: s) (c :: cs) r := by
  obtain ⟨hlt, h⟩ := h
  refine ⟨Nat.lt_succ_of_lt hlt, ?_⟩
  rw [readChars]
  simp [hquote, hbackslash, hcontrol, h]

/-- A character is read from how it stands in a string. -/
theorem gives_readChars_escaped (c : Char) {s r cs : List Char} (h : Gives readChars s cs r) :
    Gives readChars (escaped c ++ s) (c :: cs) r := by
  have hletter : ∀ {x}, x ≠ 'u' → letterEscape? x = some c →
      Gives readChars (['\\', x] ++ s) (c :: cs) r := fun hx hc =>
    gives_readChars_escape (gives_readEscape hx hc s) h
  unfold escaped
  iterate 7
    split
    · next hc => subst hc; exact hletter (by decide) rfl
  split
  · next hc => exact gives_readChars_escape (gives_readEscape_units hc s) h
  · next hquote hbackslash _ _ _ _ _ hcontrol =>
    exact gives_readChars_plain hquote hbackslash hcontrol h

/-- A string is read from its characters as they stand in it. -/
theorem gives_readString (text : String) (r : List Char) :
    Gives readString (text.toList.flatMap escaped ++ '"' :: r) text r := by
  have hchars : ∀ cs : List Char, Gives readChars (cs.flatMap escaped ++ '"' :: r) cs r := by
    intro cs
    induction cs with
    | nil =>
      refine ⟨Nat.lt_succ_self _, ?_⟩
      show readChars ('"' :: r) = _
      rw [readChars]
      rfl
    | cons c cs ih =>
      rw [List.flatMap_cons, List.append_assoc]
      exact gives_readChars_escaped c ih
  obtain ⟨hlt, h⟩ := hchars text.toList
  exact ⟨hlt, by simp [readString, h]⟩

/-! #### Numbers -/

/-- A text at whose start no number goes on. -/
def EndsNumber (s : List Char) : Prop :=
  ∀ c, s.head? = some c → c.isDigit = false ∧ c ≠ '.' ∧ c ≠ 'e' ∧ c ≠ 'E'

variable {r : List Char} (hr : EndsNumber r)

include hr

theorem spanDigits_append {ds : List Char} (hds : ∀ c ∈ ds, c.isDigit = true) :
    spanDigits (ds ++ r) = (ds, r) := by
  simp only [spanDigits, List.takeWhile_append_of_pos hds, List.dropWhile_append_of_pos hds]
  cases r with
  | nil => simp
  | cons c r => simp [(hr c rfl).1]

theorem gives_readWhole (n : Nat) :
    Gives readWhole (Nat.toDigits 10 n ++ r) (Nat.toDigits 10 n) r := by
  rcases Nat.eq_zero_or_pos n with rfl | hn
  · exact ⟨Nat.lt_succ_self _, rfl⟩
  · obtain ⟨c, cs, hdigits, hc⟩ := Numeral.toDigits_eq_cons hn
    have hall : ∀ d ∈ c :: cs, d.isDigit = true := fun d hd =>
      Numeral.isDigit_of_mem_toDigits (hdigits ▸ hd)
    obtain ⟨hfirst, hrest⟩ := List.forall_mem_cons.1 hall
    rw [hdigits]
    refine ⟨by simp only [List.cons_append, List.length_cons, List.length_append]; omega, ?_⟩
    simp [readWhole, hc, hfirst, spanDigits_append hr hrest]

theorem readFraction_eq_none : readFraction r = some (none, ⟨r, Nat.le_refl _⟩) := by
  cases r with
  | nil => rfl
  | cons c r => exact if_neg (hr c rfl).2.1

theorem readExponent_eq_none : readExponent r = some (none, ⟨r, Nat.le_refl _⟩) := by
  cases r with
  | nil => rfl
  | cons c r => exact if_neg (not_or.2 (hr c rfl).2.2)

theorem gives_readUnsigned {negative : Bool} {n : Nat} {number : Number}
    (h : number? negative (Nat.toDigits 10 n) none none = some number) :
    Gives (readUnsigned negative) (Nat.toDigits 10 n ++ r) number r := by
  obtain ⟨hlt, hwhole⟩ := gives_readWhole hr n
  refine ⟨hlt, ?_⟩
  simp only [readUnsigned, hwhole, readFraction_eq_none hr, readExponent_eq_none hr, h]
  rfl

/-- An integer of 64 bits is read from its numeral. -/
theorem gives_readNumber (n : Int64) :
    Gives readNumber (Numeral.chars n.toInt ++ r) (.integer n.toInt) r := by
  have hword := Numeral.inWord_toInt n
  by_cases hneg : n.toInt < 0
  · have habs : -(n.toInt.natAbs : Int) = n.toInt := by omega
    have hnumber : number? true (Nat.toDigits 10 n.toInt.natAbs) none none =
        some (.integer n.toInt) := by
      have hpos : 0 < n.toInt.natAbs := by omega
      simp only [number?, Option.getD_none, List.append_nil, Nat.ofDigitChars_ten_toDigits, habs,
        hword, hpos, and_self, if_true]
    obtain ⟨hlt, hread⟩ := gives_readUnsigned hr hnumber
    rw [Numeral.chars_of_neg hneg]
    exact ⟨Nat.lt_succ_of_lt hlt, by simp [readNumber, hread]⟩
  · have habs : (n.toInt.natAbs : Int) = n.toInt := by omega
    have hnumber : number? false (Nat.toDigits 10 n.toInt.natAbs) none none =
        some (.integer n.toInt) := by
      have hsize : n.toInt.natAbs < UInt64.size := by
        have hmax : Int64.maxValue.toInt = 9223372036854775807 := rfl
        have hsize : UInt64.size = 18446744073709551616 := rfl
        have hle := hword.2
        omega
      simp only [number?, Option.getD_none, List.append_nil, Nat.ofDigitChars_ten_toDigits, habs,
        hsize, if_true, Bool.false_eq_true, if_false]
    have hread := gives_readUnsigned hr hnumber
    rw [Numeral.chars_of_nonneg (Int.not_lt.1 hneg)]
    obtain ⟨c, cs, hdigits⟩ := List.exists_cons_of_ne_nil
      (Nat.toDigits_ne_nil (n := n.toInt.natAbs) (b := 10))
    have hc : c ≠ '-' := by
      rintro rfl
      exact absurd (Numeral.isDigit_of_mem_toDigits (hdigits ▸ List.mem_cons_self)) (by decide)
    rw [hdigits] at hread ⊢
    obtain ⟨hlt, hread⟩ := hread
    exact ⟨hlt, by simpa [readNumber, hc] using hread⟩

omit hr

/-! #### Marks and words -/

theorem gives_readMark (mark : Char) (hmark : isBlank mark = false) (s : List Char) :
    Gives (readMark mark) (mark :: s) () s := by
  have hskip : skipBlanks (mark :: s) = mark :: s := by simp [skipBlanks, hmark]
  refine ⟨Nat.lt_succ_self _, ?_⟩
  unfold readMark
  split
  · next h => rw [hskip] at h; cases h
  · next c t h =>
    rw [hskip] at h
    cases h
    simp

theorem readMark_eq_none {mark c : Char} {s : List Char} (hc : isBlank c = false) (h : c ≠ mark) :
    readMark mark (c :: s) = none := by
  have hskip : skipBlanks (c :: s) = c :: s := by simp [skipBlanks, hc]
  unfold readMark
  split
  · rfl
  · next d t hd =>
    rw [hskip] at hd
    cases hd
    simp [h]

/-! #### Arrays -/

/-- The texts of the items of an array after the first, each with a comma before it. -/
def tailText (texts : List (List Char)) : List Char := texts.flatMap (',' :: ·)

/-- A text that may follow an item of an array. -/
def EndsItem (s : List Char) : Prop := ∀ c, s.head? = some c → c = ',' ∨ c = ']'

theorem EndsItem.endsNumber {s : List Char} (h : EndsItem s) : EndsNumber s := by
  intro c hc
  rcases h c hc with rfl | rfl <;> decide

theorem endsItem_nil : EndsItem [] := by
  rintro c ⟨⟩

theorem endsItem_tailText (texts : List (List Char)) (r : List Char) :
    EndsItem (tailText texts ++ ']' :: r) := by
  intro c hc
  cases texts with
  | nil => exact .inr (by simpa [tailText] using hc.symm)
  | cons text texts => exact .inl (by simpa [tailText] using hc.symm)

theorem toList_intercalate (texts : List String) : (",".intercalate texts).toList =
    match texts with
    | [] => []
    | text :: texts => text.toList ++ tailText (texts.map String.toList) := by
  cases texts with
  | nil => rfl
  | cons text texts =>
    induction texts generalizing text with
    | nil => simp [tailText]
    | cons next texts ih =>
      rw [String.intercalate_cons_cons, String.toList_append, String.toList_append, ih]
      simp [tailText]

section

variable (read : Reads Json)

theorem result_readItems_close (r : List Char) :
    result (readItems read) (']' :: r) = some ([], r) := by
  obtain ⟨_, hmark⟩ := gives_readMark ']' (by decide) r
  rw [result, readItems]
  simp [hmark]

/-- An item after a comma, and then the others. -/
theorem result_readItems_comma (s : List Char) : result (readItems read) (',' :: s) =
    (result read s).bind fun (j, t) => (result (readItems read) t).map fun (js, t) =>
      (j :: js, t) := by
  have hclose : readMark ']' (',' :: s) = none := readMark_eq_none (by decide) (by decide)
  obtain ⟨_, hcomma⟩ := gives_readMark ',' (by decide) s
  rw [result, readItems]
  simp only [hclose, hcomma, result]
  cases read s with
  | none => rfl
  | some p =>
    obtain ⟨j, t, ht⟩ := p
    simp only [Option.map_some, Option.bind_some]
    cases readItems read t <;> rfl

theorem result_readArray_close (r : List Char) :
    result (readArray read) (']' :: r) = some ([], r) := by
  obtain ⟨_, hmark⟩ := gives_readMark ']' (by decide) r
  rw [result, readArray]
  simp [hmark]

variable {read}

/-- The first item, and then the others. -/
theorem result_readArray_item {s : List Char} (h : readMark ']' s = none) :
    result (readArray read) s =
      (result read s).bind fun (j, t) => (result (readItems read) t).map fun (js, t) =>
        (j :: js, t) := by
  simp only [result, readArray, h]
  cases read s with
  | none => rfl
  | some p =>
    obtain ⟨j, t, ht⟩ := p
    simp only [Option.map_some, Option.bind_some]
    cases readItems read t <;> rfl

/-- An array begins with a bracket, and there has to be room for what is in it. -/
theorem result_array (inner : Option (Reads Json)) (s : List Char) :
    result (readValueWith inner) ('[' :: s) =
      inner.bind fun read => (result (readArray read) s).map fun (js, t) => (.array js, t) := by
  cases inner with
  | none => rfl
  | some read =>
    simp only [result, readValueWith, if_true, Option.bind_some]
    cases readArray read s <;> rfl

end

/-! #### Values -/

theorem afterBlanks_eq {read : Reads Json} {s : List Char} (h : skipBlanks s = s) :
    afterBlanks read s = read s := by
  have hread : ∀ t (ht : t.length ≤ s.length), t = s →
      (read t).map (fun (j, ⟨r, hr⟩) => (j, (⟨r, Nat.lt_of_lt_of_le hr ht⟩ : Rest s))) = read s := by
    rintro t ht rfl
    cases read t <;> rfl
  exact hread _ (length_skipBlanks_le s) h

theorem gives_null (inner : Option (Reads Json)) (r : List Char) :
    Gives (readValueWith inner) ("null".toList ++ r) .null r :=
  ⟨by simp; omega, by simp [readValueWith, readWord]⟩

theorem gives_string (inner : Option (Reads Json)) (text : String) (r : List Char) :
    Gives (readValueWith inner) ((quoted text).toList ++ r) (.string text) r := by
  obtain ⟨hlt, hread⟩ := gives_readString text r
  have htext : (quoted text).toList ++ r = '"' :: (text.toList.flatMap escaped ++ '"' :: r) := by
    simp [quoted]
  rw [htext]
  exact ⟨Nat.lt_succ_of_lt hlt, by simp [readValueWith, hread]⟩

theorem gives_integer (inner : Option (Reads Json)) (n : Int64) {r : List Char}
    (hr : EndsNumber r) : Gives (readValueWith inner) ((Numeral.text n.toInt).toList ++ r)
      (.number (.integer n.toInt)) r := by
  have hread := gives_readNumber hr n
  rw [Numeral.text, String.toList_ofList]
  obtain ⟨c, cs, hchars, hother⟩ := Numeral.exists_chars n.toInt
  rw [hchars, List.cons_append] at hread ⊢
  obtain ⟨hlt, hread⟩ := hread
  refine ⟨hlt, ?_⟩
  simp only [readValueWith, if_neg (hother '[' rfl (by decide)),
    if_neg (hother '\x7b' rfl (by decide)), if_neg (hother '"' rfl (by decide)),
    if_neg (hother 'n' rfl (by decide)), if_neg (hother 't' rfl (by decide)),
    if_neg (hother 'f' rfl (by decide)), hread]
  rfl

end Json.Reader

/-! ### The text of a value -/

namespace Value

open Json.Reader

theorem text_json_list (items : List (Value ι)) : (list items).json.text.toList =
    '[' :: (",".intercalate (items.map fun v => v.json.text)).toList ++ [']'] := by
  have htexts : ∀ js : List Json, Json.texts js = js.map Json.text := by
    intro js
    induction js with
    | nil => rfl
    | cons j js ih => simp [Json.texts, ih]
  simp [json, Json.text, htexts, Function.comp_def]

/-- The text of a value starts with a character that is no blank and closes no array. -/
theorem exists_text_json (v : Value ι) :
    ∃ c cs, v.json.text.toList = c :: cs ∧ isBlank c = false ∧ c ≠ ']' := by
  cases v with
  | nil => exact ⟨'n', ['u', 'l', 'l'], by simp [json, Json.text], by decide, by decide⟩
  | quote form => exact ⟨'n', ['u', 'l', 'l'], by simp [json, Json.text], by decide, by decide⟩
  | string text =>
    refine ⟨'"', text.toList.flatMap Json.escaped ++ ['"'], ?_, by decide, by decide⟩
    simp [json, Json.text, Json.quoted]
  | list items => exact ⟨'[', _, text_json_list items, by decide, by decide⟩
  | number n =>
    obtain ⟨c, cs, hchars, hother⟩ := Numeral.exists_chars n.toInt
    refine ⟨c, cs, by simp [json, Json.text, Json.Number.text, Numeral.text, hchars], ?_,
      hother ']' rfl (by decide)⟩
    simp [isBlank, hother ' ' rfl (by decide), hother '\t' rfl (by decide),
      hother '\n' rfl (by decide), hother '\r' rfl (by decide)]

theorem skipBlanks_text_json (v : Value ι) (r : List Char) :
    skipBlanks (v.json.text.toList ++ r) = v.json.text.toList ++ r := by
  obtain ⟨c, cs, htext, hblank, -⟩ := exists_text_json v
  simp [htext, skipBlanks, hblank]

theorem readMark_text_json (v : Value ι) (r : List Char) :
    readMark ']' (v.json.text.toList ++ r) = none := by
  obtain ⟨c, cs, htext, hblank, hclose⟩ := exists_text_json v
  rw [htext]
  exact readMark_eq_none hblank hclose

/-- The texts of values, as items of an array. -/
def itemTexts (vs : List (Value ι)) : List (List Char) := vs.map fun v => v.json.text.toList

theorem tailText_itemTexts_cons (v : Value ι) (vs : List (Value ι)) (r : List Char) :
    tailText (itemTexts (v :: vs)) ++ ']' :: r =
      ',' :: (v.json.text.toList ++ (tailText (itemTexts vs) ++ ']' :: r)) := by
  simp [tailText, itemTexts]

/-- What the text of a value comes to where it is read: the value if its lists nest within the room,
and nothing otherwise. -/
def ReadWithin (room : Nat) (read : Reads Json) (v : Value ι) : Prop :=
  ∀ r, EndsItem r → result read (v.json.text.toList ++ r) =
    if v.nesting ≤ room then some (v.json, r) else none

section

variable {room : Nat} {read : Reads Json}

/-- One item and the others after it, given the law for both. -/
theorem readItem_readItems {v : Value ι} {vs : List (Value ι)} {t r : List Char}
    (hv : result read (v.json.text.toList ++ t) =
      if v.nesting ≤ room then some (v.json, t) else none)
    (hvs : result (readItems read) t =
      if nestingAll vs ≤ room then some (vs.map json, r) else none) :
    ((result read (v.json.text.toList ++ t)).bind fun (j, t) =>
        (result (readItems read) t).map fun (js, t) => (j :: js, t)) =
      if nestingAll (v :: vs) ≤ room then some ((v :: vs).map json, r) else none := by
  rw [hv, nestingAll]
  simp only [Nat.max_le]
  by_cases hnesting : v.nesting ≤ room
  · rw [if_pos hnesting, Option.bind_some, hvs]
    by_cases hnestings : nestingAll vs ≤ room
    · rw [if_pos hnestings, if_pos ⟨hnesting, hnestings⟩]
      rfl
    · rw [if_neg hnestings, if_neg fun h => hnestings h.2]
      rfl
  · rw [if_neg hnesting, if_neg fun h => hnesting h.1]
    rfl

/-- The items of an array after the first, given the law for each of them. -/
theorem readItems_tailText {vs : List (Value ι)} (h : ∀ v ∈ vs, ReadWithin room read v)
    (r : List Char) : result (readItems read) (tailText (itemTexts vs) ++ ']' :: r) =
      if nestingAll vs ≤ room then some (vs.map json, r) else none := by
  induction vs with
  | nil =>
    rw [nestingAll, if_pos (Nat.zero_le _)]
    exact result_readItems_close read r
  | cons v vs ih =>
    obtain ⟨hv, hvs⟩ := List.forall_mem_cons.1 h
    rw [tailText_itemTexts_cons, result_readItems_comma]
    exact readItem_readItems (hv _ (endsItem_tailText _ r)) (ih hvs)

/-- The items of an array, given the law for each of them. -/
theorem readArray_items {vs : List (Value ι)} (h : ∀ v ∈ vs, ReadWithin room read v)
    (r : List Char) : result (readArray read)
        ((",".intercalate (vs.map fun v => v.json.text)).toList ++ ']' :: r) =
      if nestingAll vs ≤ room then some (vs.map json, r) else none := by
  cases vs with
  | nil =>
    rw [nestingAll, if_pos (Nat.zero_le _)]
    exact result_readArray_close read r
  | cons v vs =>
    obtain ⟨hv, hvs⟩ := List.forall_mem_cons.1 h
    have htext : (",".intercalate ((v :: vs).map fun v => v.json.text)).toList ++ ']' :: r =
        v.json.text.toList ++ (tailText (itemTexts vs) ++ ']' :: r) := by
      rw [toList_intercalate]
      simp [itemTexts, Function.comp_def]
    rw [htext, result_readArray_item (readMark_text_json v _)]
    exact readItem_readItems (hv _ (endsItem_tailText _ r)) (readItems_tailText hvs r)

end

/-- The way to read what is in arrays, where there is room for it. -/
def inside? : Nat → Option (Reads Json)
  | 0 => none
  | room + 1 => some (readValue room)

theorem readValue_text (room : Nat) (v : Value ι) (r : List Char) :
    result (readValue room) (v.json.text.toList ++ r) =
      result (readValueWith (inside? room)) (v.json.text.toList ++ r) := by
  have hskip := skipBlanks_text_json v r
  cases room <;> exact congrArg (Option.map _) (afterBlanks_eq hskip)

/-- **The text of a value is read as the value** where lists nest within the room, and refused where
they nest more deeply. -/
theorem readWithin_readValue {v : Value ι} (hquote : v.quotations = []) (room : Nat) :
    ReadWithin room (readValue room) v := by
  intro r hr
  rw [readValue_text]
  induction v generalizing room r with
  | nil => simpa [json, Json.text, nesting] using (gives_null (inside? room) r).result_eq
  | number n =>
    simpa [json, Json.text, Json.Number.text, nesting] using
      (gives_integer (inside? room) n hr.endsNumber).result_eq
  | string text =>
    simpa [json, Json.text, nesting] using (gives_string (inside? room) text r).result_eq
  | quote form => cases hquote
  | list items ih =>
    rw [text_json_list, List.append_assoc, List.cons_append, result_array]
    cases room with
    | zero => rfl
    | succ room =>
      have hitems : ∀ v ∈ items, ReadWithin room (readValue room) v := by
        intro v hv r hr
        have hv' : v.quotations = [] := by simp_all
        rw [readValue_text, ih v hv hv' room r hr]
      simp only [inside?, Option.bind_some, List.singleton_append, readArray_items hitems, nesting,
        Nat.add_le_add_iff_right]
      split <;> simp [json]

/-! ### Writing and reading again -/

/-- A text that is a value is all that is read. -/
theorem parse?_text_json {v : Value ι} (hquote : v.quotations = []) (room : Nat) :
    Json.parse? room v.json.text = if v.nesting ≤ room then some v.json else none := by
  have hread := readWithin_readValue hquote room [] endsItem_nil
  rw [List.append_nil, result] at hread
  rw [Json.parse?]
  split at hread
  · obtain ⟨⟨j, rest, hrest⟩, hvalue, hresult⟩ := Option.map_eq_some_iff.1 hread
    cases hresult
    simp [skipBlanks, *]
  · simp [Option.map_eq_none_iff.1 hread, *]

/-- The JSON text of a value that quotes nothing. -/
theorem jsonText_of_quotations_eq_nil {v : Value ι} (hquote : v.quotations = []) :
    v.jsonText = .ok v.json.text := by
  rw [jsonText, toJson_eq, hquote]
  rfl

/-- A value that quotes something has no JSON text: its first quotation has none. -/
theorem jsonText_of_quotations_eq_cons {v : Value ι} {f : Form ι} {rest : List (Form ι)}
    (hquote : v.quotations = f :: rest) :
    v.jsonText = .error (.typing (.quotedInJson f.erase)) := by
  rw [jsonText, toJson_eq, hquote]
  rfl

/-- The text of a value is read as the value where its lists nest to the depth that the text reader
lets pass; the conversion has room for more. -/
theorem ofJsonText_text_json {v : Value ι} (hquote : v.quotations = [])
    (hnesting : v.nesting ≤ Json.maxNesting) : ofJsonText v.json.text = .ok v := by
  have hparse : Json.parse? Json.maxNesting v.json.text = some v.json :=
    (parse?_text_json hquote _).trans (if_pos hnesting)
  rw [ofJsonText, hparse]
  exact ofJsonWithin_json hquote (Nat.lt_of_le_of_lt hnesting (by decide))

/-- **Writing a value and reading it again.** A value that quotes nothing has a JSON text; the text
is read as the value itself where its lists nest to a depth of at most 127, and is no JSON where
they nest more deeply. A value that quotes something has none, and what is reported is the first of
its quotations. -/
theorem ofJsonText_jsonText (v : Value ι) :
    (v.quotations = [] → ∃ text, v.jsonText = .ok text ∧
      (v.nesting ≤ 127 → ofJsonText text = .ok v) ∧
      (127 < v.nesting → (ofJsonText text : Except Error (Value ι)) =
        .error (.unreadable invalidJson))) ∧
    ∀ f rest, v.quotations = f :: rest →
      v.jsonText = .error (.typing (.quotedInJson f.erase)) := by
  refine ⟨fun hquote => ⟨v.json.text, jsonText_of_quotations_eq_nil hquote,
    ofJsonText_text_json hquote, fun hnesting => ?_⟩, fun f rest => jsonText_of_quotations_eq_cons⟩
  have hparse : Json.parse? Json.maxNesting v.json.text = none :=
    (parse?_text_json hquote _).trans (if_neg (Nat.not_le.2 hnesting))
  rw [ofJsonText, hparse]

/-- Escapes, the least number and an empty list are read back; of two quotations the one further
left is reported, though it lies deeper. -/
theorem ofJsonText_jsonText_escapes :
    (∃ text,
        (list [string "\"\\\x01\x7fé", number Int64.minValue, nil, list []] : Value Nat).jsonText =
          .ok text ∧
        ofJsonText text =
          .ok (list [string "\"\\\x01\x7fé", number Int64.minValue, nil, list []] : Value Nat)) ∧
      (list [list [quote (.atom 0 "x")], quote (.atom 1 "y")] : Value Nat).jsonText =
        .error (.typing (.quotedInJson (.atom () "x"))) := by
  obtain ⟨text, hwrite, hread, -⟩ := (ofJsonText_jsonText
    (list [string "\"\\\x01\x7fé", number Int64.minValue, nil, list []] : Value Nat)).1 rfl
  exact ⟨⟨text, hwrite, hread (by decide)⟩,
    (ofJsonText_jsonText _).2 (.atom 0 "x") [.atom 1 "y"] rfl⟩

end Value

end SubstLisp
