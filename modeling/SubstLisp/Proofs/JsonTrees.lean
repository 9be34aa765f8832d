import SubstLisp.Proofs.JsonText

/-!
# Values as JSON trees

The conversion between values and JSON, apart from any text. Read as a value, a JSON value is gone
through in the order of the document, and the first element that has no value is the one that is
reported: an element inside too many arrays, a number that is no integer of 64 bits, or an object.
Where there is none, the value that is read is written as the JSON it was read from, but for truth
values, which have become numbers.

## What is proved

* `Value.converts_ofJsonWithin` — reading a value reports the first element without a value, or
  gives what is written as the JSON that was read.
* `Value.ofJsonWithin_json_iff` — what a value is written as is read as the value where no element
  lies inside too many lists.
* `Value.json_conversion` — both for the limit of the language.
-/

namespace SubstLisp

variable {ι α β : Type}

/-! ### Elements -/

namespace Json

/-- Induction on JSON values in which an array may use the statement for each of its items. -/
theorem array_induction {motive : Json → Prop} (null : motive .null)
    (bool : ∀ b, motive (.bool b)) (number : ∀ n, motive (.number n))
    (string : ∀ text, motive (.string text))
    (array : ∀ items, (∀ j ∈ items, motive j) → motive (.array items))
    (object : ∀ members, motive (.object members)) (j : Json) : motive j :=
  Json.rec (motive_2 := fun js => ∀ j ∈ js, motive j) (motive_3 := fun _ => True)
    (motive_4 := fun _ => True) null bool number string array (fun members _ => object members)
    (fun _ h => absurd h List.not_mem_nil)
    (fun _ _ head tail _ h => (List.mem_cons.1 h).elim (fun e => e ▸ head) (tail _))
    trivial (fun _ _ _ _ => trivial) (fun _ _ _ => trivial) j

mutual

/-- The elements of a JSON value in the order of the document, itself first, each with the number of
arrays around it; there are `depth` around the value itself. -/
def elements (depth : Nat) : Json → List (Nat × Json)
  | array items => (depth, array items) :: elementsAll (depth + 1) items
  | object members => (depth, object members) :: memberElements depth members
  | j => [(depth, j)]

/-- The elements of the items of an array. -/
def elementsAll (depth : Nat) : List Json → List (Nat × Json)
  | [] => []
  | j :: js => elements depth j ++ elementsAll depth js

/-- The elements of the members of an object. -/
def memberElements (depth : Nat) : List (String × Json) → List (Nat × Json)
  | [] => []
  | (_, j) :: members => elements depth j ++ memberElements depth members

end

/-- What is wrong with an element inside so many arrays that is to be read as a value. -/
def fault? (depth : Nat) (j : Json) : Option TypeFault :=
  if 256 ≤ depth then some (.deepJson 256)
  else match j with
    | number n => if n.word?.isSome then none else some (.jsonNumber n.text)
    | object _ => some .jsonObject
    | _ => none

/-- Whether an element inside so many arrays has no value. -/
def Offends (depth : Nat) (j : Json) : Prop :=
  256 ≤ depth ∨ (∃ members, j = .object members) ∨
    ∃ n, j = .number n ∧ ∀ word : Int64, n ≠ .integer word.toInt

mutual

/-- The JSON value with the numbers one and zero for truth values; objects are left alone. -/
def numbered : Json → Json
  | bool b => number (.integer (if b then 1 else 0))
  | array items => array (numberedAll items)
  | j => j

/-- The items of an array with numbers for truth values. -/
def numberedAll : List Json → List Json
  | [] => []
  | j :: js => numbered j :: numberedAll js

end

theorem Number.word?_eq_some_iff {n : Number} {word : Int64} :
    n.word? = some word ↔ n = .integer word.toInt := by
  cases n with
  | double x => simp [word?]
  | integer z =>
    rw [word?, Number.integer.injEq]
    constructor
    · exact fun h => (Numeral.toInt_of_ofInt?_eq_some h).symm
    · rintro rfl
      simp

/-- Something is wrong with exactly the elements that have no value. -/
theorem fault?_eq_none_iff {depth : Nat} {j : Json} :
    j.fault? depth = none ↔ ¬ j.Offends depth := by
  unfold fault? Offends
  by_cases hdepth : 256 ≤ depth
  · simp [hdepth]
  · cases j with
    | number n =>
      have hword : n.word? = none ↔ ∀ word : Int64, n ≠ .integer word.toInt := by
        simp only [Option.eq_none_iff_forall_ne_some, ne_eq, Number.word?_eq_some_iff]
      cases h : n.word? <;> simp [hdepth, ← hword, h]
    | _ => simp [hdepth]

end Json

/-! ### Conversions that report the first element without a value -/

/-- A conversion that goes through elements in order: it fails by what is wrong with the first of
them that has no value, and gives what has a property if there is none. -/
def Json.Converts (elements : List (Nat × Json)) (P : α → Prop) : Except Error α → Prop
  | .ok a => (∀ e ∈ elements, e.2.fault? e.1 = none) ∧ P a
  | .error error => ∃ before depth j after fault, elements = before ++ (depth, j) :: after ∧
      (∀ e ∈ before, e.2.fault? e.1 = none) ∧ j.fault? depth = some fault ∧ error = .typing fault

namespace Json.Converts

variable {elements elements' : List (Nat × Json)} {P : α → Prop} {Q : β → Prop}

/-- One conversion after another. -/
theorem bind {x : Except Error α} {k : α → Except Error β} (hx : Converts elements P x)
    (hk : ∀ a, P a → Converts elements' Q (k a)) :
    Converts (elements ++ elements') Q (x >>= k) := by
  cases x with
  | error error =>
    obtain ⟨before, depth, j, after, fault, rfl, h⟩ := hx
    exact ⟨before, depth, j, after ++ elements', fault, by simp, h⟩
  | ok a =>
    obtain ⟨helements, ha⟩ := hx
    have hrest := hk a ha
    show Converts _ Q (k a)
    cases hka : k a with
    | ok b =>
      rw [hka] at hrest
      exact ⟨List.forall_mem_append.2 ⟨helements, hrest.1⟩, hrest.2⟩
    | error error =>
      rw [hka] at hrest
      obtain ⟨before, depth, j, after, fault, rfl, hbefore, h⟩ := hrest
      exact ⟨elements ++ before, depth, j, after, fault, by simp,
        List.forall_mem_append.2 ⟨helements, hbefore⟩, h⟩

/-- Nothing is converted. -/
theorem pure {a : α} (h : P a) : Converts [] P (.ok a) := ⟨by simp, h⟩

/-- An element that has a value in front of others. -/
theorem cons {depth : Nat} {j : Json} {x : Except Error α} (h : j.fault? depth = none)
    (hx : Converts elements P x) : Converts ((depth, j) :: elements) P x := by
  have hone : Converts [(depth, j)] (fun _ : Unit => True) (.ok ()) := ⟨by simpa using h, trivial⟩
  exact hone.bind fun _ _ => hx

/-- An element that has no value in front of others. -/
theorem fault {depth : Nat} {j : Json} {fault : TypeFault} (h : j.fault? depth = some fault) :
    Converts ((depth, j) :: elements) P (.error (.typing fault)) :=
  ⟨[], depth, j, elements, fault, rfl, by simp, h, rfl⟩

end Json.Converts

namespace Value

open Json (Converts)

/-! ### From JSON to values -/

/-- The items of an array, given the law for each of them. -/
theorem converts_ofJsonAllWithin {room depth : Nat} {js : List Json}
    (h : ∀ j ∈ js, Converts (j.elements depth) (fun v : Value ι => v.toJson = .ok j.numbered)
      (ofJsonWithin room j)) :
    Converts (Json.elementsAll depth js)
      (fun vs : List (Value ι) => toJsonAll vs = .ok (Json.numberedAll js))
      (ofJsonAllWithin room js) := by
  induction js with
  | nil => exact .pure rfl
  | cons j js ih =>
    obtain ⟨hj, hjs⟩ := List.forall_mem_cons.1 h
    refine hj.bind ?_
    intro v hv
    rw [← List.append_nil (Json.elementsAll depth js)]
    refine (ih hjs).bind ?_
    intro vs hvs
    exact .pure (by rw [toJsonAll, hv, hvs]; rfl)

/-- Where there is no room the element itself is reported. -/
theorem converts_ofJsonWithin_zero (j : Json) :
    Converts (j.elements 256) (fun v : Value ι => v.toJson = .ok j.numbered)
      (ofJsonWithin 0 j) := by
  cases j <;> exact .fault (if_pos (Nat.le_refl 256))

/-- **Reading a value reports the first element without a value**, or gives what is written as the
JSON that was read. -/
theorem converts_ofJsonWithin (j : Json) {room depth : Nat} (h : depth + room = 255) :
    Converts (j.elements depth) (fun v : Value ι => v.toJson = .ok j.numbered)
      (ofJsonWithin (room + 1) j) := by
  induction j using Json.array_induction generalizing room depth with
  | null => exact .cons (if_neg (by omega)) (.pure rfl)
  | bool b => exact .cons (if_neg (by omega)) (.pure (by cases b <;> rfl))
  | string text => exact .cons (if_neg (by omega)) (.pure rfl)
  | object members => exact .fault (if_neg (by omega))
  | number n =>
    have hfault : (Json.number n).fault? depth =
        if n.word?.isSome then none else some (.jsonNumber n.text) := if_neg (by omega)
    show Converts [(depth, .number n)] _ _
    rw [ofJsonWithin]
    cases hword : n.word? with
    | none => exact .fault (by simp [hfault, hword])
    | some word =>
      refine .cons (by simp [hfault, hword]) (.pure ?_)
      rw [toJson, ← Json.Number.word?_eq_some_iff.1 hword]
      rfl
  | array items ih =>
    refine .cons (if_neg (by omega)) ?_
    rw [← List.append_nil (Json.elementsAll _ items)]
    refine (converts_ofJsonAllWithin fun j hj => ?_).bind ?_
    · cases room with
      | zero =>
        obtain rfl : depth = 255 := h
        exact converts_ofJsonWithin_zero j
      | succ room => exact ih j hj (by omega)
    · intro vs hvs
      exact .pure (by rw [toJson, hvs]; rfl)

/-! ### From values to JSON -/

mutual

/-- The elements of a value, itself first, each with the number of lists around it; there are
`depth` around the value itself. -/
def elements (depth : Nat) : Value ι → List (Nat × Value ι)
  | list items => (depth, list items) :: elementsAll (depth + 1) items
  | v => [(depth, v)]

/-- The elements of the values of a list. -/
def elementsAll (depth : Nat) : List (Value ι) → List (Nat × Value ι)
  | [] => []
  | v :: vs => elements depth v ++ elementsAll depth vs

end

/-- The items of a list, given the law for each of them. -/
theorem ofJsonAllWithin_json_iff {room depth : Nat} {vs : List (Value ι)}
    (h : ∀ v ∈ vs, ofJsonWithin room v.json = .ok v ↔ ∀ e ∈ v.elements depth, e.1 < 256) :
    ofJsonAllWithin room (vs.map json) = .ok vs ↔ ∀ e ∈ elementsAll depth vs, e.1 < 256 := by
  induction vs with
  | nil => simp [ofJsonAllWithin, elementsAll]
  | cons v vs ih =>
    obtain ⟨hv, hvs⟩ := List.forall_mem_cons.1 h
    rw [elementsAll, List.forall_mem_append, ← hv, ← ih hvs, List.map_cons, ofJsonAllWithin]
    cases ofJsonWithin room v.json with
    | error error => simp [bind, Except.bind]
    | ok w =>
      cases ofJsonAllWithin room (vs.map json) <;> simp [bind, Except.bind]

/-- **What a value is written as is read as the value** exactly when no element of it lies inside
too many lists. -/
theorem ofJsonWithin_json_iff {v : Value ι} (hquote : v.quotations = []) {room depth : Nat}
    (h : depth + room = 255) :
    ofJsonWithin (room + 1) v.json = .ok v ↔ ∀ e ∈ v.elements depth, e.1 < 256 := by
  have hdepth : depth < 256 := by omega
  induction v generalizing room depth with
  | nil => simpa [json, ofJsonWithin, elements] using hdepth
  | number n => simpa [json, ofJsonWithin, elements, Json.Number.word?] using hdepth
  | string text => simpa [json, ofJsonWithin, elements] using hdepth
  | quote form => cases hquote
  | list items ih =>
    have hitems : ∀ v ∈ items, ofJsonWithin room v.json = .ok v ↔
        ∀ e ∈ v.elements (depth + 1), e.1 < 256 := by
      intro v hv
      have hv' : v.quotations = [] := by simp_all
      cases room with
      | zero =>
        obtain rfl : depth = 255 := h
        cases v <;> simp [ofJsonWithin, elements]
      | succ room => exact ih v hv hv' (by omega) (by omega)
    rw [json, elements, List.forall_mem_cons, jsonAll_eq_map, ← ofJsonAllWithin_json_iff hitems,
      ofJsonWithin]
    cases ofJsonAllWithin room (items.map json) <;> simp [bind, Except.bind, hdepth]

/-! ### Both ways -/

/-- **The conversion is exact in both directions.** A JSON value is read as a value exactly when no
element of it lies inside 256 arrays or is an object or a number that is no integer of 64 bits; the
value is then written as the JSON value with numbers for truth values. Otherwise what is reported is
what is wrong with the first element, in the order of the document, that has no value. A value that
quotes nothing has a JSON value, and this is read as the value exactly when no element of it lies
inside 256 lists. -/
theorem json_conversion :
    (∀ j : Json,
      ((∃ v : Value ι, ofJson j = .ok v) ↔ ∀ e ∈ j.elements 0, ¬ e.2.Offends e.1) ∧
      (∀ v : Value ι, ofJson j = .ok v → v.toJson = .ok j.numbered) ∧
      (∀ error, (ofJson j : Except Error (Value ι)) = .error error →
        ∃ before depth element after fault, j.elements 0 = before ++ (depth, element) :: after ∧
          (∀ e ∈ before, ¬ e.2.Offends e.1) ∧ element.fault? depth = some fault ∧
          error = .typing fault)) ∧
    ∀ v : Value ι, v.quotations = [] → ∃ j, v.toJson = .ok j ∧
      (ofJson j = .ok v ↔ ∀ e ∈ v.elements 0, e.1 < 256) := by
  constructor
  · intro j
    have hconverts : Converts (j.elements 0) (fun v : Value ι => v.toJson = .ok j.numbered)
        (ofJson j) := converts_ofJsonWithin j rfl
    simp only [← Json.fault?_eq_none_iff]
    cases h : (ofJson j : Except Error (Value ι)) with
    | ok v =>
      rw [h] at hconverts
      refine ⟨⟨fun _ => hconverts.1, fun _ => ⟨v, rfl⟩⟩, ?_, nofun⟩
      rintro _ ⟨⟩
      exact hconverts.2
    | error error =>
      rw [h] at hconverts
      obtain ⟨before, depth, element, after, fault, helements, hbefore, hfault, herror⟩ := hconverts
      refine ⟨⟨nofun, fun hall => ?_⟩, nofun, ?_⟩
      · have hnone := hall (depth, element) (by simp [helements])
        rw [hfault] at hnone
        cases hnone
      · rintro _ ⟨⟩
        exact ⟨before, depth, element, after, fault, helements, hbefore, hfault, herror⟩
  · intro v hquote
    exact ⟨v.json, by rw [toJson_eq, hquote], ofJsonWithin_json_iff hquote rfl⟩

/-- A truth value comes back as a number; an object inside an array is reported before a number that
is too large beside it; an empty list inside another is read back. -/
theorem json_conversion_mixed :
    (ofJson (.array [.bool true, .null]) = .ok (list [number 1, nil] : Value Nat) ∧
      (list [number 1, nil] : Value Nat).toJson = .ok (.array [.number (.integer 1), .null])) ∧
    (let j := Json.array [.array [.object []], .number (.integer 9223372036854775808)];
      (ofJson j : Except Error (Value Nat)) = .error (.typing .jsonObject) ∧
      ∃ before depth element after, j.elements 0 = before ++ (depth, element) :: after ∧
        (∀ e ∈ before, ¬ e.2.Offends e.1) ∧ element.fault? depth = some .jsonObject) ∧
    ∃ j, (list [list []] : Value Nat).toJson = .ok j ∧
      ofJson j = .ok (list [list []] : Value Nat) := by
  refine ⟨⟨rfl, ((@json_conversion Nat).1 (.array [.bool true, .null])).2.1 _ rfl⟩, ⟨rfl, ?_⟩, ?_⟩
  · obtain ⟨before, depth, element, after, fault, helements, hbefore, hfault, herror⟩ :=
      ((@json_conversion Nat).1
        (.array [.array [.object []], .number (.integer 9223372036854775808)])).2.2
        (.typing .jsonObject) rfl
    obtain rfl : TypeFault.jsonObject = fault := by simpa using herror
    exact ⟨before, depth, element, after, helements, hbefore, hfault⟩
  · obtain ⟨j, hwrite, hread⟩ := (@json_conversion Nat).2 (list [list []]) rfl
    exact ⟨j, hwrite, hread.2 (by decide)⟩

end Value

end SubstLisp
