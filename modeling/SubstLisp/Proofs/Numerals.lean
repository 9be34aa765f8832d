import Mathlib.Tactic.Ring
import SubstLisp.Evaluation

/-!
# Numerals read back

The decimal text of an integer is digits, with a minus sign in front of them if the integer is
negative, and there is no zero in front but for zero itself. Both readers give back what was
written.

The numerals of the language are known by reading and writing them. They are the words of a grammar,
`0 | -?[1-9][0-9]*`, whose integers have 64 bits; what such a word denotes is the sum of its digits,
each as often as its place says.

## What is proved

* `Numeral.signed?_chars`, `Numeral.word?_text` — reading inverts writing, for any integer and for
  those of 64 bits.
* `Numeral.chars_eq_iff` — the decimal text of an integer is the only numeral that denotes it.
* `Numeral.word?_classifies` — which words are numbers, and that all others are symbols.
-/

namespace SubstLisp.Numeral

theorem isDigit_of_mem_toDigits {n : Nat} {c : Char} (h : c ∈ Nat.toDigits 10 n) :
    c.isDigit = true :=
  Nat.isDigit_of_mem_toDigits (by decide) (by decide) h

/-- A positive number is written without a zero in front. -/
theorem toDigits_eq_cons {n : Nat} (h : 0 < n) :
    ∃ c cs, Nat.toDigits 10 n = c :: cs ∧ c ≠ '0' := by
  induction n using Nat.strongRecOn with
  | ind n ih =>
    by_cases hn : n < 10
    · refine ⟨n.digitChar, [], Nat.toDigits_of_lt_base hn, ?_⟩
      intro hzero
      have hcode := Nat.toNat_digitChar_of_lt_ten hn
      rw [hzero] at hcode
      have : '0'.toNat = 48 := rfl
      omega
    · obtain ⟨c, cs, hdigits, hc⟩ := ih (n / 10) (by omega) (by omega)
      refine ⟨c, cs ++ [(n % 10).digitChar], ?_, hc⟩
      rw [Nat.toDigits_of_base_le (by decide) (by omega), hdigits, List.cons_append]

theorem chars_of_neg {z : Int} (h : z < 0) : chars z = '-' :: Nat.toDigits 10 z.natAbs := if_pos h

theorem chars_of_nonneg {z : Int} (h : 0 ≤ z) : chars z = Nat.toDigits 10 z.natAbs :=
  if_neg (Int.not_lt.2 h)

theorem chars_ne_nil (z : Int) : chars z ≠ [] := by
  unfold chars
  split
  · exact List.cons_ne_nil _ _
  · exact Nat.toDigits_ne_nil

/-- The text of an integer is made of digits and a minus sign. -/
theorem isDigit_or_of_mem_chars {z : Int} {c : Char} (h : c ∈ chars z) :
    c.isDigit = true ∨ c = '-' := by
  by_cases hz : z < 0
  · rw [chars_of_neg hz, List.mem_cons] at h
    exact h.symm.imp_left isDigit_of_mem_toDigits
  · rw [chars_of_nonneg (Int.not_lt.1 hz)] at h
    exact .inl (isDigit_of_mem_toDigits h)

/-- How the text of an integer starts: with no character but a digit or a minus sign. -/
theorem exists_chars (z : Int) : ∃ c cs, chars z = c :: cs ∧
    ∀ d, d.isDigit = false → d ≠ '-' → c ≠ d := by
  obtain ⟨c, cs, hchars⟩ := List.exists_cons_of_ne_nil (chars_ne_nil z)
  refine ⟨c, cs, hchars, ?_⟩
  rintro d hdigit hminus rfl
  rcases isDigit_or_of_mem_chars (hchars ▸ List.mem_cons_self) with hc | hc
  · rw [hdigit] at hc
    cases hc
  · exact hminus hc

theorem digits?_toDigits (n : Nat) : digits? (Nat.toDigits 10 n) = some n := by
  have hnonempty : (Nat.toDigits 10 n).isEmpty = false := by
    simp
  have hdigits : (Nat.toDigits 10 n).all Char.isDigit = true :=
    List.all_eq_true.2 fun c hc => isDigit_of_mem_toDigits hc
  simp [digits?, hnonempty, hdigits]

/-- The generous reader gives back the integer that was written. -/
theorem signed?_chars (z : Int) : signed? (chars z) = some z := by
  by_cases hz : z < 0
  · have habs : -(z.natAbs : Int) = z := by omega
    rw [chars_of_neg hz, signed?, digits?_toDigits]
    exact congrArg some habs
  · have habs : (z.natAbs : Int) = z := by omega
    rw [chars_of_nonneg (Int.not_lt.1 hz)]
    obtain ⟨c, cs, hcs⟩ := List.exists_cons_of_ne_nil (Nat.toDigits_ne_nil (n := z.natAbs) (b := 10))
    have hc : c.isDigit = true := isDigit_of_mem_toDigits (hcs ▸ List.mem_cons_self)
    have hminus : c ≠ '-' := by
      rintro rfl
      cases hc
    have hplus : c ≠ '+' := by
      rintro rfl
      cases hc
    have hread : signed? (c :: cs) = (digits? (c :: cs)).map fun n => (n : Int) := by
      simp [signed?, unsigned?, hminus, hplus]
    rw [hcs, hread, ← hcs, digits?_toDigits]
    exact congrArg some habs

/-- A numeral of the language stands for the number that it was written for. -/
@[simp]
theorem word?_text (n : Int64) : word? (text n.toInt) = some n := by
  simp [word?, text, signed?_chars]

theorem text_of_word? {word : String} {n : Int64} (h : word? word = some n) :
    text n.toInt = word := by
  unfold word? at h
  simpa using (Option.filter_eq_some_iff.1 h).2

/-! ### The grammar of numerals -/

/-- The number that digits denote: the sum of all of them, each as often as its place says. -/
def decimal : List Char → Nat
  | [] => 0
  | d :: ds => (d.toNat - '0'.toNat) * 10 ^ ds.length + decimal ds

/-- One digit or more, of which the first is not zero. -/
def IsPositive : List Char → Prop
  | [] => False
  | d :: ds => d ≠ '0' ∧ ∀ c ∈ d :: ds, c.isDigit = true

/-- The words of the grammar `0 | -?[1-9][0-9]*`. -/
inductive IsNumeral : List Char → Prop where
  /-- Zero. -/
  | zero : IsNumeral ['0']
  /-- A positive number. -/
  | positive {cs : List Char} : IsPositive cs → IsNumeral cs
  /-- A negative number. -/
  | negative {cs : List Char} : IsPositive cs → IsNumeral ('-' :: cs)

/-- The integer that a numeral denotes. -/
def denoted : List Char → Int
  | '-' :: cs => -(decimal cs : Int)
  | cs => decimal cs

instance : DecidablePred IsPositive
  | [] => inferInstanceAs (Decidable False)
  | d :: ds => decidable_of_iff (d ≠ '0' ∧ (d :: ds).all Char.isDigit = true)
    (and_congr_right' List.all_eq_true)

theorem isNumeral_iff {cs : List Char} : IsNumeral cs ↔
    cs = ['0'] ∨ IsPositive cs ∨ cs.head? = some '-' ∧ IsPositive cs.tail := by
  constructor
  · rintro (_ | h | h)
    · exact .inl rfl
    · exact .inr (.inl h)
    · exact .inr (.inr ⟨rfl, h⟩)
  · rintro (rfl | h | ⟨hminus, h⟩)
    · exact .zero
    · exact .positive h
    · obtain ⟨cs, rfl⟩ := List.head?_eq_some_iff.1 hminus
      exact .negative h

instance : DecidablePred IsNumeral := fun _ => decidable_of_iff _ isNumeral_iff.symm

/-- The number that a digit stands for. -/
theorem digitChar_of_isDigit {d : Char} (h : d.isDigit = true) :
    d.toNat - '0'.toNat < 10 ∧ Nat.digitChar (d.toNat - '0'.toNat) = d := by
  obtain ⟨hlow, hhigh⟩ := Char.isDigit_iff_toNat.1 h
  have hzero : '0'.toNat = 48 := rfl
  have hnine : '9'.toNat = 57 := rfl
  have hlt : d.toNat - '0'.toNat < 10 := by omega
  refine ⟨hlt, Char.toNat_inj.1 ?_⟩
  rw [Nat.toNat_digitChar_of_lt_ten hlt]
  omega

/-- Behind the text of a positive number digits add what they denote to as many times more. -/
theorem toDigits_append {n : Nat} (hn : 0 < n) {ds : List Char}
    (hds : ∀ c ∈ ds, c.isDigit = true) :
    Nat.toDigits 10 n ++ ds = Nat.toDigits 10 (n * 10 ^ ds.length + decimal ds) := by
  induction ds generalizing n with
  | nil => simp [decimal]
  | cons d ds ih =>
    obtain ⟨hd, hds⟩ := List.forall_mem_cons.1 hds
    obtain ⟨hlt, hchar⟩ := digitChar_of_isDigit hd
    have hvalue : (10 * n + (d.toNat - '0'.toNat)) * 10 ^ ds.length + decimal ds =
        n * 10 ^ (d :: ds).length + decimal (d :: ds) := by
      simp only [decimal, List.length_cons]
      ring
    calc
      Nat.toDigits 10 n ++ d :: ds
        = Nat.toDigits 10 n ++ Nat.toDigits 10 (d.toNat - '0'.toNat) ++ ds := by
          rw [Nat.toDigits_of_lt_base hlt, hchar, List.append_assoc, List.singleton_append]
      _ = Nat.toDigits 10 (10 * n + (d.toNat - '0'.toNat)) ++ ds := by
          rw [Nat.toDigits_append_toDigits (by decide) hn hlt]
      _ = Nat.toDigits 10 (n * 10 ^ (d :: ds).length + decimal (d :: ds)) := by
          rw [ih (by omega) hds, hvalue]

/-- Digits without a zero in front are the text of the number that they denote. -/
theorem toDigits_decimal {cs : List Char} (h : IsPositive cs) :
    Nat.toDigits 10 (decimal cs) = cs ∧ 0 < decimal cs := by
  cases cs with
  | nil => cases h
  | cons d ds =>
    obtain ⟨hzero, hdigits⟩ := h
    obtain ⟨hd, hds⟩ := List.forall_mem_cons.1 hdigits
    obtain ⟨hlt, hchar⟩ := digitChar_of_isDigit hd
    have hpos : 0 < d.toNat - '0'.toNat := by
      refine Nat.pos_of_ne_zero fun h => hzero ?_
      rw [← hchar, h]
      rfl
    constructor
    · rw [decimal, ← toDigits_append hpos hds, Nat.toDigits_of_lt_base hlt, hchar,
        List.singleton_append]
    · exact Nat.add_pos_left (Nat.mul_pos hpos (Nat.pow_pos (by decide))) _

/-- The text of a positive number is digits without a zero in front, and denotes the number. -/
theorem isPositive_toDigits {n : Nat} (h : 0 < n) :
    IsPositive (Nat.toDigits 10 n) ∧ decimal (Nat.toDigits 10 n) = n := by
  have hpositive : IsPositive (Nat.toDigits 10 n) := by
    obtain ⟨c, cs, hcons, hc⟩ := toDigits_eq_cons h
    rw [hcons]
    exact ⟨hc, fun d hd => isDigit_of_mem_toDigits (hcons ▸ hd)⟩
  refine ⟨hpositive, ?_⟩
  have hvalues := congrArg (Nat.ofDigitChars 10 · 0) (toDigits_decimal hpositive).1
  simpa only [Nat.ofDigitChars_ten_toDigits] using hvalues

theorem denoted_of_isPositive {cs : List Char} (h : IsPositive cs) : denoted cs = decimal cs := by
  cases cs with
  | nil => cases h
  | cons d ds =>
    have hd : d ≠ '-' := by
      rintro rfl
      exact absurd (h.2 _ List.mem_cons_self) (by decide)
    unfold denoted
    split
    · next heq => exact absurd (List.cons.inj heq).1 hd
    · rfl

/-- **The decimal text of an integer is the only numeral that denotes it.** -/
theorem chars_eq_iff {z : Int} {cs : List Char} : chars z = cs ↔ IsNumeral cs ∧ denoted cs = z := by
  constructor
  · rintro rfl
    rcases lt_trichotomy z 0 with hneg | rfl | hpos
    · obtain ⟨hpositive, hvalue⟩ := @isPositive_toDigits z.natAbs (by omega)
      rw [chars_of_neg hneg]
      refine ⟨.negative hpositive, ?_⟩
      rw [denoted, hvalue]
      omega
    · exact ⟨.zero, rfl⟩
    · obtain ⟨hpositive, hvalue⟩ := @isPositive_toDigits z.natAbs (by omega)
      rw [chars_of_nonneg hpos.le]
      refine ⟨.positive hpositive, ?_⟩
      rw [denoted_of_isPositive hpositive, hvalue]
      omega
  · rintro ⟨h, rfl⟩
    cases h with
    | zero => rfl
    | positive h =>
      rw [denoted_of_isPositive h, chars_of_nonneg (Int.natCast_nonneg _), Int.natAbs_natCast,
        (toDigits_decimal h).1]
    | @negative cs h =>
      obtain ⟨htext, hpos⟩ := toDigits_decimal h
      rw [denoted, chars_of_neg (by omega), Int.natAbs_neg, Int.natAbs_natCast, htext]

theorem text_eq_iff {z : Int} {word : String} :
    text z = word ↔ IsNumeral word.toList ∧ denoted word.toList = z := by
  rw [← chars_eq_iff, text]
  constructor
  · rintro rfl
    exact String.toList_ofList.symm
  · intro h
    rw [h, String.ofList_toList]

/-! ### Numbers and symbols -/

/-- A word is read as a number exactly when it is the text of the number. -/
theorem word?_eq_some_iff {word : String} {n : Int64} :
    word? word = some n ↔ text n.toInt = word :=
  ⟨text_of_word?, fun h => h ▸ word?_text n⟩

theorem exists_word?_iff {word : String} : (∃ n, word? word = some n) ↔
    IsNumeral word.toList ∧ InWord (denoted word.toList) := by
  simp only [word?_eq_some_iff, text_eq_iff]
  constructor
  · rintro ⟨n, hnumeral, hvalue⟩
    exact ⟨hnumeral, hvalue ▸ inWord_toInt n⟩
  · rintro ⟨hnumeral, hword⟩
    exact ⟨Int64.ofInt (denoted word.toList), hnumeral,
      (toInt_of_ofInt?_eq_some (if_pos hword)).symm⟩

end SubstLisp.Numeral

namespace SubstLisp.Evaluation

variable {ι σ : Type}

/-- The value of a symbol: what it is bound to, or the outcome of a call without operands. -/
def evalSymbol (convention : Convention ι) (inner : Evaluator ι σ) (depth : Nat) (name : String) :
    Run ι σ (Value ι) := do
  match ← Run.find? name with
  | some (.value v) => pure v
  | some _ => call convention inner depth name []
  | none => Run.fail (.unboundSymbol name)

open Numeral

/-- **Which words are numbers.** A word is read as a number exactly when it is a numeral of the
grammar `0 | -?[1-9][0-9]*` and the integer that it denotes has 64 bits, and then as this integer;
so reading and decimal text are inverse to each other. An atom of such a word is this number,
whatever the word is bound to, and an atom of any other word is a symbol. -/
theorem word?_classifies (word : String) :
    ((∃ n, word? word = some n) ↔ IsNumeral word.toList ∧
      -2 ^ 63 ≤ denoted word.toList ∧ denoted word.toList ≤ 2 ^ 63 - 1) ∧
    (∀ n, word? word = some n → n.toInt = denoted word.toList) ∧
    (∀ n : Int64, word? word = some n ↔ text n.toInt = word) ∧
    ∀ (convention : Convention ι) (inner : Evaluator ι σ) (depth : Nat),
      (IsNumeral word.toList ∧
          -2 ^ 63 ≤ denoted word.toList ∧ denoted word.toList ≤ 2 ^ 63 - 1 →
        evalAtom convention inner depth word =
          pure (.number (Int64.ofInt (denoted word.toList)))) ∧
      (¬ (IsNumeral word.toList ∧
          -2 ^ 63 ≤ denoted word.toList ∧ denoted word.toList ≤ 2 ^ 63 - 1) →
        evalAtom convention inner depth word = evalSymbol convention inner depth word) := by
  have hends : ∀ z, InWord z ↔ -2 ^ 63 ≤ z ∧ z ≤ 2 ^ 63 - 1 := fun z => Iff.rfl
  have hnumber := @exists_word?_iff word
  rw [hends] at hnumber
  have hvalue : ∀ n, word? word = some n → n.toInt = denoted word.toList := fun n h =>
    (text_eq_iff.1 (text_of_word? h)).2.symm
  refine ⟨hnumber, hvalue, fun n => word?_eq_some_iff, fun convention inner depth => ⟨?_, ?_⟩⟩
  · intro h
    obtain ⟨n, hn⟩ := hnumber.2 h
    rw [evalAtom, hn, ← hvalue n hn, Int64.ofInt_toInt]
  · intro h
    rw [← hnumber, not_exists] at h
    rw [evalAtom, Option.eq_none_iff_forall_ne_some.2 h]
    rfl

/-- The least number of 64 bits is a number; its absolute value, a zero with a sign, a plus sign,
zeros in front and digits of another script make symbols. -/
theorem word?_classifies_ends :
    (∃ n, word? "-9223372036854775808" = some n ∧ n.toInt = -9223372036854775808) ∧
      ∀ word ∈ ["9223372036854775808", "-0", "+5", "007", "٣"],
        evalAtom (σ := Unit) .byName (eval .byName 1) 0 word =
          evalSymbol .byName (eval .byName 1) 0 word := by
  constructor
  · obtain ⟨hnumber, hvalue, -⟩ := @word?_classifies Unit Unit "-9223372036854775808"
    obtain ⟨n, hn⟩ := hnumber.2 (by decide)
    exact ⟨n, hn, hvalue n hn⟩
  · have hnone : ∀ word ∈ ["9223372036854775808", "-0", "+5", "007", "٣"],
        ¬ (IsNumeral word.toList ∧
          -2 ^ 63 ≤ denoted word.toList ∧ denoted word.toList ≤ 2 ^ 63 - 1) := by decide
    exact fun word hword =>
      ((word?_classifies word).2.2.2 .byName (eval .byName 1) 0).2 (hnone word hword)

end SubstLisp.Evaluation
