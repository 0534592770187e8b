import Mathlib.Data.List.TakeDrop
import Mathlib.Data.List.TakeWhile
import Mathlib.Data.Int.Notation

/-!
# Lines, comma separated fields and decimal integers

The three readers that a line based text format needs, on lists of characters:
`getLines` reads as `std::getline` does until it fails, `nextField` takes the text in
front of the next comma, and `fromChars` reads a decimal integer of a bounded type as
`std::from_chars` does, without blanks or a plus sign in front and ignoring what
follows the digits. Each reader has a lemma that it undoes writing.
-/

namespace OrderBook.Text

/-- The lines of a text. A line end at the end of the text does not start a line. -/
def getLines : List Char → List (List Char)
  | [] => []
  | c :: cs =>
      if c = '\n' then [] :: getLines cs
      else
        match getLines cs with
        | [] => [[c]]
        | line :: lines => (c :: line) :: lines

/-- The field up to the next comma, and what follows that comma. -/
def nextField (line : List Char) : List Char × List Char :=
  (line.takeWhile (· ≠ ','), (line.dropWhile (· ≠ ',')).tail)

/-- The longest decimal prefix, if there is one and its value is in range. -/
def fromChars (lo hi : Int) (field : List Char) : Option Int :=
  let negative := field.head? = some '-'
  let digits := (if negative then field.tail else field).takeWhile Char.isDigit
  if digits = [] then none
  else
    let value : Int := Nat.ofDigitChars 10 digits 0
    let value := if negative then -value else value
    if lo ≤ value ∧ value ≤ hi then some value else none

/-- The value of a field that is a decimal integer from end to end and in range. -/
def wholeDecimal (lo hi : Int) (field : List Char) : Option Int :=
  let negative := field.head? = some '-'
  let digits := if negative then field.tail else field
  let value : Int := Nat.ofDigitChars 10 digits 0
  let value := if negative then -value else value
  if digits ≠ [] ∧ digits.all Char.isDigit ∧ lo ≤ value ∧ value ≤ hi then some value else none

/-- A column of a line, or the empty one if the line has too few. -/
def column (k : Nat) (line : List Char) : List Char := (line.splitOn ',')[k]?.getD []

/-- The decimal representation of an integer. -/
def toDecimal : Int → List Char
  | .ofNat n => Nat.toDigits 10 n
  | .negSucc n => '-' :: Nat.toDigits 10 (n + 1)

theorem getLines_line {line : List Char} (unbroken : '\n' ∉ line) (rest : List Char) :
    getLines (line ++ '\n' :: rest) = line :: getLines rest := by
  induction line with
  | nil => simp [getLines]
  | cons c line ih =>
      obtain ⟨ne, unbroken⟩ := not_or.mp (mt List.mem_cons.mpr unbroken)
      simp [getLines, Ne.symm ne, ih unbroken]

/-- A last line without a line end; an empty one is not a line. -/
theorem getLines_last {line : List Char} (unbroken : '\n' ∉ line) :
    getLines line = if line = [] then [] else [line] := by
  induction line with
  | nil => rfl
  | cons c line ih =>
      obtain ⟨ne, unbroken⟩ := not_or.mp (mt List.mem_cons.mpr unbroken)
      rw [getLines, if_neg (Ne.symm ne), ih unbroken]
      by_cases vacant : line = []
      · simp [vacant]
      · simp [vacant]

theorem nextField_field {field : List Char} (plain : ',' ∉ field) (rest : List Char) :
    nextField (field ++ ',' :: rest) = (field, rest) := by
  have all : ∀ c ∈ field, decide (c ≠ ',') = true := by
    intro c member
    exact decide_eq_true fun same => plain (same ▸ member)
  simp only [nextField]
  rw [List.takeWhile_append_of_pos all, List.dropWhile_append_of_pos all]
  simp

theorem nextField_last {field : List Char} (plain : ',' ∉ field) :
    nextField field = (field, []) := by
  have all : ∀ c ∈ field, decide (c ≠ ',') = true := by
    intro c member
    exact decide_eq_true fun same => plain (same ▸ member)
  simp only [nextField]
  rw [List.takeWhile_eq_self_iff.mpr all, List.dropWhile_eq_nil_iff.mpr all]
  rfl

/-- Taking fields off a line goes through its columns. -/
theorem splitOn_nextField (line : List Char) : line.splitOn ',' =
    (nextField line).1 :: if ',' ∈ line then (nextField line).2.splitOn ',' else [] := by
  induction line with
  | nil => rfl
  | cons c line ih =>
      rw [List.splitOn_cons_eq_if_modifyHead]
      by_cases comma : c = ','
      · simp [nextField, comma]
      · simpa [nextField, comma, Ne.symm comma] using congrArg (List.modifyHead (c :: ·)) ih

theorem nextField_fst (line : List Char) : (nextField line).1 = column 0 line := by
  rw [column, splitOn_nextField]
  rfl

theorem column_nextField (k : Nat) (line : List Char) :
    column k (nextField line).2 = column (k + 1) line := by
  rw [column, column, splitOn_nextField line, List.getElem?_cons_succ]
  split
  case isTrue => rfl
  case isFalse plain =>
    rw [nextField_last plain]
    cases k <;> rfl

@[simp] theorem column_nil (k : Nat) : column k [] = [] := by
  cases k <;> rfl

@[simp] theorem fromChars_nil (lo hi : Int) : fromChars lo hi [] = none := rfl

@[simp] theorem wholeDecimal_nil (lo hi : Int) : wholeDecimal lo hi [] = none := rfl

/-- A field that is a decimal integer from end to end is read whole. -/
theorem fromChars_of_whole {lo hi value : Int} {field : List Char}
    (whole : wholeDecimal lo hi field = some value) : fromChars lo hi field = some value := by
  simp only [wholeDecimal, Option.ite_none_right_eq_some, List.all_eq_true] at whole
  obtain ⟨⟨some_digit, digits, in_range⟩, same⟩ := whole
  simp only [fromChars, List.takeWhile_eq_self_iff.mpr digits, some_digit, if_false, in_range]
  exact same

theorem mem_toDecimal {c : Char} {n : Int} (member : c ∈ toDecimal n) :
    c = '-' ∨ c.isDigit = true := by
  cases n with
  | ofNat n => exact .inr (Nat.isDigit_of_mem_toDigits (by decide) (by decide) member)
  | negSucc n =>
      obtain sign | digit := List.mem_cons.mp member
      · exact .inl sign
      · exact .inr (Nat.isDigit_of_mem_toDigits (by decide) (by decide) digit)

theorem not_mem_toDecimal {c : Char} (not_sign : c ≠ '-') (not_digit : c.isDigit = false)
    (n : Int) : c ∉ toDecimal n := by
  intro member
  obtain sign | digit := mem_toDecimal member
  · exact not_sign sign
  · rw [not_digit] at digit
    cases digit

theorem toDecimal_ne_nil (n : Int) : toDecimal n ≠ [] := by
  cases n with
  | ofNat n => exact Nat.toDigits_ne_nil
  | negSucc n => exact List.cons_ne_nil _ _

private theorem takeWhile_toDigits (n : Nat) :
    (Nat.toDigits 10 n).takeWhile Char.isDigit = Nat.toDigits 10 n :=
  List.takeWhile_eq_self_iff.mpr fun _ member =>
    Nat.isDigit_of_mem_toDigits (by decide) (by decide) member

/-- Reading undoes writing on the whole range of the type. -/
theorem fromChars_toDecimal {lo hi n : Int} (above : lo ≤ n) (below : n ≤ hi) :
    fromChars lo hi (toDecimal n) = some n := by
  cases n with
  | ofNat n =>
      have unsigned : (Nat.toDigits 10 n).head? ≠ some '-' := by
        intro head
        have digit := Nat.isDigit_of_mem_toDigits (b := 10) (by decide) (by decide)
          (List.mem_of_head? head)
        cases digit
      simp only [fromChars, toDecimal, unsigned, if_false, takeWhile_toDigits,
        Nat.toDigits_ne_nil, Nat.ofDigitChars_toDigits (show 1 < 10 by decide)
          (show 10 ≤ 10 by decide)]
      exact if_pos ⟨above, below⟩
  | negSucc n =>
      simp only [fromChars, toDecimal, List.head?_cons, if_true, List.tail_cons,
        takeWhile_toDigits, Nat.toDigits_ne_nil, if_false,
        Nat.ofDigitChars_toDigits (show 1 < 10 by decide) (show 10 ≤ 10 by decide)]
      exact if_pos ⟨above, below⟩

end OrderBook.Text
