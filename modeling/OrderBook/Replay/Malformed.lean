import OrderBook.Replay.Loader

/-!
# Malformed rows

A row is whole when its columns type, id, size, price and direction are all there and
each is, from end to end, a decimal integer in the range of its field. The loader is
meant to take the events of whole rows and skip every other row.

It checks the type column only, and of that only the digits in front. So a row is read in
part when its type column starts with a number but the row is not whole, and the loader
skips malformed rows exactly in the files without such a row.
-/

namespace OrderBook

open Text Loader

/-- The event of a whole row. -/
def wholeRow (line : List Char) : Option Event :=
  match line.splitOn ',' with
  | _ :: type :: id :: size :: price :: direction :: _ => do
      return {
        type := ← wholeDecimal intRange.1 intRange.2 type
        id := ← wholeDecimal int64Range.1 int64Range.2 id
        size := ← wholeDecimal int64Range.1 int64Range.2 size
        price := ← wholeDecimal int64Range.1 int64Range.2 price
        direction := ← wholeDecimal intRange.1 intRange.2 direction }
  | _ => none

/-- The type column starts with an integer in range, but the row is not whole. -/
def ReadInPart (line : List Char) : Prop :=
  (∃ type ∈ (line.splitOn ',')[1]?, (fromChars intRange.1 intRange.2 type).isSome = true) ∧
    wholeRow line = none

/-- A row gives an event only if it is whole, and then the event of its five columns, so
that a file gives the events of its whole rows. -/
structure SkipsMalformed (text : List Char) : Prop where
  only_whole : ∀ row ∈ getLines text, ∀ event, parseRow row = some event →
    wholeRow (stripReturn row) = some event
  loaded : ∀ out, (loadLobsterMessages (some text) out).2 =
    (getLines text).filterMap fun row => wholeRow (stripReturn row)

namespace Loader

theorem parseInt_snd (range : Int × Int) (field : List Char) (out : Int) :
    (parseInt range field out).2 = (fromChars range.1 range.2 field).getD out := by
  simp only [parseInt]
  split <;> simp [*]

/-- The row loop in terms of the columns. A missing column is read like an empty one. -/
theorem parseRow_eq (row : List Char) : parseRow row =
    (fromChars intRange.1 intRange.2 (column 1 (stripReturn row))).map fun type => {
      type
      id := (fromChars int64Range.1 int64Range.2 (column 2 (stripReturn row))).getD 0
      size := (fromChars int64Range.1 int64Range.2 (column 3 (stripReturn row))).getD 0
      price := (fromChars int64Range.1 int64Range.2 (column 4 (stripReturn row))).getD 0
      direction := (fromChars intRange.1 intRange.2 (column 5 (stripReturn row))).getD 0 } := by
  simp only [parseRow]
  generalize stripReturn row = line
  by_cases vacant : line = []
  · simp [vacant]
  · simp only [vacant, if_false, parseInt_snd, nextField_fst, column_nextField]
    cases read : fromChars intRange.1 intRange.2 (column 1 line) <;> simp [parseInt, read]

theorem wholeRow_eq (line : List Char) : wholeRow line = do
    return {
      type := ← wholeDecimal intRange.1 intRange.2 (column 1 line)
      id := ← wholeDecimal int64Range.1 int64Range.2 (column 2 line)
      size := ← wholeDecimal int64Range.1 int64Range.2 (column 3 line)
      price := ← wholeDecimal int64Range.1 int64Range.2 (column 4 line)
      direction := ← wholeDecimal intRange.1 intRange.2 (column 5 line) } := by
  simp only [wholeRow, column]
  generalize line.splitOn ',' = columns
  obtain _ | ⟨_, _ | ⟨_, _ | ⟨_, _ | ⟨_, _ | ⟨_, _ | ⟨_, _⟩⟩⟩⟩⟩⟩ := columns <;> simp

/-- The loader takes every whole row as it is. -/
theorem parseRow_of_whole {row : List Char} {event : Event}
    (whole : wholeRow (stripReturn row) = some event) : parseRow row = some event := by
  rw [wholeRow_eq] at whole
  simp only [Option.bind_eq_bind, Option.bind_eq_some_iff] at whole
  obtain ⟨type, type_whole, id, id_whole, size, size_whole, price, price_whole, direction,
    direction_whole, same⟩ := whole
  cases same
  simp [parseRow_eq, fromChars_of_whole type_whole, fromChars_of_whole id_whole,
    fromChars_of_whole size_whole, fromChars_of_whole price_whole,
    fromChars_of_whole direction_whole]

theorem readInPart_iff (row : List Char) : ReadInPart (stripReturn row) ↔
    (parseRow row).isSome = true ∧ wholeRow (stripReturn row) = none := by
  simp only [ReadInPart, parseRow_eq, column, Option.isSome_map]
  cases ((stripReturn row).splitOn ',')[1]? <;> simp

end Loader

/-- Exactly when the loader skips the malformed rows of a file. -/
theorem skipsMalformed_iff (text : List Char) :
    SkipsMalformed text ↔ ∀ row ∈ getLines text, ¬ ReadInPart (stripReturn row) := by
  constructor
  · intro skips row member in_part
    obtain ⟨parsed, not_whole⟩ := (readInPart_iff row).mp in_part
    obtain ⟨event, parsed⟩ := Option.isSome_iff_exists.mp parsed
    rw [skips.only_whole row member event parsed] at not_whole
    cases not_whole
  · intro clear
    have same : ∀ row ∈ getLines text, parseRow row = wholeRow (stripReturn row) := by
      intro row member
      cases whole : wholeRow (stripReturn row) with
      | some event => exact parseRow_of_whole whole
      | none =>
          rw [← Option.not_isSome_iff_eq_none]
          exact fun parsed => clear row member ((readInPart_iff row).mpr ⟨parsed, whole⟩)
    refine ⟨fun row member event parsed => (same row member).symm.trans parsed, fun _ => ?_⟩
    exact List.filterMap_congr same

/-- A row that ends after its type is read as an order with id, size and price zero. -/
theorem not_skipsMalformed_truncated : ¬ SkipsMalformed "0.5,1".toList := by
  rw [skipsMalformed_iff]
  intro clear
  exact clear "0.5,1".toList (by decide) ⟨⟨['1'], by decide, by decide⟩, by decide⟩

end OrderBook
