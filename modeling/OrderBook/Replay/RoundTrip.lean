import OrderBook.Replay.Loader

/-!
# Loading undoes writing

A written file is a list of lines, each with its line end, and perhaps a last line
without one. A line is blank or a row: a time, the five columns of an event in decimal
and any further columns. Whatever the file, loading it gives the events of its rows.
-/

namespace OrderBook

open Text Loader

/-- The values that the columns of a message can hold. -/
structure Event.Representable (event : Event) : Prop where
  type : intRange.1 ≤ event.type ∧ event.type ≤ intRange.2
  id : int64Range.1 ≤ event.id ∧ event.id ≤ int64Range.2
  size : int64Range.1 ≤ event.size ∧ event.size ≤ int64Range.2
  price : int64Range.1 ≤ event.price ∧ event.price ≤ int64Range.2
  direction : intRange.1 ≤ event.direction ∧ event.direction ≤ intRange.2

/-- A row of a message file, with any columns that follow the direction. -/
structure Row where
  time : List Char
  event : Event
  extra : List (List Char)
  time_plain : ',' ∉ time
  time_unbroken : '\n' ∉ time
  extra_unbroken : ∀ column ∈ extra, '\n' ∉ column
  representable : event.Representable

inductive Line where
  | row (written : Row)
  | empty
  | loneReturn

inductive LineEnd where
  | lf
  | crlf

/-- The text of further columns, each behind a comma. -/
def writeColumns (columns : List (List Char)) : List Char := columns.flatMap (',' :: ·)

def Event.columns (event : Event) : List (List Char) :=
  [event.type, event.id, event.size, event.price, event.direction].map toDecimal

def Row.text (row : Row) : List Char :=
  row.time ++ writeColumns row.event.columns ++ writeColumns row.extra

namespace Line

def text : Line → List Char
  | row written => written.text
  | empty => []
  | loneReturn => ['\r']

def event? : Line → Option Event
  | row written => some written.event
  | empty => none
  | loneReturn => none

end Line

/-- What a line end leaves on the line that `std::getline` reads. -/
def LineEnd.returns : LineEnd → List Char
  | lf => []
  | crlf => ['\r']

/-- The text of lines with their line ends, and of a last line without one. -/
def render (lines : List (Line × LineEnd)) (last : Option Line) : List Char :=
  (lines.flatMap fun line => line.1.text ++ line.2.returns ++ ['\n']) ++ last.elim [] Line.text

/-- The events of the rows, in order. -/
def writtenEvents (lines : List (Line × LineEnd)) (last : Option Line) : List Event :=
  (lines.map Prod.fst ++ last.toList).filterMap Line.event?

namespace Loader

/-- A rest of a line that a column may stand in front of. -/
def EndsColumn (rest : List Char) : Prop := rest = [] ∨ ∃ more, rest = ',' :: more

theorem comma_not_mem (n : Int) : ',' ∉ toDecimal n :=
  not_mem_toDecimal (by decide) (by decide) n

theorem nextField_toDecimal (n : Int) {rest : List Char} (ends : EndsColumn rest) :
    (nextField (toDecimal n ++ rest)).1 = toDecimal n := by
  obtain rfl | ⟨more, rfl⟩ := ends
  · rw [List.append_nil, nextField_last (comma_not_mem n)]
  · rw [nextField_field (comma_not_mem n)]

theorem parseInt_toDecimal {range : Int × Int} {n : Int} (fits : range.1 ≤ n ∧ n ≤ range.2)
    (out : Int) : parseInt range (toDecimal n) out = (true, n) := by
  rw [parseInt, fromChars_toDecimal fits.1 fits.2]

theorem stripReturn_append (front : List Char) {rest : List Char} (ne : rest ≠ []) :
    stripReturn (front ++ rest) = front ++ stripReturn rest := by
  have same_last : (front ++ rest).getLast? = rest.getLast? := by
    rw [List.getLast?_append, Option.or_of_isSome (List.getLast?_isSome.mpr ne)]
  simp only [stripReturn]
  rw [same_last]
  split
  · exact List.dropLast_append_of_ne_nil ne
  · rfl

theorem endsColumn_writeColumns (columns : List (List Char)) :
    EndsColumn (writeColumns columns) := by
  cases columns with
  | nil => exact .inl rfl
  | cons column columns => exact .inr ⟨_, rfl⟩

/-- Taking a carriage return off a rest leaves one, unless the rest has no text. -/
theorem endsColumn_stripReturn {rest : List Char} (ends : EndsColumn rest) (ending : LineEnd) :
    EndsColumn (stripReturn (rest ++ ending.returns)) := by
  obtain rfl | ⟨more, rfl⟩ := ends
  · cases ending <;> exact .inl rfl
  · by_cases vacant : more ++ ending.returns = []
    · rw [List.cons_append, vacant]
      exact .inr ⟨[], rfl⟩
    · rw [List.cons_append, ← List.singleton_append, stripReturn_append _ vacant]
      exact .inr ⟨_, rfl⟩

theorem stripReturn_of_toDecimal (front : List Char) (n : Int) :
    stripReturn (front ++ toDecimal n) = front ++ toDecimal n := by
  rw [stripReturn_append front (toDecimal_ne_nil n), stripReturn, if_neg]
  exact fun last => not_mem_toDecimal (by decide) (by decide) n (List.mem_of_getLast? last)

/-- The line that is split, whether or not the row ends in a carriage return. -/
theorem stripReturn_row (row : Row) (ending : LineEnd) :
    ∃ rest, EndsColumn rest ∧ stripReturn (row.text ++ ending.returns) =
      row.time ++ writeColumns row.event.columns ++ rest := by
  have ends := endsColumn_writeColumns row.extra
  by_cases vacant : writeColumns row.extra ++ ending.returns = []
  · refine ⟨[], .inl rfl, ?_⟩
    have last : row.time ++ writeColumns row.event.columns =
        row.time ++ writeColumns ([row.event.type, row.event.id, row.event.size,
          row.event.price].map toDecimal) ++ [','] ++ toDecimal row.event.direction := by
      simp [writeColumns, Event.columns]
    rw [Row.text, List.append_assoc, vacant, last, List.append_nil, stripReturn_of_toDecimal]
  · exact ⟨_, endsColumn_stripReturn ends ending,
      by rw [Row.text, List.append_assoc, stripReturn_append _ vacant]⟩

theorem parseRow_row (row : Row) (ending : LineEnd) :
    parseRow (row.text ++ ending.returns) = some row.event := by
  obtain ⟨rest, ends, stripped⟩ := stripReturn_row row ending
  obtain ⟨type, id, size, price, direction⟩ := row.representable
  have line : row.time ++ writeColumns row.event.columns ++ rest =
      row.time ++ ',' :: (toDecimal row.event.type ++ ',' :: (toDecimal row.event.id ++
        ',' :: (toDecimal row.event.size ++ ',' :: (toDecimal row.event.price ++
          ',' :: (toDecimal row.event.direction ++ rest))))) := by
    simp [writeColumns, Event.columns]
  rw [line] at stripped
  simp only [parseRow, stripped, List.append_eq_nil_iff, reduceCtorEq, and_false, if_false,
    nextField_field row.time_plain, nextField_field (comma_not_mem _),
    nextField_toDecimal _ ends, parseInt_toDecimal type, parseInt_toDecimal id,
    parseInt_toDecimal size, parseInt_toDecimal price, parseInt_toDecimal direction, if_true]

/-- Each line gives its event, whatever its end. -/
theorem parseRow_line (line : Line) (ending : LineEnd) :
    parseRow (line.text ++ ending.returns) = line.event? := by
  cases line with
  | row written => exact parseRow_row written ending
  | empty => cases ending <;> rfl
  | loneReturn => cases ending <;> rfl

theorem writeColumns_unbroken {columns : List (List Char)}
    (unbroken : ∀ column ∈ columns, '\n' ∉ column) : '\n' ∉ writeColumns columns := by
  simp only [writeColumns, List.mem_flatMap, List.mem_cons, not_exists, not_and, not_or]
  exact fun column member => ⟨by decide, unbroken column member⟩

theorem text_unbroken (line : Line) : '\n' ∉ line.text := by
  cases line with
  | row written =>
      have columns : ∀ column ∈ written.event.columns, '\n' ∉ column := by
        intro column member
        obtain ⟨n, _, rfl⟩ := List.mem_map.mp member
        exact not_mem_toDecimal (by decide) (by decide) n
      simp only [Line.text, Row.text, List.mem_append, not_or]
      exact ⟨⟨written.time_unbroken, writeColumns_unbroken columns⟩,
        writeColumns_unbroken written.extra_unbroken⟩
  | empty => exact List.not_mem_nil
  | loneReturn => decide

theorem getLines_render_cons (line : Line) (ending : LineEnd) (lines : List (Line × LineEnd))
    (last : Option Line) : getLines (render ((line, ending) :: lines) last) =
      (line.text ++ ending.returns) :: getLines (render lines last) := by
  have unbroken : '\n' ∉ line.text ++ ending.returns := by
    rw [List.mem_append, not_or]
    exact ⟨text_unbroken line, by cases ending <;> decide⟩
  rw [← getLines_line unbroken]
  simp [render]

/-- A last line without an end is read like one that has it, or is not there to read. -/
theorem filterMap_getLines_last (line : Line) :
    (getLines line.text).filterMap parseRow = line.event?.toList := by
  have parsed := parseRow_line line .lf
  rw [LineEnd.returns, List.append_nil] at parsed
  rw [getLines_last (text_unbroken line)]
  split
  case isTrue vacant =>
    rw [vacant] at parsed
    rw [← parsed]
    rfl
  case isFalse =>
    rw [List.filterMap_cons, parsed]
    cases line.event? <;> rfl

end Loader

/-- Loading a written file gives the events of its rows in order. -/
theorem loadLobsterMessages_render (lines : List (Line × LineEnd)) (last : Option Line)
    (out : List Event) :
    loadLobsterMessages (some (render lines last)) out = (true, writtenEvents lines last) := by
  rw [loadLobsterMessages, Prod.mk.injEq]
  refine ⟨rfl, ?_⟩
  induction lines with
  | nil =>
      cases last with
      | none => rfl
      | some line =>
          change (getLines line.text).filterMap parseRow = _
          rw [filterMap_getLines_last]
          cases same : line.event? <;> simp [writtenEvents, same]
  | cons entry lines ih =>
      obtain ⟨line, ending⟩ := entry
      rw [getLines_render_cons, List.filterMap_cons, parseRow_line, ih]
      cases same : line.event? <;> simp [writtenEvents, same]

/-- Both line ends, blank rows, a further column and no last line end. -/
example : loadLobsterMessages
    (some "0.1,1,16,18,58533,1\r\n\n\r\n0.2,3,16,18,-58533,-1,x".toList) [⟨5, 0, 0, 0, 0⟩] =
      (true, [⟨1, 16, 18, 58533, 1⟩, ⟨3, 16, 18, -58533, -1⟩]) := by decide

end OrderBook
