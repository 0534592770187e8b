import OrderBook.Replay.Malformed
import OrderBook.Replay.RoundTrip

/-!
# What files load to

Whatever a file says, each event that the loader takes from it could be written: its columns
are in range. So the lists of events that some file loads to are exactly the lists of events
that can be written.

The loader reserves one place for each line end before it starts. That is one too few in
exactly one case: the last line has no end, and it and every other line is an event.
-/

namespace OrderBook

open Text Loader

namespace Loader

/-- Rows with their line ends, and nothing else. -/
def messageFile (rows : List (Row × LineEnd)) : List Char :=
  render (rows.map fun row => (Line.row row.1, row.2)) none

/-- A row that starts at midnight and has no further columns. -/
def plainRow (event : Event) (representable : event.Representable) : Row where
  time := ['0']
  event
  extra := []
  time_plain := by decide
  time_unbroken := by decide
  extra_unbroken := by simp
  representable

/-- How many events there is room for before the first one is read. -/
def reserved (text : List Char) : Nat := text.count '\n'

theorem getLines_messageFile (rows : List (Row × LineEnd)) :
    getLines (messageFile rows) = rows.map fun row => row.1.text ++ row.2.returns := by
  induction rows with
  | nil => rfl
  | cons row rows ih =>
      rw [messageFile, List.map_cons, getLines_render_cons]
      exact congrArg _ ih

theorem load_messageFile (rows : List (Row × LineEnd)) (out : List Event) :
    loadLobsterMessages (some (messageFile rows)) out = (true, rows.map (·.1.event)) := by
  rw [loadLobsterMessages, getLines_messageFile, Prod.mk.injEq]
  refine ⟨rfl, ?_⟩
  induction rows with
  | nil => rfl
  | cons row rows ih =>
      rw [List.map_cons, List.filterMap_cons_some (parseRow_row row.1 row.2), ih, List.map_cons]

theorem fits_of_fromChars {lo hi value : Int} {field : List Char}
    (read : fromChars lo hi field = some value) : lo ≤ value ∧ value ≤ hi := by
  simp only [fromChars, Option.ite_none_left_eq_some, Option.ite_none_right_eq_some] at read
  obtain ⟨_, fits, same⟩ := read
  cases same
  exact fits

/-- A field that does not parse keeps its zero, which is in every range. -/
theorem fits_getD {lo hi : Int} (below : lo ≤ 0) (above : 0 ≤ hi) (field : List Char) :
    lo ≤ (fromChars lo hi field).getD 0 ∧ (fromChars lo hi field).getD 0 ≤ hi := by
  cases read : fromChars lo hi field with
  | none => exact ⟨below, above⟩
  | some value => exact fits_of_fromChars read

theorem representable_of_parsed {row : List Char} {event : Event}
    (parsed : parseRow row = some event) : event.Representable := by
  rw [parseRow_eq, Option.map_eq_some_iff] at parsed
  obtain ⟨type, read, rfl⟩ := parsed
  exact {
    type := fits_of_fromChars read
    id := fits_getD (by decide) (by decide) _
    size := fits_getD (by decide) (by decide) _
    price := fits_getD (by decide) (by decide) _
    direction := fits_getD (by decide) (by decide) _ }

end Loader

namespace Text

/-- The text ends where a line does. -/
def EndsLine (text : List Char) : Prop := text = [] ∨ text.getLast? = some '\n'

instance (text : List Char) : Decidable (EndsLine text) :=
  inferInstanceAs (Decidable (_ ∨ _))

theorem endsLine_cons {c : Char} {text : List Char} (ne : text ≠ []) :
    EndsLine (c :: text) ↔ EndsLine text := by
  simp [EndsLine, ne, List.getLast?_cons_of_ne_nil ne]

theorem getLines_ne_nil {text : List Char} (ne : text ≠ []) : getLines text ≠ [] := by
  cases text with
  | nil => exact absurd rfl ne
  | cons c text =>
      rw [getLines]
      split
      · simp
      · split <;> simp

/-- A line for each line end, and one more for text behind the last of them. -/
theorem length_getLines (text : List Char) :
    (getLines text).length = text.count '\n' + if EndsLine text then 0 else 1 := by
  induction text with
  | nil => rfl
  | cons c text ih =>
      by_cases last : text = []
      · subst last
        by_cases line_end : c = '\n' <;> simp [getLines, line_end, EndsLine]
      · simp only [endsLine_cons last, getLines]
        by_cases line_end : c = '\n'
        · rw [if_pos line_end, List.length_cons, ih, line_end, List.count_cons_self]
          omega
        · obtain ⟨line, lines, some_line⟩ := List.exists_cons_of_ne_nil (getLines_ne_nil last)
          rw [if_neg line_end, List.count_cons_of_ne line_end, ← ih, some_line]
          rfl

end Text

/-- Exactly the lists of events that can be written are loaded from some file. -/
theorem exists_file_iff (events out : List Event) :
    (∃ text, loadLobsterMessages (some text) out = (true, events)) ↔
      ∀ event ∈ events, event.Representable := by
  constructor
  · rintro ⟨text, loaded⟩ event member
    cases loaded
    obtain ⟨row, _, parsed⟩ := List.mem_filterMap.mp member
    exact representable_of_parsed parsed
  · intro representable
    refine ⟨messageFile (events.attach.map fun event =>
      (plainRow event.1 (representable event.1 event.2), .lf)), ?_⟩
    rw [load_messageFile, List.map_map]
    exact congrArg _ (List.attach_map_subtype_val events)

/-- The room that the loader reserves is enough unless the last line has no end and every
line is an event. -/
theorem load_reserved_iff (text : List Char) (out : List Event) :
    (loadLobsterMessages (some text) out).2.length ≤ reserved text ↔
      EndsLine text ∨ ∃ row ∈ getLines text, parseRow row = none := by
  have lines := length_getLines text
  have most := List.countP_le_length (p := fun row => (parseRow row).isSome) (l := getLines text)
  have every_iff := List.countP_eq_length (p := fun row => (parseRow row).isSome)
    (l := getLines text)
  have some_skipped : (∃ row ∈ getLines text, parseRow row = none) ↔
      ¬ ∀ row ∈ getLines text, (parseRow row).isSome = true := by
    simp [Option.isSome_iff_ne_none]
  rw [loadLobsterMessages, List.length_filterMap_eq_countP, reserved, some_skipped, ← every_iff]
  split at lines
  case isTrue ends =>
    exact ⟨fun _ => .inl ends, fun _ => by omega⟩
  case isFalse unfinished =>
    simp only [unfinished, false_or]
    omega

/-- A last row without a line end, for which nothing is reserved. -/
example :
    (loadLobsterMessages (some "0.1,1,16,18,58533,1\n0.2,3,16,18,58533,1".toList) []).2.length =
      reserved "0.1,1,16,18,58533,1\n0.2,3,16,18,58533,1".toList + 1 := by decide

end OrderBook
