import OrderBook.Event
import OrderBook.Foundation.Text

/-!
# The message file loader

A file is the list of its characters, or `none` when it cannot be opened. Each row is
split at its commas; the time is skipped and the next five columns are parsed into
the fields of an event. A row whose type does not parse is skipped. The results of
the other four parses are not looked at, so such a field keeps its default zero.
-/

namespace OrderBook

open Text

namespace Loader

/-- The values of an `int`. -/
def intRange : Int × Int := (-2147483648, 2147483647)

/-- The values of an `int64_t`. -/
def int64Range : Int × Int := (-9223372036854775808, 9223372036854775807)

/-- Whether the parse succeeded, and the variable it writes to afterwards. -/
def parseInt (range : Int × Int) (field : List Char) (out : Int) : Bool × Int :=
  match fromChars range.1 range.2 field with
  | none => (false, out)
  | some value => (true, value)

/-- Drop a carriage return at the end of a line. -/
def stripReturn (line : List Char) : List Char :=
  if line.getLast? = some '\r' then line.dropLast else line

/-- One turn of the row loop: the event that is pushed, if there is one. -/
def parseRow (line : List Char) : Option Event :=
  let line := stripReturn line
  if line = [] then none
  else
    let (_, view) := nextField line
    let (type, view) := nextField view
    let (parsed, type) := parseInt intRange type 0
    if parsed then
      let (id, view) := nextField view
      let (size, view) := nextField view
      let (price, view) := nextField view
      let (direction, _) := nextField view
      some {
        type
        id := (parseInt int64Range id 0).2
        size := (parseInt int64Range size 0).2
        price := (parseInt int64Range price 0).2
        direction := (parseInt intRange direction 0).2 }
    else none

/-- Load a message file into `out`, which keeps its events if the file cannot be
opened and is cleared otherwise. -/
def loadLobsterMessages (file : Option (List Char)) (out : List Event) : Bool × List Event :=
  match file with
  | none => (false, out)
  | some text => (true, (getLines text).filterMap parseRow)

end Loader

end OrderBook
