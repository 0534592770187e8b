import OrderBook.Reference.OrderLadder
import OrderBook.Reference.Stream
import OrderBook.Replay.Malformed
import OrderBook.Replay.RoundTrip
import OrderBook.Tests.BookEquivalence

/-!
# The test against a published order book

The test reads a message file and an orderbook file line by line in step. It drives a book
with each message and compares the levels of the row beside it with those of the book, rank
by rank. It has a reader of its own for both files, and it does not compare a level that the
row gives no size, or any level on the row of a halt.

The test is first described without its text: it passes if the book of each prefix of the
messages agrees with the row. Then the rows are the ones of the reference, which shows what
a passing test has established, and what it cannot see.
-/

namespace OrderBook

open PriceLevels Text Loader

namespace AgainstLobster

def toInt (field : List Char) : Int := (parseInt int64Range field 0).2

/-- The loop of `parse_row`. Every turn takes a field off the view. -/
def rowLoop : (fuel : Nat) → (view : List Char) → List Int
  | 0, _ => []
  | fuel + 1, view =>
      if view = [] then []
      else
        let (field, rest) := nextField view
        let fields := if field = [] then [] else [toInt field]
        if ',' ∈ view then fields ++ rowLoop fuel rest else fields

def parseRow (line : List Char) : List Int := rowLoop line.length line

/-- The event of a message line. No parse is checked, so every line is an event. -/
def readMessage (line : List Char) : Event :=
  let (_, view) := nextField line
  let (type, view) := nextField view
  let (id, view) := nextField view
  let (size, view) := nextField view
  let (price, view) := nextField view
  let (direction, _) := nextField view
  { type := (parseInt intRange type 0).2
    id := (parseInt int64Range id 0).2
    size := (parseInt int64Range size 0).2
    price := (parseInt int64Range price 0).2
    direction := (parseInt intRange direction 0).2 }

section Loop

variable {L : Type} [PriceLevels L]

/-- The requirements on one level, whose four columns are inside the row. -/
def levelMatches (l : L) (ref : List Int) (level : Nat) : Bool :=
  let askPrice := ref.getD (4 * level) 0
  let askSize := ref.getD (4 * level + 1) 0
  let bidPrice := ref.getD (4 * level + 2) 0
  let bidSize := ref.getD (4 * level + 3) 0
  (askSize ≤ 0 || nthAsk l level = ⟨askPrice, askSize⟩) &&
    (bidSize ≤ 0 || nthBid l level = ⟨bidPrice, bidSize⟩)

def rowMatches (l : L) (ref : List Int) : Bool :=
  (List.range (ref.length / 4)).all (levelMatches l ref)

/-- The book and the number of rows that have been read. -/
structure State (L : Type) where
  book : Book L
  row : Nat

/-- One turn of the loop, on a line of each file. -/
def testLine (state : State L) (messageLine orderbookLine : List Char) :
    Except Stop (State L) := do
  let messageLine := stripReturn messageLine
  let orderbookLine := stripReturn orderbookLine
  if messageLine = [] then return state
  else
    let event := readMessage messageLine
    let book ← (state.book.apply event).mapError .fault
    if event.type = 7 then return ⟨book, state.row + 1⟩
    else if rowMatches book.levels (parseRow orderbookLine) then return ⟨book, state.row + 1⟩
    else throw .require

def lineLoop (rowCap : Nat) : State L → List (List Char × List Char) → Except Stop (State L)
  | state, [] => return state
  | state, (messageLine, orderbookLine) :: lines =>
      if state.row < rowCap then do
        let state ← testLine state messageLine orderbookLine
        lineLoop rowCap state lines
      else return state

/-- The test on the text of the two files. It returns the number of rows. -/
def run (L : Type) [PriceLevels L] (orderCapacityHint rowCap : Nat)
    (messages orderbook : List Char) : Except Stop Nat := do
  let book : Book L ← (Book.new orderCapacityHint).mapError .fault
  let state ← lineLoop rowCap ⟨book, 0⟩ ((getLines messages).zip (getLines orderbook))
  if state.row > 0 then return state.row else throw .require

end Loop

/-- The event of a message line that is not blank. -/
def readLine (line : List Char) : Option Event :=
  let line := stripReturn line
  if line = [] then none else some (readMessage line)

/-- What a line of each file says, unless the message line is blank. -/
def readEntry (lines : List Char × List Char) : Option (Event × List Int) :=
  (readLine lines.1).map fun event => (event, parseRow (stripReturn lines.2))

/-- The messages of two files with the rows beside them. -/
def entries (messages orderbook : List Char) : List (Event × List Int) :=
  ((getLines messages).zip (getLines orderbook)).filterMap readEntry

section Readers

variable {row : List Char} {event : Event}

theorem rowLoop_eq (fuel : Nat) (view : List Char) (enough : view.length ≤ fuel) :
    rowLoop fuel view = ((view.splitOn ',').filter (· ≠ [])).map toInt := by
  induction fuel generalizing view with
  | zero =>
      obtain rfl := List.length_eq_zero_iff.mp (Nat.le_zero.mp enough)
      rfl
  | succ fuel ih =>
      by_cases vacant : view = []
      · subst vacant
        rfl
      · have shorter : (nextField view).2.length ≤ fuel := by
          have dropped : (view.dropWhile (· ≠ ',')).length ≤ view.length :=
            (List.dropWhile_sublist _).length_le
          have some_char := List.length_pos_of_ne_nil vacant
          simp only [nextField, List.length_tail]
          omega
        simp only [rowLoop, vacant, if_false]
        rw [splitOn_nextField, ih _ shorter]
        by_cases no_text : (nextField view).1 = []
        · by_cases comma : ',' ∈ view <;> simp [no_text, comma]
        · by_cases comma : ',' ∈ view <;> simp [no_text, comma]

/-- The integers of the columns that are not empty. -/
theorem parseRow_eq (line : List Char) :
    parseRow line = ((line.splitOn ',').filter (· ≠ [])).map toInt :=
  rowLoop_eq line.length line (Nat.le_refl _)

theorem readMessage_eq (line : List Char) : readMessage line = {
    type := (fromChars intRange.1 intRange.2 (column 1 line)).getD 0
    id := (fromChars int64Range.1 int64Range.2 (column 2 line)).getD 0
    size := (fromChars int64Range.1 int64Range.2 (column 3 line)).getD 0
    price := (fromChars int64Range.1 int64Range.2 (column 4 line)).getD 0
    direction := (fromChars intRange.1 intRange.2 (column 5 line)).getD 0 } := by
  simp only [readMessage, parseInt_snd, nextField_fst, column_nextField]

/-- A row that the loader takes is read alike. -/
theorem readMessage_of_parsed (parsed : Loader.parseRow row = some event) :
    readMessage (stripReturn row) = event := by
  rw [Loader.parseRow_eq, Option.map_eq_some_iff] at parsed
  obtain ⟨type, read, rfl⟩ := parsed
  rw [readMessage_eq, read]
  rfl

/-- A row that the loader skips does nothing. -/
theorem readMessage_of_skipped (skipped : Loader.parseRow row = none) :
    (readMessage (stripReturn row)).Ignored := by
  rw [Loader.parseRow_eq, Option.map_eq_none_iff] at skipped
  have type : (readMessage (stripReturn row)).type = 0 := by
    rw [readMessage_eq, skipped]
    rfl
  simp only [Event.Ignored, Event.Reduces, type]
  decide

theorem stripReturn_ne_nil (parsed : Loader.parseRow row = some event) : stripReturn row ≠ [] := by
  intro vacant
  rw [Loader.parseRow_eq, vacant] at parsed
  simp at parsed

theorem events_entries (lines : List (List Char × List Char)) :
    (lines.filterMap readEntry).map Prod.fst = (lines.map Prod.fst).filterMap readLine := by
  rw [List.map_filterMap, List.filterMap_map]
  congr
  funext line
  simp [readEntry, Function.comp_def]

end Readers

section Run

variable {L : Type} [PriceLevels L]

/-- The comparison after a message: a halt is not compared. -/
def Agrees (book : Book L) (entry : Event × List Int) : Prop :=
  entry.1.type = 7 ∨ rowMatches book.levels entry.2 = true

/-- A turn of the loop that has a message. -/
def entryStep (book : Book L) (entry : Event × List Int) : Except Stop (Book L) := do
  let book ← (book.apply entry.1).mapError .fault
  if entry.1.type = 7 then return book
  else if rowMatches book.levels entry.2 then return book
  else throw .require

theorem entryStep_eq_ok_iff (book : Book L) (entry : Event × List Int) (next : Book L) :
    entryStep book entry = .ok next ↔ book.apply entry.1 = .ok next ∧ Agrees next entry := by
  simp only [entryStep, Agrees]
  cases stepped : book.apply entry.1 with
  | error fault => exact ⟨nofun, nofun⟩
  | ok reached =>
      change (if entry.1.type = 7 then Except.ok reached
        else if rowMatches reached.levels entry.2 = true then Except.ok reached
        else Except.error Stop.require) = Except.ok next ↔ _
      by_cases halt : entry.1.type = 7
      · simp [halt]
      by_cases same : rowMatches reached.levels entry.2 = true
      · simp only [halt, same, if_true, if_false, false_or, Except.ok.injEq]
        exact ⟨fun here => ⟨here, here ▸ same⟩, And.left⟩
      · simp only [halt, same, if_false, false_or, reduceCtorEq, Except.ok.injEq, false_iff,
          not_and]
        exact fun here => here ▸ same

theorem testLine_of_blank {state : State L} {lines : List Char × List Char}
    (blank : readEntry lines = none) : testLine state lines.1 lines.2 = .ok state := by
  simp only [readEntry, readLine, Option.map_eq_none_iff, ite_eq_left_iff, reduceCtorEq,
    imp_false, not_not] at blank
  simp only [testLine, blank, if_true]
  rfl

theorem testLine_of_entry {state : State L} {lines : List Char × List Char}
    {entry : Event × List Int} (read : readEntry lines = some entry) :
    testLine state lines.1 lines.2 = do
      let book ← entryStep state.book entry
      return ⟨book, state.row + 1⟩ := by
  simp only [readEntry, readLine, Option.map_eq_some_iff, Option.ite_none_left_eq_some] at read
  obtain ⟨event, ⟨not_blank, same⟩, rfl⟩ := read
  cases same
  simp only [testLine, not_blank, if_false, entryStep]
  cases state.book.apply (readMessage (stripReturn lines.1)) with
  | error fault => rfl
  | ok book =>
      change (if _ then _ else _) = (if _ then _ else _) >>= _
      split
      · rfl
      · split <;> rfl

/-- The loop goes over the entries that the cap leaves. -/
theorem lineLoop_eq (rowCap : Nat) (state : State L) (lines : List (List Char × List Char)) :
    lineLoop rowCap state lines = do
      let read := (lines.filterMap readEntry).take (rowCap - state.row)
      let book ← read.foldlM entryStep state.book
      return ⟨book, state.row + read.length⟩ := by
  induction lines generalizing state with
  | nil => simp [lineLoop]
  | cons first lines ih =>
      obtain ⟨messageLine, orderbookLine⟩ := first
      by_cases below : state.row < rowCap
      · simp only [lineLoop, below, if_true]
        cases read : readEntry (messageLine, orderbookLine) with
        | none =>
            rw [testLine_of_blank read, Run.ok_bind, ih, List.filterMap_cons_none read]
        | some entry =>
            obtain ⟨room, at_room⟩ : ∃ room, rowCap - state.row = room + 1 :=
              ⟨rowCap - (state.row + 1), by omega⟩
            have room_eq : rowCap - (state.row + 1) = room := by omega
            rw [testLine_of_entry read, List.filterMap_cons_some read, at_room, List.take_succ_cons,
              List.foldlM_cons, List.length_cons]
            cases entryStep state.book entry with
            | error stop => rfl
            | ok book =>
                simp only [Run.ok_bind, pure_bind]
                change lineLoop rowCap ⟨book, state.row + 1⟩ lines = _
                rw [ih]
                simp only [room_eq]
                rw [Nat.add_right_comm, Nat.add_assoc]
      · have full : rowCap - state.row = 0 := by omega
        simp [lineLoop, below, full]

theorem foldlM_events (book : Book L) (read : List (Event × List Int)) :
    read.foldlM (fun book entry => book.apply entry.1) book =
      (read.map Prod.fst).foldlM Book.apply book := by
  rw [List.foldlM_map]

/-- The lines that the loader skips leave the book alone. -/
theorem foldlM_readLine (book : Book L) (lines : List (List Char)) :
    (lines.filterMap readLine).foldlM Book.apply book =
      (lines.filterMap Loader.parseRow).foldlM Book.apply book := by
  induction lines generalizing book with
  | nil => rfl
  | cons line lines ih =>
      cases parsed : Loader.parseRow line with
      | some event =>
          have read : readLine line = some event := by
            simp [readLine, stripReturn_ne_nil parsed, readMessage_of_parsed parsed]
          rw [List.filterMap_cons_some parsed, List.filterMap_cons_some read, List.foldlM_cons,
            List.foldlM_cons]
          exact congrArg _ (funext ih)
      | none =>
          rw [List.filterMap_cons_none parsed, ← ih]
          by_cases blank : stripReturn line = []
          · rw [List.filterMap_cons_none (by simp [readLine, blank])]
          · have read : readLine line = some (readMessage (stripReturn line)) := by
              simp [readLine, blank]
            rw [List.filterMap_cons_some read, List.foldlM_cons,
              Book.apply_of_ignored (readMessage_of_skipped parsed), Run.ok_bind]

theorem run_eq_ok_iff_foldlM (orderCapacityHint rowCap : Nat) (messages orderbook : List Char)
    (rows : Nat) : run L orderCapacityHint rowCap messages orderbook = .ok rows ↔
      rows = ((entries messages orderbook).take rowCap).length ∧ 0 < rows ∧
        ∃ start book : Book L, Book.new orderCapacityHint = .ok start ∧
          ((entries messages orderbook).take rowCap).foldlM entryStep start = .ok book := by
  simp only [run, entries]
  generalize (getLines messages).zip (getLines orderbook) = lines
  cases made : (Book.new orderCapacityHint : Except Fault (Book L)) with
  | error fault =>
      refine ⟨nofun, ?_⟩
      rintro ⟨_, _, _, _, started, _⟩
      cases started
  | ok start =>
      change (lineLoop rowCap ⟨start, 0⟩ lines >>= _) = _ ↔ _
      rw [lineLoop_eq, Nat.sub_zero]
      generalize (lines.filterMap readEntry).take rowCap = read
      change ((read.foldlM entryStep start >>= _) >>= _) = _ ↔ _
      cases ran : read.foldlM entryStep start with
      | error stop =>
          refine ⟨nofun, ?_⟩
          rintro ⟨_, _, _, _, started, returned⟩
          cases started
          rw [ran] at returned
          cases returned
      | ok book =>
          simp only [Run.ok_bind, pure_bind, Nat.zero_add]
          by_cases some_read : read.length > 0
          · rw [if_pos some_read]
            constructor
            · intro returned
              cases returned
              exact ⟨rfl, some_read, start, book, rfl, ran⟩
            · rintro ⟨rfl, _⟩
              rfl
          · rw [if_neg some_read]
            refine ⟨nofun, ?_⟩
            rintro ⟨rfl, some_row, _⟩
            exact absurd some_row some_read

/-- The test passes if the book of every prefix of the messages agrees with the row beside
the last of them. -/
theorem run_eq_ok_iff (orderCapacityHint rowCap : Nat) (messages orderbook : List Char)
    (rows : Nat) : run L orderCapacityHint rowCap messages orderbook = .ok rows ↔
      rows = ((entries messages orderbook).take rowCap).length ∧ 0 < rows ∧
        (∃ book : Book L, Book.replay orderCapacityHint
          (((entries messages orderbook).take rowCap).map Prod.fst) = .ok book) ∧
        ∀ before entry, before ++ [entry] <+: (entries messages orderbook).take rowCap →
          ∀ book : Book L, Book.replay orderCapacityHint ((before ++ [entry]).map Prod.fst) =
            .ok book → Agrees book entry := by
  rw [run_eq_ok_iff_foldlM]
  refine and_congr_right fun _ => and_congr_right fun _ => ?_
  simp only [Run.foldlM_checked_eq_ok_iff entryStep_eq_ok_iff, foldlM_events, Book.replay]
  cases made : (Book.new orderCapacityHint : Except Fault (Book L)) with
  | error fault =>
      constructor
      · rintro ⟨_, _, started, _⟩
        cases started
      · rintro ⟨⟨_, returned⟩, _⟩
        cases returned
  | ok start =>
      simp only [Run.ok_bind]
      constructor
      · rintro ⟨_, book, started, reached, agrees⟩
        cases started
        exact ⟨⟨book, reached⟩, agrees⟩
      · rintro ⟨⟨book, reached⟩, agrees⟩
        exact ⟨start, book, rfl, reached, agrees⟩

end Run

end AgainstLobster

open AgainstLobster

/-- Whatever the text, the test drives the book that the loader's events drive. It reads a
line that the loader skips as a message that does nothing. -/
theorem lobsterTest_follows_loader {L : Type} [PriceLevels L] (orderCapacityHint : Nat)
    (messages orderbook : List Char) (out : List Event) :
    (∀ lines, lines <+: (getLines messages).zip (getLines orderbook) →
      (Book.replay orderCapacityHint ((lines.filterMap readEntry).map Prod.fst) :
          Except Fault (Book L)) =
        Book.replay orderCapacityHint ((lines.map Prod.fst).filterMap Loader.parseRow)) ∧
    ((getLines messages).length ≤ (getLines orderbook).length →
      (Book.replay orderCapacityHint ((entries messages orderbook).map Prod.fst) :
          Except Fault (Book L)) =
        Book.replay orderCapacityHint (loadLobsterMessages (some messages) out).2) := by
  have same : ∀ lines : List (List Char × List Char),
      (Book.replay orderCapacityHint ((lines.filterMap readEntry).map Prod.fst) :
          Except Fault (Book L)) =
        Book.replay orderCapacityHint ((lines.map Prod.fst).filterMap Loader.parseRow) := by
    intro lines
    simp only [Book.replay, events_entries]
    exact congrArg _ (funext fun book => foldlM_readLine book (lines.map Prod.fst))
  refine ⟨fun lines _ => same lines, fun enough => ?_⟩
  rw [entries, same, List.map_fst_zip enough]
  rfl

/-- A row that ends after its type, one without a type and a blank one. -/
theorem lobsterTest_follows_loader_malformed :
    (Book.replay 4 ((entries "0.1,1\n\n0.2,x,5\n0.3,1,7,10,100,1\r\n".toList
        "\n\n\n200,5,100,10\n".toList).map Prod.fst) : Except Fault BookLinear) =
      Book.replay 4 (loadLobsterMessages
        (some "0.1,1\n\n0.2,x,5\n0.3,1,7,10,100,1\r\n".toList) []).2 :=
  (lobsterTest_follows_loader 4 _ _ []).2 (by decide)

end OrderBook
