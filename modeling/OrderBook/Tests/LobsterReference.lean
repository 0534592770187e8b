import OrderBook.Book.Close
import OrderBook.Replay.Files
import OrderBook.Tests.AgainstLobster

/-!
# What a passing test has established

The orderbook file has a row for every message, with the first levels of the published book
after it. That book need not start empty: orders that rested before the first message are in
its rows, although no message has put them there. A row has four columns for each rank, and
a rank without a level has a padding price and no size.

With such a file beside the messages the test passes exactly if the first levels of the
published book are shown, rank by rank, after every message that it compares. It sees nothing
behind them, so a book with further levels passes as well.
-/

namespace OrderBook

open PriceLevels Text Loader

namespace AgainstLobster

/-- The four columns of one rank. -/
def rankColumns (padding : Side → Price) (orders : List Order) (rank : Nat) : List Int :=
  let ask := ((levelsOf orders .sell)[rank]?).getD ⟨padding .sell, 0⟩
  let bid := ((levelsOf orders .buy)[rank]?).getD ⟨padding .buy, 0⟩
  [ask.price, ask.quantity, bid.price, bid.quantity]

def referenceRow (ranks : Nat) (padding : Side → Price) (orders : List Order) : List Int :=
  (List.range ranks).flatMap (rankColumns padding orders)

/-- Messages with the rows of a published book that had these orders before them. -/
def withRows (ranks : Nat) (padding : Side → Price) : LiveOrders → List Event →
    List (Event × List Int)
  | _, [] => []
  | live, event :: events =>
      (event, referenceRow ranks padding (live.step event).orders) ::
        withRows ranks padding (live.step event) events

def rowText (row : List Int) : List Char := [','].intercalate (row.map toDecimal)

def orderbookFile (rows : List (List Int)) (ending : LineEnd) : List Char :=
  rows.flatMap fun row => rowText row ++ ending.returns ++ ['\n']

/-- The first levels of each side are shown at their ranks. -/
def TopShown {L : Type} [PriceLevels L] (ranks : Nat) (l : L) (orders : List Order) : Prop :=
  ∀ side rank, rank < ranks → ∀ level, (levelsOf orders side)[rank]? = some level →
    nth l side rank = level

section Rows

variable {L : Type} [PriceLevels L] {orders : List Order} {padding : Side → Price}

theorem getElem?_blocks {α β : Type} {f : α → List β} {width : Nat}
    (blocks : ∀ x, (f x).length = width) (xs : List α) (k : Nat) {i : Nat} (within : i < width) :
    (xs.flatMap f)[width * k + i]? = xs[k]?.bind fun x => (f x)[i]? := by
  induction xs generalizing k with
  | nil => simp
  | cons x xs ih =>
      rw [List.flatMap_cons]
      cases k with
      | zero =>
          have here : i < (f x).length := (blocks x).symm ▸ within
          simp [List.getElem?_append_left here]
      | succ k =>
          have behind : (f x).length ≤ width * (k + 1) + i := by
            rw [blocks, Nat.mul_succ]
            omega
          have shifted : width * (k + 1) + i - (f x).length = width * k + i := by
            rw [blocks, Nat.mul_succ]
            omega
          rw [List.getElem?_append_right behind, shifted, ih]
          rfl

theorem length_referenceRow (ranks : Nat) (padding : Side → Price) (orders : List Order) :
    (referenceRow ranks padding orders).length = 4 * ranks := by
  simp [referenceRow, rankColumns, List.length_flatMap, Nat.mul_comm]

theorem getD_referenceRow (padding : Side → Price) (orders : List Order) {ranks rank : Nat}
    (below : rank < ranks) {i : Nat} (within : i < 4) :
    (referenceRow ranks padding orders).getD (4 * rank + i) 0 =
      (rankColumns padding orders rank).getD i 0 := by
  have blocks : ∀ rank, (rankColumns padding orders rank).length = 4 := fun _ => rfl
  rw [List.getD_eq_getElem?_getD, List.getD_eq_getElem?_getD, referenceRow,
    getElem?_blocks blocks _ _ within]
  simp [below]

/-- One comparison: a padded rank is passed over, and a level has to be the one shown. -/
theorem column_matches (padding : Side → Price) (positive : AllPositive orders) (l : L)
    (side : Side) (rank : Nat) :
    (((levelsOf orders side)[rank]?).getD ⟨padding side, 0⟩).quantity ≤ 0 ∨
        nth l side rank = ((levelsOf orders side)[rank]?).getD ⟨padding side, 0⟩ ↔
      ∀ level, (levelsOf orders side)[rank]? = some level → nth l side rank = level := by
  cases there : (levelsOf orders side)[rank]? with
  | none => simp
  | some level =>
      have pos : 0 < level.quantity :=
        positive.ladderOf_pos (mem_levelsOf.mp (List.mem_of_getElem? there))
      simp [not_le.mpr pos]

theorem levelMatches_referenceRow (positive : AllPositive orders) (l : L) {ranks rank : Nat}
    (below : rank < ranks) :
    levelMatches l (referenceRow ranks padding orders) rank = true ↔
      ∀ side level, (levelsOf orders side)[rank]? = some level → nth l side rank = level := by
  have asks := column_matches padding positive l .sell rank
  have bids := column_matches padding positive l .buy rank
  have sides : (∀ side level, (levelsOf orders side)[rank]? = some level →
      nth l side rank = level) ↔
      (∀ level, (levelsOf orders .sell)[rank]? = some level → nth l .sell rank = level) ∧
        ∀ level, (levelsOf orders .buy)[rank]? = some level → nth l .buy rank = level :=
    ⟨fun all => ⟨all .sell, all .buy⟩, fun both side => by
      cases side
      · exact both.2
      · exact both.1⟩
  have first := getD_referenceRow padding orders below (show 0 < 4 by decide)
  rw [Nat.add_zero] at first
  rw [sides, ← asks, ← bids]
  simp only [levelMatches, first, getD_referenceRow padding orders below (show 1 < 4 by decide),
    getD_referenceRow padding orders below (show 2 < 4 by decide),
    getD_referenceRow padding orders below (show 3 < 4 by decide), Bool.and_eq_true,
    Bool.or_eq_true, decide_eq_true_eq]
  rfl

theorem rowMatches_referenceRow (positive : AllPositive orders) (l : L) (ranks : Nat) :
    rowMatches l (referenceRow ranks padding orders) = true ↔ TopShown ranks l orders := by
  rw [rowMatches, length_referenceRow, Nat.mul_div_cancel_left ranks (by decide),
    List.all_eq_true]
  constructor
  · intro all side rank below level there
    exact (levelMatches_referenceRow positive l below).mp
      (all rank (List.mem_range.mpr below)) side level there
  · intro shown rank member
    have below := List.mem_range.mp member
    exact (levelMatches_referenceRow positive l below).mpr fun side level there =>
      shown side rank below level there

end Rows

section Files

variable {ranks : Nat} {padding : Side → Price} {live : LiveOrders}

theorem splitOn_rowText (n : Int) (row : List Int) :
    (rowText (n :: row)).splitOn ',' = (n :: row).map toDecimal := by
  induction row generalizing n with
  | nil =>
      have plain : (toDecimal n).splitOn ',' = [toDecimal n] :=
        List.splitOn_eq_singleton_of_beq_eq_false fun c member =>
          beq_eq_false_iff_ne.mpr fun comma => comma_not_mem n (comma ▸ member)
      simpa [rowText] using plain
  | cons m row ih =>
      have text : rowText (n :: m :: row) = toDecimal n ++ ',' :: rowText (m :: row) := by
        simp [rowText, List.intercalate_cons_cons]
      rw [text, List.splitOn_append_cons_self_of_not_mem (comma_not_mem n), ih]
      rfl

theorem not_mem_rowText {c : Char} (not_comma : c ≠ ',') (not_sign : c ≠ '-')
    (not_digit : c.isDigit = false) (row : List Int) : c ∉ rowText row := by
  induction row with
  | nil => simp [rowText]
  | cons n row ih =>
      cases row with
      | nil => simpa [rowText] using not_mem_toDecimal not_sign not_digit n
      | cons m row =>
          have text : rowText (n :: m :: row) = toDecimal n ++ ',' :: rowText (m :: row) := by
            simp [rowText, List.intercalate_cons_cons]
          simp only [text, List.mem_append, List.mem_cons, not_or]
          exact ⟨not_mem_toDecimal not_sign not_digit n, not_comma, ih⟩

theorem stripReturn_ending {line : List Char} (plain : '\r' ∉ line) (ending : LineEnd) :
    stripReturn (line ++ ending.returns) = line := by
  cases ending with
  | lf =>
      rw [LineEnd.returns, List.append_nil, stripReturn, if_neg]
      exact fun last => plain (List.mem_of_getLast? last)
  | crlf =>
      rw [LineEnd.returns, stripReturn_append line (List.cons_ne_nil _ _)]
      exact List.append_nil line

/-- A row is read back if its numbers fit. -/
theorem parseRow_rowText {row : List Int}
    (fits : ∀ n ∈ row, int64Range.1 ≤ n ∧ n ≤ int64Range.2) (ending : LineEnd) :
    parseRow (stripReturn (rowText row ++ ending.returns)) = row := by
  rw [stripReturn_ending (not_mem_rowText (by decide) (by decide) (by decide) row)]
  cases row with
  | nil => rfl
  | cons n row =>
      have texts : ((n :: row).map toDecimal).filter (· ≠ []) = (n :: row).map toDecimal := by
        rw [List.filter_eq_self]
        intro field member
        obtain ⟨m, _, rfl⟩ := List.mem_map.mp member
        simpa using toDecimal_ne_nil m
      rw [parseRow_eq, splitOn_rowText, texts, List.map_map]
      conv_rhs => rw [← List.map_id (n :: row)]
      refine List.map_congr_left fun m member => ?_
      simp only [Function.comp_apply, toInt, parseInt_toDecimal (fits m member), id]

theorem getLines_orderbookFile (rows : List (List Int)) (ending : LineEnd) :
    getLines (orderbookFile rows ending) = rows.map fun row => rowText row ++ ending.returns := by
  induction rows with
  | nil => rfl
  | cons row rows ih =>
      have unbroken : '\n' ∉ rowText row ++ ending.returns := by
        rw [List.mem_append, not_or]
        exact ⟨not_mem_rowText (by decide) (by decide) (by decide) row,
          by cases ending <;> decide⟩
      rw [List.map_cons, ← ih, ← getLines_line unbroken]
      simp [orderbookFile]

theorem readEntry_row (row : Row) (ends ending : LineEnd) {columns : List Int}
    (fits : ∀ n ∈ columns, int64Range.1 ≤ n ∧ n ≤ int64Range.2) :
    readEntry (row.text ++ ends.returns, rowText columns ++ ending.returns) =
      some (row.event, columns) := by
  have parsed := parseRow_row row ends
  simp [readEntry, readLine, stripReturn_ne_nil parsed, readMessage_of_parsed parsed,
    parseRow_rowText fits ending]

@[simp] theorem map_fst_withRows (live : LiveOrders) (events : List Event) :
    (withRows ranks padding live events).map Prod.fst = events := by
  induction events generalizing live with
  | nil => rfl
  | cons event events ih => rw [withRows, List.map_cons, ih]

theorem take_withRows (count : Nat) (live : LiveOrders) (events : List Event) :
    (withRows ranks padding live events).take count =
      withRows ranks padding live (events.take count) := by
  induction events generalizing live count with
  | nil => simp [withRows]
  | cons event events ih =>
      cases count with
      | zero => rfl
      | succ count => rw [withRows, List.take_succ_cons, List.take_succ_cons, withRows, ih]

theorem withRows_append (live : LiveOrders) (front back : List Event) :
    withRows ranks padding live (front ++ back) =
      withRows ranks padding live front ++
        withRows ranks padding (front.foldl LiveOrders.step live) back := by
  induction front generalizing live with
  | nil => rfl
  | cons event front ih => simp [withRows, ih]

/-- A message with its row stands behind the messages before it with theirs. -/
theorem prefix_withRows {events : List Event} {before : List (Event × List Int)}
    {entry : Event × List Int} (member : before ++ [entry] <+: withRows ranks padding live events) :
    before.map Prod.fst ++ [entry.1] <+: events ∧ entry.2 = referenceRow ranks padding
      ((before.map Prod.fst ++ [entry.1]).foldl LiveOrders.step live).orders := by
  have named : before.map Prod.fst ++ [entry.1] <+: events := by
    simpa using member.map Prod.fst
  have whole : before ++ [entry] =
      withRows ranks padding live (before.map Prod.fst ++ [entry.1]) := by
    calc before ++ [entry]
        = (withRows ranks padding live events).take (before ++ [entry]).length :=
          List.prefix_iff_eq_take.mp member
      _ = withRows ranks padding live
            (events.take (before.map Prod.fst ++ [entry.1]).length) := by
          rw [take_withRows]
          simp
      _ = withRows ranks padding live (before.map Prod.fst ++ [entry.1]) := by
          rw [← List.prefix_iff_eq_take.mp named]
  rw [withRows_append] at whole
  obtain ⟨_, same⟩ := List.append_singleton_inj.mp whole
  refine ⟨named, ?_⟩
  rw [List.foldl_append]
  exact congrArg Prod.snd same

/-- The entries of a message file and the rows of a published book beside it. -/
theorem entries_reference (rows : List (Row × LineEnd)) (ending : LineEnd)
    (fits : ∀ entry ∈ withRows ranks padding live (rows.map (·.1.event)), ∀ n ∈ entry.2,
      int64Range.1 ≤ n ∧ n ≤ int64Range.2) :
    entries (messageFile rows) (orderbookFile
        ((withRows ranks padding live (rows.map (·.1.event))).map Prod.snd) ending) =
      withRows ranks padding live (rows.map (·.1.event)) := by
  rw [entries, getLines_messageFile, getLines_orderbookFile]
  induction rows generalizing live with
  | nil => rfl
  | cons row rows ih =>
      simp only [List.map_cons, withRows, List.zip_cons_cons] at fits ⊢
      obtain ⟨first, rest⟩ := List.forall_mem_cons.mp fits
      rw [List.filterMap_cons_some (readEntry_row row.1 row.2 ending first), ih rest]

end Files

end AgainstLobster

open AgainstLobster LiveOrders

theorem LiveOrders.allPositive_foldl {start : LiveOrders} {events : List Event}
    (positive : AllPositive start.orders) (wellFormed : ∀ event ∈ events, event.WellFormed) :
    AllPositive (events.foldl step start).orders := by
  have each : ∀ id resting, (events.foldl step start).lookup id = some resting →
      0 < resting.remaining := by
    refine live_induction (P := fun _ resting => 0 < resting.remaining) ?_ ?_ ?_
    · exact fun id resting present =>
        positive (resting.toOrder id) (toOrder_mem_orders.mpr present)
    · exact fun event member adds => (wellFormed event member).size_pos adds
    · exact fun event _ _ resting _ left => sub_pos.mpr left
  exact fun order member => each order.id order.resting (mem_orders.mp member)

namespace AgainstLobster

/-- The test passes on a message file beside the rows of a published book. -/
def PassesReference (L : Type) [PriceLevels L] (orderCapacityHint rowCap ranks : Nat)
    (padding : Side → Price) (opening : LiveOrders) (rows : List (Row × LineEnd))
    (ending : LineEnd) : Prop :=
  ∃ count, run L orderCapacityHint rowCap (messageFile rows)
    (orderbookFile ((withRows ranks padding opening (rows.map (·.1.event))).map Prod.snd)
      ending) = .ok count

theorem passesReference_iff {L : Type} [PriceLevels L] {orderCapacityHint rowCap ranks : Nat}
    {padding : Side → Price} {opening : LiveOrders} {rows : List (Row × LineEnd)}
    {ending : LineEnd} (positive : AllPositive opening.orders)
    (wellFormed : ∀ row ∈ rows, row.1.event.WellFormed)
    (fits : ∀ entry ∈ withRows ranks padding opening (rows.map (·.1.event)), ∀ n ∈ entry.2,
      int64Range.1 ≤ n ∧ n ≤ int64Range.2) :
    PassesReference L orderCapacityHint rowCap ranks padding opening rows ending ↔
      rows ≠ [] ∧ 0 < rowCap ∧
      (∃ book : Book L, Book.replay orderCapacityHint ((rows.map (·.1.event)).take rowCap) =
        .ok book) ∧
      ∀ before event, before ++ [event] <+: (rows.map (·.1.event)).take rowCap →
        event.type ≠ 7 → ∀ book : Book L,
          Book.replay orderCapacityHint (before ++ [event]) = .ok book →
            TopShown ranks book.levels ((before ++ [event]).foldl step opening).orders := by
  have formed : ∀ event ∈ rows.map (·.1.event), event.WellFormed := by
    intro event member
    obtain ⟨row, row_member, rfl⟩ := List.mem_map.mp member
    exact wellFormed row row_member
  have some_row : 0 < ((rows.map (·.1.event)).take rowCap).length ↔ rows ≠ [] ∧ 0 < rowCap := by
    rw [List.length_take, List.length_map, ← List.length_pos_iff]
    omega
  simp only [PassesReference, run_eq_ok_iff, entries_reference rows ending fits, take_withRows]
  generalize rows.map (·.1.event) = events at formed some_row
  generalize read : events.take rowCap = compared at some_row
  have length_eq : (withRows ranks padding opening compared).length = compared.length := by
    rw [← List.length_map (f := Prod.fst), map_fst_withRows]
  have shown_iff : ∀ before event, before ++ [event] <+: compared → ∀ book : Book L,
      rowMatches book.levels (referenceRow ranks padding
          ((before ++ [event]).foldl step opening).orders) = true ↔
        TopShown ranks book.levels ((before ++ [event]).foldl step opening).orders := by
    intro before event member book
    refine rowMatches_referenceRow (allPositive_foldl positive fun other inside => ?_) _ _
    exact formed other (List.mem_of_mem_take (read ▸ member.subset inside))
  rw [length_eq, map_fst_withRows]
  constructor
  · rintro ⟨count, rfl, counted, returned, agrees⟩
    obtain ⟨some_message, some_turn⟩ := some_row.mp counted
    refine ⟨some_message, some_turn, returned, fun before event member not_halt book reached => ?_⟩
    have beside : withRows ranks padding opening before ++ [(event, referenceRow ranks padding
        ((before ++ [event]).foldl step opening).orders)] <+:
          withRows ranks padding opening compared := by
      obtain ⟨rest, rfl⟩ := member
      rw [withRows_append, withRows_append, List.foldl_append]
      exact List.prefix_append _ _
    obtain halt | same := agrees _ _ beside book (by simpa using reached)
    · exact absurd halt not_halt
    · exact (shown_iff before event member book).mp same
  · rintro ⟨some_message, some_turn, returned, shown⟩
    refine ⟨_, rfl, some_row.mpr ⟨some_message, some_turn⟩, returned,
      fun before entry member book reached => ?_⟩
    obtain ⟨named, columns⟩ := prefix_withRows member
    rw [List.map_append, List.map_cons, List.map_nil] at reached
    by_cases halt : entry.1.type = 7
    · exact .inl halt
    · refine .inr ?_
      rw [columns, shown_iff _ _ named]
      exact shown _ _ named halt book reached

end AgainstLobster

/-- Beside the rows of a published book the test passes exactly if the first levels of that
book are shown after every message that it compares. So it passes if nothing rested before
the first message and the live ids stay close together. -/
theorem lobsterTest_reference (v : Variant) (orderCapacityHint rowCap ranks : Nat)
    (padding : Side → Price) (opening : LiveOrders) (rows : List (Row × LineEnd))
    (ending : LineEnd) (positive : AllPositive opening.orders)
    (wellFormed : ∀ row ∈ rows, row.1.event.WellFormed)
    (fits : ∀ entry ∈ withRows ranks padding opening (rows.map (·.1.event)), ∀ n ∈ entry.2,
      int64Range.1 ≤ n ∧ n ≤ int64Range.2) :
    (PassesReference v.Levels orderCapacityHint rowCap ranks padding opening rows ending ↔
      rows ≠ [] ∧ 0 < rowCap ∧
      (∃ book, v.replay orderCapacityHint ((rows.map (·.1.event)).take rowCap) = .ok book) ∧
      ∀ before event, before ++ [event] <+: (rows.map (·.1.event)).take rowCap →
        event.type ≠ 7 → ∀ book, v.replay orderCapacityHint (before ++ [event]) = .ok book →
          TopShown ranks book.levels ((before ++ [event]).foldl step opening).orders) ∧
    (rows ≠ [] → 0 < rowCap → opening = ∅ → orderCapacityHint ≤ 2 ^ 32 →
      Event.Legal orderCapacityHint (rows.map (·.1.event)) →
      Event.Close orderCapacityHint (rows.map (·.1.event)) →
        PassesReference v.Levels orderCapacityHint rowCap ranks padding opening rows ending) := by
  refine ⟨passesReference_iff positive wellFormed fits, ?_⟩
  rintro some_message some_turn rfl hhint legal close
  have follows := Book.followsSettled_of_close (L := v.Levels) hhint legal close
  refine (passesReference_iff positive wellFormed fits).mpr ⟨some_message, some_turn, ?_, ?_⟩
  · obtain ⟨book, reached, _⟩ := follows _ (List.take_prefix rowCap _)
    exact ⟨book, reached⟩
  · intro before event member _ book reached side rank _ level there
    obtain ⟨book', reached', inv⟩ := follows _ (member.trans (List.take_prefix rowCap _))
    cases reached.symm.trans reached'
    have shown := inv.follows.shows.nth_eq side rank
    rw [List.getD_eq_getElem?_getD, LiveOrders.after] at shown
    rw [shown, there, Option.getD_some]

/-- Two ranks beside a new order, a halt and a partial execution. -/
theorem lobsterTest_reference_halt : PassesReference Variant.linear.Levels 8 250000 2
    (fun side => if side = .buy then -9999999999 else 9999999999) ∅
    [(plainRow ⟨1, 7, 10, 100, 1⟩ (by constructor <;> decide), .crlf),
      (plainRow ⟨7, 0, 0, -1, -1⟩ (by constructor <;> decide), .lf),
      (plainRow ⟨4, 7, 4, 100, 1⟩ (by constructor <;> decide), .lf)] .lf :=
  (lobsterTest_reference .linear 8 250000 2 _ ∅ _ .lf (by simp [AllPositive]) (by decide)
    (by decide +kernel)).2 (by simp) (by decide) rfl (by decide) (by decide) (by decide)

end OrderBook
