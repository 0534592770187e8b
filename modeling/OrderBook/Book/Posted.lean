import OrderBook.Book.Conservation
import OrderBook.Foundation.Covering
import OrderBook.Levels.Growth

/-!
# A book is made of what was posted

Every record that a book stores stems from a new order message of its own, with the same
id, side and price and at most the size. Nothing is stored twice or made up, even when
the index has lost track of a record or the stream reuses ids. So a book never shows a
price that was not posted or more than was posted there, and the numbers that it
computes stay between zero and the sum of all posted sizes.
-/

namespace OrderBook

open PriceLevels
open scoped List

/-- The orders that the new order messages of a stream rest, in order. -/
def Event.posted (events : List Event) : List Order :=
  (events.filter fun event => event.type = 1).map Event.order

/-- A record with the id, side and price of an order, and at most what the order had. -/
structure Order.Remains (record order : Order) : Prop where
  id_eq : record.id = order.id
  side_eq : record.side = order.side
  price_eq : record.price = order.price
  remaining_le : record.remaining ≤ order.remaining

/-- No observer of the container shows more than the orders amount to. -/
structure Within {L : Type} [PriceLevels L] (l : L) (orders : List Order) : Prop where
  quantity_le : ∀ side price, quantityAt l side price ≤ volume orders side price
  posted : ∀ side price, Present l side price →
    ∃ order ∈ orders, order.side = side ∧ order.price = price
  depth_le : ∀ side, depth l side ≤ (levelsOf orders side).length

namespace Event

variable {events before : List Event} {event : Event}

theorem posted_snoc (events : List Event) (event : Event) :
    posted (events ++ [event]) = posted events ++ if event.type = 1 then [event.order] else [] := by
  by_cases adds : event.type = 1 <;> simp [posted, adds]

theorem posted_snoc_of_ne (not_add : event.type ≠ 1) :
    posted (events ++ [event]) = posted events := by
  rw [posted_snoc, if_neg not_add, List.append_nil]

theorem posted_pos (wellFormed : ∀ event ∈ events, event.WellFormed) :
    AllPositive (posted events) := by
  intro order member
  obtain ⟨event, kept, rfl⟩ := List.mem_map.mp member
  obtain ⟨streamed, adds⟩ := List.mem_filter.mp kept
  exact (wellFormed event streamed).size_pos (by simpa using adds)

/-- The sum of the posted sizes grows along a stream. -/
theorem sum_posted_mono (wellFormed : ∀ event ∈ events, event.WellFormed)
    (member : before <+: events) :
    ((posted before).map Order.remaining).sum ≤ ((posted events).map Order.remaining).sum := by
  obtain ⟨rest, rfl⟩ := member
  have positive := posted_pos fun event streamed =>
    wellFormed event (List.mem_append_right _ streamed)
  have rest_nonneg : 0 ≤ ((posted rest).map Order.remaining).sum := by
    apply List.sum_nonneg
    intro remaining listed
    obtain ⟨order, posted, rfl⟩ := List.mem_map.mp listed
    exact (positive order posted).le
  have split : posted (before ++ rest) = posted before ++ posted rest := by simp [posted]
  rw [split, List.map_append, List.sum_append]
  exact le_add_of_nonneg_right rest_nonneg

end Event

theorem volume_eq_sum (orders : List Order) (side : Side) (price : Price) :
    volume orders side price =
      (orders.map fun order => if order.on side price then order.remaining else 0).sum := by
  induction orders with
  | nil => rfl
  | cons order orders ih => rw [volume_cons, ih, List.map_cons, List.sum_cons]

namespace Order.Remains

variable {record order : Order} {records posted : List Order}

theorem lower (remains : record.Remains order) {remaining : Quantity}
    (le : remaining ≤ record.remaining) : Remains { record with remaining } order :=
  ⟨remains.id_eq, remains.side_eq, remains.price_eq, le.trans remains.remaining_le⟩

theorem on_eq (remains : record.Remains order) (side : Side) (price : Price) :
    record.on side price = order.on side price := by
  rw [Order.on, Order.on, remains.side_eq, remains.price_eq]

theorem volume_le (covered : Covered Remains records posted) (positive : AllPositive posted)
    (side : Side) (price : Price) : volume records side price ≤ volume posted side price := by
  rw [volume_eq_sum, volume_eq_sum]
  apply covered.sum_le
  · intro record order remains
    rw [remains.on_eq]
    split
    · exact remains.remaining_le
    · exact le_rfl
  · intro order member
    split
    · exact (positive order member).le
    · exact le_rfl

end Order.Remains

/-- What rests on one level is part of all that rests. -/
theorem AllPositive.volume_le_sum {orders : List Order} (positive : AllPositive orders)
    (side : Side) (price : Price) :
    volume orders side price ≤ (orders.map Order.remaining).sum := by
  rw [volume_eq_sum]
  apply List.sum_le_sum
  intro order member
  split
  · exact le_rfl
  · exact (positive order member).le

namespace Book

variable {L : Type} [PriceLevels L]

/-- The results of the signed subtractions of `cancel`, in the order in which it makes
them. A level that is missing counts as zero. -/
def cancelArithmetic (book : Book L) (id : OrderId) : Except Fault (List Quantity) := do
  match ← book.index.find id with
  | none => return []
  | some i =>
      let order ← book.index.deref i
      return [quantityAt book.levels order.side order.price - order.remaining]

/-- The results of the signed subtractions of `reduce`. -/
def reduceArithmetic (book : Book L) (id : OrderId) (delta : Quantity) :
    Except Fault (List Quantity) := do
  match ← book.index.find id with
  | none => return []
  | some i =>
      let order ← book.index.deref i
      let applied := if delta < order.remaining then delta else order.remaining
      return [quantityAt book.levels order.side order.price - applied,
        order.remaining - applied]

/-- The results of the signed additions and subtractions of `apply`. -/
def arithmetic (book : Book L) (event : Event) : Except Fault (List Quantity) :=
  match event.type with
  | 1 => return [quantityAt book.levels event.side event.price + event.size]
  | 2 => book.reduceArithmetic event.id event.size
  | 3 => book.cancelArithmetic event.id
  | 4 => book.reduceArithmetic event.id event.size
  | _ => return []

/-- Every record stems from a new order of its own, and the levels are those of the records. -/
structure Posted (before : List Event) (book : Book L) [LawfulLevels L] : Prop where
  conserves : Conserves book
  covered : Covered Order.Remains book.index.records (Event.posted before)
  positive : AllPositive (Event.posted before)

section Arithmetic

variable {book : Book L} {event : Event}

theorem arithmetic_of_add (adds : event.type = 1) : book.arithmetic event =
    .ok [quantityAt book.levels event.side event.price + event.size] := by
  simp only [arithmetic, adds]
  rfl

theorem arithmetic_of_cancel (cancels : event.type = 3) :
    book.arithmetic event = book.cancelArithmetic event.id := by
  simp only [arithmetic, cancels]

theorem arithmetic_of_reduces (reduces : event.Reduces) :
    book.arithmetic event = book.reduceArithmetic event.id event.size := by
  obtain two | four := reduces
  · simp only [arithmetic, two]
  · simp only [arithmetic, four]

theorem arithmetic_of_ignored (ignored : event.Ignored) : book.arithmetic event = .ok [] := by
  obtain ⟨not_one, not_three, not_reduces⟩ := ignored
  simp only [arithmetic]
  split
  · exact absurd ‹_› not_one
  · exact absurd (.inl ‹_›) not_reduces
  · exact absurd ‹_› not_three
  · exact absurd (.inr ‹_›) not_reduces
  · rfl

variable {id : OrderId} {i : Nat} {order : Order}

theorem cancelArithmetic_of_missing (missing : book.index.find id = .ok none) :
    book.cancelArithmetic id = .ok [] := by
  rw [cancelArithmetic, missing]
  rfl

theorem cancelArithmetic_of_holds (holds : book.index.Holds id i order) :
    book.cancelArithmetic id =
      .ok [quantityAt book.levels order.side order.price - order.remaining] := by
  simp only [cancelArithmetic, holds.find, holds.deref, Run.ok_bind]
  rfl

theorem reduceArithmetic_of_missing (missing : book.index.find id = .ok none)
    (delta : Quantity) : book.reduceArithmetic id delta = .ok [] := by
  rw [reduceArithmetic, missing]
  rfl

theorem reduceArithmetic_of_holds (holds : book.index.Holds id i order) (delta : Quantity) :
    book.reduceArithmetic id delta =
      let applied := if delta < order.remaining then delta else order.remaining
      .ok [quantityAt book.levels order.side order.price - applied, order.remaining - applied] := by
  simp only [reduceArithmetic, holds.find, holds.deref, Run.ok_bind]
  rfl

variable [LawfulLevels L] {book' : Book L}

/-- The sum that is listed is what `add` leaves at the price. -/
theorem add_stores (valid : LevelView.Valid book.levels) (adds : event.type = 1)
    (applied : book.apply event = .ok book') :
    book.arithmetic event = .ok [quantityAt book'.levels event.side event.price] := by
  obtain ⟨_, levels⟩ | ⟨not_add, _⟩ := levels_of_apply applied
  · rw [arithmetic_of_add adds, levels, LawfulLevels.quantityAt_eq valid,
      LawfulLevels.quantityAt_eq (LawfulLevels.valid_levelAdd valid _ _ _),
      LawfulLevels.contents_levelAdd valid, Ladder.levelAdd, Ladder.set_self, Option.getD_some]
  · exact absurd adds not_add

/-- The difference that is listed for a level is what is left of it, if anything is. -/
theorem quantityAt_levelSub (valid : LevelView.Valid book.levels) {side : Side} {price : Price}
    (present : Present book.levels side price) (amount : Quantity) :
    quantityAt (levelSub book.levels side price amount) side price =
      max (quantityAt book.levels side price - amount) 0 := by
  obtain ⟨quantity, held⟩ := Option.isSome_iff_exists.mp ((present_iff valid).mp present)
  rw [LawfulLevels.quantityAt_eq valid,
    LawfulLevels.quantityAt_eq (LawfulLevels.valid_levelSub valid _ _ _),
    LawfulLevels.contents_levelSub valid, Ladder.levelSub_of_some held, Ladder.set_self, held,
    Option.getD_some]
  split
  case isTrue spent => exact (max_eq_right spent).symm
  case isFalse left => exact (max_eq_left (not_le.mp left).le).symm

theorem cancel_stores (valid : LevelView.Valid book.levels) (holds : book.index.Holds id i order)
    (present : Present book.levels order.side order.price)
    (cancelled : book.cancel id = .ok book') : ∃ level, book.cancelArithmetic id = .ok [level] ∧
      quantityAt book'.levels order.side order.price = max level 0 := by
  refine ⟨_, cancelArithmetic_of_holds holds, ?_⟩
  simp only [cancel, holds.find, holds.deref, Run.ok_bind] at cancelled
  obtain ⟨index, _, result⟩ := Run.of_bind_eq_ok cancelled
  cases result
  exact quantityAt_levelSub valid present _

/-- The second difference that is listed is stored in the record, which is erased at once
if it is not positive. -/
theorem reduce_stores (valid : LevelView.Valid book.levels) (holds : book.index.Holds id i order)
    (present : Present book.levels order.side order.price) {delta : Quantity}
    (reduced : book.reduce id delta = .ok book') :
    ∃ level left, book.reduceArithmetic id delta = .ok [level, left] ∧
      quantityAt book'.levels order.side order.price = max level 0 ∧
      if left ≤ 0 then (book.index.setRemaining i left).erase id = .ok book'.index
      else book'.index = book.index.setRemaining i left := by
  refine ⟨_, _, reduceArithmetic_of_holds holds delta, ?_⟩
  simp only [reduce, holds.find, holds.deref, Run.ok_bind] at reduced
  generalize (if delta < order.remaining then delta else order.remaining) = applied at reduced ⊢
  rw [(holds.setRemaining (order.remaining - applied)).deref, Run.ok_bind] at reduced
  split at reduced
  case isTrue spent =>
    obtain ⟨index, erased, result⟩ := Run.of_bind_eq_ok reduced
    cases result
    rw [if_pos spent]
    exact ⟨quantityAt_levelSub valid present _, erased⟩
  case isFalse left =>
    cases reduced
    rw [if_neg left]
    exact ⟨quantityAt_levelSub valid present _, rfl⟩

end Arithmetic

variable [LawfulLevels L] {book book' : Book L} {event : Event} {before : List Event}

namespace Posted

private theorem not_add_of_touches (touches : event.type = 3 ∨ event.Reduces) :
    event.type ≠ 1 := by
  obtain cancels | reduces := touches
  · omega
  · exact reduces.type_ne.1

theorem step (posted : Posted before book) (outcome : Outcome book event book')
    (wellFormed : event.WellFormed) : Posted (before ++ [event]) book' := by
  refine ⟨posted.conserves.step outcome wellFormed, ?_, ?_⟩
  · cases outcome with
    | ignored ignored =>
        rw [Event.posted_snoc_of_ne ignored.1]
        exact posted.covered
    | unknown touches _ =>
        rw [Event.posted_snoc_of_ne (not_add_of_touches touches)]
        exact posted.covered
    | added adds stores =>
        rw [Event.posted_snoc, if_pos adds]
        exact (posted.covered.snoc ⟨rfl, rfl, rfl, le_rfl⟩).perm
          (stores.records_of_busy wellFormed.id_ne).symm
    | @reduced i order reduces holds left =>
        obtain ⟨rest, held, written⟩ := holds.exists_rest (order.remaining - event.size)
        have taken : order.remaining - event.size ≤ order.remaining :=
          sub_le_self _ (wellFormed.size_nonneg reduces)
        rw [Event.posted_snoc_of_ne reduces.type_ne.1]
        exact ((posted.covered.perm held).replace fun _ remains => remains.lower taken).perm
          written.symm
    | removed exhausts _ removes =>
        rw [Event.posted_snoc_of_ne (not_add_of_touches (exhausts.imp_right And.left))]
        exact (posted.covered.perm removes.records.symm).tail
  · rw [Event.posted_snoc]
    intro order member
    split at member
    case isTrue adds =>
      obtain member | rfl := List.mem_append.mp member |>.imp_right List.mem_singleton.mp
      · exact posted.positive order member
      · exact wellFormed.size_pos adds
    case isFalse =>
      exact posted.positive order (by simpa using member)

theorem quantity_le (posted : Posted before book) (side : Side) (price : Price) :
    quantityAt book.levels side price ≤ volume (Event.posted before) side price := by
  rw [posted.conserves.conserved.quantity_eq]
  exact Order.Remains.volume_le posted.covered posted.positive side price

theorem within (posted : Posted before book) : Within book.levels (Event.posted before) := by
  have at_posted : ∀ side price, Present book.levels side price →
      ∃ order ∈ Event.posted before, order.side = side ∧ order.price = price := by
    intro side price present
    obtain ⟨record, stored, rfl, rfl⟩ := (posted.conserves.conserved.present_iff _ _).mp present
    obtain ⟨order, member, remains⟩ := posted.covered.exists_match stored
    exact ⟨order, member, remains.side_eq.symm, remains.price_eq.symm⟩
  refine ⟨posted.quantity_le, at_posted, fun side => ?_⟩
  have listed : depth book.levels side ≤
      ((levelsOf (Event.posted before) side).map Level.price).length := by
    apply depth_le_of_covered posted.conserves.valid
    intro price present
    obtain ⟨order, member, rfl, rfl⟩ :=
      at_posted _ _ ((present_iff posted.conserves.valid).mpr present)
    have some_level := ladderOf_isSome.mpr ⟨order, member, rfl, rfl⟩
    obtain ⟨quantity, total⟩ := Option.isSome_iff_exists.mp some_level
    exact List.mem_map.mpr ⟨⟨order.price, quantity⟩, mem_levelsOf.mpr total, rfl⟩
  rwa [List.length_map] at listed

theorem quantity_le_sum (posted : Posted before book) (side : Side) (price : Price) :
    quantityAt book.levels side price ≤ ((Event.posted before).map Order.remaining).sum :=
  (posted.quantity_le side price).trans (posted.positive.volume_le_sum side price)

theorem quantity_nonneg (posted : Posted before book) (side : Side) (price : Price) :
    0 ≤ quantityAt book.levels side price := by
  rw [posted.conserves.conserved.quantity_eq]
  exact posted.conserves.positive.volume_nonneg side price

/-- A record has no more than its level, and so no more than all that was posted. -/
theorem record_le (posted : Posted before book) {order : Order}
    (stored : order ∈ book.index.records) : 0 < order.remaining ∧
      order.remaining ≤ quantityAt book.levels order.side order.price ∧
      order.remaining ≤ ((Event.posted before).map Order.remaining).sum := by
  obtain ⟨quantity, present, le⟩ := posted.conserves.keeps.exists_level stored
  have here : quantityAt book.levels order.side order.price = quantity := by
    rw [LawfulLevels.quantityAt_eq posted.conserves.valid, present]
    rfl
  rw [← here] at le
  exact ⟨posted.conserves.positive order stored, le, le.trans (posted.quantity_le_sum _ _)⟩

/-- What is left of a quantity when a part of it has been taken. -/
private theorem left_within {quantity taken total : Quantity} (nonneg : 0 ≤ taken)
    (le : taken ≤ quantity) (within : quantity ≤ total) :
    0 ≤ quantity - taken ∧ quantity - taken ≤ total :=
  ⟨sub_nonneg.mpr le, (sub_le_self quantity nonneg).trans within⟩

theorem arithmetic_within (posted : Posted before book) (sound : book.index.Sound)
    (wellFormed : event.WellFormed) : ∃ values, book.arithmetic event = .ok values ∧
      ∀ value ∈ values, 0 ≤ value ∧
        value ≤ ((Event.posted (before ++ [event])).map Order.remaining).sum := by
  obtain adds | cancels | reduces | ignored := event.kinds
  · refine ⟨_, arithmetic_of_add adds, ?_⟩
    rw [Event.posted_snoc, if_pos adds, List.map_append, List.sum_append]
    simp only [List.mem_singleton, forall_eq, List.map_cons, List.map_nil, List.sum_singleton]
    have size_pos : 0 < event.size := wellFormed.size_pos adds
    exact ⟨add_nonneg (posted.quantity_nonneg _ _) size_pos.le,
      add_le_add_left (posted.quantity_le_sum event.side event.price) event.size⟩
  · have not_add : event.type ≠ 1 := by omega
    rw [Event.posted_snoc_of_ne not_add, arithmetic_of_cancel cancels]
    obtain missing | ⟨i, order, holds⟩ := sound.roomy.find_cases event.id
    · exact ⟨[], cancelArithmetic_of_missing missing, by simp⟩
    · obtain ⟨pos, le_level, _⟩ := posted.record_le holds.mem_records
      refine ⟨_, cancelArithmetic_of_holds holds, ?_⟩
      simp only [List.mem_singleton, forall_eq]
      exact left_within pos.le le_level (posted.quantity_le_sum _ _)
  · rw [Event.posted_snoc_of_ne reduces.type_ne.1, arithmetic_of_reduces reduces]
    obtain missing | ⟨i, order, holds⟩ := sound.roomy.find_cases event.id
    · exact ⟨[], reduceArithmetic_of_missing missing _, by simp⟩
    · obtain ⟨pos, le_level, le_sum⟩ := posted.record_le holds.mem_records
      refine ⟨_, reduceArithmetic_of_holds holds event.size, ?_⟩
      generalize taken : (if event.size < order.remaining then event.size else order.remaining) =
        applied
      have bounds : 0 ≤ applied ∧ applied ≤ order.remaining := by
        rw [← taken]
        split
        case isTrue left => exact ⟨wellFormed.size_nonneg reduces, left.le⟩
        case isFalse => exact ⟨pos.le, le_rfl⟩
      simp only [List.forall_mem_cons, List.not_mem_nil, false_imp_iff, implies_true, and_true]
      exact ⟨left_within bounds.1 (bounds.2.trans le_level) (posted.quantity_le_sum _ _),
        left_within bounds.1 bounds.2 le_sum⟩
  · exact ⟨[], arithmetic_of_ignored ignored, by simp⟩

end Posted

theorem posted_of_replay {hint : Nat} {events : List Event} (hhint : hint ≤ 2 ^ 62)
    (wellFormed : ∀ event ∈ events, event.WellFormed)
    (asserted : (replay hint events : Except Fault (Book L)) ≠ .error .assertion) :
    ∀ before, before <+: events → ∃ book : Book L, replay hint before = .ok book ∧
      book.index.Sound ∧ Posted before book := by
  refine replay_invariant hhint asserted (fun book _ levels records => ?_) ?_
  · exact ⟨.of_empty levels records, records ▸ .nil _, by simp [AllPositive, Event.posted]⟩
  · intro before event book book' member _ posted outcome
    exact posted.step outcome (wellFormed event (member.subset (by simp)))

end Book

/-- Every record of a book stems from a new order message of its own, and no observer of
the book shows more than what the new orders posted. -/
theorem book_within_posted (v : Variant) (hint : Nat) (hhint : hint ≤ 2 ^ 62)
    (events : List Event) (wellFormed : ∀ event ∈ events, event.WellFormed)
    (asserted : v.replay hint events ≠ .error .assertion) :
    ∀ before, before <+: events → ∃ book, v.replay hint before = .ok book ∧
      Covered Order.Remains book.index.records (Event.posted before) ∧
      Within book.levels (Event.posted before) := by
  intro before member
  obtain ⟨book, reached, _, posted⟩ := Book.posted_of_replay hhint wellFormed asserted before member
  exact ⟨book, reached, posted.covered, posted.within⟩

/-- An id used twice at one price, and a deletion that finds the older order. -/
theorem book_within_posted_reused : ∃ book,
    Variant.map.replay 4
      [⟨1, 7, 10, 100, 1⟩, ⟨1, 7, 3, 100, 1⟩, ⟨3, 7, 0, 0, 0⟩, ⟨1, 8, 2, 101, -1⟩] = .ok book ∧
    Covered Order.Remains book.index.records (Event.posted
      [⟨1, 7, 10, 100, 1⟩, ⟨1, 7, 3, 100, 1⟩, ⟨3, 7, 0, 0, 0⟩, ⟨1, 8, 2, 101, -1⟩]) ∧
    Within book.levels (Event.posted
      [⟨1, 7, 10, 100, 1⟩, ⟨1, 7, 3, 100, 1⟩, ⟨3, 7, 0, 0, 0⟩, ⟨1, 8, 2, 101, -1⟩]) :=
  book_within_posted .map 4 (by decide) _ (by decide) (by decide) _ List.prefix_rfl

/-- The additions and subtractions of every message stay between zero and the sum of all
posted sizes. So they cannot leave the 64 bit integers while that sum does not. -/
theorem arithmetic_bounded (v : Variant) (hint : Nat) (hhint : hint ≤ 2 ^ 62)
    (events : List Event) (wellFormed : ∀ event ∈ events, event.WellFormed)
    (asserted : v.replay hint events ≠ .error .assertion) :
    ∀ before event, before ++ [event] <+: events → ∃ book values,
      v.replay hint before = .ok book ∧ book.arithmetic event = .ok values ∧
      ∀ value ∈ values, 0 ≤ value ∧
        value ≤ ((Event.posted events).map Order.remaining).sum := by
  intro before event member
  obtain ⟨book, reached, sound, posted⟩ := Book.posted_of_replay hhint wellFormed asserted before
    ((List.prefix_append before [event]).trans member)
  have usable := wellFormed event (member.subset (by simp))
  obtain ⟨values, computed, within⟩ := posted.arithmetic_within sound usable
  refine ⟨book, values, reached, computed, fun value listed => ?_⟩
  obtain ⟨nonneg, le⟩ := within value listed
  exact ⟨nonneg, le.trans (Event.sum_posted_mono wellFormed member)⟩

/-- The last message of a stream executes more than the order it names has left. -/
theorem arithmetic_bounded_over : ∃ book values,
    Variant.sortedVector.replay 4 [⟨1, 7, 10, 100, 1⟩, ⟨1, 8, 3, 100, 1⟩] = .ok book ∧
    book.arithmetic ⟨4, 7, 99, 100, 1⟩ = .ok values ∧ ∀ value ∈ values, 0 ≤ value ∧
      value ≤ ((Event.posted
        [⟨1, 7, 10, 100, 1⟩, ⟨1, 8, 3, 100, 1⟩, ⟨4, 7, 99, 100, 1⟩]).map Order.remaining).sum :=
  arithmetic_bounded .sortedVector 4 (by decide)
    [⟨1, 7, 10, 100, 1⟩, ⟨1, 8, 3, 100, 1⟩, ⟨4, 7, 99, 100, 1⟩] (by decide) (by decide) _ _
    List.prefix_rfl

end OrderBook
