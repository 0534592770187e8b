import OrderBook.Book.Posted
import OrderBook.Book.Reconstruction

/-!
# The ledger of a book

A message that reduces or removes an order takes a part of it, its fill. The fill is what the
code subtracts from the level, so at every side and price the quantity that a book shows is
what has been posted there less what has been filled there, over any stream and whatever the
index has lost.

The reference has a ledger of the same form. So the error of a book at a price is exactly
what the reference has filled there more than the book.
-/

namespace OrderBook

open PriceLevels
open scoped List

namespace Book

variable {L : Type}

/-- The part of the found order that `cancel` takes. -/
def cancelFill (book : Book L) (id : OrderId) : Except Fault (List Order) := do
  match ← book.index.find id with
  | none => return []
  | some i =>
      let order ← book.index.deref i
      return [order]

/-- The part of the found order that `reduce` takes. -/
def reduceFill (book : Book L) (id : OrderId) (delta : Quantity) : Except Fault (List Order) := do
  match ← book.index.find id with
  | none => return []
  | some i =>
      let order ← book.index.deref i
      let applied := if delta < order.remaining then delta else order.remaining
      return [{ order with remaining := applied }]

/-- The part of an order that `apply` takes off its level. -/
def fill (book : Book L) (event : Event) : Except Fault (List Order) :=
  match event.type with
  | 2 => book.reduceFill event.id event.size
  | 3 => book.cancelFill event.id
  | 4 => book.reduceFill event.id event.size
  | _ => return []

end Book

/-- A book with the fills so far. -/
structure Ledger (L : Type) where
  book : Book L
  fills : List Order

namespace Ledger

variable {L : Type} [PriceLevels L]

def step (ledger : Ledger L) (event : Event) : Except Fault (Ledger L) := do
  let taken ← ledger.book.fill event
  let book ← ledger.book.apply event
  return ⟨book, ledger.fills ++ taken⟩

def new (orderCapacityHint : Nat) : Except Fault (Ledger L) := do
  let book ← Book.new orderCapacityHint
  return ⟨book, []⟩

def replay (orderCapacityHint : Nat) (events : List Event) : Except Fault (Ledger L) :=
  new orderCapacityHint >>= events.foldlM step

end Ledger

namespace LiveOrders

/-- The part of a live order that a message takes. -/
def fill (live : LiveOrders) (event : Event) : List Order :=
  match live.lookup event.id with
  | none => []
  | some resting =>
      if event.type = 3 then [resting.toOrder event.id]
      else if event.Reduces then
        [{ resting.toOrder event.id with remaining := min event.size resting.remaining }]
      else []

def fillsFrom : LiveOrders → List Event → List Order
  | _, [] => []
  | live, event :: events => live.fill event ++ fillsFrom (live.step event) events

/-- The fills of a stream, in order. -/
def fills (events : List Event) : List Order := fillsFrom ∅ events

end LiveOrders

theorem Event.Legal.wellFormed {hint : Nat} {events : List Event}
    (legal : Event.Legal hint events) : ∀ event ∈ events, event.WellFormed := by
  intro event member
  obtain ⟨front, back, rfl⟩ := List.append_of_mem member
  have here : front ++ [event] <+: front ++ event :: back := by simp
  exact (legal.at here).1

/-- The order that a message posts, if it is a new order. -/
def Event.posts (event : Event) : List Order := if event.type = 1 then [event.order] else []

theorem Event.posted_append_posts (events : List Event) (event : Event) :
    posted (events ++ [event]) = posted events ++ event.posts := posted_snoc events event

theorem Event.posts_of_ne {event : Event} (not_add : event.type ≠ 1) : event.posts = [] :=
  if_neg not_add

@[simp] theorem volume_nil (side : Side) (price : Price) : volume [] side price = 0 := rfl

theorem volume_append (orders more : List Order) (side : Side) (price : Price) :
    volume (orders ++ more) side price = volume orders side price + volume more side price := by
  simp [volume]

/-- An order on top of a list adds its own level. -/
theorem volume_cons_eq (order : Order) (rest : List Order) (side : Side) (price : Price) :
    volume (order :: rest) side price = volume rest side price + volume [order] side price := by
  rw [volume_cons, volume_cons order [], volume_nil, add_zero, add_comm]

/-- Two parts of an order make up its level. -/
theorem volume_parts (order : Order) (taken : Quantity) (side : Side) (price : Price) :
    volume [{ order with remaining := order.remaining - taken }] side price +
        volume [{ order with remaining := taken }] side price =
      volume [order] side price := by
  have same : ∀ remaining, Order.on side price { order with remaining } = order.on side price :=
    fun _ => rfl
  simp only [volume_cons, volume_nil, add_zero, same]
  by_cases here : order.on side price = true
  · simp only [here, if_true, sub_add_cancel]
  · simp [here]

namespace LiveOrders

variable {live : LiveOrders} {event : Event} {resting : Resting}

theorem fillsFrom_snoc (live : LiveOrders) (events : List Event) (event : Event) :
    fillsFrom live (events ++ [event]) =
      fillsFrom live events ++ (events.foldl step live).fill event := by
  induction events generalizing live with
  | nil => simp [fillsFrom]
  | cons first events ih => simp [fillsFrom, ih]

theorem fills_snoc (events : List Event) (event : Event) :
    fills (events ++ [event]) = fills events ++ (after events).fill event :=
  fillsFrom_snoc ∅ events event

theorem fill_of_absent (absent : live.lookup event.id = none) : live.fill event = [] := by
  simp [fill, absent]

theorem fill_of_cancel (present : live.lookup event.id = some resting) (cancels : event.type = 3) :
    live.fill event = [resting.toOrder event.id] := by
  simp [fill, present, cancels]

theorem fill_of_reduces (present : live.lookup event.id = some resting)
    (reduces : event.Reduces) : live.fill event =
      [{ resting.toOrder event.id with remaining := min event.size resting.remaining }] := by
  simp [fill, present, reduces, reduces.type_ne.2]

theorem fill_of_ne (not_cancel : event.type ≠ 3) (not_reduces : ¬ event.Reduces) :
    live.fill event = [] := by
  simp only [fill]
  split
  · rfl
  · simp [not_cancel, not_reduces]

/-- One message on the reference: what it posts comes in, what it fills goes out. -/
theorem volume_step (fresh : event.type = 1 → live.lookup event.id = none) (side : Side)
    (price : Price) :
    volume (live.step event).orders side price + volume (live.fill event) side price =
      volume live.orders side price + volume event.posts side price := by
  obtain adds | cancels | reduces | ignored := event.kinds
  · rw [fill_of_absent (fresh adds), step_of_add adds, orders_put_of_fresh (fresh adds),
      Event.posts, if_pos adds]
    change volume (event.order :: live.orders) side price + 0 = _
    rw [add_zero, volume_cons_eq]
  · have not_add : event.type ≠ 1 := by omega
    rw [Event.posts_of_ne not_add]
    cases present : live.lookup event.id with
    | none => rw [fill_of_absent present, step_of_absent present not_add]
    | some resting =>
        rw [fill_of_cancel present cancels, step_of_cancel cancels,
          ← volume_perm (orders_drop present), volume_cons_eq _ (live.drop event.id).orders,
          volume_nil, add_zero]
  · rw [Event.posts_of_ne reduces.type_ne.1]
    cases present : live.lookup event.id with
    | none => rw [fill_of_absent present, step_of_absent present reduces.type_ne.1]
    | some resting =>
        rw [fill_of_reduces present reduces, step_of_reduces reduces, volume_nil, add_zero]
        obtain left | spent := lt_or_ge event.size resting.remaining
        · have levels := volume_perm (orders_update present
            { resting with remaining := resting.remaining - event.size }) side price
          rw [volume_cons_eq, volume_cons_eq (Resting.toOrder _ _) live.orders] at levels
          rw [reduce_of_lt present left, min_eq_left left.le]
          have parts := volume_parts (resting.toOrder event.id) event.size side price
          simp only [Resting.toOrder] at levels parts ⊢
          linarith
        · rw [reduce_of_le present spent, min_eq_right spent,
            ← volume_perm (orders_drop present), volume_cons_eq _ (live.drop event.id).orders]
          rfl
  · rw [step_of_ignored ignored, fill_of_ne ignored.2.1 ignored.2.2,
      Event.posts_of_ne ignored.1]

/-- The ledger of the reference: the live volume is what was posted less what was filled. -/
theorem volume_after {hint : Nat} {events : List Event} (legal : Event.Legal hint events)
    (side : Side) (price : Price) : ∀ before, before <+: events →
      volume (after before).orders side price + volume (fills before) side price =
        volume (Event.posted before) side price := by
  apply Run.prefix_induction
  · rfl
  · intro before event member earlier
    have one := volume_step (legal.at member).2.1 side price
    rw [after_snoc, fills_snoc, Event.posted_append_posts, volume_append, volume_append]
    linarith

end LiveOrders

namespace Book

variable {L : Type} {book book' : Book L} {event : Event} {i : Nat} {order : Order}

theorem fill_of_reduces (reduces : event.Reduces) :
    book.fill event = book.reduceFill event.id event.size := by
  obtain two | four := reduces
  · simp only [fill, two]
  · simp only [fill, four]

theorem fill_of_cancel (cancels : event.type = 3) : book.fill event = book.cancelFill event.id := by
  simp only [fill, cancels]

theorem fill_of_ne (not_cancel : event.type ≠ 3) (not_reduces : ¬ event.Reduces) :
    book.fill event = .ok [] := by
  simp only [fill]
  split
  · exact absurd (.inl ‹_›) not_reduces
  · exact absurd ‹_› not_cancel
  · exact absurd (.inr ‹_›) not_reduces
  · rfl

theorem fill_of_missing (missing : book.index.find event.id = .ok none) :
    book.fill event = .ok [] := by
  by_cases cancels : event.type = 3
  · rw [fill_of_cancel cancels, cancelFill, missing]
    rfl
  by_cases reduces : event.Reduces
  · rw [fill_of_reduces reduces, reduceFill, missing]
    rfl
  · exact fill_of_ne cancels reduces

theorem fill_of_left (reduces : event.Reduces) (holds : book.index.Holds event.id i order)
    (left : event.size < order.remaining) :
    book.fill event = .ok [{ order with remaining := event.size }] := by
  rw [fill_of_reduces reduces]
  simp only [reduceFill, holds.find, holds.deref, Run.ok_bind, left, if_true]
  rfl

theorem fill_of_exhausts (exhausts : event.Exhausts order.remaining)
    (holds : book.index.Holds event.id i order) : book.fill event = .ok [order] := by
  obtain cancels | ⟨reduces, spent⟩ := exhausts
  · rw [fill_of_cancel cancels]
    simp only [cancelFill, holds.find, holds.deref, Run.ok_bind]
    rfl
  · rw [fill_of_reduces reduces]
    simp only [reduceFill, holds.find, holds.deref, Run.ok_bind, not_lt.mpr spent, if_false]
    rfl

/-- One message on the records: what it posts comes in, what it fills goes out. -/
theorem Outcome.volume_eq [PriceLevels L] (outcome : Outcome book event book')
    (id_ne : event.id ≠ OrderIndex.kEmpty) : ∃ taken, book.fill event = .ok taken ∧
      ∀ side price, volume book'.index.records side price + volume taken side price =
        volume book.index.records side price + volume event.posts side price := by
  cases outcome with
  | ignored ignored =>
      refine ⟨[], fill_of_ne ignored.2.1 ignored.2.2, fun side price => ?_⟩
      rw [Event.posts_of_ne ignored.1]
  | unknown touches missing =>
      refine ⟨[], fill_of_missing missing, fun side price => ?_⟩
      rw [Event.posts_of_ne]
      obtain cancels | reduces := touches
      · omega
      · exact reduces.type_ne.1
  | added adds stores =>
      have not_reduces : ¬ event.Reduces := fun reduces => reduces.type_ne.1 adds
      refine ⟨[], fill_of_ne (by omega) not_reduces, fun side price => ?_⟩
      rw [volume_perm (stores.records_of_busy id_ne), volume_cons_eq, volume_nil, add_zero,
        Event.posts, if_pos adds]
  | @reduced i order reduces holds left =>
      refine ⟨_, fill_of_left reduces holds left, fun side price => ?_⟩
      obtain ⟨rest, held, written⟩ := holds.exists_rest (order.remaining - event.size)
      rw [Event.posts_of_ne reduces.type_ne.1, volume_perm held, volume_perm written,
        volume_cons_eq, volume_cons_eq order rest, volume_nil, add_zero, add_assoc,
        volume_parts]
  | removed exhausts holds removes =>
      refine ⟨_, fill_of_exhausts exhausts holds, fun side price => ?_⟩
      rw [← volume_perm removes.records, volume_cons_eq _ (OrderIndex.records _),
        Event.posts_of_ne, volume_nil, add_zero]
      obtain cancels | ⟨reduces, _⟩ := exhausts
      · omega
      · exact reduces.type_ne.1

end Book

namespace Ledger

variable {L : Type} [PriceLevels L]

/-- A step on a book that does not fail the assertion takes the book along. -/
theorem step_of_apply {ledger : Ledger L} {event : Event} {taken : List Order} {book : Book L}
    (filled : ledger.book.fill event = .ok taken) (applied : ledger.book.apply event = .ok book) :
    ledger.step event = .ok ⟨book, ledger.fills ++ taken⟩ := by
  rw [step, filled, Run.ok_bind, applied]
  rfl

variable [LawfulLevels L]

/-- What has been posted is shown or has been filled. -/
structure Balanced (before : List Event) (ledger : Ledger L) : Prop where
  conserves : Book.Conserves ledger.book
  volume_eq : ∀ side price, volume ledger.book.index.records side price +
    volume ledger.fills side price = volume (Event.posted before) side price

theorem Balanced.quantity_eq {before : List Event} {ledger : Ledger L}
    (balanced : Balanced before ledger) (side : Side) (price : Price) :
    quantityAt ledger.book.levels side price =
      volume (Event.posted before) side price - volume ledger.fills side price := by
  rw [balanced.conserves.conserved.quantity_eq, ← balanced.volume_eq, add_sub_cancel_right]

theorem balanced_of_replay {hint : Nat} {events : List Event} (hhint : hint ≤ 2 ^ 62)
    (wellFormed : ∀ event ∈ events, event.WellFormed)
    (asserted : (Book.replay hint events : Except Fault (Book L)) ≠ .error .assertion) :
    ∀ before, before <+: events → ∃ ledger : Ledger L, replay hint before = .ok ledger ∧
      Book.replay hint before = .ok ledger.book ∧ Balanced before ledger := by
  apply Run.prefix_induction
  · obtain ⟨book, made, levels, _, records⟩ := Book.new_eq_ok hhint (L := L)
    have started : new hint = .ok (⟨book, []⟩ : Ledger L) := by
      rw [new, made]
      rfl
    refine ⟨⟨book, []⟩, by rw [replay, Run.foldlM_nil, started], by rw [Book.replay_nil, made],
      ?_, ?_⟩
    · exact .of_empty levels records
    · intro side price
      rw [records]
      rfl
  · rintro before event member ⟨ledger, reached, same, balanced⟩
    obtain ⟨book, reached', sound, _⟩ := Book.conserves_replay hhint wellFormed asserted before
      ((List.prefix_append before [event]).trans member)
    obtain ⟨book', next, _, conserves⟩ := Book.conserves_replay hhint wellFormed asserted _ member
    cases same.symm.trans reached'
    have applied : ledger.book.apply event = .ok book' := by
      rw [← Book.replay_snoc reached', next]
    obtain ⟨taken, filled, moved⟩ := (Book.outcome_of_apply sound applied).volume_eq
      (wellFormed event (member.subset (by simp))).id_ne
    refine ⟨⟨book', ledger.fills ++ taken⟩, ?_, next, conserves, fun side price => ?_⟩
    · rw [replay, Run.foldlM_snoc_of_ok reached, step_of_apply filled applied]
    · have kept := balanced.volume_eq side price
      have one := moved side price
      rw [Event.posted_append_posts, volume_append, volume_append]
      linarith

end Ledger

/-- Over any stream a book shows at every side and price what was posted there less what
its messages have filled there. -/
theorem book_ledger (v : Variant) (hint : Nat) (hhint : hint ≤ 2 ^ 62) (events : List Event)
    (wellFormed : ∀ event ∈ events, event.WellFormed)
    (asserted : v.replay hint events ≠ .error .assertion) :
    ∀ before, before <+: events → ∃ ledger : Ledger v.Levels,
      Ledger.replay hint before = .ok ledger ∧ v.replay hint before = .ok ledger.book ∧
      ∀ side price, quantityAt ledger.book.levels side price =
        volume (Event.posted before) side price - volume ledger.fills side price := by
  intro before member
  obtain ⟨ledger, reached, same, balanced⟩ :=
    Ledger.balanced_of_replay hhint wellFormed asserted before member
  exact ⟨ledger, reached, same, balanced.quantity_eq⟩

/-- An id used twice on two levels, and a deletion that fills the older order. -/
theorem book_ledger_reused : ∃ ledger : Ledger Variant.map.Levels,
    Ledger.replay 4 [⟨1, 7, 10, 100, 1⟩, ⟨1, 7, 3, 101, 1⟩, ⟨3, 7, 0, 0, 0⟩] = .ok ledger ∧
    Variant.map.replay 4 [⟨1, 7, 10, 100, 1⟩, ⟨1, 7, 3, 101, 1⟩, ⟨3, 7, 0, 0, 0⟩] =
      .ok ledger.book ∧
    ∀ side price, quantityAt ledger.book.levels side price = volume (Event.posted
        [⟨1, 7, 10, 100, 1⟩, ⟨1, 7, 3, 101, 1⟩, ⟨3, 7, 0, 0, 0⟩]) side price -
      volume ledger.fills side price :=
  book_ledger .map 4 (by decide) _ (by decide) (by decide) _ List.prefix_rfl

/-- On a legal stream the error of a book is what the reference has filled more. -/
theorem book_error (v : Variant) (hint : Nat) (hhint : hint ≤ 2 ^ 62) (events : List Event)
    (legal : Event.Legal hint events) (asserted : v.replay hint events ≠ .error .assertion) :
    ∀ before, before <+: events → ∃ ledger : Ledger v.Levels,
      Ledger.replay hint before = .ok ledger ∧ v.replay hint before = .ok ledger.book ∧
      ∀ side price, quantityAt ledger.book.levels side price -
          volume (LiveOrders.after before).orders side price =
        volume (LiveOrders.fills before) side price - volume ledger.fills side price := by
  intro before member
  obtain ⟨ledger, reached, same, balanced⟩ :=
    Ledger.balanced_of_replay hhint legal.wellFormed asserted before member
  refine ⟨ledger, reached, same, fun side price => ?_⟩
  have live := LiveOrders.volume_after legal side price before member
  rw [balanced.quantity_eq]
  linarith

/-- The stream that strands an order. The book has not filled what the last deletion took. -/
theorem book_error_stranded : ∃ ledger : Ledger Variant.linear.Levels,
    Ledger.replay 2 strandedOrder = .ok ledger ∧
    Variant.linear.replay 2 strandedOrder = .ok ledger.book ∧
    ∀ side price, quantityAt ledger.book.levels side price -
        volume (LiveOrders.after strandedOrder).orders side price =
      volume (LiveOrders.fills strandedOrder) side price - volume ledger.fills side price :=
  book_error .linear 2 (by decide) _ (by decide) (by decide) _ List.prefix_rfl

end OrderBook
