import OrderBook.Event
import OrderBook.Reference.LiveOrders

/-!
# What a stream means for the live orders

The reference reads the same messages as a book but keeps only the map of live
orders. A new order is put under its id, a reduction takes the smaller of its size
and what remains and drops an order with nothing left, and a deletion drops the
order. A message on an id that is not live does nothing.
-/

namespace OrderBook.LiveOrders

def reduce (live : LiveOrders) (id : OrderId) (delta : Quantity) : LiveOrders :=
  match live.lookup id with
  | none => live
  | some resting =>
      if resting.remaining - min delta resting.remaining = 0 then live.drop id
      else live.put id { resting with remaining := resting.remaining - min delta resting.remaining }

def step (live : LiveOrders) (event : Event) : LiveOrders :=
  match event.type with
  | 1 => live.put event.id event.order.resting
  | 2 => live.reduce event.id event.size
  | 3 => live.drop event.id
  | 4 => live.reduce event.id event.size
  | _ => live

/-- The live orders after a stream. -/
def after (events : List Event) : LiveOrders := events.foldl step ∅

@[simp] theorem after_nil : after [] = ∅ := rfl

@[simp] theorem after_snoc (events : List Event) (event : Event) :
    after (events ++ [event]) = (after events).step event := by
  simp [after]

variable {live : LiveOrders} {event : Event} {resting : Resting} {id : OrderId}

theorem step_of_add (adds : event.type = 1) :
    live.step event = live.put event.id event.order.resting := by
  simp [step, adds]

theorem step_of_cancel (cancels : event.type = 3) : live.step event = live.drop event.id := by
  simp [step, cancels]

theorem step_of_reduces (reduces : event.Reduces) :
    live.step event = live.reduce event.id event.size := by
  obtain two | four := reduces
  · simp [step, two]
  · simp [step, four]

theorem step_of_ignored (ignored : event.Ignored) : live.step event = live := by
  obtain ⟨not_one, not_three, not_reduces⟩ := ignored
  simp only [step]
  split
  · exact absurd ‹_› not_one
  · exact absurd (.inl ‹_›) not_reduces
  · exact absurd ‹_› not_three
  · exact absurd (.inr ‹_›) not_reduces
  · rfl

theorem reduce_of_absent (absent : live.lookup id = none) (delta : Quantity) :
    live.reduce id delta = live := by
  simp [reduce, absent]

theorem reduce_of_le (present : live.lookup id = some resting) {delta : Quantity}
    (spent : resting.remaining ≤ delta) : live.reduce id delta = live.drop id := by
  simp [reduce, present, min_eq_right spent]

theorem reduce_of_lt (present : live.lookup id = some resting) {delta : Quantity}
    (left : delta < resting.remaining) : live.reduce id delta =
      live.put id { resting with remaining := resting.remaining - delta } := by
  have some_left : resting.remaining - delta ≠ 0 := fun spent =>
    left.ne' (Int.sub_eq_zero.mp spent)
  simp [reduce, present, min_eq_left left.le, some_left]

/-- An order that the message exhausts is dropped. -/
theorem step_of_exhausts (present : live.lookup event.id = some resting)
    (exhausts : event.Exhausts resting.remaining) : live.step event = live.drop event.id := by
  obtain cancels | ⟨reduces, spent⟩ := exhausts
  · exact step_of_cancel cancels
  · rw [step_of_reduces reduces, reduce_of_le present spent]

/-- A message on an id that is not live, other than a new order, does nothing. -/
theorem step_of_absent (absent : live.lookup event.id = none) (not_add : event.type ≠ 1) :
    live.step event = live := by
  by_cases cancels : event.type = 3
  · rw [step_of_cancel cancels, drop_of_absent absent]
  by_cases reduces : event.Reduces
  · rw [step_of_reduces reduces, reduce_of_absent absent]
  · exact step_of_ignored ⟨not_add, cancels, reduces⟩

/-- A live order after a message that is no new order was live before. If the message is
on it, it took its size. -/
theorem lookup_step (not_add : event.type ≠ 1)
    (present : (live.step event).lookup id = some resting) :
    live.lookup id = some resting ∧ (id = event.id → event.Ignored) ∨
      id = event.id ∧ event.Reduces ∧ ∃ before, live.lookup id = some before ∧
        event.size < before.remaining ∧
        resting = { before with remaining := before.remaining - event.size } := by
  obtain adds | cancels | reduces | ignored := event.kinds
  · exact absurd adds not_add
  · rw [step_of_cancel cancels, drop] at present
    by_cases here : id = event.id
    · subst here
      rw [AList.lookup_erase] at present
      cases present
    · rw [AList.lookup_erase_ne here] at present
      exact .inl ⟨present, fun same => absurd same here⟩
  · rw [step_of_reduces reduces] at present
    by_cases here : id = event.id
    · subst here
      refine .inr ⟨rfl, reduces, ?_⟩
      cases held : live.lookup event.id with
      | none =>
          rw [reduce_of_absent held, held] at present
          cases present
      | some before =>
          obtain left | spent := lt_or_ge event.size before.remaining
          · rw [reduce_of_lt held left, put, AList.lookup_insert] at present
            cases present
            exact ⟨before, rfl, left, rfl⟩
          · rw [reduce_of_le held spent, drop, AList.lookup_erase] at present
            cases present
    · refine .inl ⟨?_, fun same => absurd same here⟩
      cases held : live.lookup event.id with
      | none => rwa [reduce_of_absent held] at present
      | some before =>
          obtain left | spent := lt_or_ge event.size before.remaining
          · rwa [reduce_of_lt held left, put, AList.lookup_insert_ne here] at present
          · rwa [reduce_of_le held spent, drop, AList.lookup_erase_ne here] at present
  · rw [step_of_ignored ignored] at present
    exact .inl ⟨present, fun _ => ignored⟩

/-- The induction rule for live orders: what the first ones and every new order have, and
what an order keeps when a part of it is taken, every live order has. -/
theorem live_induction {P : OrderId → Resting → Prop} {start : LiveOrders} {events : List Event}
    (initial : ∀ id resting, start.lookup id = some resting → P id resting)
    (added : ∀ event ∈ events, event.type = 1 → P event.id event.order.resting)
    (taken : ∀ event ∈ events, event.Reduces → ∀ resting, P event.id resting →
      event.size < resting.remaining →
        P event.id { resting with remaining := resting.remaining - event.size }) :
    ∀ id resting, (events.foldl step start).lookup id = some resting → P id resting := by
  induction events using List.reverseRecOn with
  | nil => exact initial
  | append_singleton events event ih =>
      have earlier := ih (fun other member => added other (List.mem_append_left _ member))
        fun other member => taken other (List.mem_append_left _ member)
      intro id resting present
      rw [List.foldl_append, List.foldl_cons, List.foldl_nil] at present
      by_cases adds : event.type = 1
      · rw [step_of_add adds, put] at present
        by_cases here : id = event.id
        · subst here
          rw [AList.lookup_insert] at present
          cases present
          exact added event (by simp) adds
        · rw [AList.lookup_insert_ne here] at present
          exact earlier id resting present
      · obtain ⟨before, _⟩ | ⟨rfl, reduces, before, held, left, rfl⟩ := lookup_step adds present
        · exact earlier id resting before
        · exact taken event (by simp) reduces before (earlier event.id before held) left

end OrderBook.LiveOrders
