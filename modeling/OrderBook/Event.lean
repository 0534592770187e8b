import OrderBook.Index.Basic

/-!
# Stream messages

A message has the columns of the file after the time. Types 2 and 4, a partial
cancellation and a visible execution, both reduce an order; type 3 deletes one and
type 1 rests one. The remaining types do not touch the visible book.
-/

namespace OrderBook

structure Event where
  type : Int
  id : OrderId
  size : Quantity
  price : Price
  direction : Int
  deriving DecidableEq, Repr

namespace Event

/-- Direction 1 is a buy limit order; anything else is taken for a sell. -/
def side (event : Event) : Side := if event.direction = 1 then .buy else .sell

/-- The order that a new limit order message rests. -/
def order (event : Event) : Order := ⟨event.id, event.price, event.size, event.side⟩

/-- A partial cancellation or a visible execution. -/
def Reduces (event : Event) : Prop := event.type = 2 ∨ event.type = 4

instance (event : Event) : Decidable event.Reduces :=
  inferInstanceAs (Decidable (_ ∨ _))

/-- A hidden execution, a halt or an unknown type, which leaves the visible book alone. -/
def Ignored (event : Event) : Prop := event.type ≠ 1 ∧ event.type ≠ 3 ∧ ¬ event.Reduces

instance (event : Event) : Decidable event.Ignored :=
  inferInstanceAs (Decidable (_ ∧ _ ∧ _))

/-- The message removes an order with this much remaining. -/
def Exhausts (event : Event) (remaining : Quantity) : Prop :=
  event.type = 3 ∨ event.Reduces ∧ remaining ≤ event.size

/-- A message with a usable id whose size fits its type. -/
structure WellFormed (event : Event) : Prop where
  id_ne : event.id ≠ OrderIndex.kEmpty
  size_pos : event.type = 1 → 0 < event.size
  size_nonneg : event.Reduces → 0 ≤ event.size

instance (event : Event) : Decidable event.WellFormed :=
  decidable_of_iff (event.id ≠ OrderIndex.kEmpty ∧ (event.type = 1 → 0 < event.size) ∧
      (event.Reduces → 0 ≤ event.size))
    ⟨fun ⟨id_ne, pos, nonneg⟩ => ⟨id_ne, pos, nonneg⟩,
      fun ⟨id_ne, pos, nonneg⟩ => ⟨id_ne, pos, nonneg⟩⟩

theorem Reduces.type_ne {event : Event} (reduces : event.Reduces) :
    event.type ≠ 1 ∧ event.type ≠ 3 := by
  rcases reduces with two | four <;> constructor <;> omega

/-- The four kinds of messages: new orders, deletions, reductions and ignored ones. -/
theorem kinds (event : Event) :
    event.type = 1 ∨ event.type = 3 ∨ event.Reduces ∨ event.Ignored := by
  by_cases adds : event.type = 1
  · exact .inl adds
  by_cases cancels : event.type = 3
  · exact .inr (.inl cancels)
  by_cases reduces : event.Reduces
  · exact .inr (.inr (.inl reduces))
  · exact .inr (.inr (.inr ⟨adds, cancels, reduces⟩))

end Event

end OrderBook
