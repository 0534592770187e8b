import Mathlib.Data.Int.Notation

/-!
# Fundamental value types

Prices, quantities and order ids are 64 bit signed integers in the source. They
are `Int` here, with exact sums and differences; the quantities of a level on 64
bit words, and when the two agree, are the subject of `Book.Wrapping`. Unsigned
`size_t` arithmetic, which does wrap, is reduced explicitly where it can leave its
range.
-/

namespace OrderBook

abbrev Price := Int
abbrev Quantity := Int
abbrev OrderId := Int

inductive Side where
  | buy
  | sell
  deriving DecidableEq, Repr

/-- The most negative 64 bit integer. It marks the absent level of an empty side
and, as an order id, a free slot of the order index. -/
def kInvalidPrice : Price := -9223372036854775808

/-- The value record stored in the shared order index. -/
structure Order where
  id : OrderId
  price : Price
  remaining : Quantity
  side : Side
  deriving DecidableEq, Repr

structure Level where
  price : Price
  quantity : Quantity
  deriving DecidableEq, Repr

/-- `Level{kInvalidPrice, 0}`, what an observer returns when there is no level. -/
def absentLevel : Level := ⟨kInvalidPrice, 0⟩

end OrderBook
