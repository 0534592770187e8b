import OrderBook.Event
import OrderBook.Index.Operations
import OrderBook.Levels.Locate
import OrderBook.Levels.Map

/-!
# The books and the events that drive them

A book is a price level container beside the shared order index. The four books have
the same `add`, `cancel` and `reduce`, written here once over the container, and are
this book at their own container. `apply` maps a message to one of these calls and
`replay` folds it over a stream from an empty book.
-/

namespace OrderBook

open PriceLevels

structure Book (L : Type) where
  levels : L
  index : OrderIndex
  deriving DecidableEq

namespace Book

variable {L : Type} [PriceLevels L]

def new (orderCapacityHint : Nat) : Except Fault (Book L) := do
  let index ← OrderIndex.new orderCapacityHint
  return { levels := empty, index }

def add (book : Book L) (id : OrderId) (side : Side) (price : Price) (qty : Quantity) :
    Except Fault (Book L) := do
  let index ← book.index.insert ⟨id, price, qty, side⟩
  return { levels := levelAdd book.levels side price qty, index }

def cancel (book : Book L) (id : OrderId) : Except Fault (Book L) := do
  match ← book.index.find id with
  | none => return book
  | some i =>
      let order ← book.index.deref i
      let levels := levelSub book.levels order.side order.price order.remaining
      let index ← book.index.erase id
      return { levels, index }

def reduce (book : Book L) (id : OrderId) (delta : Quantity) : Except Fault (Book L) := do
  match ← book.index.find id with
  | none => return book
  | some i =>
      let order ← book.index.deref i
      let applied := if delta < order.remaining then delta else order.remaining
      let levels := levelSub book.levels order.side order.price applied
      let index := book.index.setRemaining i (order.remaining - applied)
      let order ← index.deref i
      if order.remaining ≤ 0 then
        let index ← index.erase id
        return { levels, index }
      else return { levels, index }

/-- Drive a book from one event. Hidden executions, halts and unknown types leave the
book unchanged. -/
def apply (book : Book L) (event : Event) : Except Fault (Book L) :=
  match event.type with
  | 1 => book.add event.id event.side event.price event.size
  | 2 => book.reduce event.id event.size
  | 3 => book.cancel event.id
  | 4 => book.reduce event.id event.size
  | _ => return book

variable {book : Book L} {event : Event}

theorem apply_of_add (adds : event.type = 1) :
    book.apply event = book.add event.id event.side event.price event.size := by
  simp [apply, adds]

theorem apply_of_cancel (cancels : event.type = 3) : book.apply event = book.cancel event.id := by
  simp [apply, cancels]

theorem apply_of_reduces (reduces : event.Reduces) :
    book.apply event = book.reduce event.id event.size := by
  obtain two | four := reduces
  · simp [apply, two]
  · simp [apply, four]

theorem apply_of_ignored (ignored : event.Ignored) : book.apply event = .ok book := by
  obtain ⟨not_one, not_three, not_reduces⟩ := ignored
  simp only [apply]
  split
  · exact absurd ‹_› not_one
  · exact absurd (.inl ‹_›) not_reduces
  · exact absurd ‹_› not_three
  · exact absurd (.inr ‹_›) not_reduces
  · rfl

def replay (orderCapacityHint : Nat) (events : List Event) : Except Fault (Book L) := do
  let book ← new orderCapacityHint
  events.foldlM apply book

end Book

/-- Variant A, the `std::map` baseline. -/
abbrev BookMap := Book MapLevels

/-- Variant B, the contiguous vector with linear scan. -/
abbrev BookLinear := Book (VectorLevels BookLinear.locate)

/-- Variant C, the contiguous vector with binary search. -/
abbrev BookSortedVector := Book (VectorLevels BookSortedVector.locate)

/-- Variant D, the contiguous vector with branchless search. -/
abbrev BookBranchless := Book (VectorLevels BookBranchless.locate)

inductive Variant where
  | map
  | linear
  | sortedVector
  | branchless
  deriving DecidableEq, Repr

namespace Variant

def Levels : Variant → Type
  | map => MapLevels
  | linear => VectorLevels BookLinear.locate
  | sortedVector => VectorLevels BookSortedVector.locate
  | branchless => VectorLevels BookBranchless.locate

instance : (v : Variant) → PriceLevels v.Levels
  | map => inferInstanceAs (PriceLevels MapLevels)
  | linear => inferInstanceAs (PriceLevels (VectorLevels BookLinear.locate))
  | sortedVector => inferInstanceAs (PriceLevels (VectorLevels BookSortedVector.locate))
  | branchless => inferInstanceAs (PriceLevels (VectorLevels BookBranchless.locate))

instance : (v : Variant) → LawfulLevels v.Levels
  | map => inferInstanceAs (LawfulLevels MapLevels)
  | linear => inferInstanceAs (LawfulLevels (VectorLevels BookLinear.locate))
  | sortedVector => inferInstanceAs (LawfulLevels (VectorLevels BookSortedVector.locate))
  | branchless => inferInstanceAs (LawfulLevels (VectorLevels BookBranchless.locate))

def replay (v : Variant) (orderCapacityHint : Nat) (events : List Event) :
    Except Fault (Book v.Levels) := Book.replay orderCapacityHint events

end Variant

end OrderBook
