import OrderBook.Foundation.Word
import OrderBook.Levels.Locate
import OrderBook.Levels.Map
import Mathlib.Algebra.Group.Basic
import Mathlib.Algebra.Group.Int.Defs

/-!
# The containers on 64 bit quantities

`level_add` and `level_sub` keep the sum and the difference that they compute in an
`int64_t`. Here are the two updates with that, for each container. They change nothing but
the quantity, so each of them is the exact update by another amount: the one that leads to
the number that is kept. What holds of the exact updates by every amount holds of them.
-/

namespace OrderBook

open PriceLevels Word

namespace Located

variable {book : List Level}

/-- `addAt` with the sum as it is kept. -/
def addAtWrapping (located : Located book) (price : Price) (qty : Quantity) : List Level :=
  if located.found then
    book.modify located.index fun level => { level with quantity := wrap (level.quantity + qty) }
  else book.insertIdx located.index ⟨price, qty⟩

/-- `subAt` with the difference as it is kept. -/
def subAtWrapping (located : Located book) (amount : Quantity) : List Level :=
  if found : located.found then
    let reduced := book.modify located.index
      fun level => { level with quantity := wrap (level.quantity - amount) }
    have inside : located.index < reduced.length := by
      rw [List.length_modify]
      exact located.index_lt found
    if reduced[located.index].quantity ≤ 0 then reduced.eraseIdx located.index else reduced
  else book

/-- Only the level at the index is modified. -/
private theorem modify_congr {i : Nat} {f g : Level → Level} (inside : i < book.length)
    (same : f book[i] = g book[i]) : book.modify i f = book.modify i g := by
  rw [List.modify_eq_set_get f inside, List.modify_eq_set_get g inside]
  exact congrArg (book.set i) same

theorem addAtWrapping_eq (located : Located book) (price : Price) {qty : Quantity}
    (fits : Fits qty) : located.addAtWrapping price qty =
      located.addAt price (wrap (located.quantity + qty) - located.quantity) := by
  by_cases found : located.found = true
  · have here : located.quantity = (book.get ⟨located.index, located.index_lt found⟩).quantity :=
      dif_pos found
    rw [addAtWrapping, addAt, if_pos found, if_pos found, here]
    apply modify_congr (located.index_lt found)
    simp only [List.get_eq_getElem, add_sub_cancel]
  · have here : located.quantity = 0 := dif_neg found
    rw [addAtWrapping, addAt, if_neg found, if_neg found, here, zero_add, sub_zero,
      wrap_of_fits fits]

theorem subAtWrapping_eq (located : Located book) (amount : Quantity) :
    located.subAtWrapping amount =
      located.subAt (located.quantity - wrap (located.quantity - amount)) := by
  by_cases found : located.found = true
  · have here : located.quantity = (book.get ⟨located.index, located.index_lt found⟩).quantity :=
      dif_pos found
    have same : book.modify located.index (fun level =>
          { level with quantity := wrap (level.quantity - amount) }) =
        book.modify located.index fun level => { level with
          quantity := level.quantity - (located.quantity - wrap (located.quantity - amount)) } := by
      rw [here]
      apply modify_congr (located.index_lt found)
      simp only [List.get_eq_getElem, sub_sub_cancel]
    simp only [subAtWrapping, subAt, found, dif_pos, same]
  · rw [subAtWrapping, subAt, dif_neg found, dif_neg found]

end Located

namespace SideMap

variable {cmp : Price → Price → Ordering}

def addAtWrapping (book : SideMap cmp) (price : Price) (qty : Quantity) : SideMap cmp :=
  book.insert price (wrap (book.getD price 0 + qty))

def subAtWrapping (book : SideMap cmp) (price : Price) (amount : Quantity) : SideMap cmp :=
  match book[price]? with
  | none => book
  | some quantity =>
      let book := book.insert price (wrap (quantity - amount))
      if wrap (quantity - amount) ≤ 0 then book.erase price else book

variable [Std.TransCmp cmp]

theorem addAtWrapping_eq (book : SideMap cmp) (price : Price) (qty : Quantity) :
    addAtWrapping book price qty =
      addAt book price (wrap ((book[price]?).getD 0 + qty) - (book[price]?).getD 0) := by
  rw [addAtWrapping, addAt, Std.TreeMap.getD_eq_getD_getElem?, add_sub_cancel]

omit [Std.TransCmp cmp] in
theorem subAtWrapping_eq (book : SideMap cmp) (price : Price) (amount : Quantity) :
    subAtWrapping book price amount =
      subAt book price ((book[price]?).getD 0 - wrap ((book[price]?).getD 0 - amount)) := by
  simp only [subAtWrapping, subAt]
  cases book[price]? with
  | none => rfl
  | some quantity => simp only [Option.getD_some, sub_sub_cancel]

end SideMap

/-- The two updates of a container, with what they compute kept in 64 bits. -/
class WrappingLevels (L : Type) [PriceLevels L] where
  levelAddWrapping : L → Side → Price → Quantity → L
  levelSubWrapping : L → Side → Price → Quantity → L
  levelAddWrapping_eq : ∀ (l : L) side price {qty}, Fits qty →
    levelAddWrapping l side price qty =
      levelAdd l side price (wrap (quantityAt l side price + qty) - quantityAt l side price)
  levelSubWrapping_eq : ∀ (l : L) side price amount, levelSubWrapping l side price amount =
    levelSub l side price (quantityAt l side price - wrap (quantityAt l side price - amount))

instance {locate : Locate} : WrappingLevels (VectorLevels locate) where
  levelAddWrapping levels side price qty :=
    levels.setBook side ((levels.locateIn side price).addAtWrapping price qty)
  levelSubWrapping levels side price amount :=
    levels.setBook side ((levels.locateIn side price).subAtWrapping amount)
  levelAddWrapping_eq levels side price _ fits :=
    congrArg (levels.setBook side) ((levels.locateIn side price).addAtWrapping_eq price fits)
  levelSubWrapping_eq levels side price amount :=
    congrArg (levels.setBook side) ((levels.locateIn side price).subAtWrapping_eq amount)

namespace MapLevels

def levelAddWrapping (book : MapLevels) (side : Side) (price : Price) (qty : Quantity) :
    MapLevels :=
  match side with
  | .buy => { book with bids := SideMap.addAtWrapping book.bids price qty }
  | .sell => { book with asks := SideMap.addAtWrapping book.asks price qty }

def levelSubWrapping (book : MapLevels) (side : Side) (price : Price) (amount : Quantity) :
    MapLevels :=
  match side with
  | .buy => { book with bids := SideMap.subAtWrapping book.bids price amount }
  | .sell => { book with asks := SideMap.subAtWrapping book.asks price amount }

instance : WrappingLevels MapLevels where
  levelAddWrapping
  levelSubWrapping
  levelAddWrapping_eq book side price qty _ := by
    cases side with
    | buy =>
        exact congrArg (MapLevels.mk · book.asks) (SideMap.addAtWrapping_eq book.bids price qty)
    | sell =>
        exact congrArg (MapLevels.mk book.bids) (SideMap.addAtWrapping_eq book.asks price qty)
  levelSubWrapping_eq book side price amount := by
    cases side with
    | buy =>
        exact congrArg (MapLevels.mk · book.asks) (SideMap.subAtWrapping_eq book.bids price amount)
    | sell =>
        exact congrArg (MapLevels.mk book.bids) (SideMap.subAtWrapping_eq book.asks price amount)

end MapLevels

end OrderBook
