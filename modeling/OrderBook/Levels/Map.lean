import OrderBook.Levels.Basic
import Std.Data.TreeMap.Lemmas

/-!
# The baseline container: one tree map a side

`BookMap` keeps each side in a `std::map` whose order puts the best price first:
`std::greater` for bids, `std::less` for asks. A side is a `Std.TreeMap` with the
same comparison, so that `begin()` is the head of its in-order list and advancing
it by a rank is the entry at that position.
-/

namespace OrderBook

open SortedList

abbrev SideMap (cmp : Price → Price → Ordering) := Std.TreeMap Price Quantity cmp

/-- `std::greater<Price>`: a price comes before the lower ones. -/
def greaterFirst (a b : Price) : Ordering := compare b a

/-- `std::less<Price>`. -/
def lessFirst (a b : Price) : Ordering := compare a b

namespace SideMap

variable {cmp : Price → Price → Ordering}

def entries (book : SideMap cmp) : List Level := book.toList.map fun entry => ⟨entry.1, entry.2⟩

/-- `book[price] += qty`. The subscript creates a missing level with quantity zero. -/
def addAt (book : SideMap cmp) (price : Price) (qty : Quantity) : SideMap cmp :=
  book.insert price (book.getD price 0 + qty)

def subAt (book : SideMap cmp) (price : Price) (amount : Quantity) : SideMap cmp :=
  match book[price]? with
  | none => book
  | some quantity =>
      let book := book.insert price (quantity - amount)
      if quantity - amount ≤ 0 then book.erase price else book

def begin (book : SideMap cmp) : Level :=
  if book.isEmpty then absentLevel else book.entries.headD absentLevel

def nth (book : SideMap cmp) (rank : Nat) : Level :=
  if book.size ≤ rank then absentLevel else book.entries.getD rank absentLevel

end SideMap

structure MapLevels where
  bids : SideMap greaterFirst
  asks : SideMap lessFirst

namespace MapLevels

def levelAdd (book : MapLevels) (side : Side) (price : Price) (qty : Quantity) : MapLevels :=
  match side with
  | .buy => { book with bids := SideMap.addAt book.bids price qty }
  | .sell => { book with asks := SideMap.addAt book.asks price qty }

def levelSub (book : MapLevels) (side : Side) (price : Price) (amount : Quantity) : MapLevels :=
  match side with
  | .buy => { book with bids := SideMap.subAt book.bids price amount }
  | .sell => { book with asks := SideMap.subAt book.asks price amount }

def quantityAt (book : MapLevels) (side : Side) (price : Price) : Quantity :=
  match side with
  | .buy => (book.bids[price]?).getD 0
  | .sell => (book.asks[price]?).getD 0

instance : PriceLevels MapLevels where
  empty := ⟨∅, ∅⟩
  levelAdd
  levelSub
  bestBid book := SideMap.begin book.bids
  bestAsk book := SideMap.begin book.asks
  quantityAt
  nthBid book rank := SideMap.nth book.bids rank
  nthAsk book rank := SideMap.nth book.asks rank
  bidDepth book := book.bids.size
  askDepth book := book.asks.size

end MapLevels

instance : Std.TransCmp lessFirst := inferInstanceAs (Std.TransCmp fun a b : Int => compare a b)

instance : Std.LawfulEqCmp lessFirst :=
  inferInstanceAs (Std.LawfulEqCmp fun a b : Int => compare a b)

instance : Std.TransCmp greaterFirst :=
  inferInstanceAs (Std.TransCmp fun a b : Int => compare b a)

instance : Std.LawfulEqCmp greaterFirst :=
  inferInstanceAs (Std.LawfulEqCmp fun a b : Int => compare b a)

namespace SideMap

variable {cmp : Price → Price → Ordering}

@[simp] theorem entries_empty : entries (∅ : SideMap cmp) = [] := rfl

@[simp] theorem length_entries (book : SideMap cmp) : (entries book).length = book.size := by
  simp [entries]

theorem begin_eq (book : SideMap cmp) : begin book = (entries book).headD absentLevel := by
  simp only [begin]
  split
  case isTrue vacant =>
    have none : entries book = [] := by
      rw [← List.length_eq_zero_iff, length_entries]
      simpa [Std.TreeMap.isEmpty_eq_size_eq_zero] using vacant
    rw [none]
    rfl
  case isFalse => rfl

theorem nth_eq (book : SideMap cmp) (rank : Nat) :
    nth book rank = (entries book).getD rank absentLevel := by
  simp only [nth]
  split
  · rw [List.getD_eq_default _ _ (by rwa [length_entries])]
  · rfl

variable [Std.TransCmp cmp]

/-- The entries are sorted by the map's own comparison. -/
theorem entries_sorted {side : Side} (order : ∀ a b, cmp a b = .lt → side.Better a b)
    (book : SideMap cmp) : Sorted Level.price side.Better (entries book) := by
  rw [Sorted, entries, List.pairwise_map]
  apply List.Pairwise.imp ?_ Std.TreeMap.ordered_keys_toList
  intro a b before
  exact order a.1 b.1 before

variable [Std.LawfulEqCmp cmp]

theorem mem_entries {book : SideMap cmp} {level : Level} :
    level ∈ entries book ↔ book[level.price]? = some level.quantity := by
  rw [entries, List.mem_map, ← Std.TreeMap.mem_toList_iff_getElem?_eq_some]
  constructor
  · rintro ⟨⟨price, quantity⟩, member, rfl⟩
    exact member
  · intro member
    exact ⟨_, member, rfl⟩

theorem lookup_entries {side : Side} (order : ∀ a b, cmp a b = .lt → side.Better a b)
    (book : SideMap cmp) (price : Price) :
    (lookup Level.price price (entries book)).map Level.quantity = book[price]? := by
  cases at_price : book[price]? with
  | none =>
      rw [lookup_eq_none]
      · rfl
      · rintro level member rfl
        rw [mem_entries, at_price] at member
        cases member
  | some quantity =>
      have found : lookup Level.price price (entries book) = some ⟨price, quantity⟩ :=
        (entries_sorted order book).lookup_eq_some_iff.mpr ⟨mem_entries.mpr at_price, rfl⟩
      rw [found]
      rfl

theorem getElem?_addAt (book : SideMap cmp) (price : Price) (qty : Quantity) (p : Price) :
    (addAt book price qty)[p]? =
      if price = p then some ((book[price]?).getD 0 + qty) else book[p]? := by
  rw [addAt, Std.TreeMap.getElem?_insert, Std.TreeMap.getD_eq_getD_getElem?]
  simp [Std.LawfulEqCmp.compare_eq_iff_eq]

theorem getElem?_subAt (book : SideMap cmp) (price : Price) (amount : Quantity) (p : Price) :
    (subAt book price amount)[p]? = match book[price]? with
      | none => book[p]?
      | some quantity =>
          if price = p then (if quantity - amount ≤ 0 then none else some (quantity - amount))
          else book[p]? := by
  simp only [subAt]
  cases at_price : book[price]? with
  | none => rfl
  | some quantity =>
      have same : cmp price p = .eq ↔ price = p := Std.LawfulEqCmp.compare_eq_iff_eq
      by_cases spent : quantity - amount ≤ 0
      · simp only [spent, if_true, Std.TreeMap.getElem?_erase, Std.TreeMap.getElem?_insert, same]
        split <;> rfl
      · simp only [spent, if_false, Std.TreeMap.getElem?_insert, same]

end SideMap

namespace MapLevels

private theorem better_of_greaterFirst (a b : Price) (before : greaterFirst a b = .lt) :
    Side.buy.Better a b := Std.compare_eq_lt.mp before

private theorem better_of_lessFirst (a b : Price) (before : lessFirst a b = .lt) :
    Side.sell.Better a b := Std.compare_eq_lt.mp before

instance : LevelView MapLevels where
  Valid _ := True
  levels book
    | .buy => SideMap.entries book.bids
    | .sell => SideMap.entries book.asks

theorem contents_eq (book : MapLevels) (side : Side) (price : Price) :
    contents book side price = match side with
      | .buy => book.bids[price]?
      | .sell => book.asks[price]? := by
  cases side with
  | buy => exact SideMap.lookup_entries better_of_greaterFirst book.bids price
  | sell => exact SideMap.lookup_entries better_of_lessFirst book.asks price

instance : LawfulLevels MapLevels where
  valid_empty := trivial
  valid_levelAdd _ _ _ _ := trivial
  valid_levelSub _ _ _ _ := trivial
  sorted {book} _ side := by
    cases side with
    | buy => exact SideMap.entries_sorted better_of_greaterFirst book.bids
    | sell => exact SideMap.entries_sorted better_of_lessFirst book.asks
  levels_empty side := by cases side <;> rfl
  contents_levelAdd {book} _ side price qty := by
    funext s p
    rw [Ladder.levelAdd, Ladder.set_apply, contents_eq, contents_eq, contents_eq]
    cases side <;> cases s <;>
      simp [PriceLevels.levelAdd, levelAdd, SideMap.getElem?_addAt, eq_comm]
  contents_levelSub {book} _ side price amount := by
    funext s p
    cases side <;> cases s <;>
      simp [PriceLevels.levelSub, levelSub, contents_eq, Ladder.levelSub, SideMap.getElem?_subAt]
    all_goals
      cases book.bids[price]? <;> cases book.asks[price]? <;>
        simp [contents_eq, Ladder.set, eq_comm]
  bestBid_eq book := SideMap.begin_eq book.bids
  bestAsk_eq book := SideMap.begin_eq book.asks
  quantityAt_eq {book} _ side price := by
    rw [contents_eq]
    cases side <;> rfl
  nthBid_eq book rank := SideMap.nth_eq book.bids rank
  nthAsk_eq book rank := SideMap.nth_eq book.asks rank
  bidDepth_eq book := (SideMap.length_entries book.bids).symm
  askDepth_eq book := (SideMap.length_entries book.asks).symm

end MapLevels

end OrderBook
