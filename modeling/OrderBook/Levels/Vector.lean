import OrderBook.Levels.Basic

/-!
# The contiguous containers: one sorted vector a side

The three vector books keep each side in a vector with the best price at the back,
bids ascending and asks descending. They share every function but `locate`, so one
container is defined over the lookup and each book is that container at its own.

A lookup answers with a `Located`, which carries the bounds that make the accesses
of its callers legal whether or not the vector is sorted. When it is sorted, a
lawful lookup answers with the `Position` of the price.
-/

namespace OrderBook

open SortedList

/-- The answer of `locate`: the level's index, or the index to insert it at. -/
structure Located (book : List Level) where
  found : Bool
  index : Nat
  index_le : index ≤ book.length
  index_lt : found = true → index < book.length

namespace Located

variable {book : List Level}

def addAt (located : Located book) (price : Price) (qty : Quantity) : List Level :=
  if located.found then
    book.modify located.index fun level => { level with quantity := level.quantity + qty }
  else book.insertIdx located.index ⟨price, qty⟩

def subAt (located : Located book) (amount : Quantity) : List Level :=
  if found : located.found then
    let reduced := book.modify located.index
      fun level => { level with quantity := level.quantity - amount }
    have inside : located.index < reduced.length := by
      rw [List.length_modify]
      exact located.index_lt found
    if reduced[located.index].quantity ≤ 0 then reduced.eraseIdx located.index else reduced
  else book

def quantity (located : Located book) : Quantity :=
  if found : located.found then
    have inside := located.index_lt found
    book[located.index].quantity
  else 0

end Located

/-- The order of a stored side: upwards for bids, downwards for asks. -/
def Precedes (ascending : Bool) (a b : Price) : Prop := if ascending then a < b else a > b

instance (ascending : Bool) (a b : Price) : Decidable (Precedes ascending a b) := by
  unfold Precedes
  exact inferInstance

instance (ascending : Bool) : IsStrictTotalOrder Price (Precedes ascending) := by
  cases ascending
  · exact inferInstanceAs (IsStrictTotalOrder Int (· > ·))
  · exact inferInstanceAs (IsStrictTotalOrder Int (· < ·))

/-- The lookup by which a vector book finds a level in one of its sides. -/
abbrev Locate := (book : List Level) → Price → (ascending : Bool) → Located book

/-- A vector book's levels. The lookup is a parameter of the book, not stored in it. -/
structure VectorLevels (locate : Locate) where
  bids : List Level
  asks : List Level
  deriving DecidableEq

namespace VectorLevels

variable {locate : Locate}

def book (levels : VectorLevels locate) : Side → List Level
  | .buy => levels.bids
  | .sell => levels.asks

def setBook (levels : VectorLevels locate) (side : Side) (book : List Level) :
    VectorLevels locate :=
  match side with
  | .buy => { levels with bids := book }
  | .sell => { levels with asks := book }

/-- The book of a side searched in the order it is stored in. -/
def locateIn (levels : VectorLevels locate) (side : Side) (price : Price) :
    Located (levels.book side) :=
  locate (levels.book side) price (side = .buy)

def levelAdd (levels : VectorLevels locate) (side : Side) (price : Price) (qty : Quantity) :
    VectorLevels locate :=
  levels.setBook side ((levels.locateIn side price).addAt price qty)

def levelSub (levels : VectorLevels locate) (side : Side) (price : Price) (amount : Quantity) :
    VectorLevels locate :=
  levels.setBook side ((levels.locateIn side price).subAt amount)

def quantityAt (levels : VectorLevels locate) (side : Side) (price : Price) : Quantity :=
  (levels.locateIn side price).quantity

/-- The best level lives at the back. -/
def best (book : List Level) : Level := book.getLast?.getD absentLevel

/-- Rank zero is the best price, which lives at the back. -/
def nth (book : List Level) (rank : Nat) : Level :=
  if beyond : rank ≥ book.length then absentLevel
  else
    have inside : book.length - 1 - rank < book.length := by omega
    book[book.length - 1 - rank]

instance : PriceLevels (VectorLevels locate) where
  empty := ⟨[], []⟩
  levelAdd
  levelSub
  bestBid levels := best levels.bids
  bestAsk levels := best levels.asks
  quantityAt
  nthBid levels rank := nth levels.bids rank
  nthAsk levels rank := nth levels.asks rank
  bidDepth levels := levels.bids.length
  askDepth levels := levels.asks.length

end VectorLevels

namespace Located

variable {book : List Level} {ascending : Bool} {price : Price} {located : Located book}

/-- The lookup has found the place of the price in a sorted side. -/
structure Finds (located : Located book) (ascending : Bool) (price : Price) : Prop where
  sorted : Sorted Level.price (Precedes ascending) book
  position : Position Level.price (Precedes ascending) price book located.found located.index

namespace Finds

theorem lookup_of_found (finds : located.Finds ascending price) (found : located.found = true) :
    ∃ (inside : located.index < book.length),
      lookup Level.price price book = some book[located.index] := by
  have place := finds.position
  rw [found] at place
  exact ⟨located.index_lt found, by
    rw [place.lookup_present, List.getElem?_eq_getElem (located.index_lt found)]⟩

theorem lookup_of_not_found (finds : located.Finds ascending price)
    (missing : located.found = false) : lookup Level.price price book = none := by
  have place := finds.position
  rw [missing] at place
  exact place.lookup_absent

theorem addAt_sorted (finds : located.Finds ascending price) (qty : Quantity) :
    Sorted Level.price (Precedes ascending) (located.addAt price qty) := by
  have place := finds.position
  simp only [addAt]
  split
  case isTrue => exact finds.sorted.modify (by intros; rfl) _
  case isFalse missing =>
    rw [Bool.not_eq_true] at missing
    rw [missing] at place
    exact place.insert_sorted finds.sorted rfl

theorem lookup_addAt (finds : located.Finds ascending price) (qty : Quantity) (p : Price) :
    (lookup Level.price p (located.addAt price qty)).map Level.quantity =
      if p = price then
        some (((lookup Level.price price book).map Level.quantity).getD 0 + qty)
      else (lookup Level.price p book).map Level.quantity := by
  have place := finds.position
  simp only [addAt]
  split
  case isTrue found =>
    rw [found] at place
    rw [place.lookup_modify (by intros; rfl)]
    obtain ⟨_, at_price⟩ := finds.lookup_of_found found
    rw [at_price]
    split <;> rfl
  case isFalse missing =>
    rw [Bool.not_eq_true] at missing
    rw [missing] at place
    rw [place.lookup_insertIdx rfl, finds.lookup_of_not_found missing]
    split
    · simp
    · rfl

theorem subAt_sorted (finds : located.Finds ascending price) (amount : Quantity) :
    Sorted Level.price (Precedes ascending) (located.subAt amount) := by
  have reduced := finds.sorted.modify (f := fun level =>
    { level with quantity := level.quantity - amount }) (by intros; rfl) located.index
  rw [subAt]
  split
  · dsimp only
    split
    · exact reduced.eraseIdx located.index
    · exact reduced
  · exact finds.sorted

theorem lookup_subAt (finds : located.Finds ascending price) (amount : Quantity) (p : Price) :
    (lookup Level.price p (located.subAt amount)).map Level.quantity =
      match (lookup Level.price price book).map Level.quantity with
      | none => (lookup Level.price p book).map Level.quantity
      | some quantity =>
          if p = price then (if quantity - amount ≤ 0 then none else some (quantity - amount))
          else (lookup Level.price p book).map Level.quantity := by
  have place := finds.position
  simp only [subAt]
  split
  case isTrue found =>
    rw [found] at place
    obtain ⟨inside, at_price⟩ := finds.lookup_of_found found
    have reduced := place.modify (f := fun level =>
      { level with quantity := level.quantity - amount }) (by intros; rfl)
    rw [at_price]
    simp only [List.getElem_modify_eq, Option.map_some]
    split
    case isTrue spent =>
      rw [reduced.lookup_eraseIdx, place.lookup_modify (by intros; rfl)]
      split <;> simp_all
    case isFalse left =>
      rw [place.lookup_modify (by intros; rfl), at_price]
      split <;> simp_all
  case isFalse missing =>
    rw [Bool.not_eq_true] at missing
    rw [finds.lookup_of_not_found missing]
    rfl

theorem quantity_eq (finds : located.Finds ascending price) :
    located.quantity = ((lookup Level.price price book).map Level.quantity).getD 0 := by
  simp only [quantity]
  split
  case isTrue found =>
    obtain ⟨_, at_price⟩ := finds.lookup_of_found found
    rw [at_price]
    rfl
  case isFalse missing =>
    rw [Bool.not_eq_true] at missing
    rw [finds.lookup_of_not_found missing]
    rfl

end Finds

end Located

/-- A lookup that finds its place in every sorted side. -/
class LawfulLocate (locate : Locate) : Prop where
  position : ∀ {book : List Level} {ascending : Bool},
    Sorted Level.price (Precedes ascending) book → ∀ price,
      Position Level.price (Precedes ascending) price book
        (locate book price ascending).found (locate book price ascending).index

namespace VectorLevels

variable {locate : Locate} {levels : VectorLevels locate} {side : Side} {price : Price}

instance : LevelView (VectorLevels locate) where
  Valid levels := ∀ side, Sorted Level.price (Precedes (side = .buy)) (levels.book side)
  levels levels side := (levels.book side).reverse

@[simp] theorem book_setBook_self (levels : VectorLevels locate) (side : Side)
    (book : List Level) : (levels.setBook side book).book side = book := by
  cases side <;> rfl

theorem book_setBook_ne (levels : VectorLevels locate) {other : Side} (ne : other ≠ side)
    (book : List Level) : (levels.setBook side book).book other = levels.book other := by
  cases side <;> cases other
  · exact absurd rfl ne
  · rfl
  · rfl
  · exact absurd rfl ne

/-- Backwards, a stored side runs from the best price outward. -/
theorem reverse_sorted {book : List Level}
    (sorted : Sorted Level.price (Precedes (side = .buy)) book) :
    Sorted Level.price side.Better book.reverse := by
  rw [Sorted, List.pairwise_reverse]
  apply List.Pairwise.imp ?_ sorted
  intro a b before
  cases side <;> exact before

theorem contents_eq (valid : Valid levels) (side : Side) (price : Price) :
    contents levels side price =
      (lookup Level.price price (levels.book side)).map Level.quantity := by
  have same : lookup Level.price price (levels.book side).reverse =
      lookup Level.price price (levels.book side) := by
    ext level
    rw [(reverse_sorted (valid side)).lookup_eq_some_iff, (valid side).lookup_eq_some_iff,
      List.mem_reverse]
  rw [← same]
  rfl

theorem valid_setBook (valid : Valid levels) {book : List Level}
    (sorted : Sorted Level.price (Precedes (side = .buy)) book) :
    Valid (levels.setBook side book) := by
  intro other
  by_cases same : other = side
  · subst same
    rwa [book_setBook_self]
  · rw [book_setBook_ne levels same]
    exact valid other

/-- Replacing a side by one that differs at a single price. -/
theorem contents_setBook (valid : Valid levels) {book : List Level}
    (sorted : Sorted Level.price (Precedes (side = .buy)) book) {level : Option Quantity}
    (changed : ∀ p, (lookup Level.price p book).map Level.quantity =
      if p = price then level else contents levels side p) :
    contents (levels.setBook side book) = (contents levels).set side price level := by
  funext s p
  rw [contents_eq (valid_setBook valid sorted), Ladder.set_apply]
  by_cases same : s = side
  · subst same
    rw [book_setBook_self, changed]
    simp
  · rw [book_setBook_ne levels same, ← contents_eq valid]
    simp [same]

theorem best_eq (book : List Level) : best book = book.reverse.headD absentLevel := by
  rw [best, List.headD_eq_head?_getD, List.head?_reverse]

theorem nth_eq (book : List Level) (rank : Nat) :
    nth book rank = book.reverse.getD rank absentLevel := by
  simp only [nth]
  split
  case isTrue beyond =>
    rw [List.getD_eq_default _ _ (by simpa using beyond)]
  case isFalse within =>
    rw [List.getD_eq_getElem _ _ (by simpa using within), List.getElem_reverse]

variable [LawfulLocate locate]

theorem finds (valid : Valid levels) (side : Side) (price : Price) :
    (levels.locateIn side price).Finds (side = .buy) price :=
  ⟨valid side, LawfulLocate.position (valid side) price⟩

theorem contents_levelAdd (valid : Valid levels) (side : Side) (price : Price) (qty : Quantity) :
    contents (levels.levelAdd side price qty) = (contents levels).levelAdd side price qty := by
  have place := finds valid side price
  apply contents_setBook valid (place.addAt_sorted qty)
  intro p
  rw [place.lookup_addAt, contents_eq valid, contents_eq valid]

theorem contents_levelSub (valid : Valid levels) (side : Side) (price : Price)
    (amount : Quantity) :
    contents (levels.levelSub side price amount) =
      (contents levels).levelSub side price amount := by
  have place := finds valid side price
  cases present : contents levels side price with
  | none =>
      rw [Ladder.levelSub_of_none present]
      funext s p
      by_cases same : s = side
      · subst same
        rw [levelSub, contents_eq (valid_setBook valid (place.subAt_sorted amount)),
          book_setBook_self, place.lookup_subAt, ← contents_eq valid, ← contents_eq valid, present]
      · rw [levelSub, contents_eq (valid_setBook valid (place.subAt_sorted amount)),
          book_setBook_ne levels same, contents_eq valid]
  | some quantity =>
      rw [Ladder.levelSub_of_some present]
      apply contents_setBook valid (place.subAt_sorted amount)
      intro p
      rw [place.lookup_subAt, ← contents_eq valid, ← contents_eq valid, present]

instance : LawfulLevels (VectorLevels locate) where
  valid_empty := by
    intro side
    cases side <;> exact List.Pairwise.nil
  valid_levelAdd valid side price qty :=
    valid_setBook valid ((finds valid side price).addAt_sorted qty)
  valid_levelSub valid side price amount :=
    valid_setBook valid ((finds valid side price).subAt_sorted amount)
  sorted valid side := reverse_sorted (valid side)
  levels_empty side := by cases side <;> rfl
  contents_levelAdd := contents_levelAdd
  contents_levelSub := contents_levelSub
  bestBid_eq levels := best_eq levels.bids
  bestAsk_eq levels := best_eq levels.asks
  quantityAt_eq valid side price := by
    rw [contents_eq valid, ← (finds valid side price).quantity_eq]
    rfl
  nthBid_eq levels rank := nth_eq levels.bids rank
  nthAsk_eq levels rank := nth_eq levels.asks rank
  bidDepth_eq levels := List.length_reverse.symm
  askDepth_eq levels := List.length_reverse.symm

end VectorLevels

end OrderBook
