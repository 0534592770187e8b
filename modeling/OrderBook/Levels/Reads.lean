import OrderBook.Levels.Locate
import Mathlib.Data.Nat.Log

/-!
# What the lookups read

The two lookups that are written out in the source, the scan of `BookLinear` and the
halving search of `BookBranchless`, with the trace of the levels they read. On a
sorted side the scan reads from the best level outward until it has passed every level
that is better than the price. The halving search reads as many levels as the depth has
binary digits, whatever the price is. The levels that an insertion or a removal moves
are those that are better than the price, too.
-/

namespace OrderBook

open SortedList

/-- The number of levels that are better than a price, and so stored behind it. -/
def ahead (book : List Level) (price : Price) (ascending : Bool) : Nat :=
  book.countP fun level => Precedes ascending price level.price

/-- How many levels a vector moves to insert a level at the place, or to erase it there. -/
def Located.moves {book : List Level} (located : Located book) : Nat :=
  if located.found then book.length - 1 - located.index else book.length - located.index

namespace BookLinear

theorem scanBack_le (book : List Level) (passes : Level → Bool) (i : Nat)
    (bound : i ≤ book.length) : (scanBack book passes i bound).val ≤ i := by
  induction i with
  | zero => exact Nat.le_refl 0
  | succ i ih =>
      rw [scanBack]
      split
      · exact Nat.le_succ_of_le (ih (Nat.le_of_succ_le bound))
      · exact Nat.le_refl _

/-- The scan reads every level down to the one that it stops at. -/
theorem scanTraced_eq (book : List Level) (passes : Level → Bool) (i : Nat)
    (bound : i ≤ book.length) : scanTraced book passes i bound =
      (scanBack book passes i bound,
        (List.range i).reverse.take (i - (scanBack book passes i bound).val + 1)) := by
  induction i with
  | zero => rfl
  | succ i ih =>
      have below := scanBack_le book passes i (Nat.le_of_succ_le bound)
      simp only [scanTraced, scanBack, List.range_succ, List.reverse_append, List.reverse_singleton]
      split
      case isTrue =>
        rw [ih, Nat.succ_sub below]
        rfl
      case isFalse => simp

theorem locateTraced_fst (book : List Level) (price : Price) (ascending : Bool) :
    (locateTraced book price ascending).1 = locate book price ascending := by
  simp only [locateTraced, locate, scanTraced_eq]
  generalize scanBack book _ book.length _ = stopped
  obtain ⟨_ | i, bound⟩ := stopped
  · rfl
  · dsimp only
    split <;> rfl

/-- On a sorted side the scan stops behind the last level that is not better. -/
theorem stop_eq {book : List Level} {ascending : Bool}
    (sorted : Sorted Level.price (Precedes ascending) book) (price : Price) :
    (scanBack book (fun level =>
        if ascending then decide (level.price > price) else decide (level.price < price))
      book.length (Nat.le_refl _)).val = book.length - ahead book price ascending := by
  have position : Position Level.price (Precedes ascending) price book
      (locate book price ascending).found (locate book price ascending).index :=
    LawfulLocate.position sorted price
  have behind := position.countP_after
  change ahead book price ascending = _ at behind
  rcases stopped : scanBack book (fun level =>
      if ascending then decide (level.price > price) else decide (level.price < price))
    book.length (Nat.le_refl _) with ⟨_ | i, bound⟩
  · simp only [locate, stopped] at behind
    simp [behind]
  · simp only [locate, stopped] at behind
    rw [behind]
    dsimp only
    split
    · simp only [if_true]
      omega
    · simp only [Bool.false_eq_true, if_false]
      omega

/-- From the best level outward, up to the first that is not better than the price. That
one is read once more, to compare its price. -/
theorem reads_eq {book : List Level} {ascending : Bool}
    (sorted : Sorted Level.price (Precedes ascending) book) (price : Price) :
    (locateTraced book price ascending).2 =
      (List.range book.length).reverse.take (ahead book price ascending + 1) ++
        if ahead book price ascending < book.length then
          [book.length - 1 - ahead book price ascending] else [] := by
  have stop := stop_eq sorted price
  have most : ahead book price ascending ≤ book.length := List.countP_le_length
  simp only [locateTraced, scanTraced_eq]
  generalize scanBack book _ book.length _ = stopped at stop ⊢
  obtain ⟨_ | i, bound⟩ := stopped
  · have all : ahead book price ascending = book.length := by
      dsimp only at stop
      omega
    simp [all]
  · dsimp only at stop
    have inside : ahead book price ascending < book.length := by omega
    have passed : book.length - (i + 1) = ahead book price ascending := by omega
    have last : book.length - 1 - ahead book price ascending = i := by omega
    rw [if_pos inside, last]
    simp only [passed]
    split <;> rfl

end BookLinear

theorem Located.ofLowerBound_index (book : List Level) (price : Price) (index : Nat)
    (index_le : index ≤ book.length) : (ofLowerBound book price index index_le).index = index := by
  simp only [ofLowerBound]
  split
  · split <;> rfl
  · rfl

namespace BookBranchless

variable {data : List Level} {before : Level → Bool}

theorem halveTraced_fst (fuel base n : Nat) (pos : 0 < n) (enough : n ≤ fuel + 1)
    (bound : base + n ≤ data.length) : (halveTraced data before fuel base n pos enough bound).1 =
      halve data before fuel base n pos enough bound := by
  induction fuel generalizing base n with
  | zero => rfl
  | succ fuel ih =>
      simp only [halveTraced, halve]
      split
      · exact ih _ _ _ _ _
      · rfl

/-- The loop probes as many levels as halving, rounded up, takes to come down to one. -/
theorem length_halveTraced (fuel base n : Nat) (pos : 0 < n) (enough : n ≤ fuel + 1)
    (bound : base + n ≤ data.length) :
    (halveTraced data before fuel base n pos enough bound).2.length = Nat.clog 2 n := by
  induction fuel generalizing base n with
  | zero =>
      obtain rfl : n = 1 := by omega
      rfl
  | succ fuel ih =>
      simp only [halveTraced]
      split
      case isTrue more =>
        have halved : (n + 2 - 1) / 2 = n - n / 2 := by omega
        rw [Nat.clog_of_two_le (by decide) more, halved]
        simp only [List.length_cons]
        rw [ih]
      case isFalse =>
        obtain rfl : n = 1 := by omega
        rfl

theorem branchlessLowerBoundTraced_fst (pos : 0 < data.length) :
    (branchlessLowerBoundTraced data before pos).1 = branchlessLowerBound data before pos := by
  have same : (halveTraced data before data.length 0 data.length pos (by omega) (by omega)).1 =
      halve data before data.length 0 data.length pos (by omega) (by omega) :=
    halveTraced_fst data.length 0 data.length pos (by omega) (by omega)
  simp only [branchlessLowerBoundTraced, branchlessLowerBound]
  generalize halveTraced data before data.length 0 data.length _ _ _ = traced at same ⊢
  generalize halve data before data.length 0 data.length _ _ _ = stop at same ⊢
  subst same
  rfl

theorem length_branchlessLowerBoundTraced (pos : 0 < data.length) :
    (branchlessLowerBoundTraced data before pos).2.length = Nat.clog 2 data.length + 1 := by
  simp only [branchlessLowerBoundTraced, List.length_append, List.length_singleton,
    length_halveTraced]

theorem locateTraced_fst (book : List Level) (price : Price) (ascending : Bool) :
    (locateTraced book price ascending).1 = locate book price ascending := by
  simp only [locateTraced, locate]
  split
  · rfl
  · rw [← branchlessLowerBoundTraced_fst]

/-- However the prices compare, the search reads one level more than its loop takes turns,
and the level at the lower bound if there is one. -/
theorem length_reads (book : List Level) (price : Price) (ascending : Bool) :
    (locateTraced book price ascending).2.length =
      if book.length = 0 then 0
      else Nat.clog 2 book.length + 1 +
        if (locate book price ascending).index < book.length then 1 else 0 := by
  rw [← locateTraced_fst]
  simp only [locateTraced]
  split
  · rfl
  · rw [Located.ofLowerBound_index]
    simp only [List.length_append, length_branchlessLowerBoundTraced]
    split <;> rfl

end BookBranchless

namespace VectorLevels

open PriceLevels

variable {locate : Locate} {levels : VectorLevels locate} {side : Side} {rank : Nat}

theorem length_book (levels : VectorLevels locate) (side : Side) :
    (levels.book side).length = depth levels side := by
  cases side <;> rfl

/-- The place of the level at a rank, which is counted from the back. -/
theorem position_nth (valid : LevelView.Valid levels) (within : rank < depth levels side) :
    Position Level.price (Precedes (side = .buy)) (PriceLevels.nth levels side rank).price
      (levels.book side) true (depth levels side - 1 - rank) := by
  have shown : PriceLevels.nth levels side rank = nth (levels.book side) rank := by
    cases side <;> rfl
  rw [← length_book] at within ⊢
  have inside : (levels.book side).length - 1 - rank < (levels.book side).length := by omega
  have at_rank : (levels.book side)[(levels.book side).length - 1 - rank]? =
      some (PriceLevels.nth levels side rank) := by
    rw [shown, nth, dif_neg (by omega), List.getElem?_eq_getElem inside]
  exact (valid side).present at_rank rfl

/-- As many levels are better than the one at a rank as the rank says. -/
theorem ahead_nth (valid : LevelView.Valid levels) (within : rank < depth levels side) :
    ahead (levels.book side) (PriceLevels.nth levels side rank).price (side = .buy) = rank := by
  have behind := (position_nth valid within).countP_after
  change ahead _ _ _ = _ at behind
  rw [if_pos rfl, length_book] at behind
  omega

/-- Every lawful lookup answers with that place. -/
theorem index_nth [LawfulLocate locate] (valid : LevelView.Valid levels)
    (within : rank < depth levels side) :
    (levels.locateIn side (PriceLevels.nth levels side rank).price).index =
      depth levels side - 1 - rank :=
  ((finds valid side _).position.unique (position_nth valid within)).2

/-- An insertion and a removal move the levels that are better than the price. -/
theorem moves_eq [LawfulLocate locate] (valid : LevelView.Valid levels) (side : Side)
    (price : Price) : (levels.locateIn side price).moves =
      ahead (levels.book side) price (side = .buy) :=
  ((finds valid side price).position.countP_after).symm

end VectorLevels

end OrderBook
