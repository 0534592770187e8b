import OrderBook.Bench.SweepTargets
import OrderBook.Levels.Reads
import Mathlib.Algebra.BigOperators.Group.List.Basic
import Mathlib.Algebra.Group.Action.Defs
import Mathlib.Tactic.Ring

/-!
# What the depth sweep measures

The sweep asks from which depth on the branchless search is cheaper than the linear scan.
Counted in levels read, a lookup of the level at a rank costs the scan that rank and two
more, and the search the logarithm of the depth and two more. So the answer for a batch
depends on the ranks that are drawn, cut off at the depth, and on nothing else.
-/

namespace OrderBook

open PriceLevels

/-- The number of levels that a lookup reads. -/
def BookLinear.readCount (levels : VectorLevels BookLinear.locate) (side : Side)
    (price : Price) : Nat :=
  (BookLinear.locateTraced (levels.book side) price (side = .buy)).2.length

def BookBranchless.readCount (levels : VectorLevels BookBranchless.locate) (side : Side)
    (price : Price) : Nat :=
  (BookBranchless.locateTraced (levels.book side) price (side = .buy)).2.length

section Shown

variable {side : Side} {rank : Nat}

theorem BookLinear.reads_nth {levels : VectorLevels BookLinear.locate}
    (valid : LevelView.Valid levels) (within : rank < depth levels side) :
    (BookLinear.locateTraced (levels.book side) (nth levels side rank).price (side = .buy)).2 =
      (List.range (depth levels side)).reverse.take (rank + 1) ++
        [depth levels side - 1 - rank] := by
  rw [BookLinear.reads_eq (valid side), VectorLevels.ahead_nth valid within,
    VectorLevels.length_book, if_pos within]

theorem BookLinear.readCount_nth {levels : VectorLevels BookLinear.locate}
    (valid : LevelView.Valid levels) (within : rank < depth levels side) :
    BookLinear.readCount levels side (nth levels side rank).price = rank + 2 := by
  rw [BookLinear.readCount, BookLinear.reads_nth valid within]
  simp only [List.length_append, List.length_take, List.length_reverse, List.length_range,
    List.length_singleton]
  omega

theorem BookBranchless.readCount_nth {levels : VectorLevels BookBranchless.locate}
    (valid : LevelView.Valid levels) (within : rank < depth levels side) :
    BookBranchless.readCount levels side (nth levels side rank).price =
      Nat.clog 2 (depth levels side) + 2 := by
  have index := VectorLevels.index_nth valid within
  rw [BookBranchless.readCount, BookBranchless.length_reads, VectorLevels.length_book,
    if_neg (by omega)]
  rw [VectorLevels.locateIn] at index
  rw [index, if_pos (by omega)]

end Shown

/-- In any book that a stream reaches, the scan for a level reads the ranks up to its own,
from the best one outward, and the branchless search a number of levels that depends on
the depth only. Both place a price with as many levels to move as are better than it. -/
theorem lookups_read (hint : Nat) (events : List Event) (linear : BookLinear)
    (reached : Book.replay hint events = .ok linear) :
    ∃ branchless : BookBranchless, Book.replay hint events = .ok branchless ∧
      ∀ side,
        (∀ rank, rank < depth linear.levels side →
          let price := (nth linear.levels side rank).price
          BookLinear.locateTraced (linear.levels.book side) price (side = .buy) =
            (linear.levels.locateIn side price,
              (List.range (depth linear.levels side)).reverse.take (rank + 1) ++
                [depth linear.levels side - 1 - rank]) ∧
          BookBranchless.readCount branchless.levels side price =
            Nat.clog 2 (depth linear.levels side) + 2) ∧
        ∀ price, (linear.levels.locateIn side price).moves =
            ahead (linear.levels.book side) price (side = .buy) ∧
          (branchless.levels.locateIn side price).moves =
            ahead (linear.levels.book side) price (side = .buy) := by
  obtain ⟨branchless, reached', similar⟩ := (Book.replay_corresponds
    (M := VectorLevels BookBranchless.locate) hint events).ok_right reached
  have valid := similar.levels.left
  have valid' := similar.levels.right
  have same := similar.levels.levels_eq
  refine ⟨branchless, reached', fun side => ⟨fun rank within => ?_, fun price => ⟨?_, ?_⟩⟩⟩
  · have depths : depth branchless.levels side = depth linear.levels side := by
      rw [depth_eq, depth_eq, same]
    have shown : nth linear.levels side rank = nth branchless.levels side rank := by
      rw [nth_eq, nth_eq, same]
    refine ⟨Prod.ext (BookLinear.locateTraced_fst _ _ _) (BookLinear.reads_nth valid within), ?_⟩
    rw [shown, BookBranchless.readCount_nth valid' (by rwa [depths]), depths]
  · exact VectorLevels.moves_eq valid side price
  · have stored : branchless.levels.book side = linear.levels.book side :=
      (List.reverse_injective (congrFun same side)).symm
    rw [VectorLevels.moves_eq valid', stored]

/-- Three bids, added out of order. -/
theorem lookups_read_three : ∃ branchless : BookBranchless,
    Book.replay 4 [⟨1, 1, 5, 100, 1⟩, ⟨1, 2, 5, 102, 1⟩, ⟨1, 3, 5, 101, 1⟩] = .ok branchless ∧
      BookBranchless.readCount branchless.levels .buy 101 = 4 := by
  obtain ⟨branchless, reached, costs⟩ := lookups_read 4
    [⟨1, 1, 5, 100, 1⟩, ⟨1, 2, 5, 102, 1⟩, ⟨1, 3, 5, 101, 1⟩] _ rfl
  exact ⟨branchless, reached, ((costs .buy).1 1 (by decide)).2⟩

namespace Sweep

section Batch

variable {M : Type} [PriceLevels M] [LawfulLevels M] {depth hint hint' : Nat}
variable {levels : List SweepLevel} {reference : Book M}

/-- The rank that the target of a turn looks up. -/
def targetRank (depth : Nat) (offset : Nat → Nat) (i : Nat) : Nat := min (offset i) (depth - 1)

/-- A target is at its rank in every book with the levels of the reference. -/
theorem targetLevel_eq {L : Type} [PriceLevels L] [LawfulLevels L] {book : Book L}
    (populated : Populated hint levels reference) (populated' : Populated hint' levels book)
    (offset : Nat → Nat) (i : Nat) : targetLevel reference depth offset i =
      nth book.levels (targetSide i) (targetRank depth offset i) := by
  rw [targetLevel, nth_eq, nth_eq, populated.levels, populated'.levels]
  rfl

theorem linear_reads (stacked : Stacked depth levels) (pos : 1 ≤ depth)
    (populated : Populated hint levels reference) {linear : BookLinear}
    (populated' : Populated hint' levels linear) (offset : Nat → Nat) (count : Nat) :
    ((buildTargets reference count offset).map fun target =>
        BookLinear.readCount linear.levels target.side target.price).sum =
      ((List.range count).map (targetRank depth offset)).sum + 2 * count := by
  rw [buildTargets_eq (stacked.depth_populated populated) pos, List.map_map]
  have each : ∀ i, BookLinear.readCount linear.levels (targetSide i)
      (targetLevel reference depth offset i).price = targetRank depth offset i + 2 := by
    intro i
    rw [targetLevel_eq populated populated']
    apply BookLinear.readCount_nth populated'.valid
    rw [stacked.depth_populated populated', targetRank]
    omega
  simp only [Function.comp_def, each, List.sum_map_add, List.map_const', List.sum_replicate,
    List.length_range, smul_eq_mul]
  omega

theorem branchless_reads (stacked : Stacked depth levels) (pos : 1 ≤ depth)
    (populated : Populated hint levels reference) {branchless : BookBranchless}
    (populated' : Populated hint' levels branchless) (offset : Nat → Nat) (count : Nat) :
    ((buildTargets reference count offset).map fun target =>
        BookBranchless.readCount branchless.levels target.side target.price).sum =
      Nat.clog 2 depth * count + 2 * count := by
  rw [buildTargets_eq (stacked.depth_populated populated) pos, List.map_map]
  have depths := stacked.depth_populated populated'
  have each : ∀ i, BookBranchless.readCount branchless.levels (targetSide i)
      (targetLevel reference depth offset i).price = Nat.clog 2 depth + 2 := by
    intro i
    rw [targetLevel_eq populated populated', BookBranchless.readCount_nth populated'.valid, depths]
    rw [depths, targetRank]
    omega
  simp only [Function.comp_def, each, List.map_const', List.sum_replicate, List.length_range,
    smul_eq_mul]
  ring

end Batch

end Sweep

end OrderBook
