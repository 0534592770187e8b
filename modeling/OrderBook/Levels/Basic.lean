import OrderBook.Foundation.SortedList
import OrderBook.Types
import Mathlib.Data.Int.Order.Basic
import Mathlib.Data.List.GetD
import Mathlib.Order.RelClasses

/-!
# Price level containers

The four books differ only in how they keep the price levels. `PriceLevels` is what
a book asks of its container: the two private updates `level_add` and `level_sub`,
and the observers of the `Book` concept.

The meaning of a container is a `Ladder`, the quantity of the level at each price of
each side, if there is one. `LawfulLevels` connects a container to it through the
list of its levels from the best price outward. That list is strictly sorted and has
the ladder's levels, so it is determined by the ladder, and every observer reads
from it. Two lawful containers with the same ladder therefore look the same.
-/

namespace OrderBook

open SortedList

namespace Side

/-- `p` is a better price than `q`: higher for a bid, lower for an ask. -/
def Better : Side → Price → Price → Prop
  | buy, p, q => q < p
  | sell, p, q => p < q

instance (side : Side) (p q : Price) : Decidable (side.Better p q) := by
  cases side <;> exact inferInstanceAs (Decidable (_ < _))

instance (side : Side) : IsStrictTotalOrder Price side.Better := by
  cases side
  · exact inferInstanceAs (IsStrictTotalOrder Int (· > ·))
  · exact inferInstanceAs (IsStrictTotalOrder Int (· < ·))

end Side

/-- The quantity of the level at each price; `none` where there is no level. -/
abbrev Ladder := Side → Price → Option Quantity

namespace Ladder

def empty : Ladder := fun _ _ => none

def set (ladder : Ladder) (side : Side) (price : Price) (level : Option Quantity) : Ladder :=
  fun s p => if s = side ∧ p = price then level else ladder s p

/-- Add to the level at a price, which is created if it is missing. -/
def levelAdd (ladder : Ladder) (side : Side) (price : Price) (qty : Quantity) : Ladder :=
  ladder.set side price (some ((ladder side price).getD 0 + qty))

/-- Subtract from the level at a price, which is removed when nothing is left. -/
def levelSub (ladder : Ladder) (side : Side) (price : Price) (amount : Quantity) : Ladder :=
  match ladder side price with
  | none => ladder
  | some quantity =>
      ladder.set side price (if quantity - amount ≤ 0 then none else some (quantity - amount))

/-- Every bid is below every ask. -/
def Uncrossed (ladder : Ladder) : Prop :=
  ∀ bid ask, (ladder .buy bid).isSome → (ladder .sell ask).isSome → bid < ask

/-- The ladder with the given levels on each side. -/
def ofLevels (levels : Side → List Level) : Ladder :=
  fun side price => (lookup Level.price price (levels side)).map Level.quantity

theorem set_apply (ladder : Ladder) (side : Side) (price : Price) (level : Option Quantity)
    (s : Side) (p : Price) :
    ladder.set side price level s p = if s = side ∧ p = price then level else ladder s p := rfl

@[simp] theorem set_self (ladder : Ladder) (side : Side) (price : Price)
    (level : Option Quantity) : ladder.set side price level side price = level := by
  simp [set]

theorem levelSub_of_none {ladder : Ladder} {side : Side} {price : Price}
    (missing : ladder side price = none) (amount : Quantity) :
    ladder.levelSub side price amount = ladder := by
  simp [levelSub, missing]

theorem levelSub_of_some {ladder : Ladder} {side : Side} {price : Price} {quantity : Quantity}
    (present : ladder side price = some quantity) (amount : Quantity) :
    ladder.levelSub side price amount = ladder.set side price
      (if quantity - amount ≤ 0 then none else some (quantity - amount)) := by
  simp [levelSub, present]

end Ladder

/-- A price level container, as the books use it. The reservation that three of
the constructors make is storage that no function reads. -/
class PriceLevels (L : Type) where
  empty : L
  levelAdd : L → Side → Price → Quantity → L
  levelSub : L → Side → Price → Quantity → L
  bestBid : L → Level
  bestAsk : L → Level
  quantityAt : L → Side → Price → Quantity
  nthBid : L → Nat → Level
  nthAsk : L → Nat → Level
  bidDepth : L → Nat
  askDepth : L → Nat

open PriceLevels

namespace PriceLevels

variable {L : Type} [PriceLevels L]

/-- The observers of the two sides, by side. -/
def depth (l : L) : Side → Nat
  | .buy => bidDepth l
  | .sell => askDepth l

def best (l : L) : Side → Level
  | .buy => bestBid l
  | .sell => bestAsk l

def nth (l : L) : Side → Nat → Level
  | .buy => nthBid l
  | .sell => nthAsk l

/-- Some rank of the side shows a level at the price. -/
def Present (l : L) (side : Side) (price : Price) : Prop :=
  ∃ rank, rank < depth l side ∧ (nth l side rank).price = price

end PriceLevels

/-- How a container is read as a ladder: in which states it can be, and its levels
from the best price outward. -/
class LevelView (L : Type) where
  Valid : L → Prop
  levels : L → Side → List Level

export LevelView (Valid levels)

/-- The ladder that a container keeps. -/
def contents {L : Type} [LevelView L] (l : L) : Ladder := Ladder.ofLevels (levels l)

class LawfulLevels (L : Type) [PriceLevels L] extends LevelView L where
  valid_empty : Valid (empty : L)
  valid_levelAdd : ∀ {l : L}, Valid l → ∀ side price qty, Valid (levelAdd l side price qty)
  valid_levelSub : ∀ {l : L}, Valid l → ∀ side price amount, Valid (levelSub l side price amount)
  sorted : ∀ {l : L}, Valid l → ∀ side, Sorted Level.price side.Better (levels l side)
  levels_empty : ∀ side, levels (empty : L) side = []
  contents_levelAdd : ∀ {l : L}, Valid l → ∀ side price qty,
    contents (levelAdd l side price qty) = (contents l).levelAdd side price qty
  contents_levelSub : ∀ {l : L}, Valid l → ∀ side price amount,
    contents (levelSub l side price amount) = (contents l).levelSub side price amount
  bestBid_eq : ∀ l : L, bestBid l = (levels l .buy).headD absentLevel
  bestAsk_eq : ∀ l : L, bestAsk l = (levels l .sell).headD absentLevel
  quantityAt_eq : ∀ {l : L}, Valid l → ∀ side price,
    quantityAt l side price = (contents l side price).getD 0
  nthBid_eq : ∀ (l : L) rank, nthBid l rank = (levels l .buy).getD rank absentLevel
  nthAsk_eq : ∀ (l : L) rank, nthAsk l rank = (levels l .sell).getD rank absentLevel
  bidDepth_eq : ∀ l : L, bidDepth l = (levels l .buy).length
  askDepth_eq : ∀ l : L, askDepth l = (levels l .sell).length

open LawfulLevels

variable {L M : Type} [PriceLevels L] [LawfulLevels L] [PriceLevels M] [LawfulLevels M]
variable {l : L} {m : M}

theorem contents_empty : contents (empty : L) = Ladder.empty := by
  funext side price
  simp [contents, Ladder.ofLevels, levels_empty, Ladder.empty]

theorem mem_levels_iff (valid : Valid l) {side : Side} {level : Level} :
    level ∈ levels l side ↔ contents l side level.price = some level.quantity := by
  have found : lookup Level.price level.price (levels l side) = some level ↔
      level ∈ levels l side ∧ level.price = level.price := (sorted valid side).lookup_eq_some_iff
  simp only [and_true] at found
  rw [← found, contents, Ladder.ofLevels, Option.map_eq_some_iff]
  constructor
  · intro at_price
    exact ⟨level, at_price, rfl⟩
  · rintro ⟨other, at_price, same⟩
    obtain ⟨_, prices⟩ := mem_of_lookup at_price
    cases level
    cases other
    simp only at prices same
    rw [at_price, prices, same]

theorem mem_levels_of_contents (valid : Valid l) {side : Side} {price : Price}
    {quantity : Quantity} (present : contents l side price = some quantity) :
    ⟨price, quantity⟩ ∈ levels l side := (mem_levels_iff valid).mpr present

theorem depth_eq (l : L) (side : Side) : depth l side = (levels l side).length := by
  cases side
  · exact bidDepth_eq l
  · exact askDepth_eq l

theorem best_eq (l : L) (side : Side) : best l side = (levels l side).headD absentLevel := by
  cases side
  · exact bestBid_eq l
  · exact bestAsk_eq l

theorem nth_eq (l : L) (side : Side) (rank : Nat) :
    nth l side rank = (levels l side).getD rank absentLevel := by
  cases side
  · exact nthBid_eq l rank
  · exact nthAsk_eq l rank

/-- The ranks below the depth show exactly the levels. -/
theorem mem_levels_iff_rank {side : Side} {level : Level} :
    level ∈ levels l side ↔ ∃ rank, rank < depth l side ∧ nth l side rank = level := by
  simp only [depth_eq, nth_eq]
  rw [List.mem_iff_getElem]
  constructor
  · rintro ⟨rank, within, rfl⟩
    exact ⟨rank, within, List.getD_eq_getElem _ _ within⟩
  · rintro ⟨rank, within, rfl⟩
    exact ⟨rank, within, (List.getD_eq_getElem _ _ within).symm⟩

theorem present_iff (valid : Valid l) {side : Side} {price : Price} :
    Present l side price ↔ (contents l side price).isSome = true := by
  rw [Option.isSome_iff_exists]
  constructor
  · rintro ⟨rank, within, rfl⟩
    exact ⟨_, (mem_levels_iff valid).mp (mem_levels_iff_rank.mpr ⟨rank, within, rfl⟩)⟩
  · rintro ⟨quantity, present⟩
    obtain ⟨rank, within, same⟩ := mem_levels_iff_rank.mp (mem_levels_of_contents valid present)
    exact ⟨rank, within, by rw [same]⟩

/-- A property of the quantities of a ladder, observed by rank. -/
theorem forall_rank_iff (valid : Valid l) {side : Side} {p : Quantity → Prop} :
    (∀ rank, rank < depth l side → p (nth l side rank).quantity) ↔
      ∀ price quantity, contents l side price = some quantity → p quantity := by
  constructor
  · intro ranks price quantity present
    obtain ⟨rank, within, same⟩ := mem_levels_iff_rank.mp (mem_levels_of_contents valid present)
    have := ranks rank within
    rwa [same] at this
  · intro all rank within
    exact all _ _ ((mem_levels_iff valid).mp (mem_levels_iff_rank.mpr ⟨rank, within, rfl⟩))

/-- Two containers with the same ladder. -/
structure Alike (l : L) (m : M) : Prop where
  left : Valid l
  right : Valid m
  contents_eq : contents l = contents m

namespace Alike

theorem of_empty : Alike (empty : L) (empty : M) :=
  ⟨valid_empty, valid_empty, contents_empty.trans contents_empty.symm⟩

theorem levelAdd (alike : Alike l m) (side : Side) (price : Price) (qty : Quantity) :
    Alike (levelAdd l side price qty) (levelAdd m side price qty) where
  left := valid_levelAdd alike.left side price qty
  right := valid_levelAdd alike.right side price qty
  contents_eq := by
    rw [contents_levelAdd alike.left, contents_levelAdd alike.right, alike.contents_eq]

theorem levelSub (alike : Alike l m) (side : Side) (price : Price) (amount : Quantity) :
    Alike (levelSub l side price amount) (levelSub m side price amount) where
  left := valid_levelSub alike.left side price amount
  right := valid_levelSub alike.right side price amount
  contents_eq := by
    rw [contents_levelSub alike.left, contents_levelSub alike.right, alike.contents_eq]

/-- The sorted list of levels is determined by the ladder. -/
theorem levels_eq (alike : Alike l m) : levels l = levels m := by
  funext side
  have same : ∀ level, level ∈ levels l side ↔ level ∈ levels m side := by
    intro level
    rw [mem_levels_iff alike.left, mem_levels_iff alike.right, alike.contents_eq]
  exact (sorted alike.left side).ext_mem (sorted alike.right side) same

end Alike

/-- No observer tells the two containers apart. -/
structure SameView (l : L) (m : M) : Prop where
  bestBid : bestBid l = bestBid m
  bestAsk : bestAsk l = bestAsk m
  quantityAt : ∀ side price, quantityAt l side price = quantityAt m side price
  nthBid : ∀ rank, nthBid l rank = nthBid m rank
  nthAsk : ∀ rank, nthAsk l rank = nthAsk m rank
  bidDepth : bidDepth l = bidDepth m
  askDepth : askDepth l = askDepth m

theorem Alike.sameView (alike : Alike l m) : SameView l m where
  bestBid := by rw [bestBid_eq, bestBid_eq, alike.levels_eq]
  bestAsk := by rw [bestAsk_eq, bestAsk_eq, alike.levels_eq]
  quantityAt := fun side price => by
    rw [quantityAt_eq alike.left, quantityAt_eq alike.right, alike.contents_eq]
  nthBid := fun rank => by rw [nthBid_eq, nthBid_eq, alike.levels_eq]
  nthAsk := fun rank => by rw [nthAsk_eq, nthAsk_eq, alike.levels_eq]
  bidDepth := by rw [bidDepth_eq, bidDepth_eq, alike.levels_eq]
  askDepth := by rw [askDepth_eq, askDepth_eq, alike.levels_eq]

/-- What the ranked observers of one side say: strictly worse prices over the
ranks, the absent level from the depth on, and the quantities of `quantity_at`. -/
structure RanksConsistent (side : Side) (depth : Nat) (best : Level) (nth : Nat → Level)
    (quantityAt : Price → Quantity) : Prop where
  better : ∀ r s, r < s → s < depth → side.Better (nth r).price (nth s).price
  best_eq : best = nth 0
  absent : ∀ rank, depth ≤ rank → nth rank = absentLevel
  best_absent : depth = 0 → best = absentLevel
  quantity_nth : ∀ rank, rank < depth → quantityAt (nth rank).price = (nth rank).quantity
  quantity_other : ∀ price, (∀ rank, rank < depth → (nth rank).price ≠ price) →
    quantityAt price = 0

/-- A side whose observers all read one strictly sorted list. -/
theorem ranksConsistent_of_sorted {side : Side} {book : List Level}
    (sorted : Sorted Level.price side.Better book) : RanksConsistent side book.length
      (book.headD absentLevel) (fun rank => book.getD rank absentLevel)
      (fun price => ((lookup Level.price price book).map Level.quantity).getD 0) where
  better := by
    intro r s before within
    rw [List.getD_eq_getElem _ _ within, List.getD_eq_getElem _ _ (Nat.lt_trans before within)]
    exact List.pairwise_iff_getElem.mp sorted r s _ _ before
  best_eq := by cases book <;> rfl
  absent := by
    intro rank beyond
    exact List.getD_eq_default _ _ beyond
  best_absent := by
    intro none
    rw [List.length_eq_zero_iff] at none
    rw [none]
    rfl
  quantity_nth := by
    intro rank within
    rw [List.getD_eq_getElem _ _ within,
        sorted.lookup_eq_some_iff.mpr ⟨List.getElem_mem within, rfl⟩]
    rfl
  quantity_other := by
    intro price missing
    rw [lookup_eq_none]
    · rfl
    · intro level member
      obtain ⟨rank, within, rfl⟩ := List.getElem_of_mem member
      have := missing rank within
      rwa [List.getD_eq_getElem _ _ within] at this

/-- The observers of each side agree with one another. -/
def Consistent (l : L) : Prop :=
  ∀ side, RanksConsistent side (depth l side) (best l side) (nth l side) (quantityAt l side)

theorem consistent_of_valid (valid : Valid l) : Consistent l := by
  intro side
  have ranks := ranksConsistent_of_sorted (sorted valid side)
  rw [← depth_eq, ← best_eq] at ranks
  convert ranks using 1
  · exact funext (nth_eq l side)
  · exact funext (quantityAt_eq valid side)

/-- No level of a side is better than the best one. -/
theorem not_better_best (valid : Valid l) {side : Side} {price : Price}
    (present : Present l side price) : ¬ side.Better price (best l side).price := by
  have ranks := consistent_of_valid valid side
  obtain ⟨rank, within, rfl⟩ := present
  rw [ranks.best_eq]
  cases rank with
  | zero => exact irrefl_of side.Better _
  | succ rank => exact asymm_of side.Better (ranks.better 0 (rank + 1) rank.succ_pos within)

end OrderBook
