import OrderBook.Levels.Basic
import OrderBook.Reference.LiveOrders
import Mathlib.Algebra.BigOperators.Group.List.Basic
import Mathlib.Algebra.Order.BigOperators.Group.List
import Mathlib.Data.List.Dedup
import Mathlib.Tactic.Linarith

/-!
# The ladder of a list of orders

A resting order adds its remaining quantity to the level at its side and price, and
a level is there as long as some order rests on it. `ladderOf` is that ladder. It
depends on the orders up to permutation only, and the two level updates of a book
are exactly what adding, reducing and removing one order does to it, provided that
every order has something left.
-/

namespace OrderBook

open scoped List

/-- Whether an order rests on the level at a side and a price. -/
def Order.on (side : Side) (price : Price) (order : Order) : Bool :=
  order.side = side && order.price = price

theorem Order.on_iff {side : Side} {price : Price} {order : Order} :
    order.on side price = true ↔ side = order.side ∧ price = order.price := by
  rw [Order.on, Bool.and_eq_true, decide_eq_true_eq, decide_eq_true_eq]
  exact and_congr eq_comm eq_comm

/-- The total remaining quantity at a side and a price. -/
def volume (orders : List Order) (side : Side) (price : Price) : Quantity :=
  ((orders.filter (Order.on side price)).map Order.remaining).sum

def ladderOf (orders : List Order) : Ladder := fun side price =>
  if orders.any (Order.on side price) then some (volume orders side price) else none

/-- Every order has something left. -/
def AllPositive (orders : List Order) : Prop := ∀ order ∈ orders, 0 < order.remaining

variable {orders orders' : List Order} {order : Order} {side : Side} {price : Price}

@[simp] theorem ladderOf_nil : ladderOf [] = Ladder.empty := rfl

theorem volume_perm (same : orders ~ orders') (side : Side) (price : Price) :
    volume orders side price = volume orders' side price :=
  ((same.filter _).map _).sum_eq

theorem ladderOf_perm (same : orders ~ orders') : ladderOf orders = ladderOf orders' := by
  funext side price
  rw [ladderOf, ladderOf, volume_perm same, same.any_eq]

theorem AllPositive.perm (positive : AllPositive orders) (same : orders ~ orders') :
    AllPositive orders' := fun order member => positive order (same.mem_iff.mpr member)

theorem volume_cons (order : Order) (orders : List Order) (side : Side) (price : Price) :
    volume (order :: orders) side price =
      (if order.on side price then order.remaining else 0) + volume orders side price := by
  by_cases here : order.on side price = true <;> simp [volume, here]

/-- Without an order on the level there is nothing to sum. -/
theorem volume_of_not_any (missing : orders.any (Order.on side price) = false) :
    volume orders side price = 0 := by
  have none_there : orders.filter (Order.on side price) = [] := by
    rw [List.filter_eq_nil_iff]
    intro order member there
    have := List.any_eq_true.mpr ⟨order, member, there⟩
    rw [missing] at this
    cases this
  simp [volume, none_there]

theorem getD_ladderOf (orders : List Order) (side : Side) (price : Price) :
    (ladderOf orders side price).getD 0 = volume orders side price := by
  simp only [ladderOf]
  split
  case isTrue => rfl
  case isFalse missing =>
    rw [volume_of_not_any (by simpa using missing)]
    rfl

theorem ladderOf_isSome : (ladderOf orders side price).isSome = true ↔
    ∃ order ∈ orders, order.side = side ∧ order.price = price := by
  simp [ladderOf, Order.on]

namespace AllPositive

theorem volume_nonneg (positive : AllPositive orders) (side : Side) (price : Price) :
    0 ≤ volume orders side price := by
  apply List.sum_nonneg
  intro remaining member
  obtain ⟨order, kept, rfl⟩ := List.mem_map.mp member
  exact (positive order (List.mem_of_mem_filter kept)).le

theorem volume_pos (positive : AllPositive orders)
    (there : orders.any (Order.on side price) = true) : 0 < volume orders side price := by
  obtain ⟨order, member, here⟩ := List.any_eq_true.mp there
  obtain ⟨rest, same⟩ : ∃ rest, orders ~ order :: rest :=
    ⟨_, List.perm_cons_erase member⟩
  have rest_positive : AllPositive rest := fun other other_member =>
    positive other (same.mem_iff.mpr (List.mem_cons_of_mem order other_member))
  rw [volume_perm same, volume_cons, if_pos here]
  exact add_pos_of_pos_of_nonneg (positive order member) (rest_positive.volume_nonneg side price)

theorem ladderOf_pos (positive : AllPositive orders) {quantity : Quantity}
    (present : ladderOf orders side price = some quantity) : 0 < quantity := by
  simp only [ladderOf] at present
  split at present
  case isTrue there =>
    cases present
    exact positive.volume_pos there
  case isFalse => cases present

end AllPositive

/-- A new order is a `levelAdd`. -/
theorem ladderOf_cons (order : Order) (orders : List Order) : ladderOf (order :: orders) =
    (ladderOf orders).levelAdd order.side order.price order.remaining := by
  funext side price
  rw [Ladder.levelAdd, Ladder.set_apply, getD_ladderOf]
  by_cases here : order.on side price = true
  · obtain ⟨rfl, rfl⟩ := Order.on_iff.mp here
    simp [ladderOf, here, volume_cons, add_comm]
  · have other : ¬ (side = order.side ∧ price = order.price) := mt Order.on_iff.mpr here
    rw [if_neg other]
    simp [ladderOf, here, volume_cons]

/-- Taking part of an order is a `levelSub` of that part. -/
theorem levelSub_ladderOf_reduced (positive : AllPositive orders) {amount : Quantity}
    (left : amount < order.remaining) :
    (ladderOf (order :: orders)).levelSub order.side order.price amount =
      ladderOf ({ order with remaining := order.remaining - amount } :: orders) := by
  have rest := positive.volume_nonneg order.side order.price
  rw [ladderOf_cons, ladderOf_cons, Ladder.levelAdd, getD_ladderOf]
  rw [Ladder.levelSub_of_some (Ladder.set_self _ _ _ _), if_neg (by linarith)]
  funext side price
  simp only [Ladder.set_apply, Ladder.levelAdd, getD_ladderOf]
  split
  · rw [add_sub_assoc]
  · rfl

/-- Removing an order is a `levelSub` of all that remains of it. -/
theorem levelSub_ladderOf_removed (positive : AllPositive orders) :
    (ladderOf (order :: orders)).levelSub order.side order.price order.remaining =
      ladderOf orders := by
  rw [ladderOf_cons, Ladder.levelAdd, getD_ladderOf,
    Ladder.levelSub_of_some (Ladder.set_self _ _ _ _), add_sub_cancel_right]
  funext side price
  simp only [Ladder.set_apply]
  split
  case isTrue here =>
    obtain ⟨rfl, rfl⟩ := here
    by_cases there : orders.any (Order.on order.side order.price) = true
    · rw [if_neg (not_le.mpr (positive.volume_pos there)), ladderOf, if_pos there]
    · rw [volume_of_not_any (by simpa using there), if_pos le_rfl, ladderOf, if_neg there]
  case isFalse => rfl

/-- The levels of a side that a list of orders amounts to, from the best price outward. -/
def levelsOf (orders : List Order) (side : Side) : List Level :=
  ((((orders.filter fun order => order.side = side).map Order.price).dedup).mergeSort
    fun p q => !decide (side.Better q p)).map fun price => ⟨price, volume orders side price⟩

theorem mem_levelsOf {level : Level} : level ∈ levelsOf orders side ↔
    ladderOf orders side level.price = some level.quantity := by
  have listed : level ∈ levelsOf orders side ↔
      (∃ order ∈ orders, order.side = side ∧ order.price = level.price) ∧
        volume orders side level.price = level.quantity := by
    simp only [levelsOf, List.mem_map, List.mem_mergeSort, List.mem_dedup, List.mem_filter,
      decide_eq_true_eq]
    constructor
    · rintro ⟨_, ⟨order, ⟨member, rfl⟩, rfl⟩, rfl⟩
      exact ⟨⟨order, member, rfl, rfl⟩, rfl⟩
    · rintro ⟨⟨order, member, rfl, same⟩, total⟩
      exact ⟨_, ⟨order, ⟨member, rfl⟩, same⟩, by rw [total]⟩
  rw [listed, ← ladderOf_isSome]
  simp only [ladderOf]
  split <;> simp

private theorem not_worse_trans {p q r : Price} (first : ¬ side.Better q p)
    (second : ¬ side.Better r q) : ¬ side.Better r p := by
  cases side with
  | buy => exact not_lt.mpr ((not_lt.mp second).trans (not_lt.mp first))
  | sell => exact not_lt.mpr ((not_lt.mp first).trans (not_lt.mp second))

theorem levelsOf_sorted (orders : List Order) (side : Side) :
    SortedList.Sorted Level.price side.Better (levelsOf orders side) := by
  rw [SortedList.Sorted, levelsOf, List.pairwise_map]
  generalize prices : ((orders.filter fun order => order.side = side).map Order.price).dedup = ps
  have distinct : ps.Nodup := by
    rw [← prices]
    exact List.nodup_dedup _
  have ordered : (ps.mergeSort fun p q => !decide (side.Better q p)).Pairwise
      fun p q => (!decide (side.Better q p)) = true := by
    apply List.pairwise_mergeSort
    · intro p q r first second
      simp only [Bool.not_eq_true', decide_eq_false_iff_not] at first second ⊢
      exact not_worse_trans first second
    · intro p q
      simp only [Bool.or_eq_true, Bool.not_eq_true', decide_eq_false_iff_not]
      by_contra both
      push Not at both
      exact asymm both.1 both.2
  apply List.Pairwise.imp ?_ (ordered.and ((List.mergeSort_perm ps _).nodup_iff.mpr distinct))
  rintro p q ⟨not_worse, apart⟩
  obtain better | same | worse := trichotomous_of side.Better p q
  · exact better
  · exact absurd same apart
  · simp [worse] at not_worse

section Shows

open PriceLevels

variable {L : Type} [PriceLevels L]

/-- Every observer of the container answers as the ladder of the orders does. -/
structure Shows (l : L) (orders : List Order) : Prop where
  depth_eq : ∀ side, depth l side = (levelsOf orders side).length
  best_eq : ∀ side, best l side = (levelsOf orders side).headD absentLevel
  nth_eq : ∀ side rank, nth l side rank = (levelsOf orders side).getD rank absentLevel
  quantity_eq : ∀ side price, quantityAt l side price = volume orders side price

theorem shows_of_contents [LawfulLevels L] {l : L} (valid : LevelView.Valid l)
    (same : contents l = ladderOf orders) : Shows l orders := by
  have levels_eq : ∀ side, LevelView.levels l side = levelsOf orders side := fun side =>
    (LawfulLevels.sorted valid side).ext_mem (levelsOf_sorted orders side) fun level => by
      rw [mem_levels_iff valid, same, mem_levelsOf]
  refine ⟨fun side => ?_, fun side => ?_, fun side rank => ?_, fun side price => ?_⟩
  · rw [depth_eq, levels_eq]
  · rw [best_eq, levels_eq]
  · rw [nth_eq, levels_eq]
  · rw [LawfulLevels.quantityAt_eq valid, same, getD_ladderOf]

end Shows

section Keeps

open PriceLevels

variable {L : Type} [PriceLevels L] [LawfulLevels L]

/-- The container keeps the ladder of these orders, each of which has something left. -/
structure Keeps (l : L) (orders : List Order) : Prop where
  valid : LevelView.Valid l
  positive : AllPositive orders
  ladder : contents l = ladderOf orders

namespace Keeps

variable {l : L}

theorem of_empty : Keeps (empty : L) [] where
  valid := LawfulLevels.valid_empty
  positive := by simp [AllPositive]
  ladder := contents_empty.trans ladderOf_nil.symm

theorem perm (keeps : Keeps l orders) (same : orders ~ orders') : Keeps l orders' where
  valid := keeps.valid
  positive := keeps.positive.perm same
  ladder := keeps.ladder.trans (ladderOf_perm same)

theorem add (keeps : Keeps l orders) (order : Order) (pos : 0 < order.remaining) :
    Keeps (levelAdd l order.side order.price order.remaining) (order :: orders) where
  valid := LawfulLevels.valid_levelAdd keeps.valid _ _ _
  positive := List.forall_mem_cons.mpr ⟨pos, keeps.positive⟩
  ladder := by rw [LawfulLevels.contents_levelAdd keeps.valid, keeps.ladder, ladderOf_cons]

theorem reduce (keeps : Keeps l (order :: orders)) {amount : Quantity}
    (left : amount < order.remaining) : Keeps (levelSub l order.side order.price amount)
      ({ order with remaining := order.remaining - amount } :: orders) := by
  obtain ⟨_, rest⟩ := List.forall_mem_cons.mp keeps.positive
  refine ⟨LawfulLevels.valid_levelSub keeps.valid _ _ _,
    List.forall_mem_cons.mpr ⟨sub_pos.mpr left, rest⟩, ?_⟩
  rw [LawfulLevels.contents_levelSub keeps.valid, keeps.ladder,
    levelSub_ladderOf_reduced rest left]

theorem remove (keeps : Keeps l (order :: orders)) :
    Keeps (levelSub l order.side order.price order.remaining) orders := by
  obtain ⟨_, rest⟩ := List.forall_mem_cons.mp keeps.positive
  refine ⟨LawfulLevels.valid_levelSub keeps.valid _ _ _, rest, ?_⟩
  rw [LawfulLevels.contents_levelSub keeps.valid, keeps.ladder, levelSub_ladderOf_removed rest]

/-- The level of a kept order has at least as much as the order. -/
theorem exists_level (keeps : Keeps l orders) (member : order ∈ orders) :
    ∃ quantity, contents l order.side order.price = some quantity ∧
      order.remaining ≤ quantity := by
  have split := List.perm_cons_erase member
  have rest := (List.forall_mem_cons.mp (keeps.positive.perm split)).2
  refine ⟨volume orders order.side order.price, ?_, ?_⟩
  · have there : orders.any (Order.on order.side order.price) = true :=
      List.any_eq_true.mpr ⟨order, member, Order.on_iff.mpr ⟨rfl, rfl⟩⟩
    rw [keeps.ladder, ladderOf, if_pos there]
  · rw [volume_perm split, volume_cons, if_pos (Order.on_iff.mpr ⟨rfl, rfl⟩)]
    exact le_add_of_nonneg_right (AllPositive.volume_nonneg rest _ _)

end Keeps

end Keeps

end OrderBook
