import OrderBook.Levels.Vector
import Mathlib.Data.List.Perm.Subperm

/-!
# How the sides of a book grow

Adding to a level makes at most one level, and subtracting makes none. A price that is
better than every level of its side gets a new level in front of them, which is at the
back of the vector that a contiguous container stores.
-/

namespace OrderBook

open PriceLevels LawfulLevels SortedList

section Depth

variable {L : Type} [PriceLevels L] [LawfulLevels L] {l : L} {side : Side}

theorem mem_prices_iff (valid : Valid l) {price : Price} :
    price ∈ (levels l side).map Level.price ↔ (contents l side price).isSome = true := by
  rw [List.mem_map, Option.isSome_iff_exists]
  constructor
  · rintro ⟨level, member, rfl⟩
    exact ⟨level.quantity, (mem_levels_iff valid).mp member⟩
  · rintro ⟨quantity, present⟩
    exact ⟨⟨price, quantity⟩, mem_levels_of_contents valid present, rfl⟩

/-- The levels of a side are at different prices. -/
theorem depth_le_of_covered (valid : Valid l) {prices : List Price}
    (covered : ∀ price, (contents l side price).isSome = true → price ∈ prices) :
    depth l side ≤ prices.length := by
  have nodup : ((levels l side).map Level.price).Nodup := by
    apply List.Pairwise.imp ?_ (List.pairwise_map.mpr (sorted valid side))
    rintro a _ better rfl
    exact irrefl_of side.Better a better
  have among : (levels l side).map Level.price ⊆ prices := fun price member =>
    covered price ((mem_prices_iff valid).mp member)
  rw [depth_eq, ← List.length_map Level.price]
  exact (nodup.subperm among).length_le

theorem depth_levelAdd_le (valid : Valid l) (side : Side) (price : Price) (qty : Quantity)
    (s : Side) : depth (levelAdd l side price qty) s ≤ depth l s + 1 := by
  have covered : depth (levelAdd l side price qty) s ≤
      (price :: (levels l s).map Level.price).length := by
    apply depth_le_of_covered (valid_levelAdd valid side price qty)
    intro p present
    rw [contents_levelAdd valid, Ladder.levelAdd, Ladder.set_apply] at present
    split at present
    case isTrue here => exact List.mem_cons.mpr (.inl here.2)
    case isFalse => exact List.mem_cons_of_mem _ ((mem_prices_iff valid).mpr present)
  simpa [depth_eq] using covered

theorem depth_levelSub_le (valid : Valid l) (side : Side) (price : Price) (amount : Quantity)
    (s : Side) : depth (levelSub l side price amount) s ≤ depth l s := by
  have covered : depth (levelSub l side price amount) s ≤
      ((levels l s).map Level.price).length := by
    apply depth_le_of_covered (valid_levelSub valid side price amount)
    intro p present
    rw [mem_prices_iff valid]
    rw [contents_levelSub valid] at present
    cases found : contents l side price with
    | none => rwa [Ladder.levelSub_of_none found] at present
    | some quantity =>
        rw [Ladder.levelSub_of_some found, Ladder.set_apply] at present
        split at present
        case isTrue here => simp [here.1, here.2, found]
        case isFalse => exact present
  simpa [depth_eq] using covered

/-- An addition at a price that no level of the side betters or equals. -/
theorem levels_levelAdd_of_best (valid : Valid l) {price : Price} (qty : Quantity)
    (best : ∀ level ∈ levels l side, side.Better price level.price) :
    levels (levelAdd l side price qty) side = ⟨price, qty⟩ :: levels l side := by
  have unused : contents l side price = none := by
    rw [Option.eq_none_iff_forall_ne_some]
    intro quantity present
    exact irrefl_of side.Better price (best _ (mem_levels_of_contents valid present))
  have sorted_cons : Sorted Level.price side.Better (⟨price, qty⟩ :: levels l side) :=
    List.pairwise_cons.mpr ⟨best, sorted valid side⟩
  refine (sorted (valid_levelAdd valid side price qty) side).ext_mem sorted_cons fun level => ?_
  rw [mem_levels_iff (valid_levelAdd valid side price qty), contents_levelAdd valid,
    Ladder.levelAdd, Ladder.set_apply, List.mem_cons, mem_levels_iff valid, unused]
  obtain ⟨p, quantity⟩ := level
  by_cases here : p = price
  · subst here
    simp [unused, eq_comm]
  · simp [here]

theorem levels_levelAdd_ne (valid : Valid l) {other : Side} (ne : other ≠ side) (price : Price)
    (qty : Quantity) : levels (levelAdd l side price qty) other = levels l other := by
  refine (sorted (valid_levelAdd valid side price qty) other).ext_mem (sorted valid other)
    fun level => ?_
  rw [mem_levels_iff (valid_levelAdd valid side price qty), contents_levelAdd valid,
    Ladder.levelAdd, Ladder.set_apply, mem_levels_iff valid]
  simp [ne]

end Depth

namespace VectorLevels

variable {locate : Locate} [LawfulLocate locate] {levels : VectorLevels locate} {side : Side}

/-- The lookup of a better price than all stored ones answers with the back. -/
theorem locateIn_of_best (valid : Valid levels) {price : Price}
    (best : ∀ level ∈ levels.book side, side.Better price level.price) :
    (levels.locateIn side price).found = false ∧
      (levels.locateIn side price).index = (levels.book side).length := by
  have precedes : ∀ level ∈ levels.book side, Precedes (side = .buy) level.price price := by
    intro level member
    have better := best level member
    cases side <;> exact better
  have at_back : Position Level.price (Precedes (side = .buy)) price (levels.book side) false
      (levels.book side).length :=
    absent (Nat.le_refl _) (fun level member => precedes level (List.mem_of_mem_take member))
      (by simp)
  exact (finds valid side price).position.unique at_back

end VectorLevels

end OrderBook
