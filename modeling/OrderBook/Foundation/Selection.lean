import Mathlib.Data.List.Sort
import Mathlib.Order.Bounds.Basic

/-!
# Selection by rank

`NthElement` is any selection that keeps the contract of a partial sort: the list is
reordered in an unspecified way, and the entry at the requested position is the one
that sorting the whole list would put there.

The rank of an entry does not need the sorted list. `HasRank` says with two counts
that a value is the one of rank `k`, so it does not see how a list is ordered.
-/

namespace OrderBook

variable {α : Type*} [LinearOrder α]

structure NthElement (α : Type*) [LinearOrder α] where
  run : List α → Nat → List α
  perm : ∀ xs k, k < xs.length → (run xs k).Perm xs
  nth : ∀ xs k, k < xs.length → (run xs k)[k]? = (xs.mergeSort (· ≤ ·))[k]?

/-- Sorting the whole list keeps the contract. -/
def NthElement.bySorting : NthElement α where
  run xs _ := xs.mergeSort (· ≤ ·)
  perm xs _ _ := List.mergeSort_perm xs _
  nth _ _ _ := rfl

theorem countP_le_countP_lt {u v : α} (below : v < u) (xs : List α) :
    xs.countP (· ≤ v) ≤ xs.countP (· < u) := by
  refine List.countP_mono_left fun x _ upTo => ?_
  simp only [decide_eq_true_eq] at upTo ⊢
  exact upTo.trans_lt below

/-- At most `k` entries are below `v`, and more than `k` are not above it. -/
structure HasRank (xs : List α) (k : Nat) (v : α) : Prop where
  below : xs.countP (· < v) ≤ k
  upTo : k < xs.countP (· ≤ v)

namespace HasRank

variable {xs ys : List α} {k : Nat} {v : α}

theorem perm (ranked : HasRank xs k v) (perm : xs.Perm ys) : HasRank ys k v where
  below := (perm.countP_eq _).symm.trans_le ranked.below
  upTo := ranked.upTo.trans_eq (perm.countP_eq _)

/-- The value of a rank is an entry: more entries are up to it than below it. -/
theorem mem (ranked : HasRank xs k v) : v ∈ xs := by
  by_contra missing
  have counted : xs.countP (· ≤ v) ≤ xs.countP (· < v) :=
    List.countP_mono_left fun x member upTo => by
      simp only [decide_eq_true_eq] at upTo ⊢
      refine lt_of_le_of_ne upTo ?_
      rintro rfl
      exact missing member
  exact absurd (ranked.upTo.trans_le counted) (not_lt.mpr ranked.below)

theorem isLeast (ranked : HasRank xs 0 v) : IsLeast {x | x ∈ xs} v := by
  refine ⟨ranked.mem, fun x member => ?_⟩
  have none_below := List.countP_eq_zero.mp (Nat.le_zero.mp ranked.below) x member
  simpa using none_below

theorem isGreatest (ranked : HasRank xs k v) (last : k + 1 = xs.length) :
    IsGreatest {x | x ∈ xs} v := by
  refine ⟨ranked.mem, fun x member => ?_⟩
  have all : xs.countP (· ≤ v) = xs.length :=
    le_antisymm List.countP_le_length (last.symm.trans_le ranked.upTo)
  have upTo := List.countP_eq_length.mp all x member
  simpa using upTo

/-- In a sorted list the rank is the position. -/
theorem of_sorted {front behind : List α} (sorted : (front ++ v :: behind).Pairwise (· ≤ ·)) :
    HasRank (front ++ v :: behind) front.length v := by
  obtain ⟨_, rest, across⟩ := List.pairwise_append.mp sorted
  obtain ⟨above, _⟩ := List.pairwise_cons.mp rest
  constructor
  · have none_above : (v :: behind).countP (· < v) = 0 := by
      simpa using above
    calc (front ++ v :: behind).countP (· < v)
        = front.countP (· < v) := by rw [List.countP_append, none_above, Nat.add_zero]
      _ ≤ front.length := List.countP_le_length
  · have all_upTo : front.countP (· ≤ v) = front.length := by
      rw [List.countP_eq_length]
      intro x member
      simpa using across x member v List.mem_cons_self
    calc front.length
        < front.length + (v :: behind).countP (· ≤ v) :=
          Nat.lt_add_of_pos_right (by simp)
      _ = (front ++ v :: behind).countP (· ≤ v) := by rw [List.countP_append, all_upTo]

end HasRank

/-- The entry that a selection puts at the requested position has that rank. -/
theorem NthElement.exists_hasRank (nth : NthElement α) {xs : List α} {k : Nat}
    (within : k < xs.length) : ∃ v, (nth.run xs k)[k]? = some v ∧ HasRank xs k v := by
  have sorted : (xs.mergeSort (· ≤ ·)).Pairwise (· ≤ ·) := List.pairwise_mergeSort' (· ≤ ·) xs
  have perm : (xs.mergeSort (· ≤ ·)).Perm xs := List.mergeSort_perm xs _
  have placed := nth.nth xs k within
  rw [← perm.length_eq] at within
  have parts : xs.mergeSort (· ≤ ·) = (xs.mergeSort (· ≤ ·)).take k ++
      (xs.mergeSort (· ≤ ·))[k] :: (xs.mergeSort (· ≤ ·)).drop (k + 1) := by
    rw [← List.drop_eq_getElem_cons within, List.take_append_drop]
  have ranked := HasRank.of_sorted (parts ▸ sorted)
  rw [← parts, List.length_take_of_le within.le] at ranked
  exact ⟨_, placed.trans (List.getElem?_eq_getElem within), ranked.perm perm⟩

end OrderBook
