import Mathlib.Algebra.Order.Group.Nat

/-!
# Positions on a ring

`walk n h d` is the position `d` places after `h` on a ring of `n` positions, and
`dist n h i` is the number of places from `h` forward to `i`. Both are written
with one comparison instead of a remainder: every start lies below `n` and every
offset is at most `n`, so at most one turn has to be taken off.
-/

namespace OrderBook.Cyclic

def walk (n h d : Nat) : Nat := if h + d < n then h + d else h + d - n

def dist (n h i : Nat) : Nat := if h ≤ i then i - h else i + n - h

variable {n h i d : Nat}

theorem walk_lt (hh : h < n) (hd : d ≤ n) : walk n h d < n := by
  simp only [walk]
  split <;> omega

@[simp] theorem walk_zero (hh : h < n) : walk n h 0 = h := by
  simp [walk, hh]

theorem walk_walk_one (hh : h < n) (hd : d < n) : walk n (walk n h d) 1 = walk n h (d + 1) := by
  simp only [walk]
  split <;> split <;> split <;> omega

/-- Starting one place later shortens the offset by one. -/
theorem walk_one_walk (hh : h < n) (hd : d < n) : walk n (walk n h 1) d = walk n h (d + 1) := by
  simp only [walk]
  split <;> split <;> split <;> omega

theorem dist_lt (hh : h < n) (hi : i < n) : dist n h i < n := by
  simp only [dist]
  split <;> omega

theorem walk_dist (hh : h < n) (hi : i < n) : walk n h (dist n h i) = i := by
  simp only [walk, dist]
  split <;> split <;> omega

theorem dist_walk (hh : h < n) (hd : d < n) : dist n h (walk n h d) = d := by
  simp only [walk, dist]
  split <;> split <;> omega

theorem walk_ne_self (_ : h < n) (hd : d < n) (pos : 0 < d) : walk n h d ≠ h := by
  simp only [walk]
  split <;> omega

/-- Masking by a power of two less one is stepping around a ring of that size. -/
theorem succ_and_mask {k : Nat} (hi : i < 2 ^ k) : (i + 1) &&& (2 ^ k - 1) = walk (2 ^ k) i 1 := by
  rw [Nat.and_two_pow_sub_one_eq_mod]
  simp only [walk]
  split
  · exact Nat.mod_eq_of_lt ‹_›
  · have : i + 1 = 2 ^ k := by omega
    rw [this]
    simp

end OrderBook.Cyclic
