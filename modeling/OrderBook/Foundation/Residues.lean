import OrderBook.Foundation.Cyclic
import Mathlib.Algebra.Order.Group.Int
import Mathlib.Data.Int.Order.Basic
import Mathlib.Tactic.Convert
import Mathlib.Tactic.LinearCombination
import Mathlib.Tactic.Linarith
import Mathlib.Tactic.Ring

/-!
# How close the multiples of a constant come to zero

Hashing by multiplication sends the number `d` to `d * c` modulo `m`. The pairs `(d, x)`
with `x` congruent to `d * c` form a lattice. A basis of it with one vector above the axis and
one below bounds every short multiple away from zero: a lattice vector with positive first
coordinate less than the sum of the two either takes no part of the lower vector, and
rises at least as far as the upper one, or no part of the upper one, and falls at least
as far as the lower one.

`Basis` carries the proof that it is one. `advance` is a step of the subtractive Euclidean
algorithm, which lengthens one vector and brings it closer to the axis, and `descend` takes
as many steps as keep both vectors a given distance away from it.
-/

namespace OrderBook.Residues

/-- The vectors `(up, rise)` and `(down, -fall)` of the lattice of `c` modulo `m`. -/
structure Basis (m c : Nat) where
  up : Nat
  rise : Nat
  down : Nat
  fall : Nat
  up_dvd : (m : Int) ∣ up * c - rise
  down_dvd : (m : Int) ∣ down * c + fall
  area : up * fall + down * rise = m

namespace Basis

variable {m c : Nat}

def start (m c : Nat) : Basis m c where
  up := 1
  rise := c
  down := 0
  fall := m
  up_dvd := by simp
  down_dvd := by simp
  area := by simp

/-- Add the vector that is closer to the axis to the other one. -/
def advance (b : Basis m c) : Basis m c :=
  if less : b.rise < b.fall then
    { up := b.up
      rise := b.rise
      down := b.up + b.down
      fall := b.fall - b.rise
      up_dvd := b.up_dvd
      down_dvd := by
        rw [Nat.cast_sub less.le]
        convert Int.dvd_add b.up_dvd b.down_dvd using 1
        push_cast
        ring
      area := by
        have area := b.area
        have := Nat.mul_le_mul_left b.up less.le
        rw [Nat.mul_sub, Nat.add_mul]
        omega }
  else
    { up := b.up + b.down
      rise := b.rise - b.fall
      down := b.down
      fall := b.fall
      up_dvd := by
        rw [Nat.cast_sub (not_lt.mp less)]
        convert Int.dvd_add b.up_dvd b.down_dvd using 1
        push_cast
        ring
      down_dvd := b.down_dvd
      area := by
        have area := b.area
        have := Nat.mul_le_mul_left b.down (not_lt.mp less)
        rw [Nat.mul_sub, Nat.add_mul]
        omega }

/-- Advance as long as both vectors stay at least `least` away from the axis. -/
def descend (least : Nat) : Nat → Basis m c → Basis m c
  | 0, b => b
  | steps + 1, b =>
      if least ≤ min b.advance.rise b.advance.fall then descend least steps b.advance else b

theorem le_descend {least : Nat} (steps : Nat) {b : Basis m c} (far : least ≤ min b.rise b.fall) :
    least ≤ min (b.descend least steps).rise (b.descend least steps).fall := by
  induction steps generalizing b with
  | zero => exact far
  | succ steps ih =>
      rw [descend]
      split
      case isTrue next => exact ih next
      case isFalse => exact far

/-- A lattice vector shorter than the two basis vectors together is as far from the axis
as the upper one on one side, or as the lower one on the other. -/
theorem rise_or_fall (b : Basis m c) (m_pos : 0 < m) {d x : Int} (lattice : (m : Int) ∣ d * c - x)
    (d_pos : 0 < d) (short : d < b.up + b.down) : b.rise ≤ x ∨ x ≤ -b.fall := by
  have area : (b.up * b.fall + b.down * b.rise : Int) = m := by exact_mod_cast b.area
  -- The coordinates of the vector in the basis, by Cramer's rule.
  obtain ⟨k, eq⟩ := lattice
  obtain ⟨p, up_eq⟩ := b.up_dvd
  obtain ⟨q, down_eq⟩ := b.down_dvd
  obtain ⟨u, hu⟩ : (m : Int) ∣ d * b.fall + x * b.down :=
    ⟨d * q - b.down * k, by linear_combination (-b.down : Int) * eq + d * down_eq⟩
  obtain ⟨v, hv⟩ : (m : Int) ∣ d * b.rise - x * b.up :=
    ⟨b.up * k - d * p, by linear_combination (b.up : Int) * eq - d * up_eq⟩
  have m_pos' : (0 : Int) < m := by exact_mod_cast m_pos
  have d_eq : d = u * b.up + v * b.down := by
    apply mul_left_cancel₀ m_pos'.ne'
    linear_combination (-d) * area + b.up * hu + b.down * hv
  have x_eq : x = u * b.rise - v * b.fall := by
    apply mul_left_cancel₀ m_pos'.ne'
    linear_combination (-x) * area + b.rise * hu - b.fall * hv
  have scales : ∀ {k : Int} (n : Nat), 0 < k → (n : Int) ≤ k * n := fun n pos =>
    le_mul_of_one_le_left (Int.natCast_nonneg n) pos
  have shrinks : ∀ {k : Int} (n : Nat), k ≤ 0 → k * n ≤ 0 := fun n nonpos =>
    Int.mul_nonpos_of_nonpos_of_nonneg nonpos (Int.natCast_nonneg n)
  obtain some_up | no_up := lt_or_ge 0 u <;> obtain some_down | no_down := lt_or_ge 0 v
  · -- Some of both would not be short.
    have := scales b.up some_up
    have := scales b.down some_down
    omega
  · left
    have := scales b.rise some_up
    have := shrinks b.fall no_down
    omega
  · right
    have := scales b.fall some_down
    have := shrinks b.rise no_up
    omega
  · -- Some of neither leads backward.
    have := shrinks b.up no_up
    have := shrinks b.down no_down
    omega

section Cells

variable {least : Nat} {b : Basis m c} {d : Int} {u v : Nat}

/-- Two residues that are a short multiple apart are not near each other on the ring. -/
theorem not_near (far : least ≤ min b.rise b.fall) (m_pos : 0 < m)
    (apart : (m : Int) ∣ d * c - (v - u)) (d_pos : 0 < d) (short : d < b.up + b.down)
    (turns : Int) : ¬ (-(least : Int) < v - u + turns * m ∧ v - u + turns * m < least) := by
  rintro ⟨above, below⟩
  have lattice : (m : Int) ∣ d * c - (v - u + turns * m) := by
    obtain ⟨k, eq⟩ := apart
    exact ⟨k - turns, by linear_combination eq⟩
  have far' : (least : Int) ≤ b.rise ∧ (least : Int) ≤ b.fall := by omega
  obtain rises | falls := b.rise_or_fall m_pos lattice d_pos short
  · omega
  · omega

variable {n w : Nat}

/-- On a ring that is cut into `n` cells of width `w`, such residues are in different cells
as soon as `w` is the distance that is kept. -/
theorem cells_ne (ring : m = n * w) (m_pos : 0 < m) (far : w ≤ min b.rise b.fall)
    (apart : (m : Int) ∣ d * c - (v - u)) (d_pos : 0 < d) (short : d < b.up + b.down) :
    u / w ≠ v / w := by
  intro same
  have w_pos : 0 < w := Nat.pos_of_mul_pos_left (ring ▸ m_pos)
  have hu := Nat.div_add_mod u w
  have hv := Nat.div_add_mod v w
  have := Nat.mod_lt u w_pos
  have := Nat.mod_lt v w_pos
  rw [same] at hu
  exact not_near far m_pos apart d_pos short 0 (by omega)

/-- A residue in the cell after another one's is less than two widths ahead of it. -/
theorem near_of_next (ring : m = n * w) (w_pos : 0 < w) (hu : u < m)
    (next : v / w = Cyclic.walk n (u / w) 1) :
    ∃ turns : Int, 0 < (v : Int) - u + turns * m ∧ (v : Int) - u + turns * m < (2 * w : Nat) := by
  have div_u := Nat.div_add_mod u w
  have div_v := Nat.div_add_mod v w
  have := Nat.mod_lt u w_pos
  have := Nat.mod_lt v w_pos
  have cell : u / w < n := Nat.div_lt_of_lt_mul (by rwa [Nat.mul_comm, ← ring])
  rw [next] at div_v
  simp only [Cyclic.walk] at div_v
  split at div_v
  case isTrue => exact ⟨0, by rw [Nat.mul_add] at div_v; omega⟩
  case isFalse last =>
    have wraps : m = w * (u / w) + w := by
      rw [ring, Nat.mul_comm, ← Nat.mul_succ]
      congr 1
      omega
    have first : u / w + 1 - n = 0 := by omega
    exact ⟨1, by rw [first] at div_v; omega⟩

/-- With twice the width kept, they are not in neighbouring cells either. -/
theorem cells_not_next (ring : m = n * w) (m_pos : 0 < m) (far : 2 * w ≤ min b.rise b.fall)
    (apart : (m : Int) ∣ d * c - (v - u)) (d_pos : 0 < d) (short : d < b.up + b.down)
    (hu : u < m) (hv : v < m) :
    v / w ≠ Cyclic.walk n (u / w) 1 ∧ u / w ≠ Cyclic.walk n (v / w) 1 := by
  have w_pos : 0 < w := Nat.pos_of_mul_pos_left (ring ▸ m_pos)
  constructor
  · intro next
    obtain ⟨turns, ahead, near⟩ := near_of_next ring w_pos hu next
    exact not_near far m_pos apart d_pos short turns (by omega)
  · intro next
    obtain ⟨turns, ahead, near⟩ := near_of_next ring w_pos hv next
    have turned : (v - u + -turns * m : Int) = -(u - v + turns * m) := by ring
    exact not_near far m_pos apart d_pos short (-turns) (by omega)

end Cells

end Basis

/-- Among the numbers below `n` there are at most `k` that are more than a `k`-th of `n`
apart. -/
theorem length_le_of_gaps {n k : Nat} (k_pos : 0 < k) {ks : List Nat}
    (gaps : ks.Pairwise fun i j => n < k * (j - i)) (below : ∀ i ∈ ks, i < n) :
    ks.length ≤ k := by
  have climbs : ∀ (tail : List Nat) (head : Nat),
      (head :: tail).Pairwise (fun i j => n < k * (j - i)) →
        ∃ last ∈ head :: tail, k * head + n * tail.length ≤ k * last := by
    intro tail
    induction tail with
    | nil => exact fun head _ => ⟨head, by simp⟩
    | cons next tail ih =>
        intro head gaps
        rw [List.pairwise_cons] at gaps
        have gap := gaps.1 next (by simp)
        obtain ⟨last, member, climb⟩ := ih next gaps.2
        rw [Nat.mul_sub] at gap
        refine ⟨last, List.mem_cons_of_mem _ member, ?_⟩
        rw [List.length_cons, Nat.mul_succ]
        omega
  cases ks with
  | nil => exact Nat.zero_le k
  | cons head tail =>
      obtain ⟨last, member, climb⟩ := climbs tail head gaps
      have under : k * last < k * n := (Nat.mul_lt_mul_left k_pos).mpr (below last member)
      have fewer : n * tail.length < n * k := by
        rw [Nat.mul_comm n k]
        omega
      exact Nat.lt_of_mul_lt_mul_left fewer

end OrderBook.Residues
