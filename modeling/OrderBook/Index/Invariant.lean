import OrderBook.Index.Basic
import Mathlib.Data.List.Count
import Mathlib.Data.Nat.Bitwise
import Mathlib.Tactic.Linarith

/-!
# What every index keeps

`Geometry` is fixed by the constructor: the slab has `2 ^ bits` slots, the mask
is one less and the hash is shifted down to `bits` bits. `Sound` adds what the
operations maintain: the stored records are counted by `size_`, which is at most
half the capacity. So a free slot always exists, which makes the index `Roomy`, and
each probe loop ends.

The records are observed as the list of occupied slots. Their order is the slot
order and carries no meaning; statements about them are up to permutation.
-/

namespace OrderBook.OrderIndex

open Cyclic

/-- The records physically stored in the slab. -/
def records (index : OrderIndex) : List Order := index.slots.filter fun order => !isFree order

structure Geometry (index : OrderIndex) (bits : Nat) : Prop where
  bits_pos : 1 ≤ bits
  bits_lt : bits < 64
  length : index.slots.length = 2 ^ bits
  mask : index.mask = 2 ^ bits - 1
  shift : index.shift = 64 - bits

/-- What the probe loops rely on. The arrangement of the records plays no part. -/
structure Roomy (index : OrderIndex) : Prop where
  geometry : ∃ bits, index.Geometry bits
  exists_free : ∃ (i : Nat) (order : Order), index.slots[i]? = some order ∧ isFree order = true

structure Sound (index : OrderIndex) : Prop where
  geometry : ∃ bits, index.Geometry bits
  records_le : index.records.length ≤ index.size
  load : index.size * 2 ≤ index.slots.length

section Constructor

/-- The values the doubling loop passes through. -/
private def PowerOrZero (p : Nat) : Prop := p = 0 ∨ ∃ e, e < 64 ∧ p = 2 ^ e

private theorem powerOrZero_double {p : Nat} (h : PowerOrZero p) :
    PowerOrZero (p * 2 % sizeRange) := by
  obtain rfl | ⟨e, he, rfl⟩ := h
  · exact .inl rfl
  · rw [← pow_succ]
    by_cases top : e = 63
    · subst top
      exact .inl rfl
    · have small : 2 ^ (e + 1) < sizeRange := Nat.pow_lt_pow_right (by omega) (by omega)
      exact .inr ⟨e + 1, by omega, Nat.mod_eq_of_lt small⟩

private theorem go_powerOrZero {n fuel p r : Nat} (h : PowerOrZero p)
    (result : nextPowerOfTwo.go n fuel p = .ok r) : PowerOrZero r ∧ n ≤ r := by
  induction fuel generalizing p with
  | zero =>
      simp only [nextPowerOfTwo.go] at result
      split at result
      · cases result
      · cases result
        exact ⟨h, by omega⟩
  | succ fuel ih =>
      simp only [nextPowerOfTwo.go] at result
      split at result
      · exact ih (powerOrZero_double h) result
      · cases result
        exact ⟨h, by omega⟩

private theorem go_ok {n top : Nat} (htop : top < 64) (hn : n ≤ 2 ^ top) {fuel e : Nat}
    (he : e ≤ top) (enough : e + fuel = 64) :
    ∃ e', e' ≤ top ∧ nextPowerOfTwo.go n fuel (2 ^ e) = .ok (2 ^ e') ∧ n ≤ 2 ^ e' := by
  induction fuel generalizing e with
  | zero => omega
  | succ fuel ih =>
      simp only [nextPowerOfTwo.go]
      split
      case isTrue below =>
        have room : e < top :=
          (Nat.pow_lt_pow_iff_right (a := 2) (by omega)).mp (lt_of_lt_of_le below hn)
        have small : 2 ^ (e + 1) < sizeRange := Nat.pow_lt_pow_right (by omega) (by omega)
        rw [← pow_succ, Nat.mod_eq_of_lt small]
        exact ih (by omega) (by omega)
      case isFalse => exact ⟨e, he, rfl, by omega⟩

theorem countrZero_two_pow {k : Nat} (hk : k < 64) : countrZero (2 ^ k) = k := by
  have found : (List.range 64).find? (2 ^ k).testBit = some k := by
    rw [List.find?_range_eq_some]
    refine ⟨by simp, by simpa using hk, fun j hj => ?_⟩
    simp [Nat.testBit_two_pow]
    omega
  simp [countrZero, found]

/-- A hint up to `2 ^ 62` is rounded up without wrapping. -/
theorem new_eq_ok {hint : Nat} (hhint : hint ≤ 2 ^ 62) :
    ∃ index, new hint = .ok index ∧ index.Sound ∧ index.records = [] ∧ index.size = 0 ∧
      hint * 2 ≤ index.slots.length := by
  obtain ⟨e, he, result, bound⟩ : ∃ e, e ≤ 62 ∧
      nextPowerOfTwo (if hint < 1 then 1 else hint) = .ok (2 ^ e) ∧
        (if hint < 1 then 1 else hint) ≤ 2 ^ e :=
    go_ok (e := 0) (by decide) (by split <;> omega) (by omega) (by omega)
  have small : 2 ^ (e + 1) < sizeRange := Nat.pow_lt_pow_right (by omega) (by omega)
  have want : 2 ^ e * 2 % sizeRange = 2 ^ (e + 1) := by rw [← pow_succ, Nat.mod_eq_of_lt small]
  have pos : 0 < 2 ^ (e + 1) := Nat.two_pow_pos _
  have mask : (2 ^ (e + 1) + sizeRange - 1) % sizeRange = 2 ^ (e + 1) - 1 := by
    rw [show 2 ^ (e + 1) + sizeRange - 1 = 2 ^ (e + 1) - 1 + sizeRange by omega,
      Nat.add_mod_right, Nat.mod_eq_of_lt (by omega)]
  have empty : (List.replicate (2 ^ (e + 1)) emptyOrder).filter (fun o => !isFree o) = [] := by
    simp [isFree, emptyOrder]
  refine ⟨_, by simp only [new, result]; rfl, ?_, ?_, rfl, ?_⟩
  · refine ⟨⟨e + 1, by omega, by omega, ?_, ?_, ?_⟩, ?_, ?_⟩
    · simp [want]
    · simpa [want] using mask
    · simp [want, countrZero_two_pow (show e + 1 < 64 by omega)]
    · simp [records, want, empty]
    · simp
  · simp [records, want, empty]
  · simp only [want, List.length_replicate, pow_succ]
    split at bound <;> omega

theorem free_of_new {hint : Nat} {index : OrderIndex} (constructed : new hint = .ok index) :
    ∀ order ∈ index.slots, order = emptyOrder := by
  obtain ⟨p, _, result⟩ := Run.of_bind_eq_ok constructed
  cases result
  exact fun order member => List.eq_of_mem_replicate member

/-- The slab is no larger than twice any power of two that the hint stays within. -/
theorem length_le_of_new {hint top : Nat} (htop : top ≤ 62) (hhint : hint ≤ 2 ^ top)
    {index : OrderIndex} (constructed : new hint = .ok index) :
    index.slots.length ≤ 2 ^ (top + 1) := by
  have top_pos := Nat.two_pow_pos top
  obtain ⟨e, he, result, _⟩ : ∃ e, e ≤ top ∧
      nextPowerOfTwo (if hint < 1 then 1 else hint) = .ok (2 ^ e) ∧
        (if hint < 1 then 1 else hint) ≤ 2 ^ e :=
    go_ok (e := 0) (by omega) (by split <;> omega) (by omega) (by omega)
  have small : 2 ^ (e + 1) < sizeRange := Nat.pow_lt_pow_right (by omega) (by omega)
  have want : 2 ^ e * 2 % sizeRange = 2 ^ (e + 1) := by rw [← pow_succ, Nat.mod_eq_of_lt small]
  simp only [new, result] at constructed
  cases constructed
  simp only [want, List.length_replicate]
  exact Nat.pow_le_pow_right (by omega) (by omega)

/-- Past `2 ^ 62` the doubling loop does not end, or the capacity wraps to zero. -/
theorem new_of_large {hint : Nat} (large : 2 ^ 62 < hint) {index : OrderIndex}
    (result : new hint = .ok index) : index.slots = [] := by
  simp only [new] at result
  cases doubled : nextPowerOfTwo (if hint < 1 then 1 else hint) with
  | error fault =>
      rw [doubled] at result
      cases result
  | ok p =>
      rw [doubled] at result
      obtain ⟨rfl | ⟨e, he, rfl⟩, above⟩ := go_powerOrZero (.inr ⟨0, by omega, rfl⟩) doubled
      · split at above <;> omega
      · have top : 62 < e := by
          apply (Nat.pow_lt_pow_iff_right (a := 2) (by omega)).mp
          split at above <;> omega
        obtain rfl : e = 63 := by omega
        cases result
        rfl

/-- The constructor returns as long as `2 ^ 63` is no smaller than the hint. -/
theorem exists_new_iff (hint : Nat) : (∃ index, new hint = .ok index) ↔ hint ≤ 2 ^ 63 := by
  constructor
  · rintro ⟨index, result⟩
    obtain ⟨p, doubled, _⟩ := Run.of_bind_eq_ok result
    obtain ⟨rfl | ⟨e, he, rfl⟩, above⟩ := go_powerOrZero (.inr ⟨0, by omega, rfl⟩) doubled
    · split at above <;> omega
    · have top : 2 ^ e ≤ 2 ^ 63 := Nat.pow_le_pow_right (by omega) (by omega)
      split at above <;> omega
  · intro bound
    obtain ⟨e, _, doubled, _⟩ : ∃ e, e ≤ 63 ∧
        nextPowerOfTwo (if hint < 1 then 1 else hint) = .ok (2 ^ e) ∧
          (if hint < 1 then 1 else hint) ≤ 2 ^ e :=
      go_ok (e := 0) (by decide) (by split <;> omega) (by omega) (by omega)
    exact ⟨_, by rw [new, doubled]; rfl⟩

end Constructor

theorem Geometry.slotFor_lt {index : OrderIndex} {bits : Nat} (geometry : index.Geometry bits)
    (id : OrderId) : index.slotFor id < index.slots.length := by
  have hbits := geometry.bits_lt
  rw [slotFor, geometry.length, geometry.shift, BitVec.toNat_ushiftRight, Nat.shiftRight_eq_div_pow]
  apply Nat.div_lt_of_lt_mul
  rw [← pow_add, Nat.sub_add_cancel (by omega)]
  exact BitVec.isLt _

theorem Geometry.next_eq {index : OrderIndex} {bits : Nat} (geometry : index.Geometry bits) :
    ∀ i, i < index.slots.length → index.next i = walk index.slots.length i 1 := by
  intro i hi
  rw [geometry.length] at hi ⊢
  rw [next, geometry.mask, succ_and_mask hi]

namespace Roomy

variable {index : OrderIndex}

theorem slotFor_lt (roomy : index.Roomy) (id : OrderId) :
    index.slotFor id < index.slots.length := by
  obtain ⟨bits, geometry⟩ := roomy.geometry
  exact geometry.slotFor_lt id

theorem next_eq (roomy : index.Roomy) :
    ∀ i, i < index.slots.length → index.next i = walk index.slots.length i 1 := by
  obtain ⟨bits, geometry⟩ := roomy.geometry
  exact geometry.next_eq

theorem exists_freeOr (roomy : index.Roomy) (id : OrderId) :
    ∃ (i : Nat) (order : Order), index.slots[i]? = some order ∧ isFreeOr id order = true := by
  obtain ⟨i, order, at_i, free⟩ := roomy.exists_free
  exact ⟨i, order, at_i, by simp [isFreeOr, free]⟩

end Roomy

theorem Geometry.two_le_length {index : OrderIndex} {bits : Nat}
    (geometry : index.Geometry bits) : 2 ≤ index.slots.length := by
  rw [geometry.length]
  exact Nat.le_self_pow (by have := geometry.bits_pos; omega) 2

namespace Sound

variable {index : OrderIndex}

/-- The load bound leaves a free slot. -/
theorem exists_free (sound : index.Sound) :
    ∃ (i : Nat) (order : Order), index.slots[i]? = some order ∧ isFree order = true := by
  by_contra none_free
  push Not at none_free
  have all : ∀ order ∈ index.slots, (!isFree order) = true := by
    intro order member
    obtain ⟨i, at_i⟩ := List.getElem?_of_mem member
    simpa using none_free i order at_i
  have full : index.records.length = index.slots.length := by
    rw [records, List.filter_eq_self.mpr all]
  obtain ⟨bits, geometry⟩ := sound.geometry
  have := sound.records_le
  have := sound.load
  have := geometry.two_le_length
  omega

theorem roomy (sound : index.Sound) : index.Roomy := ⟨sound.geometry, sound.exists_free⟩

end Sound

end OrderBook.OrderIndex
