import OrderBook.Foundation.Residues
import OrderBook.Index.Findable
import Mathlib.Data.Int.ModEq

/-!
# Where sequential ids have their homes

The multiplier of the hash is the golden ratio of the 64 bit range, so that the multiples of
it stay far apart: `golden_far` compares the basis that `Residues.Basis.descend` finds with
every width that a slot can have. Two ids closer than a third of the capacity never
share a home, and closer than a fifth they do not even have neighbouring homes.

An index that is `Settled` keeps every record at its home. As long as its ids are within
a fifth of the capacity, every record has a free slot after it, so that a deletion has
nothing to shift and the index stays settled.
-/

namespace OrderBook.OrderIndex

open Cyclic Residues

variable {index : OrderIndex} {bits : Nat}

/-- The multiplier of the hash. -/
def golden : Nat := 0x9E3779B97F4A7C15

/-- The 64 bit product before it is shifted down. -/
def hash (id : OrderId) : Nat := (BitVec.ofInt 64 id * 0x9E3779B97F4A7C15#64).toNat

theorem hash_lt (id : OrderId) : hash id < 2 ^ 64 := BitVec.isLt _

theorem hash_modEq (id : OrderId) : ((2 ^ 64 : Nat) : Int) ∣ id * golden - hash id := by
  have product : (hash id : Int) = ((id % 2 ^ 64) * golden) % 2 ^ 64 := by
    rw [hash, BitVec.toNat_mul, BitVec.toNat_ofInt]
    push_cast
    rw [Int.toNat_of_nonneg (Int.emod_nonneg _ (by decide))]
    rfl
  rw [product]
  exact Int.ModEq.dvd (Int.ModEq.trans (Int.mod_modEq _ _) ((Int.mod_modEq _ _).mul_right _))

theorem hash_apart (a b : OrderId) :
    ((2 ^ 64 : Nat) : Int) ∣ (b - a) * golden - (hash b - hash a) := by
  convert Int.dvd_sub (hash_modEq b) (hash_modEq a) using 1
  ring

theorem Geometry.slotFor_eq_div (geometry : index.Geometry bits) (id : OrderId) :
    index.slotFor id = hash id / 2 ^ (64 - bits) := by
  rw [slotFor, geometry.shift, BitVec.toNat_ushiftRight, Nat.shiftRight_eq_div_pow, hash]

/-- The basis for homes that are to be `widths` slots apart. -/
def goldenBasis (bits widths : Nat) : Basis (2 ^ 64) golden :=
  (Basis.start (2 ^ 64) golden).descend (widths * 2 ^ (64 - bits)) 64

theorem golden_far {widths : Nat} (narrow : widths * 2 ^ (64 - bits) ≤ golden) :
    widths * 2 ^ (64 - bits) ≤
      min (goldenBasis bits widths).rise (goldenBasis bits widths).fall :=
  Basis.le_descend 64 (Nat.le_min.mpr ⟨narrow, narrow.trans (by decide)⟩)

/-- Up to `2 ^ 33` slots the vectors found are as long as a third of the slab. -/
theorem third_lt : ∀ bits, bits < 34 → 1 ≤ bits →
    2 ^ (64 - bits) ≤ golden ∧
      2 ^ bits < 3 * ((goldenBasis bits 1).up + (goldenBasis bits 1).down) := by
  decide +kernel

/-- With two widths kept, as long as a fifth of it. -/
theorem fifth_lt : ∀ bits, bits < 34 → 2 ≤ bits →
    2 * 2 ^ (64 - bits) ≤ golden ∧
      2 ^ bits < 5 * ((goldenBasis bits 2).up + (goldenBasis bits 2).down) := by
  decide +kernel

namespace Geometry

variable {a b : Int}

private theorem ring_eq (geometry : index.Geometry bits) :
    2 ^ 64 = 2 ^ bits * 2 ^ (64 - bits) := by
  rw [← pow_add, Nat.add_sub_cancel' geometry.bits_lt.le]

theorem slotFor_ne_of_lt (geometry : index.Geometry bits) (small : bits < 34) (lt : a < b)
    (near : 3 * (b - a) ≤ index.slots.length) : index.slotFor a ≠ index.slotFor b := by
  obtain ⟨narrow, long⟩ := third_lt bits small geometry.bits_pos
  rw [geometry.length] at near
  rw [geometry.slotFor_eq_div, geometry.slotFor_eq_div]
  have far : 1 * 2 ^ (64 - bits) ≤ _ := golden_far (by rwa [Nat.one_mul])
  rw [Nat.one_mul] at far
  exact Basis.cells_ne geometry.ring_eq (by decide) far (hash_apart a b) (by omega)
    (by omega)

/-- Different ids at most a third of the capacity apart have different homes. -/
theorem slotFor_ne (geometry : index.Geometry bits) (small : bits < 34) (ne : a ≠ b)
    (near : 3 * |b - a| ≤ index.slots.length) : index.slotFor a ≠ index.slotFor b := by
  obtain lt | gt := lt_or_gt_of_ne ne
  · exact geometry.slotFor_ne_of_lt small lt (by rwa [abs_of_pos (by omega)] at near)
  · exact (geometry.slotFor_ne_of_lt small gt
      (by rwa [abs_of_neg (by omega), neg_sub] at near)).symm

/-- In a slab of two slots a fifth is less than one. -/
private theorem two_le_bits (geometry : index.Geometry bits) (lt : a < b)
    (near : 5 * (b - a) ≤ index.slots.length) : 2 ≤ bits := by
  by_contra narrow
  have one : bits = 1 := by have := geometry.bits_pos; omega
  have two : index.slots.length = 2 := by rw [geometry.length, one, pow_one]
  omega

theorem slotFor_not_next_of_lt (geometry : index.Geometry bits) (small : bits < 34) (lt : a < b)
    (near : 5 * (b - a) ≤ index.slots.length) :
    index.slotFor b ≠ walk index.slots.length (index.slotFor a) 1 ∧
      index.slotFor a ≠ walk index.slots.length (index.slotFor b) 1 := by
  have narrow := (fifth_lt bits small (geometry.two_le_bits lt near)).1
  have long := (fifth_lt bits small (geometry.two_le_bits lt near)).2
  rw [geometry.length] at near ⊢
  rw [geometry.slotFor_eq_div, geometry.slotFor_eq_div]
  exact Basis.cells_not_next geometry.ring_eq (by decide) (golden_far narrow) (hash_apart a b)
    (by omega) (by omega) (hash_lt a) (hash_lt b)

/-- Ids at most a fifth of the capacity apart do not have neighbouring homes. -/
theorem slotFor_not_next (geometry : index.Geometry bits) (small : bits < 34) (ne : a ≠ b)
    (near : 5 * |b - a| ≤ index.slots.length) :
    index.slotFor b ≠ walk index.slots.length (index.slotFor a) 1 := by
  obtain lt | gt := lt_or_gt_of_ne ne
  · exact (geometry.slotFor_not_next_of_lt small lt (by rwa [abs_of_pos (by omega)] at near)).1
  · exact (geometry.slotFor_not_next_of_lt small gt
      (by rwa [abs_of_neg (by omega), neg_sub] at near)).2

/-- Of as many sequential ids as there are slots, at most three have the same home. -/
theorem sharers_le (geometry : index.Geometry bits) (small : bits < 34) (first : Int)
    (slot : Nat) : ((List.range index.slots.length).filter
      fun k => index.slotFor (first + (k : Nat)) = slot).length ≤ 3 := by
  have homes : ∀ k ∈ (List.range index.slots.length).filter
      (fun k => index.slotFor (first + (k : Nat)) = slot),
      k < index.slots.length ∧ index.slotFor (first + (k : Nat)) = slot := by
    intro k member
    rw [List.mem_filter, List.mem_range] at member
    exact ⟨member.1, of_decide_eq_true member.2⟩
  refine Residues.length_le_of_gaps (by decide) ?_ fun k member => (homes k member).1
  -- Two sharers are more than a third of the slab apart.
  refine (List.pairwise_lt_range.filter _).imp_of_mem fun {j k} hj hk lt => ?_
  by_contra near
  refine geometry.slotFor_ne_of_lt small (a := first + (j : Nat)) (b := first + (k : Nat))
    (by omega) (by omega) ?_
  rw [(homes j hj).2, (homes k hk).2]

end Geometry

/-- How evenly sequential ids are spread over the slots of a new index. -/
theorem homes_spread (hint : Nat) (hhint : hint ≤ 2 ^ 32) (index : OrderIndex)
    (constructed : new hint = .ok index) :
    (∀ a b : OrderId, a ≠ b → 3 * |b - a| ≤ index.capacity →
      index.slotFor a ≠ index.slotFor b) ∧
    (∀ a b : OrderId, a ≠ b → 5 * |b - a| ≤ index.capacity →
      index.slotFor b ≠ index.next (index.slotFor a)) ∧
    ∀ (first : OrderId) (slot : Nat), ((List.range index.capacity).filter
      fun k => index.slotFor (first + (k : Nat)) = slot).length ≤ 3 := by
  obtain ⟨same, constructed', sound, _⟩ := new_eq_ok (hhint.trans (by decide))
  rw [constructed, Except.ok.injEq] at constructed'
  subst constructed'
  obtain ⟨bits, geometry⟩ := sound.geometry
  have bits_lt : bits < 34 := by
    have length := length_le_of_new (by decide) hhint constructed
    rw [geometry.length] at length
    exact Nat.lt_succ_of_le ((Nat.pow_le_pow_iff_right (by decide)).mp length)
  refine ⟨fun a b ne near => geometry.slotFor_ne bits_lt ne near, fun a b ne near => ?_,
    fun first slot => geometry.sharers_le bits_lt first slot⟩
  rw [geometry.next_eq _ (geometry.slotFor_lt a)]
  exact geometry.slotFor_not_next bits_lt ne near

/-- Two ids of a slab of sixteen slots. -/
theorem homes_spread_sixteen : ∃ index, new 8 = .ok index ∧
    index.slotFor 41 ≠ index.slotFor 44 ∧ index.slotFor 44 ≠ index.next (index.slotFor 41) := by
  have spread := homes_spread 8 (by decide) _ rfl
  exact ⟨_, rfl, spread.1 41 44 (by decide) (by decide), spread.2.1 41 44 (by decide) (by decide)⟩

section Settled

variable {id : OrderId} {i : Nat} {order : Order}

/-- Every record is stored at its home. -/
def Settled (index : OrderIndex) : Prop :=
  ∀ i order, index.slots[i]? = some order → isFree order = false → index.slotFor order.id = i

/-- No two records have neighbouring homes. -/
def Scattered (index : OrderIndex) : Prop :=
  ∀ a ∈ index.records, ∀ b ∈ index.records,
    index.slotFor b.id ≠ walk index.slots.length (index.slotFor a.id) 1

theorem Settled.linked (settled : index.Settled) : index.Linked := by
  intro i order at_i busy d hd
  have home : index.slotFor order.id = i := settled i order at_i busy
  simp only [home, Cyclic.dist, le_refl, if_true, Nat.sub_self] at hd
  exact absurd hd (Nat.not_lt_zero d)

theorem Settled.freeAfter (settled : index.Settled) (roomy : index.Roomy)
    (scattered : index.Scattered) (at_i : index.slots[i]? = some order)
    (busy : isFree order = false) : index.FreeAfter i := by
  have hi : i < index.slots.length := (List.getElem?_eq_some_iff.mp at_i).1
  have next_lt : index.next i < index.slots.length := by
    rw [roomy.next_eq i hi]
    exact walk_lt hi (by omega)
  have at_next := List.getElem?_eq_getElem next_lt
  refine ⟨_, at_next, ?_⟩
  by_contra taken
  have taken' : isFree index.slots[index.next i] = false := by simpa using taken
  have home := settled _ _ at_next taken'
  have member := mem_records_iff.mpr ⟨taken', _, at_next⟩
  apply scattered order (mem_records_iff.mpr ⟨busy, i, at_i⟩) _ member
  rw [home, settled i order at_i busy, roomy.next_eq i hi]

/-- An order whose home no record has is stored there. -/
theorem Settled.insert (settled : index.Settled) (sound : index.Sound)
    (vacant : ∀ other ∈ index.records, index.slotFor other.id ≠ index.slotFor order.id)
    {index' : OrderIndex} (inserted : index.insert order = .ok index') : index'.Settled := by
  have hhome := sound.roomy.slotFor_lt order.id
  have at_home := List.getElem?_eq_getElem hhome
  have free : isFree index.slots[index.slotFor order.id] = true := by
    by_contra taken
    have taken' : isFree index.slots[index.slotFor order.id] = false := by simpa using taken
    exact vacant _ (mem_records_iff.mpr ⟨taken', _, at_home⟩) (settled _ _ at_home taken')
  have scanned : Probing.scan index.slots index.next isFree index.fuel
      (index.slotFor order.id) = .ok (index.slotFor order.id) := by
    simp only [fuel, Probing.scan, at_home, free, if_true]
  rw [OrderIndex.insert] at inserted
  split at inserted
  case isFalse => cases inserted
  case isTrue =>
    simp only [scanned, Run.ok_bind] at inserted
    cases inserted
    intro i other at_i busy
    by_cases here : index.slotFor order.id = i
    · subst here
      rw [List.getElem?_set_self hhome] at at_i
      cases at_i
      rfl
    · rw [List.getElem?_set_ne here] at at_i
      exact settled i other at_i busy

theorem Settled.erase (settled : index.Settled) (sound : index.Sound)
    (scattered : index.Scattered) (holds : index.Holds id i order) {index' : OrderIndex}
    (erased : index.erase id = .ok index') : index'.Settled := by
  have after := settled.freeAfter sound.roomy scattered holds.at_slot holds.busy
  rw [sound.erase_eq_of_freeAfter holds after] at erased
  cases erased
  have hi : i < index.slots.length := (List.getElem?_eq_some_iff.mp holds.at_slot).1
  intro j other at_j busy
  by_cases here : i = j
  · subst here
    rw [List.getElem?_set_self hi] at at_j
    cases at_j
    simp [isFree, emptyOrder] at busy
  · rw [List.getElem?_set_ne here] at at_j
    exact settled j other at_j busy

theorem Settled.setRemaining (settled : index.Settled) (i : Nat) (remaining : Quantity) :
    (index.setRemaining i remaining).Settled := by
  intro j order at_j busy
  simp only [OrderIndex.setRemaining, List.getElem?_modify, Option.map_eq_map,
    Option.map_eq_some_iff] at at_j
  obtain ⟨entry, at_j, rfl⟩ := at_j
  -- The store leaves the id, and so the home, as they are.
  have same : (if i = j then { entry with remaining } else entry).id = entry.id := by
    split <;> rfl
  have taken : isFree entry = false := by rwa [isFree, same] at busy
  rw [same]
  exact settled j entry at_j taken

end Settled

end OrderBook.OrderIndex
