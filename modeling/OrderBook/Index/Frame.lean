import OrderBook.Index.Findable

/-!
# What an erasure leaves alone

`erase` is described here without any invariant on where the records are: the slab is as
the constructor sized it, some slot is free and `size_` counts the records. Ids may be
stored twice and probe paths may be broken. The deletion then takes out the record that
`find` points to, and nothing else is lost, doubled or changed.
-/

namespace OrderBook.OrderIndex

open scoped List

variable {index : OrderIndex}

/-- The length of the slab, the mask and the shift are as the constructor leaves them. -/
def Constructed (index : OrderIndex) : Prop :=
  ∃ hint fresh, new hint = .ok fresh ∧ index.slots.length = fresh.slots.length ∧
    index.mask = fresh.mask ∧ index.shift = fresh.shift

theorem Constructed.roomy (constructed : index.Constructed)
    (free : ∃ order ∈ index.slots, isFree order = true) : index.Roomy := by
  obtain ⟨hint, fresh, result, length, mask, shift⟩ := constructed
  obtain ⟨order, member, vacant⟩ := free
  obtain ⟨i, at_i⟩ := List.getElem?_of_mem member
  have hhint : hint ≤ 2 ^ 62 := by
    by_contra large
    rw [new_of_large (lt_of_not_ge large) result, List.length_nil,
      List.length_eq_zero_iff] at length
    rw [length] at member
    cases member
  obtain ⟨same, result', sound, _⟩ := new_eq_ok hhint
  cases result.symm.trans result'
  obtain ⟨bits, geometry⟩ := sound.geometry
  exact ⟨⟨bits, geometry.bits_pos, geometry.bits_lt, length.trans geometry.length,
    mask.trans geometry.mask, shift.trans geometry.shift⟩, i, order, at_i, vacant⟩

/-- If the probe of an id meets a record with it in front of a free slot, `erase` removes
the record that `find` points to. The other records stay as they are, up to their slots.
If not, `erase` changes nothing. -/
theorem erase_frame (index : OrderIndex) (constructed : index.Constructed)
    (counted : index.size = index.records.length)
    (free : ∃ order ∈ index.slots, isFree order = true) (id : OrderId) :
    (index.Reachable id → ∃ i order index', index.find id = .ok (some i) ∧
      index.slots[i]? = some order ∧ order.id = id ∧ index.erase id = .ok index' ∧
      order :: index'.records ~ index.records ∧ index'.size + 1 = index.size) ∧
    (¬ index.Reachable id → index.find id = .ok none ∧ index.erase id = .ok index) := by
  have roomy := constructed.roomy free
  constructor
  · intro reachable
    obtain ⟨i, order, holds⟩ := roomy.reachable_iff.mp reachable
    obtain ⟨slots, erased, _, stored⟩ := roomy.erase_records holds
    have count := stored.length_eq
    rw [List.length_cons, ← counted] at count
    refine ⟨i, order, _, holds.find, holds.at_slot, holds.id_eq, erased, stored, ?_⟩
    change index.size - 1 + 1 = index.size
    omega
  · intro unreachable
    obtain unknown | found := roomy.find_cases id
    · exact ⟨unknown, roomy.erase_of_find_none unknown⟩
    · exact absurd (roomy.reachable_iff.mpr found) unreachable

/-- A slab of four, sized for two, with id 1 stored twice and a cluster that wraps. -/
def wrapped : OrderIndex where
  slots := [⟨9, 200, 20, .sell⟩, emptyOrder, ⟨1, 100, 10, .buy⟩, ⟨1, 300, 30, .buy⟩]
  mask := 3
  shift := 62
  size := 3

theorem erase_frame_wrapped : ∃ i order index', wrapped.find 1 = .ok (some i) ∧
    wrapped.slots[i]? = some order ∧ order.id = 1 ∧ wrapped.erase 1 = .ok index' ∧
    order :: index'.records ~ wrapped.records ∧ index'.size + 1 = wrapped.size := by
  refine (erase_frame wrapped ⟨2, _, rfl, rfl, rfl, rfl⟩ rfl ⟨emptyOrder, by decide, rfl⟩ 1).1
    ⟨2, ⟨1, 100, 10, .buy⟩, rfl, rfl, rfl, ?_⟩
  intro d hd
  cases hd

end OrderBook.OrderIndex
