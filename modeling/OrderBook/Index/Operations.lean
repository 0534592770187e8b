import OrderBook.Index.Invariant

/-!
# One specification for each index operation

Every operation on a sound index returns a sound index and is described by what
it does to the stored records, up to their order. `find` is described by
`Holds`: the probe of an id stops at a slot with that id. An id with no `Holds`
is unknown to the index, whether or not a record with that id is stored beyond
a free slot of its probe path.

`erase` removes exactly the record that `find` points to. That fact does not
depend on which records the shift loop moves; whether the others can still be
found does, and is the subject of `Index.Findable`.
-/

namespace OrderBook.OrderIndex

open Cyclic
open scoped List

variable {index : OrderIndex} {id : OrderId} {i : Nat} {order : Order}

/-- The probe of `id` stops at slot `i`, and the record there has that id. -/
structure Holds (index : OrderIndex) (id : OrderId) (i : Nat) (order : Order) : Prop where
  find : index.find id = .ok (some i)
  at_slot : index.slots[i]? = some order
  id_eq : order.id = id
  busy : isFree order = false

theorem deref_eq (at_i : index.slots[i]? = some order) : index.deref i = .ok order := by
  simp [deref, at_i]

theorem Holds.deref (holds : index.Holds id i order) : index.deref i = .ok order :=
  deref_eq holds.at_slot

theorem Holds.mem_records (holds : index.Holds id i order) : order ∈ index.records :=
  List.mem_filter.mpr ⟨List.mem_of_getElem? holds.at_slot, by simp [holds.busy]⟩

/-- `index'` stores one order more, unless its id is the free mark. -/
structure Stores (index : OrderIndex) (order : Order) (index' : OrderIndex) : Prop where
  sound : index'.Sound
  size : index'.size = index.size + 1
  length : index'.slots.length = index.slots.length
  records : index'.records ~ [order].filter (fun o => !isFree o) ++ index.records

/-- `index'` stores every record of `index` but one. -/
structure Removes (index : OrderIndex) (order : Order) (index' : OrderIndex) : Prop where
  sound : index'.Sound
  size : index'.size + 1 = index.size
  length : index'.slots.length = index.slots.length
  records : order :: index'.records ~ index.records

theorem Stores.records_of_busy {index' : OrderIndex} (stores : index.Stores order index')
    (busy : order.id ≠ kEmpty) : index'.records ~ order :: index.records := by
  have kept : [order].filter (fun o => !isFree o) = [order] := by simp [isFree, busy]
  have records := stores.records
  rwa [kept] at records

/-- Overwriting one slot changes the records by the old and the new entry. -/
theorem filter_set_perm {slots : List Order} {old : Order} (new : Order)
    (at_i : slots[i]? = some old) (p : Order → Bool) :
    [old].filter p ++ (slots.set i new).filter p ~ [new].filter p ++ slots.filter p := by
  have traded := (Probing.cons_set_perm new at_i).filter p
  rw [← List.singleton_append, List.filter_append, ← List.singleton_append (l := slots),
    List.filter_append] at traded
  exact traded

theorem insert_eq_assertion (full : ¬ index.size * 2 < index.slots.length) (order : Order) :
    index.insert order = .error .assertion := by
  simp [insert, full]

/-- A slab without slots is read out of bounds by every probe. -/
theorem find_of_no_slots (vacant : index.slots = []) (id : OrderId) :
    index.find id = .error .outOfBounds := by
  simp [find, fuel, Probing.scan, vacant]

namespace Roomy

/-- The probe of an id ends at the nearest slot that is free or holds the id. -/
theorem probe (roomy : index.Roomy) (id : OrderId) :
    ∃ k order, k < index.slots.length ∧
      Probing.scan index.slots index.next (isFreeOr id) index.fuel (index.slotFor id) =
        .ok (walk index.slots.length (index.slotFor id) k) ∧
      Probing.Avoids index.slots (isFreeOr id) (index.slotFor id) k ∧
      index.slots[walk index.slots.length (index.slotFor id) k]? = some order ∧
      isFreeOr id order = true :=
  Probing.scan_spec roomy.next_eq (roomy.slotFor_lt id) index.length_lt_fuel.le
    (roomy.exists_freeOr id)

theorem find_cases (roomy : index.Roomy) (id : OrderId) :
    index.find id = .ok none ∨ ∃ i order, index.Holds id i order := by
  obtain ⟨k, order, _, scanned, _, at_k, stops⟩ := roomy.probe id
  have result : index.find id = .ok (if isFree order then none else some
      (walk index.slots.length (index.slotFor id) k)) := by
    simp only [find, scanned, Run.ok_bind, deref_eq at_k]
    rfl
  cases busy : isFree order with
  | true => exact .inl (by simp [result, busy])
  | false =>
      have id_eq : order.id = id := by simpa [isFreeOr, busy] using stops
      exact .inr ⟨_, order, by simp [result, busy], at_k, id_eq, busy⟩

/-- The distance from an occupied slot to the next free one. -/
theorem exists_run (roomy : index.Roomy) (at_i : index.slots[i]? = some order)
    (busy : isFree order = false) :
    ∃ m, m + 1 < index.slots.length ∧
      (∀ d, d < m → ∀ entry,
        index.slots[walk index.slots.length i (d + 1)]? = some entry → isFree entry = false) ∧
      ∃ entry, index.slots[walk index.slots.length i (m + 1)]? = some entry ∧
        isFree entry = true := by
  have hi : i < index.slots.length := (List.getElem?_eq_some_iff.mp at_i).1
  obtain ⟨bits, geometry⟩ := roomy.geometry
  have two := geometry.two_le_length
  obtain ⟨m, hm, avoids, free, at_m, stops⟩ := Probing.exists_nearest (h := walk _ i 1)
    (walk_lt hi (by omega)) roomy.exists_free
  rw [walk_one_walk hi hm] at at_m
  -- A full turn would lead back to slot `i`, which is occupied.
  have turn : m + 1 ≠ index.slots.length := by
    intro full
    have back : walk index.slots.length i (m + 1) = i := by
      simp only [walk]
      split <;> omega
    rw [back, at_i] at at_m
    cases at_m
    simp [busy] at stops
  refine ⟨m, by omega, fun d hd entry at_d => ?_, free, at_m, stops⟩
  rw [← walk_one_walk hi (by omega)] at at_d
  exact avoids d hd entry at_d

theorem erase_of_find_none (roomy : index.Roomy) (unknown : index.find id = .ok none) :
    index.erase id = .ok index := by
  obtain ⟨k, order, _, scanned, _, at_k, _⟩ := roomy.probe id
  have free : isFree order = true := by
    by_contra busy
    simp only [find, scanned, Run.ok_bind, deref_eq at_k, busy] at unknown
    cases unknown
  simp only [erase, scanned, Run.ok_bind, deref_eq at_k, free]
  rfl

/-- The probe that ends at a known record. -/
theorem probe_of_holds (roomy : index.Roomy) (holds : index.Holds id i order) :
    ∃ k, k < index.slots.length ∧ walk index.slots.length (index.slotFor id) k = i ∧
      Probing.scan index.slots index.next (isFreeOr id) index.fuel (index.slotFor id) = .ok i ∧
      Probing.Avoids index.slots (isFreeOr id) (index.slotFor id) k := by
  obtain ⟨k, found, hk, scanned, avoids, at_k, _⟩ := roomy.probe id
  have result := holds.find
  simp only [find, scanned, Run.ok_bind, deref_eq at_k] at result
  have same : walk index.slots.length (index.slotFor id) k = i := by
    cases busy : isFree found <;> rw [busy] at result <;> cases result
    rfl
  exact ⟨k, hk, same, by rw [scanned, same], avoids⟩

/-- The source of `erase` once its probe has found the record. -/
theorem erase_eq_of_holds (roomy : index.Roomy) (holds : index.Holds id i order) :
    index.erase id = (do
      let (slots, hole) ← Probing.shift index.next isFree
        (fun entry hole j => inRange (index.slotFor entry.id) hole j)
        index.fuel index.slots i i
      return { index with slots := slots.set hole emptyOrder, size := index.size - 1 }) := by
  obtain ⟨k, _, _, scanned, _⟩ := roomy.probe_of_holds holds
  simp only [erase, scanned, Run.ok_bind, holds.deref, holds.busy]
  rfl

theorem erase_eq_map (roomy : index.Roomy) (holds : index.Holds id i order) :
    index.erase id = ((Probing.shift index.next isFree
        (fun entry hole j => inRange (index.slotFor entry.id) hole j)
        index.fuel index.slots i i).map fun r => r.1.set r.2 emptyOrder).map
      fun slots => { index with slots, size := index.size - 1 } := by
  rw [roomy.erase_eq_of_holds holds]
  cases Probing.shift index.next isFree _ index.fuel index.slots i i <;> rfl

/-- Erasing a known id removes the record that `find` points to and no other, however
the records are arranged. -/
theorem erase_records (roomy : index.Roomy) (holds : index.Holds id i order) :
    ∃ slots, index.erase id = .ok { index with slots, size := index.size - 1 } ∧
      slots.length = index.slots.length ∧
      order :: slots.filter (fun o => !isFree o) ~ index.records := by
  have hi : i < index.slots.length := (List.getElem?_eq_some_iff.mp holds.at_slot).1
  obtain ⟨m, hm, busy, stop⟩ := roomy.exists_run holds.at_slot holds.busy
  obtain ⟨slots, hole, shifted, length, hhole, same⟩ := Probing.shift_perm emptyOrder
    (fun entry hole j => inRange (index.slotFor entry.id) hole j) index.fuel
    roomy.next_eq rfl hi hm (by have := index.length_lt_fuel; omega) busy stop
  refine ⟨slots.set hole emptyOrder, ?_, by simpa using length, ?_⟩
  · rw [roomy.erase_eq_of_holds holds, shifted]
    rfl
  · have cleared := filter_set_perm emptyOrder holds.at_slot (fun o => !isFree o)
    simp only [holds.busy, Bool.not_false, List.filter_singleton] at cleared
    exact ((same.filter _).cons order).trans cleared

end Roomy

namespace Sound

/-- A change that keeps the slab's length and geometry, and the two counts, keeps
soundness. -/
theorem of_counts (sound : index.Sound) {slots : List Order} {size : Nat}
    (length : slots.length = index.slots.length)
    (records_le : (slots.filter fun order => !isFree order).length ≤ size)
    (load : size * 2 ≤ slots.length) : { index with slots, size }.Sound := by
  obtain ⟨bits, geometry⟩ := sound.geometry
  exact ⟨⟨bits, geometry.bits_pos, geometry.bits_lt, length.trans geometry.length,
    geometry.mask, geometry.shift⟩, records_le, load⟩

/-- With room below the load bound, insertion stores the order. An order whose id
is the free mark is written too, but leaves its slot free. -/
theorem insert_spec (sound : index.Sound) (room : index.size * 2 < index.slots.length)
    (order : Order) : ∃ index', index.insert order = .ok index' ∧ index.Stores order index' := by
  obtain ⟨k, free, _, scanned, _, at_k, stops⟩ :=
    Probing.scan_spec sound.roomy.next_eq (sound.roomy.slotFor_lt order.id)
      index.length_lt_fuel.le sound.exists_free
  generalize walk index.slots.length (index.slotFor order.id) k = i at scanned at_k
  have stored : (index.slots.set i order).filter (fun o => !isFree o) ~
      [order].filter (fun o => !isFree o) ++ index.records := by
    have traded := filter_set_perm order at_k (fun o => !isFree o)
    rwa [List.filter_singleton, stops] at traded
  refine ⟨{ index with slots := index.slots.set i order, size := index.size + 1 }, ?_, ?_, rfl,
    by simp, stored⟩
  · simp only [insert, room, if_true, scanned, Run.ok_bind]
    rfl
  · obtain ⟨bits, geometry⟩ := sound.geometry
    have even : 2 ∣ index.slots.length := by
      rw [geometry.length]
      exact dvd_pow_self 2 (by have := geometry.bits_pos; omega)
    have := sound.records_le
    apply sound.of_counts (by simp)
    · have := List.length_filter_le (fun o => !isFree o) [order]
      rw [stored.length_eq, List.length_append]
      simp only [List.length_singleton] at this
      omega
    · simp only [List.length_set]
      omega

theorem erase_spec (sound : index.Sound) (holds : index.Holds id i order) :
    ∃ index', index.erase id = .ok index' ∧ index.Removes order index' := by
  obtain ⟨slots, erased, length, stored⟩ := sound.roomy.erase_records holds
  have count := stored.length_eq
  have := sound.records_le
  have := sound.load
  simp only [List.length_cons] at count
  refine ⟨_, erased, ?_, ?_, length, stored⟩
  · apply sound.of_counts length
    · omega
    · omega
  · change index.size - 1 + 1 = index.size
    omega

theorem removes_of_erase (sound : index.Sound) (holds : index.Holds id i order)
    {index' : OrderIndex} (erased : index.erase id = .ok index') :
    index.Removes order index' := by
  obtain ⟨result, erased', removes⟩ := sound.erase_spec holds
  rw [erased, Except.ok.injEq] at erased'
  rwa [erased']

end Sound

section SetRemaining

/-- Neither stop test reads the remaining quantity. -/
theorem map_setRemaining (index : OrderIndex) (i : Nat) (remaining : Quantity)
    (stop : Order → Bool) (blind : ∀ order : Order, stop { order with remaining } = stop order) :
    (index.setRemaining i remaining).slots.map stop = index.slots.map stop := by
  apply List.ext_getElem?
  intro j
  simp only [setRemaining, List.getElem?_map, List.getElem?_modify]
  cases index.slots[j]? with
  | none => rfl
  | some order =>
      by_cases here : i = j
      · simp [here, blind]
      · simp [here]

theorem find_setRemaining (index : OrderIndex) (i : Nat) (remaining : Quantity) (id : OrderId) :
    (index.setRemaining i remaining).find id = index.find id := by
  have scans : Probing.scan (index.setRemaining i remaining).slots index.next (isFreeOr id)
      index.fuel (index.slotFor id) =
      Probing.scan index.slots index.next (isFreeOr id) index.fuel (index.slotFor id) :=
    Probing.scan_congr (map_setRemaining index i remaining (isFreeOr id) fun _ => rfl)
  have frees := map_setRemaining index i remaining isFree fun _ => rfl
  simp only [find]
  change (Probing.scan (index.setRemaining i remaining).slots index.next (isFreeOr id)
    (index.setRemaining i remaining).fuel (index.slotFor id) >>= _) = _
  rw [show (index.setRemaining i remaining).fuel = index.fuel by
    simp [fuel, setRemaining], scans]
  cases Probing.scan index.slots index.next (isFreeOr id) index.fuel (index.slotFor id) with
  | error fault => rfl
  | ok j =>
      have at_j := congrArg (fun flags => flags[j]?) frees
      simp only [List.getElem?_map] at at_j
      simp only [bind, Except.bind, deref]
      cases before : index.slots[j]? <;>
        cases after : (index.setRemaining i remaining).slots[j]? <;> simp_all

/-- The written record is the one `find` points to afterwards. -/
theorem Holds.setRemaining (holds : index.Holds id i order) (remaining : Quantity) :
    (index.setRemaining i remaining).Holds id i { order with remaining } where
  find := (find_setRemaining index i remaining id).trans holds.find
  at_slot := by simp [OrderIndex.setRemaining, holds.at_slot]
  id_eq := holds.id_eq
  busy := holds.busy

theorem Holds.records_setRemaining (holds : index.Holds id i order) (remaining : Quantity) :
    order :: (index.setRemaining i remaining).records ~
      { order with remaining } :: index.records := by
  have busy' : isFree { order with remaining } = false := holds.busy
  have traded := filter_set_perm { order with remaining } holds.at_slot (fun o => !isFree o)
  simp only [holds.busy, busy', Bool.not_false, List.filter_singleton] at traded
  rw [records, OrderIndex.setRemaining, Probing.modify_eq_set _ holds.at_slot]
  exact traded

/-- The records other than a found one, before and after it is written. -/
theorem Holds.exists_rest (holds : index.Holds id i order) (remaining : Quantity) :
    ∃ rest, index.records ~ order :: rest ∧
      (index.setRemaining i remaining).records ~ { order with remaining } :: rest := by
  have split := List.perm_cons_erase holds.mem_records
  refine ⟨_, split, List.Perm.cons_inv (a := order) ?_⟩
  calc order :: (index.setRemaining i remaining).records
      ~ { order with remaining } :: index.records := holds.records_setRemaining remaining
    _ ~ { order with remaining } :: order :: index.records.erase order := split.cons _
    _ ~ order :: { order with remaining } :: index.records.erase order := .swap _ _ _

theorem Sound.setRemaining (sound : index.Sound) (holds : index.Holds id i order)
    (remaining : Quantity) : (index.setRemaining i remaining).Sound := by
  have count := (holds.records_setRemaining remaining).length_eq
  simp only [List.length_cons] at count
  apply sound.of_counts (by simp)
  · have := sound.records_le
    change (index.setRemaining i remaining).records.length ≤ index.size
    omega
  · simpa using sound.load

/-- An erasure leaves the same index whatever remaining the erased record carries. -/
theorem Holds.erase_setRemaining (holds : index.Holds id i order) (sound : index.Sound)
    (remaining : Quantity) : (index.setRemaining i remaining).erase id = index.erase id := by
  have same_fuel : (index.setRemaining i remaining).fuel = index.fuel := by
    simp [fuel, OrderIndex.setRemaining]
  have same := @Probing.shift_modify_hole _ index.next isFree emptyOrder
    (fun entry hole j => inRange (index.slotFor entry.id) hole j)
    (fun order => { order with remaining }) (fun _ => rfl) (fun _ _ _ => rfl)
    index.fuel index.slots i i
  rw [sound.roomy.erase_eq_map holds, (sound.setRemaining holds remaining).roomy.erase_eq_map
    (holds.setRemaining remaining), same_fuel, ← same]
  rfl

end SetRemaining

end OrderBook.OrderIndex
