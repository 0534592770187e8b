import OrderBook.Index.Operations

/-!
# The probe loops stay in bounds and end

The loops of the index have no counter. They end because some slot ahead is free, and
that is true after every history of calls in which the insertions satisfy the assertion:
`size_` counts the occupied slots and is at most half the capacity.

The fuel of a loop is the number of slots that it may read. Here every loop is given as
much of it as there are slots.
-/

namespace OrderBook.OrderIndex

open Cyclic

/-- The three public operations. -/
inductive Call where
  | insert (order : Order)
  | find (id : OrderId)
  | erase (id : OrderId)
  deriving DecidableEq, Repr

def call (index : OrderIndex) : Call → Except Fault OrderIndex
  | .insert order => index.insert order
  | .find id => do
      let _ ← index.find id
      return index
  | .erase id => index.erase id

/-- A newly constructed index after a sequence of calls. -/
def callAll (hint : Nat) (calls : List Call) : Except Fault OrderIndex := do
  let index ← new hint
  calls.foldlM call index

/-- With one read for each slot, the loop of `insert`, the probe of `find` and `erase` and
the shift loop of `erase` each end at a slot in bounds. -/
structure LoopsEnd (index : OrderIndex) (id : OrderId) : Prop where
  insert : ∃ i, i < index.capacity ∧
    Probing.scan index.slots index.next isFree index.capacity (index.slotFor id) = .ok i
  probe : ∃ i, i < index.capacity ∧
    Probing.scan index.slots index.next (isFreeOr id) index.capacity (index.slotFor id) = .ok i
  shift : ∀ i order, index.find id = .ok (some i) → index.slots[i]? = some order →
    ∃ slots hole, hole < index.capacity ∧ Probing.shift index.next isFree
      (fun entry hole j => inRange (index.slotFor entry.id) hole j)
      index.capacity index.slots i i = .ok (slots, hole)

/-- What holds of an index for a hint after any sequence of calls. -/
structure Bounded (hint : Nat) (index : OrderIndex) : Prop where
  capacity_eq : ∃ bits, index.capacity = 2 ^ bits
  capacity_ge : max 2 (2 * hint) ≤ index.capacity
  mask_eq : index.mask = index.capacity - 1
  slotFor_lt : ∀ id, index.slotFor id < index.capacity
  size_eq : index.size = index.records.length
  load : index.size * 2 ≤ index.capacity
  loopsEnd : ∀ id, index.LoopsEnd id

variable {index : OrderIndex} {hint : Nat}

theorem Sound.loopsEnd (sound : index.Sound) (id : OrderId) : index.LoopsEnd id where
  insert := by
    obtain ⟨k, _, hk, scanned, _⟩ := Probing.scan_spec sound.roomy.next_eq
      (sound.roomy.slotFor_lt id) le_rfl sound.exists_free
    exact ⟨_, walk_lt (sound.roomy.slotFor_lt id) hk.le, scanned⟩
  probe := by
    obtain ⟨k, _, hk, scanned, _⟩ := Probing.scan_spec sound.roomy.next_eq
      (sound.roomy.slotFor_lt id) le_rfl (sound.roomy.exists_freeOr id)
    exact ⟨_, walk_lt (sound.roomy.slotFor_lt id) hk.le, scanned⟩
  shift := by
    intro i order found at_i
    obtain unknown | ⟨j, known, holds⟩ := sound.roomy.find_cases id
    · cases found.symm.trans unknown
    · cases found.symm.trans holds.find
      have hi : i < index.slots.length := (List.getElem?_eq_some_iff.mp at_i).1
      obtain ⟨m, hm, busy, stop⟩ := sound.roomy.exists_run holds.at_slot holds.busy
      obtain ⟨slots, hole, shifted, _, hhole, _⟩ := Probing.shift_perm emptyOrder
        (fun entry hole j => inRange (index.slotFor entry.id) hole j) index.slots.length
        sound.roomy.next_eq rfl hi hm (Nat.lt_of_succ_lt hm) busy stop
      exact ⟨slots, hole, hhole, shifted⟩

/-- The loops that the operations run are these: the one read more that each of them is
given is not made. -/
theorem LoopsEnd.fuel_eq {id : OrderId} (ends : index.LoopsEnd id) :
    Probing.scan index.slots index.next isFree index.fuel (index.slotFor id) =
        Probing.scan index.slots index.next isFree index.capacity (index.slotFor id) ∧
      Probing.scan index.slots index.next (isFreeOr id) index.fuel (index.slotFor id) =
        Probing.scan index.slots index.next (isFreeOr id) index.capacity (index.slotFor id) ∧
      ∀ i order, index.find id = .ok (some i) → index.slots[i]? = some order →
        Probing.shift index.next isFree
            (fun entry hole j => inRange (index.slotFor entry.id) hole j)
            index.fuel index.slots i i =
          Probing.shift index.next isFree
            (fun entry hole j => inRange (index.slotFor entry.id) hole j)
            index.capacity index.slots i i := by
  refine ⟨?_, ?_, fun i order found at_i => ?_⟩
  · obtain ⟨i, _, ended⟩ := ends.insert
    exact (Probing.scan_fuel_add ended 1).trans ended.symm
  · obtain ⟨i, _, ended⟩ := ends.probe
    exact (Probing.scan_fuel_add ended 1).trans ended.symm
  · obtain ⟨slots, hole, _, ended⟩ := ends.shift i order found at_i
    exact (Probing.shift_fuel_add ended 1).trans ended.symm

/-- The part of `Bounded` that the calls keep. -/
structure Counted (hint : Nat) (index : OrderIndex) : Prop where
  sound : index.Sound
  size_eq : index.size = index.records.length
  room : hint * 2 ≤ index.slots.length

namespace Counted

theorem bounded (counted : Counted hint index) : Bounded hint index := by
  obtain ⟨bits, geometry⟩ := counted.sound.geometry
  refine ⟨⟨bits, geometry.length⟩, max_le geometry.two_le_length ?_, ?_,
    counted.sound.roomy.slotFor_lt, counted.size_eq, counted.sound.load,
    counted.sound.loopsEnd⟩
  · rw [mul_comm]
    exact counted.room
  · rw [capacity, geometry.length, geometry.mask]

/-- A call either keeps the index counted or is an insertion at the load bound. -/
theorem call (counted : Counted hint index) (op : Call)
    (usable : ∀ order, op = .insert order → order.id ≠ kEmpty) :
    (∃ index', index.call op = .ok index' ∧ Counted hint index') ∨
      index.call op = .error .assertion := by
  cases op with
  | insert order =>
      by_cases room : index.size * 2 < index.slots.length
      · obtain ⟨index', inserted, stores⟩ := counted.sound.insert_spec room order
        have stored := (stores.records_of_busy (usable order rfl)).length_eq
        refine .inl ⟨index', inserted, stores.sound, ?_, ?_⟩
        · rw [stores.size, stored, List.length_cons, counted.size_eq]
        · rw [stores.length]
          exact counted.room
      · exact .inr (insert_eq_assertion room order)
  | find id =>
      refine .inl ⟨index, ?_, counted⟩
      obtain unknown | ⟨i, order, holds⟩ := counted.sound.roomy.find_cases id
      · simp only [OrderIndex.call, unknown, Run.ok_bind]
        rfl
      · simp only [OrderIndex.call, holds.find, Run.ok_bind]
        rfl
  | erase id =>
      obtain unknown | ⟨i, order, holds⟩ := counted.sound.roomy.find_cases id
      · exact .inl ⟨index, counted.sound.roomy.erase_of_find_none unknown, counted⟩
      · obtain ⟨index', erased, removes⟩ := counted.sound.erase_spec holds
        have stored := removes.records.length_eq
        have size := removes.size
        have before := counted.size_eq
        rw [List.length_cons] at stored
        refine .inl ⟨index', erased, removes.sound, by omega, ?_⟩
        rw [removes.length]
        exact counted.room

end Counted

/-- After every sequence of calls whose insertions have a usable id and satisfy their
assertion, the index is bounded, and every call returns. -/
theorem callAll_bounded (hint : Nat) (hhint : hint ≤ 2 ^ 62) (calls : List Call)
    (usable : ∀ order, .insert order ∈ calls → order.id ≠ kEmpty)
    (asserted : callAll hint calls ≠ .error .assertion) :
    ∀ before, before <+: calls →
      ∃ index, callAll hint before = .ok index ∧ Bounded hint index := by
  have counted : ∀ before, before <+: calls →
      ∃ index, callAll hint before = .ok index ∧ Counted hint index := by
    apply Run.reaches_unless asserted
    · obtain ⟨index, constructed, sound, records, size, room⟩ := new_eq_ok hhint
      exact ⟨index, constructed, sound, by simp [size, records], room⟩
    · intro before op index member _ counted
      exact counted.call op fun order same => usable order (member.subset (by simp [same]))
  intro before member
  obtain ⟨index, reached, kept⟩ := counted before member
  exact ⟨index, reached, kept.bounded⟩

/-- A reused id, a search for a negative id and a deletion in a slab of four. -/
theorem callAll_bounded_reused :
    ∃ index, callAll 2 [.insert ⟨1, 100, 10, .buy⟩, .insert ⟨1, 200, 20, .sell⟩, .find (-5),
      .erase 1] = .ok index ∧ Bounded 2 index :=
  callAll_bounded 2 (by decide) _ (by simp [kEmpty, kInvalidPrice]) (by decide) _ List.prefix_rfl

end OrderBook.OrderIndex
