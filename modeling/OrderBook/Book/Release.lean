import OrderBook.Book.Capacity
import OrderBook.Book.Equivalence

/-!
# The release build

A build that defines `NDEBUG`, which is what the benchmark is, drops the assertion of
`insert` and goes on past half of the slab. While the assertion would hold nothing changes.
Beyond it the index is no longer `Sound`, but a probe still ends as long as one slot is
free. On a full slab a new order, a deletion of any order and a search for an unknown one
each loop for good. No access is ever out of bounds.
-/

namespace OrderBook

open PriceLevels Run
open scoped List

namespace OrderIndex

variable {index : OrderIndex} {id : OrderId} {i : Nat} {order : Order}

/-- `insert` without its assertion. -/
def insertRelease (index : OrderIndex) (order : Order) : Except Fault OrderIndex := do
  let i ← Probing.scan index.slots index.next isFree index.fuel (index.slotFor order.id)
  return { index with slots := index.slots.set i order, size := index.size + 1 }

theorem insertRelease_of_insert {index' : OrderIndex} (inserted : index.insert order = .ok index') :
    index.insertRelease order = .ok index' := by
  rw [insert] at inserted
  split at inserted
  · exact inserted
  · cases inserted

/-- `index'` is a slab of the same size and shape. -/
structure SameShape (index index' : OrderIndex) : Prop where
  length : index'.slots.length = index.slots.length
  mask : index'.mask = index.mask
  shift : index'.shift = index.shift

/-- No slot is free. -/
def Full (index : OrderIndex) : Prop := ∀ order ∈ index.slots, isFree order = false

instance Full.decidable (index : OrderIndex) : Decidable index.Full :=
  inferInstanceAs (Decidable (∀ order ∈ index.slots, isFree order = false))

namespace SameShape

theorem refl (index : OrderIndex) : SameShape index index := ⟨rfl, rfl, rfl⟩

theorem geometry {index' : OrderIndex} {bits : Nat} (same : SameShape index index')
    (geometry : index.Geometry bits) : index'.Geometry bits :=
  ⟨geometry.bits_pos, geometry.bits_lt, same.length.trans geometry.length,
    same.mask.trans geometry.mask, same.shift.trans geometry.shift⟩

end SameShape

/-- An operation of the release build returns a slab of the same shape or never returns. -/
def Returns (index : OrderIndex) (result : Except Fault OrderIndex) : Prop :=
  (∃ index', result = .ok index' ∧ SameShape index index') ∨ result = .error .endless

section Shaped

variable {bits : Nat}

theorem Geometry.next_lt (geometry : index.Geometry bits) :
    ∀ i, i < index.slots.length → index.next i < index.slots.length := by
  intro i hi
  rw [geometry.next_eq i hi]
  exact Cyclic.walk_lt hi (by omega)

theorem Geometry.roomy_or_full (geometry : index.Geometry bits) : index.Roomy ∨ index.Full := by
  by_cases full : index.Full
  · exact .inr full
  · simp only [Full, not_forall, Bool.not_eq_false] at full
    obtain ⟨order, member, free⟩ := full
    obtain ⟨i, at_i⟩ := List.getElem?_of_mem member
    exact .inl ⟨⟨bits, geometry⟩, i, order, at_i, free⟩

theorem Full.records_eq (full : index.Full) : index.records = index.slots :=
  List.filter_eq_self.mpr fun order member => by simp [full order member]

theorem Geometry.insertRelease_returns (geometry : index.Geometry bits) (order : Order) :
    index.Returns (index.insertRelease order) := by
  rw [insertRelease]
  obtain ⟨i, _, scanned⟩ | endless := @Probing.scan_cases _ index.slots index.next isFree
    geometry.next_lt index.fuel _ (geometry.slotFor_lt order.id)
  · exact .inl ⟨{ index with slots := index.slots.set i order, size := index.size + 1 },
      by rw [scanned]; rfl, by simp, rfl, rfl⟩
  · exact .inr (by rw [endless]; rfl)

theorem Geometry.find_returns (geometry : index.Geometry bits) (id : OrderId) :
    (∃ found, index.find id = .ok found ∧ ∀ i, found = some i → i < index.slots.length) ∨
      index.find id = .error .endless := by
  rw [find]
  obtain ⟨i, hi, scanned⟩ | endless := @Probing.scan_cases _ index.slots index.next
    (isFreeOr id) geometry.next_lt index.fuel _ (geometry.slotFor_lt id)
  · refine .inl ⟨_, by rw [scanned, ok_bind, deref_eq (List.getElem?_eq_getElem hi)]; rfl, ?_⟩
    intro j found
    split at found
    · cases found
    · cases found
      exact hi
  · exact .inr (by rw [endless]; rfl)

theorem Geometry.erase_returns (geometry : index.Geometry bits) (id : OrderId) :
    index.Returns (index.erase id) := by
  rw [erase]
  obtain ⟨i, hi, scanned⟩ | endless := @Probing.scan_cases _ index.slots index.next
    (isFreeOr id) geometry.next_lt index.fuel _ (geometry.slotFor_lt id)
  · rw [scanned, ok_bind, deref_eq (List.getElem?_eq_getElem hi), ok_bind]
    split
    · exact .inl ⟨index, rfl, .refl index⟩
    · obtain ⟨slots, hole, shifted, length, _⟩ | endless := @Probing.shift_cases _ index.slots
        index.next isFree (fun entry hole j => inRange (index.slotFor entry.id) hole j) _
        geometry.next_lt index.fuel i i rfl hi hi
      · exact .inl ⟨{ index with slots := slots.set hole emptyOrder, size := index.size - 1 },
          by rw [shifted]; rfl, (List.length_set).trans length, rfl, rfl⟩
      · exact .inr (by rw [endless]; rfl)
  · exact .inr (by rw [endless]; rfl)

theorem SameShape.setRemaining (index : OrderIndex) (i : Nat) (remaining : Quantity) :
    SameShape index (index.setRemaining i remaining) :=
  ⟨by simp [OrderIndex.setRemaining], rfl, rfl⟩

end Shaped

namespace Roomy

/-- With a free slot an order is stored, whatever the index counts. -/
theorem insertRelease_spec (roomy : index.Roomy) (order : Order) :
    ∃ index', index.insertRelease order = .ok index' ∧ SameShape index index' ∧
      index'.records.length ≤ index.records.length + 1 := by
  obtain ⟨k, free, _, scanned, _, at_k, stops⟩ := Probing.scan_spec roomy.next_eq
    (roomy.slotFor_lt order.id) index.length_lt_fuel.le roomy.exists_free
  generalize Cyclic.walk index.slots.length (index.slotFor order.id) k = i at scanned at_k
  refine ⟨{ index with slots := index.slots.set i order, size := index.size + 1 },
    by rw [insertRelease, scanned]; rfl, ⟨List.length_set, rfl, rfl⟩, ?_⟩
  have traded := (filter_set_perm order at_k (fun o => !isFree o)).length_eq
  have one := List.length_filter_le (fun o => !isFree o) [order]
  rw [List.filter_singleton, stops, List.length_append, List.length_append] at traded
  simp only [Bool.not_true] at traded
  rw [List.length_singleton] at one
  simp only [records]
  omega

theorem setRemaining (roomy : index.Roomy) (i : Nat) (remaining : Quantity) :
    (index.setRemaining i remaining).Roomy := by
  obtain ⟨bits, geometry⟩ := roomy.geometry
  obtain ⟨j, order, at_j, free⟩ := roomy.exists_free
  refine ⟨⟨bits, (SameShape.setRemaining index i remaining).geometry geometry⟩, j,
    if i = j then { order with remaining } else order, ?_, ?_⟩
  · simp [OrderIndex.setRemaining, List.getElem?_modify, at_j]
  · split <;> exact free

theorem erase_shape (roomy : index.Roomy) (holds : index.Holds id i order) :
    ∃ index', index.erase id = .ok index' ∧ SameShape index index' ∧
      index'.records.length + 1 = index.records.length := by
  obtain ⟨slots, erased, length, stored⟩ := roomy.erase_records holds
  exact ⟨_, erased, ⟨length, rfl, rfl⟩, stored.length_eq⟩

end Roomy

section FullSlab

variable {bits : Nat}

theorem Full.insertRelease (full : index.Full) (geometry : index.Geometry bits) (order : Order) :
    index.insertRelease order = .error .endless := by
  rw [OrderIndex.insertRelease, Probing.scan_endless geometry.next_lt full _
    (geometry.slotFor_lt order.id)]
  rfl

theorem Full.find_cases (full : index.Full) (geometry : index.Geometry bits) (id : OrderId) :
    index.find id = .error .endless ∨ ∃ i order, index.Holds id i order := by
  by_cases stored : ∃ order ∈ index.slots, order.id = id
  · obtain ⟨stored, member, id_eq⟩ := stored
    obtain ⟨j, at_j⟩ := List.getElem?_of_mem member
    have present : isFreeOr id stored := by simp [isFreeOr, id_eq]
    obtain ⟨k, order, _, scanned, _, at_k, stops⟩ := Probing.scan_spec geometry.next_eq
      (geometry.slotFor_lt id) index.length_lt_fuel.le ⟨j, stored, at_j, present⟩
    have busy := full order (List.mem_of_getElem? at_k)
    refine .inr ⟨_, order, ?_, at_k, by simpa [isFreeOr, busy] using stops, busy⟩
    rw [find, scanned, ok_bind, deref_eq at_k]
    simp [busy, pure, Except.pure]
  · left
    rw [find, Probing.scan_endless geometry.next_lt _ _ (geometry.slotFor_lt id)]
    · rfl
    · intro order member
      have other : order.id ≠ id := fun same => stored ⟨order, member, same⟩
      simp [isFreeOr, full order member, other]

/-- On a full slab even the deletion of a stored order loops. -/
theorem Full.erase (full : index.Full) (geometry : index.Geometry bits) (id : OrderId) :
    index.erase id = .error .endless := by
  rw [OrderIndex.erase]
  obtain ⟨i, hi, scanned⟩ | endless := @Probing.scan_cases _ index.slots index.next
    (isFreeOr id) geometry.next_lt index.fuel _ (geometry.slotFor_lt id)
  · have busy := full _ (List.getElem_mem hi)
    rw [scanned, ok_bind, deref_eq (List.getElem?_eq_getElem hi), ok_bind, if_neg (by simp [busy]),
      Probing.shift_endless geometry.next_lt _ full rfl hi]
    rfl
  · rw [endless]
    rfl

theorem Full.setRemaining (full : index.Full) (i : Nat) (remaining : Quantity) :
    (index.setRemaining i remaining).Full := by
  intro order member
  obtain ⟨j, at_j⟩ := List.getElem?_of_mem member
  simp only [OrderIndex.setRemaining, List.getElem?_modify, Option.map_eq_map,
    Option.map_eq_some_iff] at at_j
  obtain ⟨entry, at_j, rfl⟩ := at_j
  have busy := full entry (List.mem_of_getElem? at_j)
  split <;> exact busy

end FullSlab

end OrderIndex

namespace Book

variable {L : Type} [PriceLevels L]

def addRelease (book : Book L) (id : OrderId) (side : Side) (price : Price) (qty : Quantity) :
    Except Fault (Book L) := do
  let index ← book.index.insertRelease ⟨id, price, qty, side⟩
  return { levels := levelAdd book.levels side price qty, index }

/-- `apply` without the assertion: only a new order reaches it. -/
def applyRelease (book : Book L) (event : Event) : Except Fault (Book L) :=
  match event.type with
  | 1 => book.addRelease event.id event.side event.price event.size
  | 2 => book.reduce event.id event.size
  | 3 => book.cancel event.id
  | 4 => book.reduce event.id event.size
  | _ => return book

def replayRelease (orderCapacityHint : Nat) (events : List Event) : Except Fault (Book L) := do
  let book ← new orderCapacityHint
  events.foldlM applyRelease book

variable {book book' : Book L} {event : Event} {hint bits : Nat}

theorem applyRelease_of_add (adds : event.type = 1) : book.applyRelease event =
    book.addRelease event.id event.side event.price event.size := by
  simp [applyRelease, adds]

theorem applyRelease_of_not_add (not_add : event.type ≠ 1) :
    book.applyRelease event = book.apply event := by
  have same : ∀ type : Int, type ≠ 1 → (match type with
      | 1 => book.addRelease event.id event.side event.price event.size
      | 2 => book.reduce event.id event.size
      | 3 => book.cancel event.id
      | 4 => book.reduce event.id event.size
      | _ => return book) = match type with
      | 1 => book.add event.id event.side event.price event.size
      | 2 => book.reduce event.id event.size
      | 3 => book.cancel event.id
      | 4 => book.reduce event.id event.size
      | _ => return book := by
    intro type ne
    split <;> first | rfl | exact absurd rfl ne
  exact same event.type not_add

theorem applyRelease_of_apply (applied : book.apply event = .ok book') :
    book.applyRelease event = .ok book' := by
  by_cases adds : event.type = 1
  · rw [apply_of_add adds] at applied
    obtain ⟨index, inserted, result⟩ := of_bind_eq_ok applied
    cases result
    rw [applyRelease_of_add adds, addRelease, OrderIndex.insertRelease_of_insert inserted]
    rfl
  · rw [applyRelease_of_not_add adds, applied]

/-- Where the assertions hold the release build runs the same. -/
theorem replayRelease_of_replay {events : List Event} (reached : replay hint events = .ok book) :
    replayRelease hint events = .ok book := by
  revert events book
  suffices same : ∀ before (book : Book L), replay hint before = .ok book →
      replayRelease hint before = .ok book from fun {_ _} reached => same _ _ reached
  apply reached_induction
  · intro index constructed
    rw [replayRelease, foldlM_nil, new, constructed]
    rfl
  · intro before event start book _ earlier applied
    rw [replayRelease, foldlM_snoc_of_ok earlier, applyRelease_of_apply applied]

section Steps

/-- A call returns a book with a slab of the same shape or never returns. -/
def Returns (book : Book L) (result : Except Fault (Book L)) : Prop :=
  (∃ book', result = .ok book' ∧ book.index.SameShape book'.index) ∨ result = .error .endless

theorem cancel_returns (geometry : book.index.Geometry bits) (id : OrderId) :
    book.Returns (book.cancel id) := by
  rw [cancel]
  obtain ⟨found, result, inside⟩ | endless := geometry.find_returns id
  · rw [result, ok_bind]
    cases found with
    | none => exact .inl ⟨book, rfl, .refl _⟩
    | some i =>
        simp only [OrderIndex.deref_eq (List.getElem?_eq_getElem (inside i rfl)), ok_bind]
        obtain ⟨index, erased, same⟩ | endless := geometry.erase_returns id
        · exact .inl ⟨⟨_, index⟩, by rw [erased]; rfl, same⟩
        · exact .inr (by rw [endless]; rfl)
  · exact .inr (by rw [endless]; rfl)

theorem reduce_returns (geometry : book.index.Geometry bits) (id : OrderId) (delta : Quantity) :
    book.Returns (book.reduce id delta) := by
  rw [reduce]
  obtain ⟨found, result, inside⟩ | endless := geometry.find_returns id
  · rw [result, ok_bind]
    cases found with
    | none => exact .inl ⟨book, rfl, .refl _⟩
    | some i =>
        have within : i < book.index.slots.length := inside i rfl
        simp only [OrderIndex.deref_eq (List.getElem?_eq_getElem within), ok_bind]
        generalize book.index.slots[i].remaining - _ = remaining
        have written := OrderIndex.SameShape.setRemaining book.index i remaining
        have inside' : i < (book.index.setRemaining i remaining).slots.length := by
          rwa [written.length]
        simp only [OrderIndex.deref_eq (List.getElem?_eq_getElem inside'), ok_bind]
        split
        · obtain ⟨index, erased, same⟩ | endless := (written.geometry geometry).erase_returns id
          · exact .inl ⟨⟨_, index⟩, by rw [erased]; rfl, same.length.trans written.length,
              same.mask.trans written.mask, same.shift.trans written.shift⟩
          · exact .inr (by rw [endless]; rfl)
        · exact .inl ⟨_, rfl, written⟩
  · exact .inr (by rw [endless]; rfl)

theorem applyRelease_returns (geometry : book.index.Geometry bits) (event : Event) :
    book.Returns (book.applyRelease event) := by
  by_cases adds : event.type = 1
  · rw [applyRelease_of_add adds, addRelease]
    obtain ⟨index, inserted, same⟩ | endless :=
      geometry.insertRelease_returns ⟨event.id, event.price, event.size, event.side⟩
    · exact .inl ⟨⟨_, index⟩, by rw [inserted]; rfl, same⟩
    · exact .inr (by rw [endless]; rfl)
  · rw [applyRelease_of_not_add adds]
    obtain is_add | cancels | reduces | ignored := event.kinds
    · exact absurd is_add adds
    · rw [apply_of_cancel cancels]
      exact cancel_returns geometry _
    · rw [apply_of_reduces reduces]
      exact reduce_returns geometry _ _
    · rw [apply_of_ignored ignored]
      exact .inl ⟨book, rfl, .refl _⟩

/-- With a free slot every message returns, and only a new order takes one. -/
theorem applyRelease_of_roomy (roomy : book.index.Roomy) (event : Event) :
    ∃ book', book.applyRelease event = .ok book' ∧ book.index.SameShape book'.index ∧
      book'.index.records.length ≤
        book.index.records.length + if event.type = 1 then 1 else 0 := by
  by_cases adds : event.type = 1
  · obtain ⟨index, inserted, same, grown⟩ :=
      roomy.insertRelease_spec ⟨event.id, event.price, event.size, event.side⟩
    rw [applyRelease_of_add adds, addRelease, inserted, if_pos adds]
    exact ⟨⟨_, index⟩, rfl, same, grown⟩
  rw [applyRelease_of_not_add adds, if_neg adds, Nat.add_zero]
  obtain missing | ⟨i, order, holds⟩ := roomy.find_cases event.id
  · have unchanged : book.apply event = .ok book := by
      obtain is_add | cancels | reduces | ignored := event.kinds
      · exact absurd is_add adds
      · rw [apply_of_cancel cancels, cancel_of_missing missing]
      · rw [apply_of_reduces reduces, reduce_of_missing missing]
      · exact apply_of_ignored ignored
    exact ⟨book, unchanged, .refl _, le_rfl⟩
  · obtain is_add | cancels | reduces | ignored := event.kinds
    · exact absurd is_add adds
    · obtain ⟨index, erased, same, fewer⟩ := roomy.erase_shape holds
      rw [apply_of_cancel cancels, cancel_of_erase holds erased]
      exact ⟨_, rfl, same, Nat.le_of_succ_le fewer.le⟩
    · rw [apply_of_reduces reduces]
      by_cases left : event.size < order.remaining
      · have stored := (holds.records_setRemaining (order.remaining - event.size)).length_eq
        rw [reduce_of_lt holds left]
        exact ⟨_, rfl, .setRemaining _ _ _, (Nat.succ_inj.mp stored).le⟩
      · have none_left : order.remaining - order.remaining ≤ 0 := (sub_self _).le
        have written := holds.setRemaining (order.remaining - order.remaining)
        have shape := OrderIndex.SameShape.setRemaining book.index i
          (order.remaining - order.remaining)
        have stored := (holds.records_setRemaining (order.remaining - order.remaining)).length_eq
        obtain ⟨index, erased, same, fewer⟩ := (roomy.setRemaining i _).erase_shape written
        simp only [reduce, holds.find, ok_bind, holds.deref, left, if_false, written.deref,
          none_left, if_true, erased]
        refine ⟨_, rfl, ⟨same.length.trans shape.length, same.mask.trans shape.mask,
          same.shift.trans shape.shift⟩, ?_⟩
        simp only [List.length_cons] at stored
        change index.records.length ≤ book.index.records.length
        omega
    · exact ⟨book, apply_of_ignored ignored, .refl _, le_rfl⟩

/-- On a full slab a message returns only if it is ignored or leaves some of a stored
order. -/
theorem applyRelease_full_iff (full : book.index.Full) (geometry : book.index.Geometry bits)
    (event : Event) : book.applyRelease event = .error .endless ↔
      ¬ (event.Ignored ∨ event.Reduces ∧ ∃ i order, book.index.Holds event.id i order ∧
        event.size < order.remaining) := by
  obtain adds | cancels | reduces | ignored := event.kinds
  · have looped : book.applyRelease event = .error .endless := by
      rw [applyRelease_of_add adds, addRelease, full.insertRelease geometry]
      rfl
    simp only [looped, true_iff]
    rintro (ignored | ⟨reduces, _⟩)
    · exact ignored.1 adds
    · exact reduces.type_ne.1 adds
  · have looped : book.applyRelease event = .error .endless := by
      rw [applyRelease_of_not_add (by omega), apply_of_cancel cancels, cancel]
      obtain endless | ⟨i, order, holds⟩ := full.find_cases geometry event.id
      · rw [endless]
        rfl
      · simp only [holds.find, ok_bind, holds.deref, full.erase geometry]
        rfl
    simp only [looped, true_iff]
    rintro (ignored | ⟨reduces, _⟩)
    · exact ignored.2.1 cancels
    · exact reduces.type_ne.2 cancels
  · rw [applyRelease_of_not_add reduces.type_ne.1, apply_of_reduces reduces]
    have not_ignored : ¬ event.Ignored := fun ignored => ignored.2.2 reduces
    obtain endless | ⟨i, order, holds⟩ := full.find_cases geometry event.id
    · have looped : book.reduce event.id event.size = .error .endless := by
        rw [reduce, endless]
        rfl
      simp only [looped, true_iff, not_or]
      refine ⟨not_ignored, ?_⟩
      rintro ⟨_, i, order, holds, _⟩
      cases endless.symm.trans holds.find
    · by_cases left : event.size < order.remaining
      · rw [reduce_of_lt holds left]
        simp only [reduces, true_and, reduceCtorEq, false_iff, not_not]
        exact .inr ⟨i, order, holds, left⟩
      · have looped : book.reduce event.id event.size = .error .endless := by
          have none_left : order.remaining - order.remaining ≤ 0 := (sub_self _).le
          have written := holds.setRemaining (order.remaining - order.remaining)
          simp only [reduce, holds.find, ok_bind, holds.deref, left, if_false, written.deref,
            none_left, if_true, (full.setRemaining i _).erase
              ((OrderIndex.SameShape.setRemaining _ _ _).geometry geometry)]
          rfl
        simp only [looped, true_iff, not_or]
        refine ⟨not_ignored, ?_⟩
        rintro ⟨_, j, found, found_holds, found_left⟩
        have same := holds.find.symm.trans found_holds.find
        simp only [Except.ok.injEq, Option.some.injEq] at same
        subst same
        rw [← Option.some.inj (holds.at_slot.symm.trans found_holds.at_slot)] at found_left
        exact left found_left
  · rw [applyRelease_of_not_add ignored.1, apply_of_ignored ignored]
    simp [ignored]

end Steps

/-- A slab of this shape that holds no more records than the new orders so far. -/
structure Loose (slab : OrderIndex) (before : List Event) (book : Book L) : Prop where
  same : slab.SameShape book.index
  records_le : book.index.records.length ≤ Event.addCount before

theorem Loose.step {slab : OrderIndex} (geometry : slab.Geometry bits) {before : List Event}
    (loose : Loose slab before book) (event : Event) :
    (∃ book', book.applyRelease event = .ok book' ∧ Loose slab (before ++ [event]) book') ∨
      book.applyRelease event = .error .endless ∧ slab.slots.length ≤ Event.addCount before := by
  have records_le := loose.records_le
  have shaped := loose.same.geometry geometry
  obtain roomy | full := shaped.roomy_or_full
  · obtain ⟨book', applied, same, grown⟩ := applyRelease_of_roomy roomy event
    refine .inl ⟨book', applied, ⟨same.length.trans loose.same.length,
      same.mask.trans loose.same.mask, same.shift.trans loose.same.shift⟩, ?_⟩
    rw [Event.addCount_snoc]
    omega
  · -- The slab is full already, so it cannot hold more.
    have taken : slab.slots.length ≤ Event.addCount before := by
      rwa [full.records_eq, loose.same.length] at records_le
    obtain ⟨book', applied, same⟩ | endless := applyRelease_returns shaped event
    · refine .inl ⟨book', applied, ⟨same.length.trans loose.same.length,
        same.mask.trans loose.same.mask, same.shift.trans loose.same.shift⟩, ?_⟩
      have slots := List.length_filter_le (fun o => !OrderIndex.isFree o) book'.index.slots
      rw [same.length, loose.same.length] at slots
      exact slots.trans (taken.trans (Event.addCount_mono (List.prefix_append _ _)))
    · exact .inr ⟨endless, taken⟩

theorem exists_slab (L : Type) [PriceLevels L] (hhint : hint ≤ 2 ^ 62) :
    ∃ slab bits, slab.Geometry bits ∧ 2 * hint ≤ slab.slots.length ∧ ∀ events,
      (∃ book : Book L, replayRelease hint events = .ok book ∧ Loose slab events book) ∨
        (replayRelease hint events : Except Fault (Book L)) = .error .endless ∧
          slab.slots.length ≤ Event.addCount events := by
  obtain ⟨slab, constructed, sound, records, _, room⟩ := OrderIndex.new_eq_ok hhint
  obtain ⟨bits, geometry⟩ := sound.geometry
  refine ⟨slab, bits, geometry, by omega, fun events => ?_⟩
  induction events using List.reverseRecOn with
  | nil =>
      refine .inl ⟨⟨empty, slab⟩, ?_, .refl slab, by simp [records]⟩
      rw [replayRelease, foldlM_nil, new, constructed]
      rfl
  | append_singleton before event ih =>
      have more := Event.addCount_mono (List.prefix_append before [event])
      obtain ⟨book, reached, loose⟩ | ⟨stopped, taken⟩ := ih
      · rw [replayRelease, foldlM_snoc_of_ok reached]
        obtain next | ⟨endless, taken⟩ := loose.step geometry event
        · exact .inl next
        · exact .inr ⟨endless, taken.trans more⟩
      · exact .inr ⟨foldlM_error_mono (List.prefix_append _ _) stopped, taken.trans more⟩

theorem replayRelease_returns (hhint : hint ≤ 2 ^ 62) (events : List Event) :
    (∃ book : Book L, replayRelease hint events = .ok book) ∨
      (replayRelease hint events : Except Fault (Book L)) = .error .endless ∧
        2 * hint ≤ Event.addCount events := by
  obtain ⟨slab, bits, _, room, runs⟩ := exists_slab L hhint
  obtain ⟨book, reached, _⟩ | ⟨stopped, taken⟩ := runs events
  · exact .inl ⟨book, reached⟩
  · exact .inr ⟨stopped, room.trans taken⟩

theorem geometry_of_replayRelease (hhint : hint ≤ 2 ^ 62) {events : List Event}
    (reached : replayRelease hint events = .ok book) : ∃ bits, book.index.Geometry bits := by
  obtain ⟨slab, bits, geometry, _, runs⟩ := exists_slab L hhint
  obtain ⟨book', reached', loose⟩ | ⟨stopped, _⟩ := runs events
  · rw [reached, Except.ok.injEq] at reached'
    exact ⟨bits, reached' ▸ loose.same.geometry geometry⟩
  · cases reached.symm.trans stopped

section Variants

variable {M : Type} [PriceLevels M] [LawfulLevels L] [LawfulLevels M] {other : Book M}

theorem Similar.applyRelease (similar : Similar book other) (event : Event) :
    Corresponds Similar (book.applyRelease event) (other.applyRelease event) := by
  by_cases adds : event.type = 1
  · rw [applyRelease_of_add adds, applyRelease_of_add adds, addRelease, addRelease, similar.index]
    exact .of_eq _ fun _ => ⟨rfl, similar.levels.levelAdd _ _ _⟩
  · rw [applyRelease_of_not_add adds, applyRelease_of_not_add adds]
    exact similar.apply event

theorem replayRelease_corresponds (hint : Nat) (events : List Event) :
    Corresponds Similar (replayRelease hint events : Except Fault (Book L))
      (replayRelease hint events : Except Fault (Book M)) := by
  refine Corresponds.bind (R := Similar) ?_ fun book other similar => ?_
  · exact .of_eq _ fun _ => ⟨rfl, .of_empty⟩
  · exact .foldlM (fun _ _ event similar => similar.applyRelease event) events similar

end Variants

end Book

def Variant.replayRelease (v : Variant) (orderCapacityHint : Nat) (events : List Event) :
    Except Fault (Book v.Levels) := Book.replayRelease orderCapacityHint events

/-- Without the assertion a replay reaches the same book as with it, or goes on; then it
reaches a book too, until it loops on a full slab, which is not before the stream has
brought twice as many new orders as the hint. The variants still cannot be told apart. -/
theorem replayRelease_spec (v w : Variant) (hint : Nat) (hhint : hint ≤ 2 ^ 62)
    (events : List Event) :
    (∀ book, v.replay hint events = .ok book → v.replayRelease hint events = .ok book) ∧
    ((∃ book, v.replayRelease hint events = .ok book) ∨
      v.replayRelease hint events = .error .endless ∧ 2 * hint ≤ Event.addCount events) ∧
    Corresponds (fun book other => SameView book.levels other.levels)
      (v.replayRelease hint events) (w.replayRelease hint events) :=
  ⟨fun _ reached => Book.replayRelease_of_replay reached,
    Book.replayRelease_returns (L := v.Levels) hhint events,
    (Book.replayRelease_corresponds hint events).mono fun _ _ similar => similar.levels.sameView⟩

/-- Three orders for a slab of two slots. -/
theorem replayRelease_spec_overfull :
    (∃ book, Variant.linear.replayRelease 1 [⟨1, 1, 5, 7, 1⟩, ⟨1, 2, 5, 8, 1⟩] = .ok book) ∧
      2 * 1 ≤ Event.addCount [⟨1, 1, 5, 7, 1⟩, ⟨1, 2, 5, 8, 1⟩, ⟨1, 3, 5, 9, 1⟩] := by
  have two := (replayRelease_spec .linear .map 1 (by decide) [⟨1, 1, 5, 7, 1⟩, ⟨1, 2, 5, 8, 1⟩]).2.1
  have three := (replayRelease_spec .linear .map 1 (by decide)
    [⟨1, 1, 5, 7, 1⟩, ⟨1, 2, 5, 8, 1⟩, ⟨1, 3, 5, 9, 1⟩]).2.1
  refine ⟨two.resolve_right fun stopped => ?_, ?_⟩
  · cases stopped.1
  · obtain ⟨book, reached⟩ | stopped := three
    · cases reached
    · exact stopped.2

end OrderBook
