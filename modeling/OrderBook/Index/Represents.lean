import OrderBook.Index.Findable
import OrderBook.Reference.LiveOrders

/-!
# An index that stores the live orders

`Represents index live` says that the records in the slab are the live orders and
that `size_` counts them. It does not say that a probe finds them. Each operation
keeps it as long as the probes it makes end at the records they are meant for,
so the results about whole runs only have to say when they do.
-/

namespace OrderBook.OrderIndex

open scoped List

variable {index : OrderIndex} {live : LiveOrders} {id : OrderId} {i : Nat} {order : Order}
variable {resting : Resting}

structure Represents (index : OrderIndex) (live : LiveOrders) : Prop where
  sound : index.Sound
  records : index.records ~ live.orders
  size : index.size = live.count

theorem Represents.of_new {hint : Nat} (hhint : hint ≤ 2 ^ 62) :
    ∃ index, new hint = .ok index ∧ index.Represents ∅ ∧ index.Linked ∧
      hint * 2 ≤ index.slots.length := by
  obtain ⟨index, constructed, sound, records, size, room⟩ := new_eq_ok hhint
  refine ⟨index, constructed, ⟨sound, by simp [records], size⟩, ?_, room⟩
  apply Probing.Linked.of_all_free
  intro entry member
  by_contra busy
  have : entry ∈ index.records := List.mem_filter.mpr ⟨member, by simpa using busy⟩
  simp [records] at this

namespace Represents

theorem distinct (represents : index.Represents live) : index.Distinct :=
  ((represents.records.map Order.id).nodup_iff).mpr live.nodup_ids

theorem mem_records (represents : index.Represents live) :
    order ∈ index.records ↔ live.lookup order.id = some order.resting := by
  rw [represents.records.mem_iff, LiveOrders.mem_orders]

/-- What a probe finds is live. -/
theorem lookup_of_holds (represents : index.Represents live) (holds : index.Holds id i order) :
    live.lookup id = some order.resting := by
  rw [← holds.id_eq]
  exact represents.mem_records.mp holds.mem_records

theorem find_of_absent (represents : index.Represents live) (absent : live.lookup id = none) :
    index.find id = .ok none := by
  obtain unknown | ⟨i, order, holds⟩ := represents.sound.roomy.find_cases id
  · exact unknown
  · rw [represents.lookup_of_holds holds] at absent
    cases absent

/-- A live id is found, at its record, if no free slot cuts its probe path. -/
theorem holds_of_reachable (represents : index.Represents live)
    (present : live.lookup id = some resting) (reachable : index.Reachable id) :
    ∃ i, index.Holds id i (resting.toOrder id) := by
  obtain ⟨i, order, holds⟩ := represents.sound.roomy.reachable_iff.mp reachable
  have same := (represents.lookup_of_holds holds).symm.trans present
  rw [Option.some.injEq] at same
  exact ⟨i, Order.eq_toOrder holds.id_eq same ▸ holds⟩

theorem find_of_unreachable (represents : index.Represents live)
    (lost : ¬ index.Reachable id) : index.find id = .ok none := by
  obtain unknown | ⟨i, order, holds⟩ := represents.sound.roomy.find_cases id
  · exact unknown
  · exact absurd (represents.sound.roomy.reachable_iff.mpr ⟨i, order, holds⟩) lost

theorem of_stores {index' : OrderIndex} (represents : index.Represents live)
    (stores : index.Stores order index') (fresh : live.lookup order.id = none)
    (busy : order.id ≠ kEmpty) : index'.Represents (live.put order.id order.resting) where
  sound := stores.sound
  records := by
    rw [LiveOrders.orders_put_of_fresh fresh]
    exact (stores.records_of_busy busy).trans (represents.records.cons order)
  size := by rw [stores.size, represents.size, LiveOrders.count_put_of_fresh fresh]

theorem of_removes {index' : OrderIndex} (represents : index.Represents live)
    (removes : index.Removes order index') (present : live.lookup order.id = some order.resting) :
    index'.Represents (live.drop order.id) where
  sound := removes.sound
  records := List.Perm.cons_inv
    (removes.records.trans (represents.records.trans (LiveOrders.orders_drop present).symm))
  size := by
    have dropped := LiveOrders.count_drop present
    have before := represents.size
    have after := removes.size
    omega

theorem insert (represents : index.Represents live) (fresh : live.lookup order.id = none)
    (busy : order.id ≠ kEmpty) (room : (live.count + 1) * 2 ≤ index.slots.length) :
    ∃ index', index.insert order = .ok index' ∧
      index'.Represents (live.put order.id order.resting) ∧
      index'.slots.length = index.slots.length := by
  have below : index.size * 2 < index.slots.length := by
    have := represents.size
    omega
  obtain ⟨index', inserted, stores⟩ := represents.sound.insert_spec below order
  exact ⟨index', inserted, represents.of_stores stores fresh busy, stores.length⟩

theorem erase (represents : index.Represents live) (holds : index.Holds id i order) :
    ∃ index', index.erase id = .ok index' ∧ index'.Represents (live.drop id) ∧
      index'.slots.length = index.slots.length := by
  have present := represents.lookup_of_holds holds
  obtain ⟨index', erased, removes⟩ := represents.sound.erase_spec holds
  obtain rfl := holds.id_eq
  exact ⟨index', erased, represents.of_removes removes present, removes.length⟩

theorem setRemaining (represents : index.Represents live) (holds : index.Holds id i order)
    (remaining : Quantity) : (index.setRemaining i remaining).Represents
      (live.put id ⟨order.side, order.price, remaining⟩) := by
  have present := represents.lookup_of_holds holds
  refine ⟨represents.sound.setRemaining holds remaining, ?_, ?_⟩
  · have updated := LiveOrders.orders_update present ⟨order.side, order.price, remaining⟩
    have written : { order with remaining } = Resting.toOrder ⟨_, _, remaining⟩ id :=
      Order.eq_toOrder holds.id_eq rfl
    rw [← Order.eq_toOrder holds.id_eq rfl, ← written] at updated
    exact List.Perm.cons_inv ((holds.records_setRemaining remaining).trans
      ((represents.records.cons _).trans updated.symm))
  · rw [LiveOrders.count_update present]
    exact represents.size

end Represents

end OrderBook.OrderIndex
