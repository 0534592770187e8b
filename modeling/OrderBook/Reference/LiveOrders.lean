import OrderBook.Types
import Mathlib.Data.List.AList
import Mathlib.Data.List.Nodup

/-!
# The reference map of live orders

What the order index and the books are for: a finite map from an id to the side,
the price and the remaining quantity of the order resting under it. It is a
Mathlib association list, so one id has at most one order by construction.

The index stores the same orders with their ids inside. `orders` is the live map
in that form, and the lemmas say what each operation of the map does to it, up
to permutation.
-/

namespace OrderBook

open scoped List

/-- An order without its id. -/
structure Resting where
  side : Side
  price : Price
  remaining : Quantity
  deriving DecidableEq, Repr

def Resting.toOrder (resting : Resting) (id : OrderId) : Order :=
  ⟨id, resting.price, resting.remaining, resting.side⟩

def Order.resting (order : Order) : Resting := ⟨order.side, order.price, order.remaining⟩

@[simp] theorem Resting.toOrder_id (resting : Resting) (id : OrderId) :
    (resting.toOrder id).id = id := rfl

@[simp] theorem Order.toOrder_resting (order : Order) :
    order.resting.toOrder order.id = order := rfl

theorem Order.eq_toOrder {order : Order} {id : OrderId} {resting : Resting}
    (id_eq : order.id = id) (same : order.resting = resting) : order = resting.toOrder id := by
  subst id_eq same
  rfl

abbrev LiveOrders := AList fun _ : OrderId => Resting

namespace LiveOrders

/-- The live orders, each with its id. -/
def orders (live : LiveOrders) : List Order := live.entries.map fun e => e.2.toOrder e.1

/-- The number of live ids. -/
def count (live : LiveOrders) : Nat := live.entries.length

/-- Rest an order under an id, in place of the one that is there. -/
def put (live : LiveOrders) (id : OrderId) (resting : Resting) : LiveOrders :=
  AList.insert id resting live

def drop (live : LiveOrders) (id : OrderId) : LiveOrders := AList.erase id live

variable {live : LiveOrders} {id : OrderId} {resting : Resting}

@[simp] theorem orders_empty : orders ∅ = [] := rfl

@[simp] theorem count_empty : count ∅ = 0 := rfl

@[simp] theorem length_orders (live : LiveOrders) : live.orders.length = live.count := by
  simp [orders, count]

theorem ids_orders (live : LiveOrders) : live.orders.map Order.id = live.keys := by
  simp [orders, AList.keys, List.keys]

theorem nodup_ids (live : LiveOrders) : (live.orders.map Order.id).Nodup := by
  rw [ids_orders]
  exact live.keys_nodup

theorem mem_orders {order : Order} :
    order ∈ live.orders ↔ live.lookup order.id = some order.resting := by
  rw [← Option.mem_def, AList.mem_lookup_iff, orders, List.mem_map]
  constructor
  · rintro ⟨⟨id, resting⟩, member, rfl⟩
    exact member
  · intro member
    exact ⟨_, member, rfl⟩

theorem toOrder_mem_orders : resting.toOrder id ∈ live.orders ↔ live.lookup id = some resting := by
  rw [mem_orders]
  rfl

/-- Putting an order, fresh or not, first drops the one under the same id. -/
theorem orders_put (live : LiveOrders) (id : OrderId) (resting : Resting) :
    (live.put id resting).orders = resting.toOrder id :: (live.drop id).orders := by
  rw [orders, put, AList.entries_insert]
  rfl

theorem drop_of_absent (absent : live.lookup id = none) : live.drop id = live := by
  rw [AList.lookup_eq_none] at absent
  apply AList.ext
  exact List.kerase_of_notMem_keys absent

theorem orders_put_of_fresh (fresh : live.lookup id = none) :
    (live.put id resting).orders = resting.toOrder id :: live.orders := by
  rw [orders_put, drop_of_absent fresh]

theorem orders_drop (present : live.lookup id = some resting) :
    resting.toOrder id :: (live.drop id).orders ~ live.orders := by
  have member : id ∈ live.entries.keys :=
    AList.mem_keys.mp (AList.lookup_isSome.mp (by simp [present]))
  obtain ⟨found, front, back, _, whole, erased⟩ := List.exists_of_kerase member
  have same : found = resting := by
    have at_id : found ∈ live.lookup id := by
      rw [AList.mem_lookup_iff, whole]
      simp
    rw [present] at at_id
    exact (Option.mem_some_iff.mp at_id).symm
  subst same
  have dropped : (live.drop id).entries = front ++ back := erased
  rw [orders, orders, dropped, whole, List.map_append, List.map_append, List.map_cons]
  exact List.perm_middle.symm

theorem orders_update (present : live.lookup id = some resting) (updated : Resting) :
    resting.toOrder id :: (live.put id updated).orders ~ updated.toOrder id :: live.orders := by
  rw [orders_put]
  exact (List.Perm.swap _ _ _).trans ((orders_drop present).cons _)

theorem count_put_of_fresh (fresh : live.lookup id = none) (resting : Resting) :
    (live.put id resting).count = live.count + 1 := by
  rw [← length_orders, orders_put_of_fresh fresh, List.length_cons, length_orders]

theorem count_drop (present : live.lookup id = some resting) :
    (live.drop id).count + 1 = live.count := by
  simpa using (orders_drop present).length_eq

theorem count_update (present : live.lookup id = some resting) (updated : Resting) :
    (live.put id updated).count = live.count := by
  simpa using (orders_update present updated).length_eq

end LiveOrders

end OrderBook
