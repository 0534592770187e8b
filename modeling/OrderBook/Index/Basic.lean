import OrderBook.Foundation.Probing
import OrderBook.Types

/-!
# The shared order identity index

`OrderIndex` is open addressing with linear probing over one slab that is sized
at construction and never rehashes. Its fields are the ones of the class and no
relation between them is built in, so an index that the constructor cannot
produce is still a value here; `Index.Invariant` states what the constructor
establishes and every operation keeps.

An operation returns a `Fault` where the source would fail its assertion, read
past the slab or never leave a loop. The three probe loops are `Probing.scan`
and the shift loop of `erase` is `Probing.shift`.
-/

namespace OrderBook

structure OrderIndex where
  slots : List Order
  mask : Nat
  shift : Nat
  size : Nat
  deriving DecidableEq, Repr

namespace OrderIndex

/-- A free slot is marked by this id. -/
def kEmpty : OrderId := kInvalidPrice

def emptyOrder : Order := ⟨kEmpty, 0, 0, .buy⟩

/-- The range of `size_t`. -/
def sizeRange : Nat := 2 ^ 64

/-- Double `p` in `size_t` until it reaches `n`. After 64 doublings `p` is zero
for good, so fuel 64 separates the loops that end from those that do not. -/
def nextPowerOfTwo (n : Nat) : Except Fault Nat :=
  go 64 1
where
  go : Nat → Nat → Except Fault Nat
    | 0, p => if p < n then .error .endless else .ok p
    | fuel + 1, p => if p < n then go fuel (p * 2 % sizeRange) else .ok p

/-- `std::countr_zero` on 64 bits; no bit is set in zero, which gives 64. -/
def countrZero (n : Nat) : Nat := ((List.range 64).find? n.testBit).getD 64

/-- The constructor. Both the doubling and the decrement are on `size_t`. -/
def new (capacityHint : Nat) : Except Fault OrderIndex := do
  let p ← nextPowerOfTwo (if capacityHint < 1 then 1 else capacityHint)
  let want := p * 2 % sizeRange
  return {
    slots := List.replicate want emptyOrder
    mask := (want + sizeRange - 1) % sizeRange
    shift := 64 - countrZero want
    size := 0 }

/-- Fibonacci hashing: the high bits of the 64 bit product, shifted down. -/
def slotFor (index : OrderIndex) (id : OrderId) : Nat :=
  ((BitVec.ofInt 64 id * 0x9E3779B97F4A7C15#64) >>> index.shift).toNat

/-- `(i + 1) & mask_`. The sum cannot carry into a bit that the mask keeps. -/
def next (index : OrderIndex) (i : Nat) : Nat := (i + 1) &&& index.mask

/-- True when `home` lies in the cyclic interval `(hole, cur]`. -/
def inRange (home hole cur : Nat) : Bool :=
  if hole ≤ cur then home > hole && home ≤ cur
  else home > hole || home ≤ cur

/-- Enough for one turn around the slab and one read more. -/
def fuel (index : OrderIndex) : Nat := index.slots.length + 1

theorem length_lt_fuel (index : OrderIndex) : index.slots.length < index.fuel := Nat.lt_succ_self _

def isFree (order : Order) : Bool := order.id = kEmpty

/-- The stop test shared by the probes of `find` and `erase`. -/
def isFreeOr (id : OrderId) (order : Order) : Bool := isFree order || order.id = id

/-- Insert a fresh order in the first free slot from its home on. -/
def insert (index : OrderIndex) (order : Order) : Except Fault OrderIndex :=
  if index.size * 2 < index.slots.length then do
    let i ← Probing.scan index.slots index.next isFree index.fuel (index.slotFor order.id)
    return { index with slots := index.slots.set i order, size := index.size + 1 }
  else .error .assertion

/-- Read a slot that a probe has stopped at. -/
def deref (index : OrderIndex) (i : Nat) : Except Fault Order :=
  match index.slots[i]? with
  | none => .error .outOfBounds
  | some order => .ok order

/-- The slot that holds the record, or `none` when the id is unknown. A slot
number stands for the returned pointer. -/
def find (index : OrderIndex) (id : OrderId) : Except Fault (Option Nat) := do
  let i ← Probing.scan index.slots index.next (isFreeOr id) index.fuel (index.slotFor id)
  let order ← index.deref i
  return if isFree order then none else some i

/-- The store `order->remaining = remaining` through a pointer from `find`. -/
def setRemaining (index : OrderIndex) (i : Nat) (remaining : Quantity) : OrderIndex :=
  { index with slots := index.slots.modify i fun order => { order with remaining } }

/-- Backward shift deletion. An entry moves into the hole when `inRange` holds of
its home slot. -/
def erase (index : OrderIndex) (id : OrderId) : Except Fault OrderIndex := do
  let i ← Probing.scan index.slots index.next (isFreeOr id) index.fuel (index.slotFor id)
  let order ← index.deref i
  if isFree order then return index
  let (slots, hole) ← Probing.shift index.next isFree
    (fun entry hole j => inRange (index.slotFor entry.id) hole j)
    index.fuel index.slots i i
  return { index with slots := slots.set hole emptyOrder, size := index.size - 1 }

def capacity (index : OrderIndex) : Nat := index.slots.length

end OrderIndex

end OrderBook
