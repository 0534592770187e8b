import OrderBook.Book.Equivalence

/-!
# Relabelling the prices of a stream

A book compares prices and does nothing else with them. So a map of prices that keeps their
order, such as a shift or another tick size, takes the book of a stream to the book of the
relabelled stream, level by level. The same holds of a map that reverses the order and swaps
the two sides: whatever the code for bids does, the code for asks does in the mirror.

The index is carried along slot by slot. Its hash reads the ids, which stay as they are, so
the probes and the shifts of both runs take the same way, and one run stops at a fault
exactly when the other one does.
-/

namespace OrderBook

open PriceLevels LawfulLevels Run

/-- Maps of the sides and the prices that agree on which of two prices is better. -/
structure Relabelling where
  side : Side → Side
  price : Price → Price
  side_injective : Function.Injective side
  better_iff : ∀ s p q, (side s).Better (price p) (price q) ↔ s.Better p q

namespace Relabelling

/-- Bids become asks at the negated price. -/
def mirror : Relabelling where
  side
    | .buy => .sell
    | .sell => .buy
  price p := -p
  side_injective := by
    intro s t same
    cases s <;> cases t <;> first | rfl | cases same
  better_iff := by
    intro s p q
    cases s <;> simp [Side.Better]

/-- All prices move by the same amount. -/
def shift (amount : Price) : Relabelling where
  side := id
  price p := p + amount
  side_injective := Function.injective_id
  better_iff := by
    intro s p q
    cases s <;> simp [Side.Better]

variable (ρ : Relabelling)

theorem price_injective : Function.Injective ρ.price := by
  intro p q same
  obtain better | rfl | worse := trichotomous_of Side.buy.Better p q
  · have := (ρ.better_iff .buy p q).mpr better
    rw [same] at this
    exact absurd this (irrefl_of _ _)
  · rfl
  · have := (ρ.better_iff .buy q p).mpr worse
    rw [same] at this
    exact absurd this (irrefl_of _ _)

def level (level : Level) : Level := ⟨ρ.price level.price, level.quantity⟩

def order (order : Order) : Order :=
  ⟨order.id, ρ.price order.price, order.remaining, ρ.side order.side⟩

end Relabelling

/-- The message with its price and its side relabelled. -/
def Event.relabel (ρ : Relabelling) (event : Event) : Event :=
  { event with
    price := ρ.price event.price
    direction := if ρ.side event.side = .buy then 1 else -1 }

theorem Event.side_relabel (ρ : Relabelling) (event : Event) :
    (event.relabel ρ).side = ρ.side event.side := by
  change (if (if ρ.side event.side = .buy then (1 : Int) else -1) = 1 then Side.buy else .sell) = _
  generalize ρ.side event.side = side
  cases side <;> rfl

section Levels

variable {ρ : Relabelling}

/-- The second ladder has the levels of the first one, relabelled. -/
structure Ladder.Carries (ρ : Relabelling) (ladder ladder' : Ladder) : Prop where
  eq : ∀ s p, ladder' (ρ.side s) (ρ.price p) = ladder s p
  only : ∀ s q, (ladder' (ρ.side s) q).isSome = true → ∃ p, ρ.price p = q

namespace Ladder.Carries

variable {ladder ladder' : Ladder}

theorem set (carries : Carries ρ ladder ladder') (side : Side) (price : Price)
    (level : Option Quantity) : Carries ρ (ladder.set side price level)
      (ladder'.set (ρ.side side) (ρ.price price) level) where
  eq := by
    intro s p
    simp only [set_apply, ρ.side_injective.eq_iff, ρ.price_injective.eq_iff, carries.eq]
  only := by
    intro s q present
    rw [set_apply] at present
    split at present
    case isTrue here => exact ⟨price, here.2.symm⟩
    case isFalse => exact carries.only s q present

theorem levelAdd (carries : Carries ρ ladder ladder') (side : Side) (price : Price)
    (qty : Quantity) : Carries ρ (ladder.levelAdd side price qty)
      (ladder'.levelAdd (ρ.side side) (ρ.price price) qty) := by
  rw [Ladder.levelAdd, Ladder.levelAdd, carries.eq]
  exact carries.set side price _

theorem levelSub (carries : Carries ρ ladder ladder') (side : Side) (price : Price)
    (amount : Quantity) : Carries ρ (ladder.levelSub side price amount)
      (ladder'.levelSub (ρ.side side) (ρ.price price) amount) := by
  have same := carries.eq side price
  cases held : ladder side price with
  | none =>
      rw [held] at same
      rw [levelSub_of_none held, levelSub_of_none same]
      exact carries
  | some quantity =>
      rw [held] at same
      rw [levelSub_of_some held, levelSub_of_some same]
      exact carries.set side price _

end Ladder.Carries

variable {L M : Type} [PriceLevels L] [LawfulLevels L] [PriceLevels M] [LawfulLevels M]
variable {l : L} {m : M}

/-- Two containers, the second with the levels of the first one, relabelled. -/
structure LevelsCarry (ρ : Relabelling) (l : L) (m : M) : Prop where
  left : Valid l
  right : Valid m
  carries : (contents l).Carries ρ (contents m)

namespace LevelsCarry

theorem of_empty : LevelsCarry ρ (empty : L) (empty : M) where
  left := valid_empty
  right := valid_empty
  carries := by
    rw [contents_empty, contents_empty]
    exact ⟨fun _ _ => rfl, nofun⟩

theorem levelAdd (carry : LevelsCarry ρ l m) (side : Side) (price : Price) (qty : Quantity) :
    LevelsCarry ρ (levelAdd l side price qty)
      (levelAdd m (ρ.side side) (ρ.price price) qty) where
  left := valid_levelAdd carry.left side price qty
  right := valid_levelAdd carry.right _ _ qty
  carries := by
    rw [contents_levelAdd carry.left, contents_levelAdd carry.right]
    exact carry.carries.levelAdd side price qty

theorem levelSub (carry : LevelsCarry ρ l m) (side : Side) (price : Price) (amount : Quantity) :
    LevelsCarry ρ (levelSub l side price amount)
      (levelSub m (ρ.side side) (ρ.price price) amount) where
  left := valid_levelSub carry.left side price amount
  right := valid_levelSub carry.right _ _ amount
  carries := by
    rw [contents_levelSub carry.left, contents_levelSub carry.right]
    exact carry.carries.levelSub side price amount

/-- Relabelling a sorted side keeps it sorted, so the levels are the same in order. -/
theorem levels_eq (carry : LevelsCarry ρ l m) (side : Side) :
    levels m (ρ.side side) = (levels l side).map ρ.level := by
  have sorted_map : SortedList.Sorted Level.price (ρ.side side).Better
      ((levels l side).map ρ.level) := by
    rw [SortedList.Sorted, List.pairwise_map]
    exact (sorted carry.left side).imp fun better => (ρ.better_iff side _ _).mpr better
  refine (sorted carry.right (ρ.side side)).ext_mem sorted_map fun level => ?_
  rw [mem_levels_iff carry.right, List.mem_map]
  constructor
  · intro present
    obtain ⟨p, same⟩ := carry.carries.only side level.price (by rw [present]; rfl)
    rw [← same, carry.carries.eq] at present
    refine ⟨_, mem_levels_of_contents carry.left present, ?_⟩
    rw [Relabelling.level, same]
  · rintro ⟨found, member, rfl⟩
    rw [Relabelling.level, carry.carries.eq]
    exact (mem_levels_iff carry.left).mp member

end LevelsCarry

/-- Every observer of the second container answers as the first one does, relabelled. -/
structure Relabelled (ρ : Relabelling) (l : L) (m : M) : Prop where
  depth_eq : ∀ side, depth m (ρ.side side) = depth l side
  best_eq : ∀ side, 0 < depth l side → best m (ρ.side side) = ρ.level (best l side)
  nth_eq : ∀ side rank, rank < depth l side →
    nth m (ρ.side side) rank = ρ.level (nth l side rank)
  quantity_eq : ∀ side price,
    quantityAt m (ρ.side side) (ρ.price price) = quantityAt l side price
  quantity_other : ∀ side price, (∀ p, ρ.price p ≠ price) → quantityAt m (ρ.side side) price = 0

theorem LevelsCarry.relabelled (carry : LevelsCarry ρ l m) : Relabelled ρ l m where
  depth_eq := fun side => by rw [depth_eq, depth_eq, carry.levels_eq, List.length_map]
  best_eq := by
    intro side some_level
    rw [depth_eq] at some_level
    rw [best_eq, best_eq, carry.levels_eq]
    cases held : levels l side with
    | nil => simp [held] at some_level
    | cons level rest => rfl
  nth_eq := by
    intro side rank within
    rw [depth_eq] at within
    rw [nth_eq, nth_eq, carry.levels_eq, List.getD_eq_getElem _ _ within,
      List.getD_eq_getElem _ _ (by rwa [List.length_map]), List.getElem_map]
  quantity_eq := fun side price => by
    rw [quantityAt_eq carry.left, quantityAt_eq carry.right, carry.carries.eq]
  quantity_other := by
    intro side price other
    rw [quantityAt_eq carry.right]
    cases held : contents m (ρ.side side) price with
    | none => rfl
    | some quantity =>
        obtain ⟨p, same⟩ := carry.carries.only side price (by rw [held]; rfl)
        exact absurd same (other p)

end Levels

section Index

variable {ρ : Relabelling} {index index' : OrderIndex} {id : OrderId} {i : Nat}

/-- The two slots hold the same id, and if they are taken the second order is the first one
relabelled. -/
structure OrdersCarry (ρ : Relabelling) (order order' : Order) : Prop where
  id_eq : order'.id = order.id
  eq : OrderIndex.isFree order = false → order' = ρ.order order

/-- The same index with every record relabelled. -/
structure IndexCarry (ρ : Relabelling) (index index' : OrderIndex) : Prop where
  slots : Probing.Related (OrdersCarry ρ) index.slots index'.slots
  mask : index'.mask = index.mask
  shift : index'.shift = index.shift
  size : index'.size = index.size

namespace OrdersCarry

variable {order order' : Order}

theorem isFree_eq (carry : OrdersCarry ρ order order') :
    OrderIndex.isFree order = OrderIndex.isFree order' := by
  rw [OrderIndex.isFree, OrderIndex.isFree, carry.id_eq]

theorem isFreeOr_eq (carry : OrdersCarry ρ order order') (id : OrderId) :
    OrderIndex.isFreeOr id order = OrderIndex.isFreeOr id order' := by
  rw [OrderIndex.isFreeOr, OrderIndex.isFreeOr, carry.isFree_eq, carry.id_eq]

theorem free : OrdersCarry ρ OrderIndex.emptyOrder OrderIndex.emptyOrder where
  id_eq := rfl
  eq := by simp [OrderIndex.isFree, OrderIndex.emptyOrder]

end OrdersCarry

namespace IndexCarry

theorem of_same (index : OrderIndex) (free : ∀ order ∈ index.slots, order = OrderIndex.emptyOrder) :
    IndexCarry ρ index index where
  slots := by
    intro i
    cases at_i : index.slots[i]? with
    | none => exact .none
    | some order =>
        rw [free order (List.mem_of_getElem? at_i)]
        exact .some .free
  mask := rfl
  shift := rfl
  size := rfl

theorem slotFor_eq (carry : IndexCarry ρ index index') : index'.slotFor = index.slotFor := by
  funext id
  rw [OrderIndex.slotFor, OrderIndex.slotFor, carry.shift]

theorem next_eq (carry : IndexCarry ρ index index') : index'.next = index.next := by
  funext i
  rw [OrderIndex.next, OrderIndex.next, carry.mask]

theorem fuel_eq (carry : IndexCarry ρ index index') : index'.fuel = index.fuel := by
  rw [OrderIndex.fuel, OrderIndex.fuel, carry.slots.length_eq]

theorem deref (carry : IndexCarry ρ index index') (i : Nat) :
    Corresponds (OrdersCarry ρ) (index.deref i) (index'.deref i) := by
  obtain ⟨at_i, at_i'⟩ | ⟨_, _, at_i, at_i', related⟩ := carry.slots.cases_at i
  · simp only [OrderIndex.deref, at_i, at_i']
    exact rfl
  · simp only [OrderIndex.deref, at_i, at_i']
    exact related

theorem probe_eq (carry : IndexCarry ρ index index') (id : OrderId) :
    Probing.scan index'.slots index'.next (OrderIndex.isFreeOr id) index'.fuel
        (index'.slotFor id) =
      Probing.scan index.slots index.next (OrderIndex.isFreeOr id) index.fuel
        (index.slotFor id) := by
  rw [carry.next_eq, carry.fuel_eq, carry.slotFor_eq]
  exact (carry.slots.scan_eq (fun _ _ related => related.isFreeOr_eq id) _ _).symm

theorem find (carry : IndexCarry ρ index index') (id : OrderId) :
    Corresponds (· = ·) (index.find id) (index'.find id) := by
  simp only [OrderIndex.find, carry.probe_eq id]
  refine .of_eq _ fun i => (carry.deref i).bind fun order order' related => ?_
  rw [related.isFree_eq]
  exact rfl

theorem insert (carry : IndexCarry ρ index index') {order order' : Order}
    (related : OrdersCarry ρ order order') :
    Corresponds (IndexCarry ρ) (index.insert order) (index'.insert order') := by
  have scans : Probing.scan index'.slots index'.next OrderIndex.isFree index'.fuel
      (index'.slotFor order'.id) = Probing.scan index.slots index.next OrderIndex.isFree index.fuel
        (index.slotFor order.id) := by
    rw [carry.next_eq, carry.fuel_eq, carry.slotFor_eq, related.id_eq]
    exact (carry.slots.scan_eq (fun _ _ related => related.isFree_eq) _ _).symm
  simp only [OrderIndex.insert, carry.size, ← carry.slots.length_eq, scans]
  split
  · exact .of_eq _ fun i => ⟨carry.slots.set i related, carry.mask, carry.shift, rfl⟩
  · exact rfl

theorem erase (carry : IndexCarry ρ index index') (id : OrderId) :
    Corresponds (IndexCarry ρ) (index.erase id) (index'.erase id) := by
  simp only [OrderIndex.erase, carry.probe_eq id]
  refine .of_eq _ fun i => (carry.deref i).bind fun order order' related => ?_
  rw [related.isFree_eq]
  split
  · exact carry
  · have shifts := @Probing.Related.shift _ _ (OrdersCarry ρ) index.slots index'.slots index.next
      OrderIndex.isFree OrderIndex.isFree
      (fun entry hole j => OrderIndex.inRange (index.slotFor entry.id) hole j)
      (fun entry hole j => OrderIndex.inRange (index.slotFor entry.id) hole j) carry.slots
      (fun _ _ related => related.isFree_eq) (fun _ _ related => by rw [related.id_eq])
      index.fuel i i
    rw [carry.next_eq, carry.fuel_eq, carry.slotFor_eq]
    refine shifts.bind fun r r' moved => ?_
    rw [moved.2]
    exact ⟨moved.1.set _ .free, carry.mask, carry.shift, congrArg (· - 1) carry.size⟩

theorem setRemaining (carry : IndexCarry ρ index index') (i : Nat) (remaining : Quantity) :
    IndexCarry ρ (index.setRemaining i remaining) (index'.setRemaining i remaining) where
  slots := by
    intro j
    simp only [OrderIndex.setRemaining, List.getElem?_modify]
    obtain ⟨at_j, at_j'⟩ | ⟨a, b, at_j, at_j', related⟩ := carry.slots.cases_at j
    · rw [at_j, at_j']
      exact .none
    · rw [at_j, at_j']
      refine .some ?_
      split
      · exact ⟨related.id_eq, fun busy => by rw [related.eq busy]; rfl⟩
      · exact related
  mask := carry.mask
  shift := carry.shift
  size := carry.size

end IndexCarry

/-- What `find` points to is a taken slot. -/
theorem OrderIndex.busy_of_find (found : index.find id = .ok (some i)) {order : Order}
    (result : index.deref i = .ok order) : isFree order = false := by
  obtain ⟨j, _, found⟩ := Run.of_bind_eq_ok found
  obtain ⟨order', at_j, found⟩ := Run.of_bind_eq_ok found
  cases busy : isFree order' with
  | true => simp [busy, pure, Except.pure] at found
  | false =>
      simp only [busy, pure, Except.pure, Except.ok.injEq, Bool.false_eq_true, if_false,
        Option.some.injEq] at found
      subst found
      rw [at_j, Except.ok.injEq] at result
      rwa [← result]

end Index

namespace Book

variable {L M : Type} [PriceLevels L] [LawfulLevels L] [PriceLevels M] [LawfulLevels M]
variable {ρ : Relabelling} {book : Book L} {other : Book M}

structure Carry (ρ : Relabelling) (book : Book L) (other : Book M) : Prop where
  levels : LevelsCarry ρ book.levels other.levels
  index : IndexCarry ρ book.index other.index

namespace Carry

theorem add (carry : Carry ρ book other) (id : OrderId) (side : Side) (price : Price)
    (qty : Quantity) : Corresponds (Carry ρ) (book.add id side price qty)
      (other.add id (ρ.side side) (ρ.price price) qty) := by
  have related : OrdersCarry ρ ⟨id, price, qty, side⟩ ⟨id, ρ.price price, qty, ρ.side side⟩ :=
    ⟨rfl, fun _ => rfl⟩
  refine (carry.index.insert related).bind fun index index' indices => ?_
  exact ⟨carry.levels.levelAdd side price qty, indices⟩

theorem cancel (carry : Carry ρ book other) (id : OrderId) :
    Corresponds (Carry ρ) (book.cancel id) (other.cancel id) := by
  refine (carry.index.find id).and_left.bind fun found found' ⟨same, result⟩ => ?_
  subst same
  cases found with
  | none => exact carry
  | some i =>
      refine (carry.index.deref i).and_left.bind fun order order' ⟨related, at_i⟩ => ?_
      obtain rfl := related.eq (OrderIndex.busy_of_find result at_i)
      refine (carry.index.erase id).bind fun index index' indices => ?_
      exact ⟨carry.levels.levelSub order.side order.price order.remaining, indices⟩

theorem reduce (carry : Carry ρ book other) (id : OrderId) (delta : Quantity) :
    Corresponds (Carry ρ) (book.reduce id delta) (other.reduce id delta) := by
  refine (carry.index.find id).and_left.bind fun found found' ⟨same, result⟩ => ?_
  subst same
  cases found with
  | none => exact carry
  | some i =>
      refine (carry.index.deref i).and_left.bind fun order order' ⟨related, at_i⟩ => ?_
      obtain rfl := related.eq (OrderIndex.busy_of_find result at_i)
      have levels := carry.levels.levelSub order.side order.price
        (if delta < order.remaining then delta else order.remaining)
      have written := carry.index.setRemaining i
        (order.remaining - if delta < order.remaining then delta else order.remaining)
      refine (written.deref i).and_left.bind fun after after' ⟨related', at_i'⟩ => ?_
      obtain rfl := related'.eq (OrderIndex.busy_of_find
        ((OrderIndex.find_setRemaining _ _ _ _).trans result) at_i')
      change Corresponds _ (if after.remaining ≤ 0 then _ else _)
        (if after.remaining ≤ 0 then _ else _)
      split
      · exact (written.erase id).bind fun index index' indices => ⟨levels, indices⟩
      · exact ⟨levels, written⟩

theorem apply (carry : Carry ρ book other) (event : Event) :
    Corresponds (Carry ρ) (book.apply event) (other.apply (event.relabel ρ)) := by
  obtain adds | cancels | reduces | ignored := event.kinds
  · have adds' : (event.relabel ρ).type = 1 := adds
    rw [apply_of_add adds, apply_of_add adds', Event.side_relabel]
    exact carry.add _ _ _ _
  · have cancels' : (event.relabel ρ).type = 3 := cancels
    rw [apply_of_cancel cancels, apply_of_cancel cancels']
    exact carry.cancel _
  · have reduces' : (event.relabel ρ).Reduces := reduces
    rw [apply_of_reduces reduces, apply_of_reduces reduces']
    exact carry.reduce _ _
  · have ignored' : (event.relabel ρ).Ignored := ignored
    rw [apply_of_ignored ignored, apply_of_ignored ignored']
    exact carry

end Carry

theorem replay_carry (hint : Nat) (events : List Event) :
    Corresponds (Carry ρ) (replay hint events : Except Fault (Book L))
      (replay hint (events.map (Event.relabel ρ)) : Except Fault (Book M)) := by
  rw [replay, replay]
  refine Corresponds.bind (R := Carry ρ) ?_ fun book other carry => ?_
  · rw [new, new]
    cases constructed : OrderIndex.new hint with
    | error fault => exact rfl
    | ok index => exact ⟨.of_empty, .of_same index (OrderIndex.free_of_new constructed)⟩
  · rw [List.foldlM_map]
    exact .foldlM (fun _ _ event carry => carry.apply event) events carry

end Book

/-- Relabelling every message relabels every book, and stops at the same faults. -/
theorem replay_relabel (ρ : Relabelling) (v w : Variant) (hint : Nat) (events : List Event) :
    Corresponds (fun book other => Relabelled ρ book.levels other.levels)
      (v.replay hint events) (w.replay hint (events.map (Event.relabel ρ))) :=
  (Book.replay_carry hint events).mono fun _ _ carry => carry.levels.relabelled

end OrderBook
