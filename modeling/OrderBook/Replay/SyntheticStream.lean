import OrderBook.Reference.OrderLadder
import OrderBook.Reference.Stream
import OrderBook.Replay.Synthetic

/-!
# Synthetic streams are well formed

`Turn` lists what one turn of the generator does to its list of orders, up to the order
of the list: it adds an order, takes a part of a listed one, or takes a listed one off.
The message says the same to the reference, so the two stay in step over any number of
turns and any draws.
-/

namespace OrderBook

open scoped List
open LiveOrders

namespace Synthetic

/-- Buys are quoted below the middle and sells above it. -/
def Quoted : Side → Price → Prop
  | .buy, price => price < mid
  | .sell, price => mid < price

theorem Quoted.direction {side : Side} {price : Price} (quoted : Quoted side price) :
    side.direction = 1 ∧ price < mid ∨ side.direction = -1 ∧ mid < price := by
  cases side with
  | buy => exact .inl ⟨rfl, quoted⟩
  | sell => exact .inr ⟨rfl, quoted⟩

/-- The message about an order. -/
def message (type : Int) (order : Order) (size : Quantity) : Event :=
  ⟨type, order.id, size, order.price, order.side.direction⟩

/-- One turn from a list of orders and a next id to another. -/
inductive Turn (live : List Order) (nextId : OrderId) : Event → List Order → OrderId → Prop
  | added (order : Order) {live' : List Order} (id_eq : order.id = nextId)
      (least : 1 ≤ order.remaining) (most : order.remaining ≤ 500)
      (quoted : Quoted order.side order.price) (rests : live' ~ order :: live) :
      Turn live nextId (message 1 order order.remaining) live' (nextId + 1)
  | reduced {target : Order} {rest live' : List Order} {cut : Quantity}
      (listed : live ~ target :: rest) (least : 1 ≤ cut) (left : cut < target.remaining)
      (rests : live' ~ { target with remaining := target.remaining - cut } :: rest) :
      Turn live nextId (message 4 target cut) live' nextId
  | removed {target : Order} {rest live' : List Order} {type : Int} (takes : type = 3 ∨ type = 4)
      (listed : live ~ target :: rest) (rests : live' ~ rest) :
      Turn live nextId (message type target target.remaining) live' nextId

namespace Generator

variable {rng : Rng}

theorem quoted_of_offset (side : Side) {offset : Price} (pos : 0 < offset) :
    Quoted side (if side = .buy then mid - offset else mid + offset) := by
  cases side with
  | buy => exact sub_lt_self mid pos
  | sell => exact lt_add_of_pos_right mid pos

theorem turn_addOrder (gen : Generator rng) : ∃ event,
    gen.addOrder.events = gen.events ++ [event] ∧
      Turn gen.live gen.nextId event gen.addOrder.live gen.addOrder.nextId := by
  have depth := rng.in_range 1 32 (rng.uniform 0 1 gen.state).2 (by decide)
  have size := rng.in_range 1 500 (rng.uniform 1 32 (rng.uniform 0 1 gen.state).2).2 (by decide)
  have offset : 0 < (rng.uniform 1 32 (rng.uniform 0 1 gen.state).2).1 * tick :=
    mul_pos depth.1 (by decide)
  exact ⟨_, rfl, .added ⟨gen.nextId, _, _, _⟩ rfl size.1 size.2 (quoted_of_offset _ offset)
    (List.perm_append_singleton _ _)⟩

/-- A drawn position is inside the list. -/
theorem exists_drawn (gen : Generator rng) (occupied : gen.live ≠ []) : ∃ target,
    gen.live[(rng.uniform 0 (gen.live.length - 1) gen.state).1.toNat]? = some target := by
  have some_live : 0 < gen.live.length := List.length_pos_of_ne_nil occupied
  have drawn := rng.in_range 0 (gen.live.length - 1) gen.state (by omega)
  exact ⟨_, List.getElem?_eq_getElem (by omega)⟩

theorem turn_deleteOrder (gen : Generator rng) (occupied : gen.live ≠ []) : ∃ gen' event,
    gen.deleteOrder = .ok gen' ∧ gen'.events = gen.events ++ [event] ∧
      Turn gen.live gen.nextId event gen'.live gen'.nextId := by
  obtain ⟨target, found⟩ := gen.exists_drawn occupied
  obtain ⟨inside, _⟩ := List.getElem?_eq_some_iff.mp found
  simp only [deleteOrder, found]
  exact ⟨_, _, rfl, rfl, .removed (.inl rfl) (SwapRemove.perm_set found target).1
    (SwapRemove.perm_eraseIdx inside)⟩

/-- The drawn part of an order is some of it and at most all. -/
theorem cut_in_range (target : Order) (some_left : 0 < target.remaining) (state : rng.State) :
    let cut := (if target.remaining > 1 then rng.uniform 1 target.remaining state
      else (target.remaining, state)).1
    1 ≤ cut ∧ cut ≤ target.remaining := by
  split
  case isTrue several =>
    exact rng.in_range 1 target.remaining state several.le
  case isFalse => exact ⟨some_left, le_rfl⟩

theorem turn_executeOrder (gen : Generator rng) (occupied : gen.live ≠ [])
    (positive : AllPositive gen.live) :
    ∃ gen' event, gen.executeOrder = .ok gen' ∧ gen'.events = gen.events ++ [event] ∧
      Turn gen.live gen.nextId event gen'.live gen'.nextId := by
  obtain ⟨target, found⟩ := gen.exists_drawn occupied
  have bounds := cut_in_range target (positive target (List.mem_of_getElem? found))
    (rng.uniform 0 (gen.live.length - 1) gen.state).2
  simp only [executeOrder, found]
  generalize (if target.remaining > 1 then _ else _ : Int × rng.State) = drawn at bounds ⊢
  obtain ⟨cut, state⟩ := drawn
  obtain ⟨least, most⟩ := bounds
  refine ⟨_, _, rfl, rfl, ?_⟩
  have overwritten := SwapRemove.perm_set found { target with remaining := target.remaining - cut }
  by_cases used_up : target.remaining - cut ≤ 0
  · obtain rfl : cut = target.remaining := le_antisymm most (sub_nonpos.mp used_up)
    rw [if_pos used_up]
    exact .removed (.inr rfl) overwritten.1 (SwapRemove.perm_set_eraseIdx found _)
  · rw [if_neg used_up]
    exact .reduced overwritten.1 least (sub_pos.mp (not_le.mp used_up)) overwritten.2

/-- What one turn does, whatever is drawn. -/
theorem turn_cases (gen : Generator rng) (positive : AllPositive gen.live) :
    ∃ gen' event, gen.turn = .ok gen' ∧ gen'.events = gen.events ++ [event] ∧
      Turn gen.live gen.nextId event gen'.live gen'.nextId := by
  rw [turn]
  generalize rng.uniform 0 99 gen.state = drawn
  obtain ⟨roll, state⟩ := drawn
  dsimp only
  split
  case isTrue =>
    obtain ⟨event, emitted, turn⟩ := turn_addOrder { gen with state }
    exact ⟨_, event, rfl, emitted, turn⟩
  case isFalse touches =>
    have occupied : gen.live ≠ [] := by
      intro vacant
      simp [vacant] at touches
    split
    · exact turn_executeOrder { gen with state } occupied positive
    · exact turn_deleteOrder { gen with state } occupied

end Generator

/-- What a message of a synthetic stream is like, given the orders that are live. -/
inductive Emitted (live : LiveOrders) (event : Event) : Prop
  | add (type : event.type = 1) (fresh : live.lookup event.id = none)
      (least : 1 ≤ event.size) (most : event.size ≤ 500)
      (quoted : event.direction = 1 ∧ event.price < mid ∨
        event.direction = -1 ∧ mid < event.price)
  | execution (type : event.type = 4) (resting : Resting)
      (present : live.lookup event.id = some resting) (price : event.price = resting.price)
      (direction : event.direction = resting.side.direction)
      (least : 1 ≤ event.size) (most : event.size ≤ resting.remaining)
  | deletion (type : event.type = 3) (resting : Resting)
      (present : live.lookup event.id = some resting) (price : event.price = resting.price)
      (direction : event.direction = resting.side.direction)
      (size : event.size = resting.remaining)

/-- The ids of the new orders of a stream. -/
def addedIds (events : List Event) : List OrderId :=
  (events.filter fun event => event.type = 1).map Event.id

/-- The ids 1, 2, 3 and so on. -/
def firstIds (count : Nat) : List OrderId := (List.range count).map fun i => (i : OrderId) + 1

/-- What holds of every order on the list of the generator. -/
structure Listed (nextId : OrderId) (order : Order) : Prop where
  id_lt : order.id < nextId
  quoted : Quoted order.side order.price
  some_left : 0 < order.remaining

/-- The generator after some messages, beside the reference. -/
structure Lockstep (events : List Event) (live : List Order) (nextId : OrderId) : Prop where
  live_perm : live ~ (after events).orders
  emitted : Run.Always step Emitted ∅ events
  ids : ∃ count : Nat, nextId = count + 1 ∧ addedIds events = firstIds count
  listed : ∀ order ∈ live, Listed nextId order

theorem Lockstep.start : Lockstep [] [] 1 where
  live_perm := .refl _
  emitted := trivial
  ids := ⟨0, rfl, rfl⟩
  listed := nofun

@[simp] theorem type_message (type : Int) (order : Order) (size : Quantity) :
    (message type order size).type = type := rfl

@[simp] theorem id_message (type : Int) (order : Order) (size : Quantity) :
    (message type order size).id = order.id := rfl

@[simp] theorem side_message (type : Int) (order : Order) (size : Quantity) :
    (message type order size).side = order.side := by
  rw [message, Event.side]
  cases order.side <;> rfl

@[simp] theorem order_message (type : Int) (order : Order) :
    (message type order order.remaining).order = order := by
  rw [Event.order, side_message]
  rfl

theorem addedIds_snoc (events : List Event) (event : Event) : addedIds (events ++ [event]) =
    addedIds events ++ if event.type = 1 then [event.id] else [] := by
  by_cases adds : event.type = 1 <;> simp [addedIds, adds]

theorem firstIds_succ (count : Nat) :
    firstIds (count + 1) = firstIds count ++ [(count : OrderId) + 1] := by
  simp [firstIds, List.range_succ]

section Turn

variable {events : List Event} {live live' : List Order} {nextId nextId' : OrderId} {event : Event}

theorem Lockstep.lookup_of_listed (lockstep : Lockstep events live nextId) {target : Order}
    {rest : List Order} (listed : live ~ target :: rest) :
    (after events).lookup target.id = some target.resting :=
  mem_orders.mp (lockstep.live_perm.mem_iff.mp (listed.mem_iff.mpr List.mem_cons_self))

theorem Lockstep.lookup_nextId (lockstep : Lockstep events live nextId) :
    (after events).lookup nextId = none := by
  by_contra taken
  obtain ⟨resting, present⟩ := Option.ne_none_iff_exists'.mp taken
  have listed := lockstep.live_perm.mem_iff.mpr (toOrder_mem_orders.mpr present)
  exact lt_irrefl nextId (lockstep.listed _ listed).id_lt

/-- The reference drops the order that the generator takes off its list. -/
theorem Lockstep.perm_drop (lockstep : Lockstep events live nextId) {target : Order}
    {rest : List Order} (listed : live ~ target :: rest) :
    rest ~ ((after events).drop target.id).orders :=
  ((listed.symm.trans lockstep.live_perm).trans
    (orders_drop (lockstep.lookup_of_listed listed)).symm).cons_inv

theorem Turn.live_perm (turn : Turn live nextId event live' nextId')
    (lockstep : Lockstep events live nextId) : live' ~ (after (events ++ [event])).orders := by
  rw [after_snoc]
  cases turn with
  | added order id_eq _ _ _ rests =>
      subst id_eq
      rw [step_of_add rfl, order_message, id_message, orders_put_of_fresh lockstep.lookup_nextId]
      exact rests.trans (lockstep.live_perm.cons order)
  | @reduced target rest _ cut listed _ left rests =>
      have taken : (after events).step (message 4 target cut) = (after events).put target.id
          { target.resting with remaining := target.remaining - cut } := by
        rw [step_of_reduces (.inr rfl)]
        exact reduce_of_lt (lockstep.lookup_of_listed listed) left
      rw [taken, orders_put]
      exact rests.trans ((lockstep.perm_drop listed).cons _)
  | @removed target rest _ type takes listed rests =>
      have exhausts : (message type target target.remaining).Exhausts target.resting.remaining :=
        takes.imp_right fun four => ⟨.inr four, le_rfl⟩
      rw [step_of_exhausts (lockstep.lookup_of_listed listed) exhausts]
      exact rests.trans (lockstep.perm_drop listed)

theorem Turn.emitted (turn : Turn live nextId event live' nextId')
    (lockstep : Lockstep events live nextId) : Emitted (after events) event := by
  cases turn with
  | added order id_eq least most quoted _ =>
      subst id_eq
      exact .add rfl lockstep.lookup_nextId least most quoted.direction
  | @reduced target _ _ _ listed least left _ =>
      exact .execution rfl target.resting (lockstep.lookup_of_listed listed) rfl rfl least left.le
  | @removed target _ _ type takes listed _ =>
      have present := lockstep.lookup_of_listed listed
      obtain three | four := takes
      · exact .deletion three target.resting present rfl rfl rfl
      · have some_left := (lockstep.listed target (listed.mem_iff.mpr List.mem_cons_self)).some_left
        exact .execution four target.resting present rfl rfl some_left le_rfl

theorem Turn.listed (turn : Turn live nextId event live' nextId')
    (lockstep : Lockstep events live nextId) : ∀ order ∈ live', Listed nextId' order := by
  cases turn with
  | added order id_eq least _ quoted rests =>
      intro other member
      obtain rfl | earlier := List.mem_cons.mp (rests.mem_iff.mp member)
      · exact ⟨id_eq ▸ Int.lt_succ _, quoted, least⟩
      · obtain ⟨id_lt, quoted, some_left⟩ := lockstep.listed other earlier
        exact ⟨id_lt.trans (Int.lt_succ _), quoted, some_left⟩
  | reduced listed _ left rests =>
      have earlier := List.forall_mem_cons.mp fun order member =>
        lockstep.listed order (listed.mem_iff.mpr member)
      intro other member
      obtain rfl | kept := List.mem_cons.mp (rests.mem_iff.mp member)
      · exact ⟨earlier.1.id_lt, earlier.1.quoted, sub_pos.mpr left⟩
      · exact earlier.2 other kept
  | removed _ listed rests =>
      intro other member
      exact lockstep.listed other
        (listed.mem_iff.mpr (List.mem_cons_of_mem _ (rests.mem_iff.mp member)))

theorem Turn.ids (turn : Turn live nextId event live' nextId')
    (lockstep : Lockstep events live nextId) :
    ∃ count : Nat, nextId' = count + 1 ∧ addedIds (events ++ [event]) = firstIds count := by
  obtain ⟨count, next, ids⟩ := lockstep.ids
  cases turn with
  | added order id_eq _ _ _ _ =>
      exact ⟨count + 1, by rw [next]; rfl, by simp [addedIds_snoc, ids, firstIds_succ, id_eq, next]⟩
  | reduced _ _ _ _ => exact ⟨count, next, by simp [addedIds_snoc, ids]⟩
  | removed takes _ _ =>
      refine ⟨count, next, ?_⟩
      rcases takes with rfl | rfl <;> simp [addedIds_snoc, ids]

theorem Lockstep.turn (lockstep : Lockstep events live nextId)
    (turn : Turn live nextId event live' nextId') : Lockstep (events ++ [event]) live' nextId' where
  live_perm := turn.live_perm lockstep
  emitted := lockstep.emitted.snoc (turn.emitted lockstep)
  ids := turn.ids lockstep
  listed := turn.listed lockstep

end Turn

namespace Generator

variable {rng : Rng}

/-- Every turn succeeds, emits one message and keeps step. -/
theorem turns_eq_ok (seed : rng.State) (count : Nat) : ∃ gen, turns seed count = .ok gen ∧
    gen.events.length = count ∧ Lockstep gen.events gen.live gen.nextId := by
  induction count with
  | zero => exact ⟨start seed, rfl, rfl, .start⟩
  | succ count ih =>
      obtain ⟨gen, reached, length, lockstep⟩ := ih
      obtain ⟨gen', event, turned, emitted, turn⟩ :=
        gen.turn_cases fun order member => (lockstep.listed order member).some_left
      refine ⟨gen', by rw [turns, reached, Run.ok_bind, turned], ?_, ?_⟩
      · rw [emitted, List.length_append, length, List.length_singleton]
      · rw [emitted]
        exact lockstep.turn turn

theorem events_turns_prefix (seed : rng.State) {count more : Nat} {gen gen' : Generator rng}
    (reached : turns seed count = .ok gen) (reached' : turns seed (count + more) = .ok gen') :
    gen.events <+: gen'.events := by
  induction more generalizing gen' with
  | zero =>
      rw [Nat.add_zero, reached, Except.ok.injEq] at reached'
      rw [reached']
  | succ more ih =>
      obtain ⟨between, earlier, _, lockstep⟩ := turns_eq_ok seed (count + more)
      obtain ⟨last, event, turned, emitted, _⟩ :=
        between.turn_cases fun order member => (lockstep.listed order member).some_left
      rw [← Nat.add_assoc, turns, earlier, Run.ok_bind, turned, Except.ok.injEq] at reached'
      rw [← reached', emitted]
      exact (ih earlier).trans (List.prefix_append _ _)

end Generator

theorem Lockstep.uncrossed {events : List Event} {live : List Order} {nextId : OrderId}
    (lockstep : Lockstep events live nextId) : (ladderOf (after events).orders).Uncrossed := by
  intro bid ask bid_present ask_present
  obtain ⟨buy, buy_live, buys, rfl⟩ := ladderOf_isSome.mp bid_present
  obtain ⟨sell, sell_live, sells, rfl⟩ := ladderOf_isSome.mp ask_present
  have below := (lockstep.listed buy (lockstep.live_perm.mem_iff.mpr buy_live)).quoted
  have above := (lockstep.listed sell (lockstep.live_perm.mem_iff.mpr sell_live)).quoted
  rw [buys] at below
  rw [sells] at above
  exact lt_trans below above

end Synthetic

open Synthetic

/-- Whatever is drawn, the generator returns a stream of the given length with the ids
in order, each of its messages fits the orders that are live, and its list of orders is
the live orders after every message. -/
theorem makeSyntheticStream_wellFormed (rng : Rng) (seed : rng.State) (eventCount : Nat) :
    ∃ events, makeSyntheticStream rng seed eventCount = .ok events ∧
      events.length = eventCount ∧ Run.Always step Emitted ∅ events ∧
      (∃ count, addedIds events = firstIds count) ∧
      ∀ before, before <+: events → ∃ gen, Generator.turns seed before.length = .ok gen ∧
        gen.events = before ∧ gen.live ~ (after before).orders ∧
        (ladderOf (after before).orders).Uncrossed := by
  obtain ⟨last, reached, length, lockstep⟩ := Generator.turns_eq_ok seed eventCount
  obtain ⟨count, _, ids⟩ := lockstep.ids
  refine ⟨last.events, by rw [makeSyntheticStream, reached]; rfl, length, lockstep.emitted,
    ⟨count, ids⟩, ?_⟩
  intro before member
  obtain ⟨more, total⟩ := Nat.exists_eq_add_of_le (length ▸ member.length_le)
  obtain ⟨gen, reached', length', lockstep'⟩ := Generator.turns_eq_ok seed before.length
  rw [total] at reached
  have same : gen.events = before :=
    (List.prefix_of_prefix_length_le (Generator.events_turns_prefix seed reached' reached) member
      length'.le).eq_of_length length'
  subst same
  exact ⟨gen, reached', rfl, lockstep'.live_perm, lockstep'.uncrossed⟩

/-- With the largest number at every draw, a sell is added and then deleted. -/
example : makeSyntheticStream ⟨Unit, fun _ hi state => (hi, state), fun _ _ _ le => ⟨le, le_rfl⟩⟩ ()
    2 = .ok [⟨1, 1, 500, 1003200, -1⟩, ⟨3, 1, 500, 1003200, -1⟩] := rfl

end OrderBook
