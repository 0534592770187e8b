import OrderBook.Event
import OrderBook.Foundation.Run
import OrderBook.Foundation.SwapRemove

/-!
# The synthetic stream generator

The random numbers are a parameter: a generator state and a draw of an integer between
two bounds, of which nothing is known but that it lies between them. So a result about
every `Rng` is a result about every sequence of draws.

The generator keeps its own list of the orders it has resting. Each turn it adds an
order, executes a part of a listed order or deletes one, and emits the message for it.
-/

namespace OrderBook

/-- A source of uniformly distributed integers. -/
structure Rng where
  State : Type
  uniform : Int → Int → State → Int × State
  in_range : ∀ lo hi state, lo ≤ hi → lo ≤ (uniform lo hi state).1 ∧ (uniform lo hi state).1 ≤ hi

/-- The direction column of a message about an order on this side. -/
def Side.direction : Side → Int
  | buy => 1
  | sell => -1

namespace Synthetic

/-- One cent in units of a dollar times ten thousand. -/
def tick : Price := 100

/-- A one hundred dollar instrument. -/
def mid : Price := 100 * 10000

/-- The local variables of the generator. A listed order has the fields of `Order`. -/
structure Generator (rng : Rng) where
  state : rng.State
  events : List Event
  live : List Order
  nextId : OrderId

variable {rng : Rng}

namespace Generator

def start (seed : rng.State) : Generator rng := ⟨seed, [], [], 1⟩

/-- Emit a new order on a drawn side, 1 to 32 ticks away from the middle. -/
def addOrder (gen : Generator rng) : Generator rng :=
  let (pick, state) := rng.uniform 0 1 gen.state
  let side := if pick = 0 then Side.buy else .sell
  let (depth, state) := rng.uniform 1 32 state
  let offset := depth * tick
  let price := if side = .buy then mid - offset else mid + offset
  let (size, state) := rng.uniform 1 500 state
  { state
    events := gen.events ++ [⟨1, gen.nextId, size, price, side.direction⟩]
    live := gen.live ++ [⟨gen.nextId, price, size, side⟩]
    nextId := gen.nextId + 1 }

/-- Emit an execution of a drawn part of a drawn order. -/
def executeOrder (gen : Generator rng) : Except Fault (Generator rng) :=
  let (pick, state) := rng.uniform 0 (gen.live.length - 1) gen.state
  let k := pick.toNat
  match gen.live[k]? with
  | none => .error .outOfBounds
  | some target =>
      let (cut, state) :=
        if target.remaining > 1 then rng.uniform 1 target.remaining state
        else (target.remaining, state)
      let live := gen.live.set k { target with remaining := target.remaining - cut }
      .ok {
        state
        events := gen.events ++ [⟨4, target.id, cut, target.price, target.side.direction⟩]
        live := if target.remaining - cut ≤ 0 then swapRemove live k else live
        nextId := gen.nextId }

/-- Emit a deletion of a drawn order. -/
def deleteOrder (gen : Generator rng) : Except Fault (Generator rng) :=
  let (pick, state) := rng.uniform 0 (gen.live.length - 1) gen.state
  let k := pick.toNat
  match gen.live[k]? with
  | none => .error .outOfBounds
  | some target =>
      .ok {
        state
        events := gen.events ++
          [⟨3, target.id, target.remaining, target.price, target.side.direction⟩]
        live := swapRemove gen.live k
        nextId := gen.nextId }

/-- One turn of the loop. -/
def turn (gen : Generator rng) : Except Fault (Generator rng) :=
  let (roll, state) := rng.uniform 0 99 gen.state
  let canTouchLive := !gen.live.isEmpty
  let gen := { gen with state }
  if roll < 60 ∨ !canTouchLive then .ok gen.addOrder
  else if roll < 85 then gen.executeOrder
  else gen.deleteOrder

/-- The local variables after this many turns. -/
def turns (seed : rng.State) : Nat → Except Fault (Generator rng)
  | 0 => .ok (start seed)
  | count + 1 => turns seed count >>= turn

end Generator

end Synthetic

open Synthetic in
def makeSyntheticStream (rng : Rng) (seed : rng.State) (eventCount : Nat) :
    Except Fault (List Event) := do
  let gen ← Generator.turns seed eventCount
  return gen.events

end OrderBook
