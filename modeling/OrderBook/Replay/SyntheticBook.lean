import OrderBook.Book.Posted
import OrderBook.Book.Reconstruction
import OrderBook.Book.Capacity
import OrderBook.Replay.Analyse
import OrderBook.Replay.SyntheticStream

/-!
# The books of synthetic streams

A synthetic stream is legal for its own estimate: it names live orders only, so the
estimate exceeds the live orders by those that executions have used up. Its new orders
lie on 32 prices of each side of the middle, and a book shows only what was posted. So
whatever is drawn, and whatever the index does, the book of a synthetic stream stays
uncrossed, 32 levels deep and within 500 shares for each new order.
-/

namespace OrderBook

open PriceLevels LiveOrders

/-- A live order was added under its id. -/
theorem LiveOrders.exists_add_of_live {events : List Event} {id : OrderId} {resting : Resting}
    (present : (after events).lookup id = some resting) :
    ∃ event ∈ events, event.type = 1 ∧ event.id = id := by
  refine live_induction (P := fun id _ => ∃ event ∈ events, event.type = 1 ∧ event.id = id)
    ?_ ?_ ?_ id resting present
  · simp
  · exact fun event member adds => ⟨event, member, adds, rfl⟩
  · exact fun _ _ _ _ added _ => added

namespace Synthetic

/-- The prices that the generator can draw for a side. -/
def gridPrices (side : Side) : List Price :=
  (List.range 32).map fun i : Nat =>
    if side = .buy then mid - ((i : Int) + 1) * tick else mid + ((i : Int) + 1) * tick

theorem mem_gridPrices {side : Side} {depth : Int} (least : 1 ≤ depth) (most : depth ≤ 32) :
    (if side = .buy then mid - depth * tick else mid + depth * tick) ∈ gridPrices side := by
  have inside : (depth - 1).toNat < 32 := by omega
  have same : (((depth - 1).toNat : Nat) : Int) + 1 = depth := by omega
  exact List.mem_map.mpr ⟨(depth - 1).toNat, List.mem_range.mpr inside, by rw [same]⟩

theorem quoted_of_mem_gridPrices {side : Side} {price : Price}
    (member : price ∈ gridPrices side) : Quoted side price := by
  obtain ⟨i, _, rfl⟩ := List.mem_map.mp member
  have pos : (0 : Int) < (i : Int) + 1 := by omega
  exact Generator.quoted_of_offset side (mul_pos pos (by decide))

namespace Generator

variable {rng : Rng}

/-- The message of a turn, if it is a new order, has a price of the grid. -/
theorem turn_grid {gen gen' : Generator rng} (turned : gen.turn = .ok gen') : ∃ event,
    gen'.events = gen.events ++ [event] ∧
      (event.type = 1 → event.price ∈ gridPrices event.side) := by
  rw [turn] at turned
  generalize rng.uniform 0 99 gen.state = drawn at turned
  obtain ⟨roll, state⟩ := drawn
  dsimp only at turned
  split at turned
  case isTrue =>
    cases turned
    refine ⟨_, rfl, fun _ => ?_⟩
    have depth := rng.in_range 1 32 (rng.uniform 0 1 state).2 (by decide)
    have sides : ∀ (id size price : Int) (side : Side),
        (⟨1, id, size, price, side.direction⟩ : Event).side = side := by
      intro id size price side
      cases side <;> rfl
    rw [sides]
    exact mem_gridPrices depth.1 depth.2
  case isFalse =>
    split at turned
    · rw [executeOrder] at turned
      dsimp only at turned
      split at turned
      · cases turned
      · cases turned
        exact ⟨_, rfl, fun four => absurd (show (4 : Int) = 1 from four) (by decide)⟩
    · rw [deleteOrder] at turned
      dsimp only at turned
      split at turned
      · cases turned
      · cases turned
        exact ⟨_, rfl, fun three => absurd (show (3 : Int) = 1 from three) (by decide)⟩

theorem grid_of_turns (seed : rng.State) (count : Nat) (gen : Generator rng)
    (reached : turns seed count = .ok gen) :
    ∀ event ∈ gen.events, event.type = 1 → event.price ∈ gridPrices event.side := by
  induction count generalizing gen with
  | zero =>
      cases reached
      simp [start]
  | succ count ih =>
      obtain ⟨earlier, reached', turned⟩ := Run.of_bind_eq_ok reached
      obtain ⟨last, emitted, on_grid⟩ := turn_grid turned
      intro event member
      rw [emitted, List.mem_append, List.mem_singleton] at member
      obtain member | rfl := member
      · exact ih earlier reached' event member
      · exact on_grid

end Generator

variable {rng : Rng} {seed : rng.State} {eventCount : Nat} {events : List Event}
variable {live : List Order} {nextId : OrderId} {event : Event}

theorem exists_lockstep (made : makeSyntheticStream rng seed eventCount = .ok events) :
    (∃ live nextId, Lockstep events live nextId) ∧
      ∀ event ∈ events, event.type = 1 → event.price ∈ gridPrices event.side := by
  obtain ⟨gen, reached, result⟩ := Run.of_bind_eq_ok made
  cases result
  obtain ⟨same, reached', _, lockstep⟩ := Generator.turns_eq_ok seed eventCount
  cases reached.symm.trans reached'
  exact ⟨⟨_, _, lockstep⟩, Generator.grid_of_turns seed eventCount gen reached⟩

namespace Lockstep

theorem one_le_id_of_add (lockstep : Lockstep events live nextId) (member : event ∈ events)
    (adds : event.type = 1) : 1 ≤ event.id := by
  obtain ⟨count, _, ids⟩ := lockstep.ids
  have listed : event.id ∈ addedIds events :=
    List.mem_map_of_mem (List.mem_filter.mpr ⟨member, by simpa using adds⟩)
  rw [ids] at listed
  simp only [firstIds, List.mem_map] at listed
  obtain ⟨i, drawn, same⟩ := listed
  have nonneg : 0 ≤ i := by
    simp only [List.bind_eq_flatMap, List.mem_flatMap, List.mem_pure] at drawn
    obtain ⟨n, _, rfl⟩ := drawn
    exact Int.natCast_nonneg n
  rw [← same]
  exact Int.le_add_of_nonneg_left nonneg

/-- A message names an id that the stream has added, or adds it. -/
theorem wellFormed (lockstep : Lockstep events live nextId) (member : event ∈ events) :
    event.WellFormed := by
  obtain ⟨before, rest, rfl⟩ := List.append_of_mem member
  have here : before ++ [event] <+: before ++ event :: rest := ⟨rest, by simp⟩
  have named : ∀ resting, (after before).lookup event.id = some resting → 1 ≤ event.id := by
    intro resting present
    obtain ⟨added, earlier, adds, same⟩ := exists_add_of_live present
    rw [← same]
    exact lockstep.one_le_id_of_add (List.mem_append_left _ earlier) adds
  have usable : 1 ≤ event.id → event.id ≠ OrderIndex.kEmpty := by
    rintro positive same
    rw [same] at positive
    exact absurd positive (by decide)
  cases lockstep.emitted.at here with
  | add type _ least _ _ =>
      exact ⟨usable (lockstep.one_le_id_of_add member type), fun _ => least,
        fun reduces => absurd type reduces.type_ne.1⟩
  | execution type resting present _ _ least _ =>
      exact ⟨usable (named resting present), fun adds => absurd (type.symm.trans adds) (by decide),
        fun _ => least.trans' (by decide)⟩
  | deletion type resting present _ _ _ =>
      exact ⟨usable (named resting present), fun adds => absurd (type.symm.trans adds) (by decide),
        fun reduces => absurd type reduces.type_ne.2⟩

theorem size_le (lockstep : Lockstep events live nextId) (member : event ∈ events)
    (adds : event.type = 1) : event.size ≤ 500 := by
  obtain ⟨before, rest, rfl⟩ := List.append_of_mem member
  have here : before ++ [event] <+: before ++ event :: rest := ⟨rest, by simp⟩
  cases lockstep.emitted.at here with
  | add _ _ _ most _ => exact most
  | execution type _ _ _ _ _ _ => exact absurd (type.symm.trans adds) (by decide)
  | deletion type _ _ _ _ _ => exact absurd (type.symm.trans adds) (by decide)

theorem noLiveReuse (lockstep : Lockstep events live nextId) : NoLiveReuse events := by
  refine lockstep.emitted.imp fun live event emitted adds => ?_
  cases emitted with
  | add _ fresh _ _ _ => exact fresh
  | execution type _ _ _ _ _ _ => exact absurd (type.symm.trans adds) (by decide)
  | deletion type _ _ _ _ _ => exact absurd (type.symm.trans adds) (by decide)

/-- No deletion of a synthetic stream is without an order. -/
theorem ghosts_eq (lockstep : Lockstep events live nextId) :
    ∀ before, before <+: events → ghosts before = 0 := by
  apply Run.prefix_induction
  · rfl
  · intro before event member ih
    have no_ghost : ¬ (after before).Ghost event := by
      rintro ⟨deletes, absent⟩
      cases lockstep.emitted.at member with
      | add type _ _ _ _ => exact absurd (type.symm.trans deletes) (by decide)
      | execution type _ _ _ _ _ _ => exact absurd (type.symm.trans deletes) (by decide)
      | deletion _ resting present _ _ _ => cases absent.symm.trans present
    have snoc : ghosts (before ++ [event]) =
        ghosts before + if (after before).Ghost event then 1 else 0 :=
      Run.tally_snoc step Ghost ∅ before event
    rw [snoc, ih, if_neg no_ghost]

end Lockstep

/-- A container that is uncrossed around the middle, with few and bounded levels. -/
structure Shaped {L : Type} [PriceLevels L] (adds : Nat) (l : L) : Prop where
  depth_le : ∀ side, depth l side ≤ 32
  on_grid : ∀ side rank, rank < depth l side → (nth l side rank).price ∈ gridPrices side
  quantity_pos : ∀ side rank, rank < depth l side → 0 < (nth l side rank).quantity
  quantity_le : ∀ side price, quantityAt l side price ≤ 500 * adds
  bid_lt_mid : 0 < depth l .buy → (best l .buy).price < mid
  mid_lt_ask : 0 < depth l .sell → mid < (best l .sell).price

theorem shaped_of_posted {L : Type} [PriceLevels L] [LawfulLevels L] {book : Book L}
    (posted : Book.Posted events book)
    (on_grid : ∀ event ∈ events, event.type = 1 → event.price ∈ gridPrices event.side)
    (size_le : ∀ event ∈ events, event.type = 1 → event.size ≤ 500) :
    Shaped (Event.addCount events) book.levels := by
  have valid := posted.conserves.valid
  have posted_of : ∀ order ∈ Event.posted events,
      order.price ∈ gridPrices order.side ∧ order.remaining ≤ 500 := by
    intro order member
    obtain ⟨event, kept, rfl⟩ := List.mem_map.mp member
    obtain ⟨streamed, adds⟩ := List.mem_filter.mp kept
    have adds : event.type = 1 := by simpa using adds
    exact ⟨on_grid event streamed adds, size_le event streamed adds⟩
  have present_on_grid : ∀ side price, Present book.levels side price →
      price ∈ gridPrices side := by
    intro side price present
    obtain ⟨order, member, rfl, rfl⟩ := posted.within.posted side price present
    exact (posted_of order member).1
  have ranked : ∀ side rank, rank < depth book.levels side →
      (nth book.levels side rank).price ∈ gridPrices side := fun side rank within =>
    present_on_grid side _ ⟨rank, within, rfl⟩
  have total : ((Event.posted events).map Order.remaining).sum ≤ 500 * Event.addCount events := by
    have bounded := List.sum_le_card_nsmul ((Event.posted events).map Order.remaining) 500 <| by
      intro remaining member
      obtain ⟨order, listed, rfl⟩ := List.mem_map.mp member
      exact (posted_of order listed).2
    have length : ((Event.posted events).map Order.remaining).length = Event.addCount events := by
      simp [Event.posted, Event.addCount, List.countP_eq_length_filter]
    rw [length, nsmul_eq_mul, mul_comm] at bounded
    exact bounded
  have best_on_grid : ∀ side, 0 < depth book.levels side →
      Quoted side (best book.levels side).price := by
    intro side some_level
    rw [(consistent_of_valid valid side).best_eq]
    exact quoted_of_mem_gridPrices (ranked side 0 some_level)
  refine ⟨fun side => ?_, ranked, posted.conserves.conserved.level_pos,
    fun side price => (posted.quantity_le_sum side price).trans total, best_on_grid .buy,
    best_on_grid .sell⟩
  have depth_le : _ ≤ (gridPrices side).length := depth_le_of_covered valid fun price present =>
    present_on_grid side price ((present_iff valid).mpr present)
  exact depth_le.trans_eq rfl

end Synthetic

open Synthetic

/-- A synthetic stream is legal for any hint from its estimate on, and what `analyse`
counts as live exceeds the live orders by those that executions have used up. -/
theorem makeSyntheticStream_legal (rng : Rng) (seed : rng.State) (eventCount hint : Nat)
    (events : List Event) (made : makeSyntheticStream rng seed eventCount = .ok events)
    (enough : (analyse events).peakLiveEstimate ≤ hint) :
    Event.Legal hint events ∧ ∀ before, before <+: events →
      ((after before).count : Int) + exhausted before = (Analysis.of before).live := by
  obtain ⟨⟨live, nextId, lockstep⟩, _⟩ := exists_lockstep made
  have fresh := lockstep.noLiveReuse
  have none_ghost := lockstep.ghosts_eq
  constructor
  · apply Run.Always.of_at
    intro before event member
    have counted := count_le_peakLiveEstimate fresh
      (fun before member => (none_ghost before member).trans_le (Nat.zero_le _))
      (before ++ [event]) member
    rw [after_snoc] at counted
    exact ⟨lockstep.wellFormed (member.subset (by simp)), fresh.at member, counted.trans enough⟩
  · intro before member
    have balance := count_after fresh before member
    rwa [none_ghost before member, Nat.cast_zero, add_zero] at balance

/-- With the largest number at every draw, a sell is added and then deleted. -/
theorem makeSyntheticStream_legal_largest :
    Event.Legal 1 [⟨1, 1, 500, 1003200, -1⟩, ⟨3, 1, 500, 1003200, -1⟩] :=
  (makeSyntheticStream_legal
    ⟨Unit, fun _ hi state => (hi, state), fun _ _ _ le => ⟨le, le_rfl⟩⟩ () 2 1 _ rfl
    (by decide)).1

/-- The book of a synthetic stream, at every message: at most 32 levels a side, all on the
grid of that side, positive and within 500 shares for each new order, and uncrossed. -/
theorem syntheticBook_shaped (rng : Rng) (seed : rng.State) (eventCount : Nat) (v : Variant)
    (hint : Nat) (hhint : hint ≤ 2 ^ 62) (events : List Event)
    (made : makeSyntheticStream rng seed eventCount = .ok events)
    (asserted : v.replay hint events ≠ .error .assertion) :
    ∀ before, before <+: events → ∃ book, v.replay hint before = .ok book ∧
      Shaped (Event.addCount before) book.levels := by
  obtain ⟨⟨live, nextId, lockstep⟩, on_grid⟩ := exists_lockstep made
  intro before member
  obtain ⟨book, reached, _, posted⟩ := Book.posted_of_replay hhint
    (fun event member => lockstep.wellFormed member) asserted before member
  refine ⟨book, reached, shaped_of_posted posted ?_ ?_⟩
  · exact fun event streamed => on_grid event (member.subset streamed)
  · exact fun event streamed => lockstep.size_le (member.subset streamed)

/-- With the smallest number at every draw, buys of one share rest next to the middle. -/
theorem syntheticBook_shaped_smallest : ∃ book,
    Variant.branchless.replay 2 [⟨1, 1, 1, 999900, 1⟩, ⟨1, 2, 1, 999900, 1⟩] = .ok book ∧
      Shaped 2 book.levels :=
  syntheticBook_shaped ⟨Unit, fun lo _ state => (lo, state), fun _ _ _ le => ⟨le_rfl, le⟩⟩ () 2
    .branchless 2 (by decide) _ rfl (by decide) _ List.prefix_rfl

end OrderBook
