import OrderBook.Book.Reconstruction
import OrderBook.Index.Spread

/-!
# Streams whose live ids are close together

A stream numbers its orders in sequence, so the orders that are live at one time tend to
have ids close together. As long as these span at most a fifth of the slots that the hint
asks for, each of them rests at its own home with a free slot behind it. No deletion has
anything to shift then, every probe ends at its first slot, and the book reconstructs the
reference whatever the stream does.
-/

namespace OrderBook

/-- The ids span at most a fifth of twice the hint. -/
def LiveOrders.Close (hint : Nat) (live : LiveOrders) : Prop :=
  ∀ a ∈ live.orders, ∀ b ∈ live.orders, 5 * |b.id - a.id| ≤ 2 * hint

instance (hint : Nat) (live : LiveOrders) : Decidable (live.Close hint) :=
  inferInstanceAs (Decidable (∀ a ∈ live.orders, ∀ b ∈ live.orders, _))

/-- The live orders stay close after every message. -/
def Event.Close (hint : Nat) (events : List Event) : Prop :=
  Run.Always LiveOrders.step (fun live event => (live.step event).Close hint) ∅ events

instance (hint : Nat) (events : List Event) : Decidable (Event.Close hint events) :=
  inferInstanceAs (Decidable (Run.Always _ _ _ _))

theorem Event.Close.after {hint : Nat} {events : List Event} (close : Event.Close hint events) :
    ∀ before, before <+: events → (LiveOrders.after before).Close hint := by
  apply Run.prefix_induction
  · simp [LiveOrders.Close]
  · intro before event member _
    rw [LiveOrders.after_snoc]
    exact Run.Always.at close member

namespace Book

variable {L : Type} [PriceLevels L] [LawfulLevels L] {hint : Nat} {book book' : Book L}
variable {live : LiveOrders} {event : Event}

/-- The book follows the live orders, and each of its records is at its home in a slab
of at most `2 ^ 33` slots. -/
structure FollowsSettled (hint : Nat) (book : Book L) (live : LiveOrders) : Prop where
  follows : Follows hint book live
  settled : book.index.Settled
  small : book.index.slots.length ≤ 2 ^ 33

namespace FollowsSettled

theorem exists_geometry (inv : FollowsSettled hint book live) :
    ∃ bits, book.index.Geometry bits ∧ bits < 34 := by
  obtain ⟨bits, geometry⟩ := inv.follows.represents.sound.geometry
  have small := inv.small
  rw [geometry.length] at small
  exact ⟨bits, geometry, Nat.lt_succ_of_le ((Nat.pow_le_pow_iff_right (by decide)).mp small)⟩

theorem near (inv : FollowsSettled hint book live) {a b : Int} (close : 5 * |b - a| ≤ 2 * hint) :
    5 * |b - a| ≤ book.index.slots.length := by
  have room : (hint : Int) * 2 ≤ book.index.slots.length := by exact_mod_cast inv.follows.room
  omega

theorem scattered (inv : FollowsSettled hint book live) (close : live.Close hint) :
    book.index.Scattered := by
  obtain ⟨bits, geometry, small⟩ := inv.exists_geometry
  have two := geometry.two_le_length
  intro a ha b hb
  by_cases same : a.id = b.id
  · rw [same]
    exact (Cyclic.walk_ne_self (geometry.slotFor_lt _) (by omega) (by omega)).symm
  · have records := inv.follows.represents.records
    exact geometry.slotFor_not_next small same
      (inv.near (close a (records.mem_iff.mp ha) b (records.mem_iff.mp hb)))

theorem reachable (inv : FollowsSettled hint book live) {resting : Resting} {id : OrderId}
    (present : live.lookup id = some resting) : book.index.Reachable id := by
  have represents := inv.follows.represents
  have member := represents.mem_records.mpr
    (show live.lookup (resting.toOrder id).id = _ from present)
  exact represents.sound.roomy.reachable_iff.mpr ⟨_, _, (represents.sound.complete_of_linked
    represents.distinct inv.settled.linked _ member).choose_spec⟩

/-- The home of an order that joins close live orders is free. -/
theorem vacant (inv : FollowsSettled hint book live) (fresh : live.lookup event.id = none)
    (adds : event.type = 1) (close : (live.step event).Close hint) :
    ∀ other ∈ book.index.records,
      book.index.slotFor other.id ≠ book.index.slotFor event.order.id := by
  obtain ⟨bits, geometry, small⟩ := inv.exists_geometry
  rw [LiveOrders.step_of_add adds] at close
  intro other member
  have joined : (live.put event.id event.order.resting).orders =
      event.order :: live.orders := LiveOrders.orders_put_of_fresh fresh
  have close_other : 5 * |event.id - other.id| ≤ 2 * hint := by
    apply close other _ event.order _
    · rw [joined]
      exact List.mem_cons_of_mem _ (inv.follows.represents.records.mem_iff.mp member)
    · rw [joined]
      exact List.mem_cons_self
  have apart : other.id ≠ event.id := by
    intro same
    have present := inv.follows.represents.mem_records.mp member
    rw [same, fresh] at present
    cases present
  have fifth := inv.near close_other
  have third : 3 * |event.id - other.id| ≤ book.index.slots.length := by
    have := abs_nonneg (event.id - other.id)
    linarith
  exact geometry.slotFor_ne small apart third

theorem step (inv : FollowsSettled hint book live) (admissible : event.Admissible hint live)
    (close : live.Close hint) (close' : (live.step event).Close hint) :
    ∃ book', book.apply event = .ok book' ∧ FollowsSettled hint book' (live.step event) := by
  have sound := inv.follows.represents.sound
  obtain ⟨book', applied, follows'⟩ := inv.follows.step admissible
    fun _ resting present => inv.reachable present
  have small' : book'.index.slots.length ≤ 2 ^ 33 := by
    rw [(outcome_of_apply sound applied).length_eq]
    exact inv.small
  refine ⟨book', applied, follows', ?_, small'⟩
  cases indexStep_of_apply sound applied with
  | same same => exact same ▸ inv.settled
  | inserted adds inserted =>
      exact inv.settled.insert sound (inv.vacant (admissible.2.1 adds) adds close') inserted
  | written remaining _ written => exact written ▸ inv.settled.setRemaining _ remaining
  | erased holds erased => exact inv.settled.erase sound (inv.scattered close) holds erased

end FollowsSettled

theorem followsSettled_of_close {events : List Event} (hhint : hint ≤ 2 ^ 32)
    (legal : Event.Legal hint events) (close : Event.Close hint events) :
    ∀ before, before <+: events → ∃ book : Book L, replay hint before = .ok book ∧
      FollowsSettled hint book (LiveOrders.after before) := by
  apply Run.reaches
  · obtain ⟨index, constructed, represents, _, room⟩ :=
      OrderIndex.Represents.of_new (hhint.trans (by decide))
    have records : index.records = [] := by simpa using represents.records
    refine ⟨⟨PriceLevels.empty, index⟩, ?_, ⟨represents, .of_empty rfl records, room⟩, ?_, ?_⟩
    · rw [new, constructed]
      rfl
    · intro i order at_i busy
      have member := OrderIndex.mem_records_iff.mpr ⟨busy, i, at_i⟩
      rw [records] at member
      cases member
    · exact OrderIndex.length_le_of_new (by decide) hhint constructed
  · intro before event book member reached inv
    rw [LiveOrders.after_snoc]
    exact inv.step (legal.at member) (close.after before ((List.prefix_append _ _).trans member))
      (LiveOrders.after_snoc before event ▸ close.after _ member)

end Book

/-- No deletion of a record that a probe finds has an entry to move: the slot behind the
record is free, and all that the deletion does is to free the slot of the record as well. -/
def Book.NeverShifts (L : Type) [PriceLevels L] (hint : Nat) (events : List Event) : Prop :=
  ∀ before, before <+: events → ∀ book : Book L, replay hint before = .ok book →
    ∀ id i order, book.index.Holds id i order → book.index.FreeAfter i ∧
      book.index.erase id = .ok { book.index with
        slots := book.index.slots.set i OrderIndex.emptyOrder, size := book.index.size - 1 }

/-- While the live ids stay close together, erase never gets to move an entry, and every
variant reconstructs the reference. -/
theorem reconstructs_of_close (v : Variant) (hint : Nat) (hhint : hint ≤ 2 ^ 32)
    (events : List Event) (legal : Event.Legal hint events) (close : Event.Close hint events) :
    Book.NeverShifts v.Levels hint events ∧ Book.Reconstructs v.Levels hint events := by
  have follows := Book.followsSettled_of_close (L := v.Levels) hhint legal close
  constructor
  · intro before member book reached id i order holds
    obtain ⟨same, reached', inv⟩ := follows before member
    cases reached.symm.trans reached'
    have sound := inv.follows.represents.sound
    have after := inv.settled.freeAfter sound.roomy (inv.scattered (close.after before member))
      holds.at_slot holds.busy
    exact ⟨after, sound.erase_eq_of_freeAfter holds after⟩
  · intro before member
    obtain ⟨book, reached, inv⟩ := follows before member
    exact ⟨book, reached, inv.follows.shows⟩

/-- Three orders in sequence, of which the first two are deleted. -/
theorem reconstructs_of_close_sequence :
    Book.NeverShifts Variant.sortedVector.Levels 8
        [⟨1, 41, 10, 100, 1⟩, ⟨1, 42, 20, 200, -1⟩, ⟨1, 43, 5, 100, 1⟩, ⟨3, 41, 10, 100, 1⟩,
          ⟨4, 42, 20, 200, -1⟩] ∧
      Book.Reconstructs Variant.sortedVector.Levels 8
        [⟨1, 41, 10, 100, 1⟩, ⟨1, 42, 20, 200, -1⟩, ⟨1, 43, 5, 100, 1⟩, ⟨3, 41, 10, 100, 1⟩,
          ⟨4, 42, 20, 200, -1⟩] :=
  reconstructs_of_close .sortedVector 8 (by decide) _ (by decide) (by decide)

end OrderBook
