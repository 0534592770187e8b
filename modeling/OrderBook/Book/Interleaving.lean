import OrderBook.Book.Close

/-!
# Interleavings of the messages of different orders

What becomes of an order depends on the messages that name its id and on nothing else. So the
live orders after a stream are determined by the sequences of messages that each id gets,
whichever way these are interleaved and wherever messages that do nothing stand between.

A book has one slab for all orders, and where a record lies depends on every message so far.
As long as the book reconstructs the reference this does not show: two interleavings leave
the same records and no observer tells the books apart.
-/

namespace OrderBook

open PriceLevels
open scoped List

/-- The messages of a stream that can change the order under an id. -/
def Event.touching (id : OrderId) (events : List Event) : List Event :=
  events.filter fun event => event.id = id ∧ ¬ event.Ignored

namespace LiveOrders

variable {live other : LiveOrders} {event : Event} {id : OrderId}

theorem lookup_step_of_ne (elsewhere : ¬ (event.id = id ∧ ¬ event.Ignored)) :
    (live.step event).lookup id = live.lookup id := by
  by_cases ignored : event.Ignored
  · rw [step_of_ignored ignored]
  have apart : id ≠ event.id := fun same => elsewhere ⟨same.symm, ignored⟩
  obtain adds | cancels | reduces | ignores := event.kinds
  · rw [step_of_add adds, put, AList.lookup_insert_ne apart]
  · rw [step_of_cancel cancels, drop, AList.lookup_erase_ne apart]
  · rw [step_of_reduces reduces]
    cases present : live.lookup event.id with
    | none => rw [reduce_of_absent present]
    | some resting =>
        obtain left | spent := lt_or_ge event.size resting.remaining
        · rw [reduce_of_lt present left, put, AList.lookup_insert_ne apart]
        · rw [reduce_of_le present spent, drop, AList.lookup_erase_ne apart]
  · exact absurd ignores ignored

theorem lookup_step_congr (same : live.lookup id = other.lookup id) :
    (live.step event).lookup id = (other.step event).lookup id := by
  by_cases here : event.id = id
  · subst here
    obtain adds | cancels | reduces | ignored := event.kinds
    · rw [step_of_add adds, step_of_add adds, put, put, AList.lookup_insert, AList.lookup_insert]
    · rw [step_of_cancel cancels, step_of_cancel cancels, drop, drop, AList.lookup_erase,
        AList.lookup_erase]
    · rw [step_of_reduces reduces, step_of_reduces reduces]
      cases present : live.lookup event.id with
      | none =>
          rw [present] at same
          rw [reduce_of_absent present, reduce_of_absent same.symm, present, ← same]
      | some resting =>
          rw [present] at same
          obtain left | spent := lt_or_ge event.size resting.remaining
          · rw [reduce_of_lt present left, reduce_of_lt same.symm left, put, put,
              AList.lookup_insert, AList.lookup_insert]
          · rw [reduce_of_le present spent, reduce_of_le same.symm spent, drop, drop,
              AList.lookup_erase, AList.lookup_erase]
    · rw [step_of_ignored ignored, step_of_ignored ignored, same]
  · have elsewhere : ¬ (event.id = id ∧ ¬ event.Ignored) := fun touches => here touches.1
    rw [lookup_step_of_ne elsewhere, lookup_step_of_ne elsewhere, same]

/-- An order is determined by the messages that touch it. -/
theorem lookup_after (events : List Event) (id : OrderId) :
    (after events).lookup id = (after (Event.touching id events)).lookup id := by
  have elsewhere : ∀ (live : LiveOrders) (event : Event), ¬ (event.id = id ∧ ¬ event.Ignored) →
      (live.step event).lookup id = live.lookup id := fun _ _ => lookup_step_of_ne
  have through : ∀ (live other : LiveOrders) event, live.lookup id = other.lookup id →
      (live.step event).lookup id = (other.step event).lookup id :=
    fun _ _ _ same => lookup_step_congr same
  exact Run.view_foldl_filter elsewhere through events rfl

theorem orders_perm (same : ∀ id, live.lookup id = other.lookup id) :
    live.orders ~ other.orders := by
  rw [List.perm_ext_iff_of_nodup live.nodup_ids.of_map other.nodup_ids.of_map]
  intro order
  rw [mem_orders, mem_orders, same]

/-- Streams in which each id gets the same messages leave the same live orders. -/
theorem orders_after_perm {events others : List Event}
    (same : ∀ id, Event.touching id events = Event.touching id others) :
    (after events).orders ~ (after others).orders := by
  apply orders_perm
  intro id
  rw [lookup_after events, lookup_after others, same]

end LiveOrders

/-- Two interleavings of the messages of the same orders leave books with the same records
that no observer tells apart, as long as the live ids of each stay close together. -/
theorem interleavings_agree (v w : Variant) (hint hint' : Nat) (hhint : hint ≤ 2 ^ 32)
    (hhint' : hint' ≤ 2 ^ 32) (events others : List Event) (legal : Event.Legal hint events)
    (legal' : Event.Legal hint' others) (close : Event.Close hint events)
    (close' : Event.Close hint' others)
    (same : ∀ id, Event.touching id events = Event.touching id others) :
    ∃ book other, v.replay hint events = .ok book ∧ w.replay hint' others = .ok other ∧
      book.index.records ~ other.index.records ∧ SameView book.levels other.levels := by
  obtain ⟨book, reached, inv⟩ := Book.followsSettled_of_close (L := v.Levels) hhint legal close
    events List.prefix_rfl
  obtain ⟨other, reached', inv'⟩ := Book.followsSettled_of_close (L := w.Levels) hhint' legal'
    close' others List.prefix_rfl
  have records : book.index.records ~ other.index.records :=
    (inv.follows.represents.records.trans (LiveOrders.orders_after_perm same)).trans
      inv'.follows.represents.records.symm
  have alike : Alike book.levels other.levels :=
    ⟨inv.follows.conserves.valid, inv'.follows.conserves.valid, by
      rw [inv.follows.conserves.ladder, inv'.follows.conserves.ladder, ladderOf_perm records]⟩
  exact ⟨book, other, reached, reached', records, alike.sameView⟩

/-- Two orders, one after the other and with their messages mixed. -/
theorem interleavings_agree_mixed : ∃ book other,
    Variant.map.replay 8 [⟨1, 41, 10, 100, 1⟩, ⟨4, 41, 4, 100, 1⟩, ⟨1, 42, 7, 100, 1⟩,
      ⟨2, 42, 3, 100, 1⟩] = .ok book ∧
    Variant.branchless.replay 16 [⟨1, 42, 7, 100, 1⟩, ⟨1, 41, 10, 100, 1⟩, ⟨5, 41, 9, 90, 1⟩,
      ⟨2, 42, 3, 100, 1⟩, ⟨4, 41, 4, 100, 1⟩] = .ok other ∧
    book.index.records ~ other.index.records ∧ SameView book.levels other.levels := by
  refine interleavings_agree .map .branchless 8 16 (by decide) (by decide) _ _ (by decide)
    (by decide) (by decide) (by decide) fun id => ?_
  by_cases first : (41 : Int) = id
  · subst first
    decide
  by_cases second : (42 : Int) = id
  · subst second
    decide
  · simp [Event.touching, first, second]

end OrderBook
