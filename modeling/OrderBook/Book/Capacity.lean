import OrderBook.Book.Outcome
import Mathlib.Data.List.Count

/-!
# How a replay can stop

The index counts its records, and only a new order makes it count one more. Its load factor
assertion holds as long as it counts fewer than half of its slots, which are at least as
many as the hint. So no access out of bounds and no endless probe is ever reached, and the
assertion is not before the stream has brought more new orders than the hint.
-/

namespace OrderBook

open PriceLevels

/-- The new orders of a stream. -/
def Event.addCount (events : List Event) : Nat := events.countP (·.type = 1)

theorem Event.addCount_snoc (events : List Event) (event : Event) :
    addCount (events ++ [event]) = addCount events + if event.type = 1 then 1 else 0 := by
  simp [addCount, List.countP_append, List.countP_singleton]

theorem Event.addCount_mono {before events : List Event} (member : before <+: events) :
    addCount before ≤ addCount events := member.sublist.countP_le

namespace Book

variable {L : Type} [PriceLevels L] {book book' : Book L} {event : Event} {hint : Nat}

theorem Outcome.size_le (outcome : Outcome book event book') :
    book'.index.size ≤ book.index.size + if event.type = 1 then 1 else 0 := by
  cases outcome with
  | ignored _ => exact Nat.le_add_right _ _
  | unknown _ _ => exact Nat.le_add_right _ _
  | added adds stores =>
      rw [if_pos adds]
      exact stores.size.le
  | reduced _ _ _ => exact Nat.le_add_right _ _
  | removed _ _ removes =>
      have := removes.size
      exact Nat.le_add_right_of_le (by simp only; omega)

/-- The index counts no more than the new orders so far and has room for the hint. -/
structure Roomy (hint : Nat) (before : List Event) (book : Book L) : Prop where
  sound : book.index.Sound
  size_le : book.index.size ≤ Event.addCount before
  room : hint * 2 ≤ book.index.slots.length

theorem Roomy.step {before : List Event} (roomy : Roomy hint before book) (event : Event) :
    (∃ book', book.apply event = .ok book' ∧ Roomy hint (before ++ [event]) book') ∨
      book.apply event = .error .assertion ∧ hint < Event.addCount (before ++ [event]) := by
  have size_le := roomy.size_le
  rw [Event.addCount_snoc]
  obtain ⟨book', applied, outcome⟩ | ⟨adds, full, failed⟩ := apply_cases roomy.sound event
  · refine .inl ⟨book', applied, outcome.sound roomy.sound, ?_, outcome.length_eq ▸ roomy.room⟩
    have grown := outcome.size_le
    rw [Event.addCount_snoc]
    omega
  · refine .inr ⟨failed, ?_⟩
    have := roomy.room
    rw [if_pos adds]
    omega

theorem roomy_or_assertion (hhint : hint ≤ 2 ^ 62) (events : List Event) :
    (∃ book : Book L, replay hint events = .ok book ∧ Roomy hint events book) ∨
      (replay hint events : Except Fault (Book L)) = .error .assertion ∧
        hint < Event.addCount events := by
  induction events using List.reverseRecOn with
  | nil =>
      obtain ⟨index, constructed, sound, _, size, room⟩ := OrderIndex.new_eq_ok hhint
      refine .inl ⟨⟨empty, index⟩, ?_, sound, size.le.trans (Nat.zero_le _), room⟩
      rw [replay_nil, new, constructed]
      rfl
  | append_singleton before event ih =>
      obtain ⟨book, reached, roomy⟩ | ⟨stopped, many⟩ := ih
      · rw [replay_snoc reached]
        exact roomy.step event
      · exact .inr ⟨replay_error_mono (List.prefix_append _ _) stopped,
          many.trans_le (Event.addCount_mono (List.prefix_append _ _))⟩

end Book

/-- Whatever the stream, a replay reaches a book with at most as many records as there were
new orders and a slab that is at most half full, or fails the load factor assertion. It does
not fail before it has read more new orders than the hint. -/
theorem replay_faults (v : Variant) (hint : Nat) (hhint : hint ≤ 2 ^ 62) (events : List Event) :
    (∃ book, v.replay hint events = .ok book ∧
        book.index.records.length ≤ book.index.size ∧
        book.index.size ≤ Event.addCount events ∧ book.index.size * 2 ≤ book.index.capacity) ∨
      v.replay hint events = .error .assertion ∧ hint < Event.addCount events := by
  obtain ⟨book, reached, roomy⟩ | failed := Book.roomy_or_assertion (L := v.Levels) hhint events
  · exact .inl ⟨book, reached, roomy.sound.records_le, roomy.size_le, roomy.sound.load⟩
  · exact .inr failed

/-- A stream of negative sizes and unknown ids, with as many new orders as the hint. -/
theorem replay_faults_unruly : ∃ book, Variant.map.replay 2 [⟨3, 9, 0, 0, 0⟩,
    ⟨1, kInvalidPrice, -5, 7, 1⟩, ⟨4, 3, -1, 0, 0⟩, ⟨1, 3, 0, 7, -1⟩] = .ok book ∧
      book.index.records.length ≤ book.index.size ∧ book.index.size ≤ 2 ∧
      book.index.size * 2 ≤ book.index.capacity :=
  (replay_faults .map 2 (by decide) _).resolve_right fun failed => absurd failed.2 (by decide)

end OrderBook
