import OrderBook.Book.Equivalence
import OrderBook.Reference.OrderLadder

/-!
# The levels agree with the stored orders

A book updates its levels and its index in separate steps. What ties them together is
`Conserves`: the ladder is the ladder of the records physically stored in the index,
and each of them has something left. Ids play no part in it, so it also holds when a
stream reuses ids, and it does not matter which records a later probe can find: an
event that finds no record changes neither structure.
-/

namespace OrderBook

open PriceLevels

namespace Book

variable {L : Type} [PriceLevels L] [LawfulLevels L]

/-- The ladder is the ladder of the stored records, and none of them is spent. -/
structure Conserves (book : Book L) : Prop where
  valid : LevelView.Valid book.levels
  positive : AllPositive book.index.records
  ladder : contents book.levels = ladderOf book.index.records

/-- The observable side of `Conserves`. -/
structure Conserved (book : Book L) : Prop where
  quantity_eq : ∀ side price,
    quantityAt book.levels side price = volume book.index.records side price
  present_iff : ∀ side price, Present book.levels side price ↔
    ∃ order ∈ book.index.records, order.side = side ∧ order.price = price
  remaining_pos : ∀ order ∈ book.index.records, 0 < order.remaining
  level_pos : ∀ side rank, rank < depth book.levels side →
    0 < (nth book.levels side rank).quantity

variable {book book' : Book L} {event : Event} {i : Nat} {order : Order} {index : OrderIndex}

namespace Conserves

theorem conserved (conserves : Conserves book) : Conserved book where
  quantity_eq := fun side price => by
    rw [LawfulLevels.quantityAt_eq conserves.valid, conserves.ladder, getD_ladderOf]
  present_iff := fun side price => by
    rw [present_iff conserves.valid, conserves.ladder, ladderOf_isSome]
  remaining_pos := conserves.positive
  level_pos := fun side => by
    rw [forall_rank_iff conserves.valid]
    intro price quantity present
    rw [conserves.ladder] at present
    exact conserves.positive.ladderOf_pos present

theorem of_keeps (keeps : Keeps book.levels book.index.records) : Conserves book :=
  ⟨keeps.valid, keeps.positive, keeps.ladder⟩

theorem keeps (conserves : Conserves book) : Keeps book.levels book.index.records :=
  ⟨conserves.valid, conserves.positive, conserves.ladder⟩

theorem of_empty (levels : book.levels = empty) (records : book.index.records = []) :
    Conserves book := by
  apply of_keeps
  rw [levels, records]
  exact .of_empty

theorem added (conserves : Conserves book) (stores : book.index.Stores event.order index)
    (id_ne : event.id ≠ OrderIndex.kEmpty) (size_pos : 0 < event.size) :
    Conserves ⟨levelAdd book.levels event.side event.price event.size, index⟩ :=
  of_keeps ((conserves.keeps.add event.order size_pos).perm
    (stores.records_of_busy id_ne).symm)

theorem reduced (conserves : Conserves book) (holds : book.index.Holds event.id i order)
    (left : event.size < order.remaining) :
    Conserves ⟨levelSub book.levels order.side order.price event.size,
      book.index.setRemaining i (order.remaining - event.size)⟩ := by
  obtain ⟨rest, before, after⟩ := holds.exists_rest (order.remaining - event.size)
  exact of_keeps (((conserves.keeps.perm before).reduce left).perm after.symm)

theorem removed (conserves : Conserves book) (removes : book.index.Removes order index) :
    Conserves ⟨levelSub book.levels order.side order.price order.remaining, index⟩ :=
  of_keeps (conserves.keeps.perm removes.records.symm).remove

/-- Every event with a usable id and, if it is an order, a positive size. -/
theorem step (conserves : Conserves book) (outcome : Outcome book event book')
    (wellFormed : event.WellFormed) : Conserves book' := by
  cases outcome with
  | ignored _ => exact conserves
  | unknown _ _ => exact conserves
  | added adds stores => exact conserves.added stores wellFormed.id_ne (wellFormed.size_pos adds)
  | reduced _ holds left => exact conserves.reduced holds left
  | removed _ _ removes => exact conserves.removed removes

end Conserves

theorem conserves_replay {hint : Nat} {events : List Event} (hhint : hint ≤ 2 ^ 62)
    (wellFormed : ∀ event ∈ events, event.WellFormed)
    (asserted : (replay hint events : Except Fault (Book L)) ≠ .error .assertion) :
    ∀ before, before <+: events → ∃ book : Book L, replay hint before = .ok book ∧
      book.index.Sound ∧ Conserves book := by
  apply replay_invariant (I := fun _ book => Conserves book) hhint asserted
  · exact fun book _ levels records => .of_empty levels records
  · intro before event book book' member _ conserves outcome
    exact conserves.step outcome (wellFormed event (member.subset (by simp)))

end Book

/-- After every prefix the level at a side and price sums the stored records there, is
present exactly if there are any, and is positive, as each record is. -/
theorem levels_conserved (v : Variant) (hint : Nat) (events : List Event)
    (wellFormed : ∀ event ∈ events, event.WellFormed)
    (asserted : v.replay hint events ≠ .error .assertion) :
    ∀ before, before <+: events →
      (∀ book, v.replay hint before = .ok book → Book.Conserved book) ∧
      (hint ≤ 2 ^ 62 → ∃ book, v.replay hint before = .ok book) := by
  intro before member
  refine ⟨fun book reached => ?_, fun hhint => Book.exists_of_asserted hhint asserted before member⟩
  by_cases hhint : hint ≤ 2 ^ 62
  · obtain ⟨same, reached', _, conserves⟩ :=
      Book.conserves_replay hhint wellFormed asserted before member
    cases reached.symm.trans reached'
    exact conserves.conserved
  · obtain ⟨vacant, levels⟩ := Book.vacant_of_large (lt_of_not_ge hhint) before book reached
    have records : book.index.records = [] := by simp [OrderIndex.records, vacant]
    exact (Book.Conserves.of_empty levels records).conserved

/-- Two orders on one level, the first one reused and over-reduced. -/
theorem levels_conserved_reused :
    ∃ book, Variant.sortedVector.replay 4
      [⟨1, 7, 10, 100, 1⟩, ⟨1, 8, 5, 100, 1⟩, ⟨1, 7, 3, 100, 1⟩, ⟨4, 7, 99, 100, 1⟩] = .ok book ∧
      Book.Conserved book := by
  obtain ⟨conserved, reaches⟩ := levels_conserved .sortedVector 4
    [⟨1, 7, 10, 100, 1⟩, ⟨1, 8, 5, 100, 1⟩, ⟨1, 7, 3, 100, 1⟩, ⟨4, 7, 99, 100, 1⟩]
    (by decide) (by decide) _ List.prefix_rfl
  obtain ⟨book, reached⟩ := reaches (by decide)
  exact ⟨book, reached, conserved book reached⟩

end OrderBook
