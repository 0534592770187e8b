import OrderBook.Book.Reconstruction
import OrderBook.Levels.Growth

/-!
# The error of a book is one-sided

When a probe misses the record of a live order, the book keeps what the message takes
from it. Nothing in a book can go wrong the other way. `Backed` is the invariant: every
live order has a record with its id on its level, with at least as much remaining. A
message touches records of its own id only, and takes from the record that it finds no
more than from the live order, so it keeps the invariant whichever record it finds.

Together with the conservation of levels this bounds the reference by the book at every
price, whatever the stream does to the index and whether or not it reuses ids.
-/

namespace OrderBook

open PriceLevels
open scoped List

/-- A stored order that stands for a live one, with at least as much remaining. -/
structure Order.Backs (order : Order) (id : OrderId) (resting : Resting) : Prop where
  id_eq : order.id = id
  side_eq : order.side = resting.side
  price_eq : order.price = resting.price
  remaining_le : resting.remaining ≤ order.remaining

namespace Order.Backs

variable {order : Order} {id : OrderId} {resting : Resting}

theorem lower (backs : order.Backs id resting) {remaining : Quantity}
    (le : remaining ≤ order.remaining) : order.Backs id { resting with remaining } :=
  ⟨backs.id_eq, backs.side_eq, backs.price_eq, le⟩

end Order.Backs

/-- Every live order is backed by one of these records. -/
def Backed (records : List Order) (live : LiveOrders) : Prop :=
  ∀ id resting, live.lookup id = some resting → ∃ order ∈ records, order.Backs id resting

namespace Backed

variable {records records' rest : List Order} {live : LiveOrders} {order : Order} {event : Event}

theorem perm (backed : Backed records live) (same : records ~ records') :
    Backed records' live := by
  intro id resting present
  obtain ⟨order, member, backs⟩ := backed id resting present
  exact ⟨order, same.mem_iff.mp member, backs⟩

theorem add (backed : Backed records live) (adds : event.type = 1) :
    Backed (event.order :: records) (live.step event) := by
  intro id resting present
  rw [LiveOrders.step_of_add adds, LiveOrders.put] at present
  by_cases here : id = event.id
  · subst here
    rw [AList.lookup_insert] at present
    cases present
    exact ⟨event.order, List.mem_cons_self, rfl, rfl, rfl, le_rfl⟩
  · rw [AList.lookup_insert_ne here] at present
    obtain ⟨order, member, backs⟩ := backed id resting present
    exact ⟨order, List.mem_cons_of_mem _ member, backs⟩

/-- A message that finds no record takes from the live orders only. -/
theorem unknown (backed : Backed records live) (not_add : event.type ≠ 1)
    (wellFormed : event.WellFormed) : Backed records (live.step event) := by
  intro id resting present
  obtain ⟨before, _⟩ | ⟨_, reduces, before, held, _, rfl⟩ := LiveOrders.lookup_step not_add present
  · exact backed id resting before
  · obtain ⟨order, member, backs⟩ := backed id before held
    have taken : before.remaining - event.size ≤ before.remaining :=
      sub_le_self _ (wellFormed.size_nonneg reduces)
    exact ⟨order, member, backs.lower (taken.trans backs.remaining_le)⟩

/-- A message that finds a record, live or stale, and leaves what remains of it. -/
theorem reduced (backed : Backed (order :: rest) live) (id_eq : order.id = event.id)
    (reduces : event.Reduces) (wellFormed : event.WellFormed) :
    Backed ({ order with remaining := order.remaining - event.size } :: rest)
      (live.step event) := by
  have size_nonneg := wellFormed.size_nonneg reduces
  intro id resting present
  obtain ⟨held, elsewhere⟩ | ⟨rfl, _, before, held, _, rfl⟩ :=
    LiveOrders.lookup_step reduces.type_ne.1 present
  · obtain ⟨found, member, backs⟩ := backed id resting held
    obtain rfl | member := List.mem_cons.mp member
    · exact absurd reduces (elsewhere (backs.id_eq.symm.trans id_eq)).2.2
    · exact ⟨found, List.mem_cons_of_mem _ member, backs⟩
  · obtain ⟨found, member, backs⟩ := backed event.id before held
    obtain rfl | member := List.mem_cons.mp member
    · exact ⟨_, List.mem_cons_self, backs.id_eq, backs.side_eq, backs.price_eq,
        sub_le_sub_right backs.remaining_le _⟩
    · have taken : before.remaining - event.size ≤ before.remaining := sub_le_self _ size_nonneg
      exact ⟨found, List.mem_cons_of_mem _ member,
        backs.lower (taken.trans backs.remaining_le)⟩

/-- A message that finds a record and exhausts it. A live order that it does not exhaust
has more remaining and so another record. -/
theorem removed (backed : Backed (order :: rest) live) (id_eq : order.id = event.id)
    (exhausts : event.Exhausts order.remaining) (wellFormed : event.WellFormed) :
    Backed rest (live.step event) := by
  have touches : event.type ≠ 1 ∧ ¬ event.Ignored := by
    obtain cancels | ⟨reduces, _⟩ := exhausts
    · exact ⟨by omega, fun ignored => ignored.2.1 cancels⟩
    · exact ⟨reduces.type_ne.1, fun ignored => ignored.2.2 reduces⟩
  intro id resting present
  obtain ⟨held, elsewhere⟩ | ⟨rfl, reduces, before, held, left, rfl⟩ :=
    LiveOrders.lookup_step touches.1 present
  · obtain ⟨found, member, backs⟩ := backed id resting held
    obtain rfl | member := List.mem_cons.mp member
    · exact absurd (elsewhere (backs.id_eq.symm.trans id_eq)) touches.2
    · exact ⟨found, member, backs⟩
  · obtain ⟨found, member, backs⟩ := backed event.id before held
    have spent : order.remaining ≤ event.size :=
      (exhausts.resolve_left fun cancels => reduces.type_ne.2 cancels).2
    obtain rfl | member := List.mem_cons.mp member
    · exact absurd (left.trans_le backs.remaining_le) (not_lt.mpr spent)
    · have taken : before.remaining - event.size ≤ before.remaining :=
        sub_le_self _ (wellFormed.size_nonneg reduces)
      exact ⟨found, member, backs.lower (taken.trans backs.remaining_le)⟩

/-- Orders with different ids that are backed by records have no more on a level. -/
theorem volume_le {orders : List Order} (distinct : (orders.map Order.id).Nodup)
    (positive : AllPositive records)
    (backed : ∀ order ∈ orders, ∃ record ∈ records, record.Backs order.id order.resting)
    (side : Side) (price : Price) : volume orders side price ≤ volume records side price := by
  induction orders generalizing records with
  | nil => exact positive.volume_nonneg side price
  | cons order orders ih =>
      rw [List.map_cons, List.nodup_cons] at distinct
      obtain ⟨record, member, backs⟩ := backed order List.mem_cons_self
      have split := List.perm_cons_erase member
      have rest_positive := (List.forall_mem_cons.mp (positive.perm split)).2
      have rest_backed : ∀ other ∈ orders, ∃ found ∈ records.erase record,
          found.Backs other.id other.resting := by
        intro other other_member
        obtain ⟨found, found_member, found_backs⟩ :=
          backed other (List.mem_cons_of_mem _ other_member)
        refine ⟨found, (List.mem_erase_of_ne ?_).mpr found_member, found_backs⟩
        rintro rfl
        apply distinct.1
        rw [← backs.id_eq, found_backs.id_eq]
        exact List.mem_map_of_mem other_member
      have same_level : record.on side price = order.on side price := by
        rw [Order.on, Order.on, backs.side_eq, backs.price_eq]
        rfl
      have rest_le := ih distinct.2 rest_positive rest_backed
      rw [volume_perm split, volume_cons, volume_cons, same_level]
      split
      · exact add_le_add backs.remaining_le rest_le
      · exact add_le_add_right rest_le 0

end Backed

/-- No observer of the container shows less than the ladder of the orders does. -/
structure Overstates {L : Type} [PriceLevels L] (l : L) (orders : List Order) : Prop where
  quantity_le : ∀ side price, volume orders side price ≤ quantityAt l side price
  present : ∀ order ∈ orders, Present l order.side order.price
  depth_le : ∀ side, (levelsOf orders side).length ≤ depth l side
  not_better : ∀ order ∈ orders, ¬ order.side.Better order.price (best l order.side).price

namespace Book

variable {L : Type} [PriceLevels L] [LawfulLevels L] {book book' : Book L} {event : Event}
variable {live : LiveOrders}

omit [LawfulLevels L] in
theorem Outcome.backed (outcome : Outcome book event book') (wellFormed : event.WellFormed)
    (backed : Backed book.index.records live) :
    Backed book'.index.records (live.step event) := by
  cases outcome with
  | ignored ignored =>
      rw [LiveOrders.step_of_ignored ignored]
      exact backed
  | unknown touches missing =>
      refine backed.unknown ?_ wellFormed
      obtain cancels | reduces := touches
      · omega
      · exact reduces.type_ne.1
  | added adds stores =>
      exact (backed.add adds).perm (stores.records_of_busy wellFormed.id_ne).symm
  | reduced reduces holds left =>
      obtain ⟨rest, before, after⟩ := holds.exists_rest (_ - event.size)
      exact ((backed.perm before).reduced holds.id_eq reduces wellFormed).perm after.symm
  | removed exhausts holds removes =>
      exact (backed.perm removes.records.symm).removed holds.id_eq exhausts wellFormed

theorem Conserves.overstates (conserves : Conserves book)
    (backed : Backed book.index.records live) : Overstates book.levels live.orders := by
  have backed_orders : ∀ order ∈ live.orders, ∃ record ∈ book.index.records,
      record.Backs order.id order.resting := fun order member =>
    backed _ _ (LiveOrders.mem_orders.mp member)
  have present : ∀ order ∈ live.orders, Present book.levels order.side order.price := by
    intro order member
    obtain ⟨record, stored, backs⟩ := backed_orders order member
    exact (conserves.conserved.present_iff _ _).mpr ⟨record, stored, backs.side_eq, backs.price_eq⟩
  refine ⟨fun side price => ?_, present, fun side => ?_, fun order member => ?_⟩
  · rw [conserves.conserved.quantity_eq]
    exact Backed.volume_le live.nodup_ids conserves.positive backed_orders side price
  · have among : (levelsOf live.orders side).map Level.price ⊆
        (LevelView.levels book.levels side).map Level.price := by
      intro price member
      obtain ⟨level, listed, rfl⟩ := List.mem_map.mp member
      have some_order : (ladderOf live.orders side level.price).isSome = true := by
        rw [mem_levelsOf.mp listed]
        rfl
      obtain ⟨order, live_member, rfl, same⟩ := ladderOf_isSome.mp some_order
      rw [mem_prices_iff conserves.valid, ← present_iff conserves.valid, ← same]
      exact present order live_member
    have no_repeat := SortedList.Sorted.nodup_keys (levelsOf_sorted live.orders side)
    have shorter := (no_repeat.subperm among).length_le
    rw [depth_eq]
    simpa using shorter
  · exact not_better_best conserves.valid (present order member)

theorem overstates_of_replay {hint : Nat} {events : List Event} (hhint : hint ≤ 2 ^ 62)
    (wellFormed : ∀ event ∈ events, event.WellFormed)
    (asserted : (replay hint events : Except Fault (Book L)) ≠ .error .assertion) :
    ∀ before, before <+: events → ∃ book : Book L, replay hint before = .ok book ∧
      Overstates book.levels (LiveOrders.after before).orders := by
  have reaches : ∀ before, before <+: events → ∃ book : Book L, replay hint before = .ok book ∧
      book.index.Sound ∧ Conserves book ∧
        Backed book.index.records (LiveOrders.after before) := by
    refine replay_invariant hhint asserted
      (fun book _ levels records => ⟨.of_empty levels records, by simp [Backed]⟩) ?_
    rintro before event book book' member _ ⟨conserves, backed⟩ outcome
    have usable := wellFormed event (member.subset (by simp))
    rw [LiveOrders.after_snoc]
    exact ⟨conserves.step outcome usable, outcome.backed usable backed⟩
  intro before member
  obtain ⟨book, reached, _, conserves, backed⟩ := reaches before member
  exact ⟨book, reached, conserves.overstates backed⟩

end Book

/-- Whatever the index loses, no variant ever shows less than the live orders amount to:
not at any price, not in the number of levels and not at the best price. -/
theorem book_overstates (v : Variant) (hint : Nat) (hhint : hint ≤ 2 ^ 62) (events : List Event)
    (wellFormed : ∀ event ∈ events, event.WellFormed)
    (asserted : v.replay hint events ≠ .error .assertion) :
    ∀ before, before <+: events → ∃ book, v.replay hint before = .ok book ∧
      Overstates book.levels (LiveOrders.after before).orders :=
  Book.overstates_of_replay hhint wellFormed asserted

/-- The stream that strands an order, and an id used again. -/
theorem book_overstates_stranded : ∃ book,
    Variant.linear.replay 2 (strandedOrder ++ [⟨1, 9, 5, 150, -1⟩]) = .ok book ∧
      Overstates book.levels (LiveOrders.after (strandedOrder ++ [⟨1, 9, 5, 150, -1⟩])).orders :=
  book_overstates .linear 2 (by decide) _ (by decide) (by decide) _ List.prefix_rfl

end OrderBook
