import OrderBook.Book.Conservation
import OrderBook.Index.Represents
import OrderBook.Reference.Stream

/-!
# Reconstruction refines the reference book

The reference keeps the map of live orders, and its ladder is the ladder of these
orders. A book reconstructs it when its index stores the live orders and its levels
are conserved. Every event keeps this, with one exception: a message that reduces or
deletes a live order does nothing when the probe does not find the record.

So a run reconstructs the reference exactly as long as each such message meets a
reachable record. The index does not always keep its records reachable, and the run
at the end is one on which a deletion leaves a level behind.
-/

namespace OrderBook

open PriceLevels

/-- The message takes something from a live order. -/
def Event.Takes (event : Event) : Prop := event.type = 3 ∨ event.Reduces ∧ 0 < event.size

instance (event : Event) : Decidable event.Takes := inferInstanceAs (Decidable (_ ∨ _ ∧ _))

/-- A well formed message that adds no id twice and keeps the live orders in the hint. -/
def Event.Admissible (hint : Nat) (live : LiveOrders) (event : Event) : Prop :=
  event.WellFormed ∧ (event.type = 1 → live.lookup event.id = none) ∧
    (live.step event).count ≤ hint

instance (hint : Nat) (live : LiveOrders) (event : Event) :
    Decidable (event.Admissible hint live) :=
  inferInstanceAs (Decidable (_ ∧ _ ∧ _))

def Event.Legal (hint : Nat) (events : List Event) : Prop :=
  Run.Always LiveOrders.step (Event.Admissible hint) ∅ events

instance (hint : Nat) (events : List Event) : Decidable (Event.Legal hint events) :=
  inferInstanceAs (Decidable (Run.Always _ _ _ _))

theorem Event.Legal.at {hint : Nat} {events before : List Event} {event : Event}
    (legal : Event.Legal hint events) (member : before ++ [event] <+: events) :
    event.Admissible hint (LiveOrders.after before) := Run.Always.at legal member

namespace OrderIndex.Represents

variable {index : OrderIndex} {live : LiveOrders} {id : OrderId} {resting : Resting}

/-- Putting a live order back under its id changes nothing. -/
theorem put_same (represents : index.Represents live) (present : live.lookup id = some resting) :
    index.Represents (live.put id resting) where
  sound := represents.sound
  records := represents.records.trans
    (List.Perm.cons_inv (LiveOrders.orders_update present resting)).symm
  size := represents.size.trans (LiveOrders.count_update present resting).symm

theorem remaining_pos (represents : index.Represents live) (positive : AllPositive index.records)
    (present : live.lookup id = some resting) : 0 < resting.remaining :=
  positive (resting.toOrder id) (represents.mem_records.mpr present)

/-- A reduction by nothing leaves the reference as it is. -/
theorem step_of_takes_not {event : Event} (represents : index.Represents live)
    (positive : AllPositive index.records) (wellFormed : event.WellFormed)
    (touches : event.type = 3 ∨ event.Reduces) (takes_not : ¬ event.Takes)
    (present : live.lookup event.id = some resting) : index.Represents (live.step event) := by
  have reduces : event.Reduces := touches.resolve_left fun cancels => takes_not (.inl cancels)
  have size_zero : event.size = 0 := by
    apply le_antisymm _ (wellFormed.size_nonneg reduces)
    exact not_lt.mp fun size_pos => takes_not (.inr ⟨reduces, size_pos⟩)
  have left : event.size < resting.remaining := by
    rw [size_zero]
    exact represents.remaining_pos positive present
  rw [LiveOrders.step_of_reduces reduces, LiveOrders.reduce_of_lt present left, size_zero, sub_zero]
  exact represents.put_same present

end OrderIndex.Represents

namespace Book

variable {L : Type} [PriceLevels L]

/-- One event takes the index along with the live orders, if a message that takes
something from a live order meets a reachable record. -/
theorem Outcome.represents {book book' : Book L} {event : Event} {live : LiveOrders} {hint : Nat}
    (outcome : Outcome book event book') (represents : book.index.Represents live)
    (positive : AllPositive book.index.records) (admissible : event.Admissible hint live)
    (reaches : event.Takes → ∀ resting, live.lookup event.id = some resting →
      book.index.Reachable event.id) : book'.index.Represents (live.step event) := by
  obtain ⟨wellFormed, fresh, _⟩ := admissible
  cases outcome with
  | ignored ignored =>
      rw [LiveOrders.step_of_ignored ignored]
      exact represents
  | unknown touches missing =>
      have not_add : event.type ≠ 1 := by
        obtain cancels | reduces := touches
        · omega
        · exact reduces.type_ne.1
      cases present : live.lookup event.id with
      | none =>
          rw [LiveOrders.step_of_absent present not_add]
          exact represents
      | some resting =>
          -- The message takes nothing, since the record it would take from is not found.
          have takes_not : ¬ event.Takes := by
            intro takes
            obtain ⟨i, holds⟩ := represents.holds_of_reachable present
              (reaches takes resting present)
            cases missing.symm.trans holds.find
          exact represents.step_of_takes_not positive wellFormed touches takes_not present
  | added adds stores =>
      rw [LiveOrders.step_of_add adds]
      exact represents.of_stores stores (fresh adds) wellFormed.id_ne
  | reduced reduces holds left =>
      have present := represents.lookup_of_holds holds
      rw [LiveOrders.step_of_reduces reduces, LiveOrders.reduce_of_lt present left]
      exact represents.setRemaining holds _
  | removed exhausts holds removes =>
      have present := represents.lookup_of_holds holds
      rw [LiveOrders.step_of_exhausts present exhausts, ← holds.id_eq]
      exact represents.of_removes removes (by rw [holds.id_eq]; exact present)

/-- After every prefix every observer answers as the ladder of the live orders does. -/
def Reconstructs (L : Type) [PriceLevels L] (hint : Nat) (events : List Event) : Prop :=
  ∀ before, before <+: events → ∃ book : Book L, replay hint before = .ok book ∧
    Shows book.levels (LiveOrders.after before).orders

/-- Every message that takes something from a live order meets a reachable record. -/
def ReachesLive (L : Type) [PriceLevels L] (hint : Nat) (events : List Event) : Prop :=
  ∀ before event, before ++ [event] <+: events → event.Takes →
    (LiveOrders.after before).lookup event.id ≠ none →
      ∀ book : Book L, replay hint before = .ok book → book.index.Reachable event.id

variable [LawfulLevels L] {hint : Nat} {events : List Event}

/-- The index stores the live orders, the levels are conserved, and the slab has room
for as many orders as the hint says. -/
structure Follows (hint : Nat) (book : Book L) (live : LiveOrders) : Prop where
  represents : book.index.Represents live
  conserves : Conserves book
  room : hint * 2 ≤ book.index.slots.length

namespace Follows

variable {book book' : Book L} {live : LiveOrders} {event : Event}

theorem shows (follows : Follows hint book live) : Shows book.levels live.orders := by
  apply shows_of_contents follows.conserves.valid
  rw [follows.conserves.ladder, ladderOf_perm follows.represents.records]

theorem step (follows : Follows hint book live) (admissible : event.Admissible hint live)
    (reaches : event.Takes → ∀ resting, live.lookup event.id = some resting →
      book.index.Reachable event.id) :
    ∃ book', book.apply event = .ok book' ∧ Follows hint book' (live.step event) := by
  obtain ⟨book', applied, outcome⟩ | ⟨adds, full, _⟩ := apply_cases follows.represents.sound event
  · refine ⟨book', applied, ?_, ?_, ?_⟩
    · exact outcome.represents follows.represents follows.conserves.positive admissible reaches
    · exact follows.conserves.step outcome admissible.1
    · rw [outcome.length_eq]
      exact follows.room
  · -- The live orders fit the hint, so the assertion holds.
    obtain ⟨_, fresh, fits⟩ := admissible
    rw [LiveOrders.step_of_add adds, LiveOrders.count_put_of_fresh (fresh adds)] at fits
    have := follows.represents.size
    have := follows.room
    omega

/-- A message that takes something from a live order changes the reference quantity. -/
theorem quantity_lt (follows : Follows hint book live) (takes : event.Takes) {resting : Resting}
    (present : live.lookup event.id = some resting) :
    volume (live.step event).orders resting.side resting.price <
      volume live.orders resting.side resting.price := by
  have remaining_pos := follows.represents.remaining_pos follows.conserves.positive present
  have here : (resting.toOrder event.id).on resting.side resting.price = true :=
    Order.on_iff.mpr ⟨rfl, rfl⟩
  have before : volume live.orders resting.side resting.price =
      resting.remaining + volume (live.drop event.id).orders resting.side resting.price := by
    rw [← volume_perm (LiveOrders.orders_drop present), volume_cons, if_pos here]
    rfl
  by_cases exhausts : event.Exhausts resting.remaining
  · rw [LiveOrders.step_of_exhausts present exhausts, before]
    exact lt_add_of_pos_left _ remaining_pos
  · obtain ⟨reduces, size_pos⟩ : event.Reduces ∧ 0 < event.size :=
      takes.resolve_left fun cancels => exhausts (.inl cancels)
    have left : event.size < resting.remaining :=
      not_le.mp fun spent => exhausts (.inr ⟨reduces, spent⟩)
    rw [LiveOrders.step_of_reduces reduces, LiveOrders.reduce_of_lt present left,
      LiveOrders.orders_put, volume_cons, if_pos, before]
    · exact add_lt_add_left (sub_lt_self _ size_pos) _
    · exact Order.on_iff.mpr ⟨rfl, rfl⟩

/-- A book whose record is lost to the probe misses what the message takes. -/
theorem levels_of_lost (follows : Follows hint book live) (takes : event.Takes)
    (lost : ¬ book.index.Reachable event.id) (applied : book.apply event = .ok book') :
    book'.levels = book.levels := by
  have unfound : ∀ i order, ¬ book.index.Holds event.id i order := fun i order holds =>
    lost (follows.represents.sound.roomy.reachable_iff.mpr ⟨i, order, holds⟩)
  cases outcome_of_apply follows.represents.sound applied with
  | ignored _ => rfl
  | unknown _ _ => rfl
  | added adds _ =>
      obtain cancels | ⟨reduces, _⟩ := takes
      · exact absurd (adds.symm.trans cancels) (by decide)
      · exact absurd adds reduces.type_ne.1
  | reduced _ holds _ => exact absurd holds (unfound _ _)
  | removed _ holds _ => exact absurd holds (unfound _ _)

end Follows

/-- The run lemma: as long as the messages reach their records, the book follows the
reference. -/
private theorem follows_of_reaches (hhint : hint ≤ 2 ^ 62) (legal : Event.Legal hint events)
    (reaches : ∀ before event, before ++ [event] <+: events → event.Takes →
      (LiveOrders.after before).lookup event.id ≠ none → ∀ book : Book L,
        replay hint before = .ok book → Follows hint book (LiveOrders.after before) →
          book.index.Reachable event.id) :
    ∀ before, before <+: events → ∃ book : Book L, replay hint before = .ok book ∧
      Follows hint book (LiveOrders.after before) := by
  apply Run.reaches
  · obtain ⟨index, constructed, represents, _, room⟩ := OrderIndex.Represents.of_new hhint
    refine ⟨⟨empty, index⟩, ?_, represents, ?_, room⟩
    · rw [new, constructed]
      rfl
    · exact .of_empty rfl (by simpa using represents.records)
  · intro before event book member reached follows
    obtain ⟨book', applied, follows'⟩ := follows.step (legal.at member) (by
      intro takes resting present
      exact reaches before event member takes (by simp [present]) book reached follows)
    rw [LiveOrders.after_snoc]
    exact ⟨book', applied, follows'⟩

end Book

namespace Book

variable {L : Type} [PriceLevels L] [LawfulLevels L] {hint : Nat} {events : List Event}

private theorem reconstructs_iff_of_le (hhint : hint ≤ 2 ^ 62) (legal : Event.Legal hint events) :
    Reconstructs L hint events ↔ ReachesLive L hint events := by
  constructor
  · intro reconstructs
    -- A missed record leaves the level, but the reference takes from it.
    have reaches : ∀ before event, before ++ [event] <+: events → event.Takes →
        (LiveOrders.after before).lookup event.id ≠ none → ∀ book : Book L,
          replay hint before = .ok book → Follows hint book (LiveOrders.after before) →
            book.index.Reachable event.id := by
      intro before event member takes live book reached follows
      obtain ⟨resting, present⟩ := Option.ne_none_iff_exists'.mp live
      by_contra lost
      obtain ⟨book', reached', shows⟩ := reconstructs _ member
      rw [replay_snoc reached] at reached'
      have unchanged := follows.levels_of_lost takes lost reached'
      have less := follows.quantity_lt takes present
      rw [← follows.shows.quantity_eq, ← LiveOrders.after_snoc, ← shows.quantity_eq, unchanged]
        at less
      exact lt_irrefl _ less
    intro before event member takes live book reached
    obtain ⟨same, reached', follows⟩ := follows_of_reaches hhint legal reaches before
      ((List.prefix_append _ _).trans member)
    cases reached.symm.trans reached'
    exact reaches before event member takes live book reached follows
  · intro reaches before member
    obtain ⟨book, reached, follows⟩ := follows_of_reaches hhint legal
      (fun before event member takes live book reached _ =>
        reaches before event member takes live book reached) before member
    exact ⟨book, reached, follows.shows⟩

/-- A hint that overflows leaves an index that cannot be used at all. -/
private theorem reconstructs_iff_of_large (large : 2 ^ 62 < hint) :
    Reconstructs L hint events ↔ hint ≤ 2 ^ 63 ∧ ∀ event ∈ events, event.Ignored := by
  constructor
  · intro reconstructs
    obtain ⟨start, constructed, _⟩ := reconstructs [] List.nil_prefix
    rw [replay_nil] at constructed
    obtain ⟨index, constructed, _⟩ := Run.of_bind_eq_ok constructed
    refine ⟨(OrderIndex.exists_new_iff hint).mp ⟨index, constructed⟩, fun event member => ?_⟩
    obtain ⟨before, later, rfl⟩ := List.append_of_mem member
    obtain ⟨book, reached, _⟩ := reconstructs before (List.prefix_append _ _)
    obtain ⟨book', reached', _⟩ := reconstructs (before ++ [event]) ⟨later, by simp⟩
    rw [replay_snoc reached] at reached'
    exact (apply_of_no_slots (vacant_of_large large before book reached).1 reached').1
  · rintro ⟨bound, ignored⟩
    obtain ⟨index, constructed⟩ := (OrderIndex.exists_new_iff hint).mpr bound
    have unchanged : ∀ before, before <+: events →
        (replay hint before : Except Fault (Book L)) = .ok ⟨empty, index⟩ ∧
          LiveOrders.after before = ∅ := by
      apply Run.prefix_induction
      · refine ⟨?_, rfl⟩
        rw [replay_nil, new, constructed]
        rfl
      · rintro before event member ⟨reached, nothing⟩
        have event_ignored := ignored event (member.subset (by simp))
        rw [replay_snoc reached, apply_of_ignored event_ignored, LiveOrders.after_snoc, nothing,
          LiveOrders.step_of_ignored event_ignored]
        exact ⟨rfl, rfl⟩
    intro before member
    obtain ⟨reached, nothing⟩ := unchanged before member
    refine ⟨_, reached, ?_⟩
    rw [nothing]
    exact shows_of_contents LawfulLevels.valid_empty contents_empty

end Book

/-- Exactly when a variant reconstructs the reference over a legal stream. -/
theorem reconstructs_iff (v : Variant) (hint : Nat) (events : List Event)
    (legal : Event.Legal hint events) :
    Book.Reconstructs v.Levels hint events ↔
      hint ≤ 2 ^ 62 ∧ Book.ReachesLive v.Levels hint events ∨
        2 ^ 62 < hint ∧ hint ≤ 2 ^ 63 ∧ ∀ event ∈ events, event.Ignored := by
  obtain hhint | large := le_or_gt hint (2 ^ 62)
  · rw [Book.reconstructs_iff_of_le hhint legal]
    simp only [hhint, not_lt.mpr hhint, true_and, false_and, or_false]
  · rw [Book.reconstructs_iff_of_large large]
    simp only [large, not_le.mpr large, true_and, false_and, false_or]

/-- Ids 1 and 9 share a home, and deleting the first one empties it. -/
def strandedOrder : List Event :=
  [⟨1, 1, 10, 100, 1⟩, ⟨1, 9, 20, 200, -1⟩, ⟨3, 1, 10, 100, 1⟩, ⟨3, 9, 20, 200, -1⟩]

theorem not_reconstructs_strandedOrder : Event.Legal 2 strandedOrder ∧
    ¬ Book.Reconstructs Variant.linear.Levels 2 strandedOrder := by
  refine ⟨by decide, fun reconstructs => ?_⟩
  obtain ⟨book, reached, shows⟩ := reconstructs strandedOrder List.prefix_rfl
  have left : ((Book.replay 2 strandedOrder : Except Fault (Book Variant.linear.Levels)).map
      fun book => quantityAt book.levels .sell 200) = .ok 20 := by decide
  rw [reached, Except.map, shows.quantity_eq] at left
  revert left
  decide

/-- The two orders in the other order: id 9 is deleted from behind id 1. -/
theorem reconstructs_unstranded : Book.Reconstructs Variant.branchless.Levels 2
    [⟨1, 1, 10, 100, 1⟩, ⟨1, 9, 20, 200, -1⟩, ⟨4, 9, 5, 200, -1⟩, ⟨3, 9, 15, 200, -1⟩,
      ⟨3, 1, 10, 100, 1⟩] :=
  (reconstructs_iff .branchless 2 _ (by decide)).mpr
    (.inl ⟨by decide, Run.forall_snoc_iff.mpr (by decide)⟩)

end OrderBook
