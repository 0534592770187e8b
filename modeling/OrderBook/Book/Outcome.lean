import OrderBook.Book.Basic

/-!
# What one event does

`Outcome` lists everything that an event can do to a book whose index is sound. An
event is ignored, names an id that the probe does not find, rests a new order, takes
part of a found order, or removes a found order with all that remains of it. The only
fault is the load factor assertion of an insertion.

Every invariant of whole runs is proved from these five cases. In particular the
index stays sound, so a run whose assertion holds reaches a book after every prefix.
-/

namespace OrderBook

open PriceLevels

namespace Book

variable {L : Type} [PriceLevels L]

inductive Outcome (book : Book L) (event : Event) : Book L → Prop
  | ignored (ignored : event.Ignored) : Outcome book event book
  | unknown (touches : event.type = 3 ∨ event.Reduces)
      (missing : book.index.find event.id = .ok none) : Outcome book event book
  | added {index : OrderIndex} (adds : event.type = 1)
      (stores : book.index.Stores event.order index) :
      Outcome book event ⟨levelAdd book.levels event.side event.price event.size, index⟩
  | reduced {i : Nat} {order : Order} (reduces : event.Reduces)
      (holds : book.index.Holds event.id i order) (left : event.size < order.remaining) :
      Outcome book event ⟨levelSub book.levels order.side order.price event.size,
        book.index.setRemaining i (order.remaining - event.size)⟩
  | removed {i : Nat} {order : Order} {index : OrderIndex}
      (exhausts : event.Exhausts order.remaining)
      (holds : book.index.Holds event.id i order) (removes : book.index.Removes order index) :
      Outcome book event ⟨levelSub book.levels order.side order.price order.remaining, index⟩

variable {book : Book L} {event : Event} {id : OrderId} {i : Nat} {order : Order}

theorem cancel_of_missing (missing : book.index.find id = .ok none) :
    book.cancel id = .ok book := by
  simp only [cancel, missing, Run.ok_bind]
  rfl

theorem reduce_of_missing (missing : book.index.find id = .ok none) (delta : Quantity) :
    book.reduce id delta = .ok book := by
  simp only [reduce, missing, Run.ok_bind]
  rfl

theorem cancel_of_erase (holds : book.index.Holds id i order) {index : OrderIndex}
    (erased : book.index.erase id = .ok index) : book.cancel id =
      .ok ⟨levelSub book.levels order.side order.price order.remaining, index⟩ := by
  simp only [cancel, holds.find, Run.ok_bind, holds.deref, erased]
  rfl

theorem cancel_of_holds (sound : book.index.Sound) (holds : book.index.Holds id i order) :
    ∃ index, book.cancel id =
        .ok ⟨levelSub book.levels order.side order.price order.remaining, index⟩ ∧
      book.index.Removes order index := by
  obtain ⟨index, erased, removes⟩ := sound.erase_spec holds
  exact ⟨index, cancel_of_erase holds erased, removes⟩

theorem reduce_of_lt (holds : book.index.Holds id i order) {delta : Quantity}
    (left : delta < order.remaining) : book.reduce id delta =
      .ok ⟨levelSub book.levels order.side order.price delta,
        book.index.setRemaining i (order.remaining - delta)⟩ := by
  have written := (holds.setRemaining (order.remaining - delta)).deref
  have some_left : ¬ order.remaining - delta ≤ 0 := not_le.mpr (sub_pos.mpr left)
  simp only [reduce, holds.find, Run.ok_bind, holds.deref, left, if_true, written, some_left,
    if_false]
  rfl

/-- Taking at least all that remains of an order is deleting it. -/
theorem reduce_eq_cancel (sound : book.index.Sound) (holds : book.index.Holds id i order)
    {delta : Quantity} (spent : order.remaining ≤ delta) :
    book.reduce id delta = book.cancel id := by
  have written := (holds.setRemaining (order.remaining - order.remaining)).deref
  have none_left : order.remaining - order.remaining ≤ 0 := (sub_self _).le
  simp only [reduce, cancel, holds.find, Run.ok_bind, holds.deref, not_lt.mpr spent, if_false,
    written, none_left, if_true, holds.erase_setRemaining sound]

theorem reduce_cases (sound : book.index.Sound) (reduces : event.Reduces) :
    ∃ book', book.reduce event.id event.size = .ok book' ∧ Outcome book event book' := by
  obtain missing | ⟨i, order, holds⟩ := sound.roomy.find_cases event.id
  · exact ⟨book, reduce_of_missing missing _, .unknown (.inr reduces) missing⟩
  · by_cases left : event.size < order.remaining
    · exact ⟨_, reduce_of_lt holds left, .reduced reduces holds left⟩
    · have spent : order.remaining ≤ event.size := not_lt.mp left
      obtain ⟨index, result, removes⟩ := cancel_of_holds sound holds
      exact ⟨_, (reduce_eq_cancel sound holds spent).trans result,
        .removed (.inr ⟨reduces, spent⟩) holds removes⟩

/-- Every event on a sound index has an outcome, or fails the load factor assertion. -/
theorem apply_cases (sound : book.index.Sound) (event : Event) :
    (∃ book', book.apply event = .ok book' ∧ Outcome book event book') ∨
      event.type = 1 ∧ ¬ book.index.size * 2 < book.index.slots.length ∧
        book.apply event = .error .assertion := by
  obtain adds | cancels | reduces | ignored := event.kinds
  · rw [apply_of_add adds]
    by_cases room : book.index.size * 2 < book.index.slots.length
    · obtain ⟨index, inserted, stores⟩ := sound.insert_spec room event.order
      have result : book.add event.id event.side event.price event.size =
          .ok ⟨levelAdd book.levels event.side event.price event.size, index⟩ := by
        change (book.index.insert event.order >>= _) = _
        rw [inserted]
        rfl
      exact .inl ⟨_, result, .added adds stores⟩
    · refine .inr ⟨adds, room, ?_⟩
      rw [add, OrderIndex.insert_eq_assertion room]
      rfl
  · rw [apply_of_cancel cancels]
    obtain missing | ⟨i, order, holds⟩ := sound.roomy.find_cases event.id
    · exact .inl ⟨book, cancel_of_missing missing, .unknown (.inl cancels) missing⟩
    · obtain ⟨index, result, removes⟩ := cancel_of_holds sound holds
      exact .inl ⟨_, result, .removed (.inl cancels) holds removes⟩
  · rw [apply_of_reduces reduces]
    exact .inl (reduce_cases sound reduces)
  · exact .inl ⟨book, apply_of_ignored ignored, .ignored ignored⟩

theorem outcome_of_apply (sound : book.index.Sound) {book' : Book L}
    (applied : book.apply event = .ok book') : Outcome book event book' := by
  obtain ⟨same, result, outcome⟩ | ⟨_, _, failed⟩ := apply_cases sound event
  · rw [applied, Except.ok.injEq] at result
    rwa [result]
  · rw [applied] at failed
    cases failed

theorem Outcome.sound {book' : Book L} (outcome : Outcome book event book')
    (sound : book.index.Sound) : book'.index.Sound := by
  cases outcome with
  | ignored _ => exact sound
  | unknown _ _ => exact sound
  | added _ stores => exact stores.sound
  | reduced _ holds _ => exact sound.setRemaining holds _
  | removed _ _ removes => exact removes.sound

/-- The slab never changes its length. -/
theorem Outcome.length_eq {book' : Book L} (outcome : Outcome book event book') :
    book'.index.slots.length = book.index.slots.length := by
  cases outcome with
  | ignored _ => rfl
  | unknown _ _ => rfl
  | added _ stores => exact stores.length
  | reduced _ _ _ => simp [OrderIndex.setRemaining]
  | removed _ _ removes => exact removes.length

/-- What one event can do to the index. -/
inductive IndexStep (index : OrderIndex) (event : Event) (index' : OrderIndex) : Prop
  | same (same : index' = index)
  | inserted (adds : event.type = 1) (inserted : index.insert event.order = .ok index')
  | written {i : Nat} {order : Order} (remaining : Quantity)
      (holds : index.Holds event.id i order) (written : index' = index.setRemaining i remaining)
  | erased {i : Nat} {order : Order} (holds : index.Holds event.id i order)
      (erased : index.erase event.id = .ok index')

private theorem indexStep_of_cancel (sound : book.index.Sound) {book' : Book L}
    (result : book.cancel event.id = .ok book') : IndexStep book.index event book'.index := by
  obtain missing | ⟨i, order, holds⟩ := sound.roomy.find_cases event.id
  · rw [cancel_of_missing missing] at result
    cases result
    exact .same rfl
  · obtain ⟨index, erased, _⟩ := sound.erase_spec holds
    rw [cancel_of_erase holds erased] at result
    cases result
    exact .erased holds erased

theorem indexStep_of_apply (sound : book.index.Sound) {book' : Book L}
    (applied : book.apply event = .ok book') : IndexStep book.index event book'.index := by
  obtain adds | cancels | reduces | ignored := event.kinds
  · rw [apply_of_add adds] at applied
    obtain ⟨index, inserted, result⟩ := Run.of_bind_eq_ok applied
    cases result
    exact .inserted adds inserted
  · rw [apply_of_cancel cancels] at applied
    exact indexStep_of_cancel sound applied
  · rw [apply_of_reduces reduces] at applied
    obtain missing | ⟨i, order, holds⟩ := sound.roomy.find_cases event.id
    · rw [reduce_of_missing missing] at applied
      cases applied
      exact .same rfl
    · by_cases left : event.size < order.remaining
      · rw [reduce_of_lt holds left] at applied
        cases applied
        exact .written _ holds rfl
      · rw [reduce_eq_cancel sound holds (not_lt.mp left)] at applied
        exact indexStep_of_cancel sound applied
  · rw [apply_of_ignored ignored] at applied
    cases applied
    exact .same rfl

theorem levels_of_reduce {book' : Book L} {delta : Quantity}
    (result : book.reduce id delta = .ok book') : book'.levels = book.levels ∨
      ∃ side price amount, book'.levels = levelSub book.levels side price amount := by
  obtain ⟨found, _, result⟩ := Run.of_bind_eq_ok result
  cases found with
  | none =>
      cases result
      exact .inl rfl
  | some i =>
      obtain ⟨order, _, result⟩ := Run.of_bind_eq_ok result
      obtain ⟨written, _, result⟩ := Run.of_bind_eq_ok result
      split at result
      · obtain ⟨index, _, result⟩ := Run.of_bind_eq_ok result
        cases result
        exact .inr ⟨_, _, _, rfl⟩
      · cases result
        exact .inr ⟨_, _, _, rfl⟩

theorem levels_of_cancel {book' : Book L} (result : book.cancel id = .ok book') :
    book'.levels = book.levels ∨
      ∃ side price amount, book'.levels = levelSub book.levels side price amount := by
  obtain ⟨found, _, result⟩ := Run.of_bind_eq_ok result
  cases found with
  | none =>
      cases result
      exact .inl rfl
  | some i =>
      obtain ⟨order, _, result⟩ := Run.of_bind_eq_ok result
      obtain ⟨index, _, result⟩ := Run.of_bind_eq_ok result
      cases result
      exact .inr ⟨_, _, _, rfl⟩

/-- What one event can do to the levels, whatever the index is like: only a new order
adds to a level. -/
theorem levels_of_apply {book' : Book L} (applied : book.apply event = .ok book') :
    (event.type = 1 ∧ book'.levels = levelAdd book.levels event.side event.price event.size) ∨
      event.type ≠ 1 ∧ (book'.levels = book.levels ∨
        ∃ side price amount, book'.levels = levelSub book.levels side price amount) := by
  obtain adds | cancels | reduces | ignored := event.kinds
  · rw [apply_of_add adds] at applied
    obtain ⟨index, _, result⟩ := Run.of_bind_eq_ok applied
    cases result
    exact .inl ⟨adds, rfl⟩
  · rw [apply_of_cancel cancels] at applied
    exact .inr ⟨by omega, levels_of_cancel applied⟩
  · rw [apply_of_reduces reduces] at applied
    exact .inr ⟨reduces.type_ne.1, levels_of_reduce applied⟩
  · rw [apply_of_ignored ignored] at applied
    cases applied
    exact .inr ⟨ignored.1, .inl rfl⟩

/-- An index without slots, which is what an overflowing hint gives, cannot be used. -/
theorem apply_of_no_slots (vacant : book.index.slots = []) {book' : Book L}
    (applied : book.apply event = .ok book') : event.Ignored ∧ book' = book := by
  have probe := OrderIndex.find_of_no_slots vacant
  obtain adds | cancels | reduces | ignored := event.kinds
  · rw [apply_of_add adds, add, OrderIndex.insert_eq_assertion (by simp [vacant])] at applied
    cases applied
  · rw [apply_of_cancel cancels, cancel, probe] at applied
    cases applied
  · rw [apply_of_reduces reduces, reduce, probe] at applied
    cases applied
  · rw [apply_of_ignored ignored] at applied
    cases applied
    exact ⟨ignored, rfl⟩

section Replay

variable {hint : Nat} {events : List Event}

theorem replay_nil (hint : Nat) : (replay hint [] : Except Fault (Book L)) = new hint :=
  Run.foldlM_nil _ _

theorem replay_snoc {before : List Event} (reached : replay hint before = .ok book)
    (event : Event) : replay hint (before ++ [event]) = book.apply event :=
  Run.foldlM_snoc_of_ok reached event

/-- The rule for the books that a stream reaches, whatever their index is like. -/
theorem reached_induction {P : List Event → Book L → Prop}
    (fresh : ∀ index, OrderIndex.new hint = .ok index → P [] ⟨empty, index⟩)
    (applied : ∀ before event (start book : Book L), replay hint before = .ok start →
      P before start → start.apply event = .ok book → P (before ++ [event]) book) :
    ∀ before (book : Book L), replay hint before = .ok book → P before book := by
  refine Run.reached_induction (fun book constructed => ?_) applied
  obtain ⟨index, made, result⟩ := Run.of_bind_eq_ok constructed
  cases result
  exact fresh index made

theorem replay_error_mono {before : List Event} {fault : Fault} (member : before <+: events)
    (stopped : (replay hint before : Except Fault (Book L)) = .error fault) :
    (replay hint events : Except Fault (Book L)) = .error fault :=
  Run.foldlM_error_mono member stopped

theorem new_eq_ok (hhint : hint ≤ 2 ^ 62) : ∃ book : Book L, new hint = .ok book ∧
    book.levels = empty ∧ book.index.Sound ∧ book.index.records = [] := by
  obtain ⟨index, constructed, sound, records, _, _⟩ := OrderIndex.new_eq_ok hhint
  refine ⟨⟨empty, index⟩, ?_, rfl, sound, records⟩
  rw [new, constructed]
  rfl

/-- The run rule: what the new book has and every outcome keeps holds after every
prefix of a stream on which the assertion of the index holds. -/
theorem replay_invariant {I : List Event → Book L → Prop} (hhint : hint ≤ 2 ^ 62)
    (asserted : (replay hint events : Except Fault (Book L)) ≠ .error .assertion)
    (initial : ∀ book : Book L, new hint = .ok book → book.levels = empty →
      book.index.records = [] → I [] book)
    (preserved : ∀ before event (book book' : Book L), before ++ [event] <+: events →
      book.index.Sound → I before book → Outcome book event book' → I (before ++ [event]) book') :
    ∀ before, before <+: events → ∃ book : Book L, replay hint before = .ok book ∧
      book.index.Sound ∧ I before book := by
  apply Run.reaches_unless asserted
  · obtain ⟨book, constructed, levels, sound, records⟩ := new_eq_ok hhint (L := L)
    exact ⟨book, constructed, sound, initial book constructed levels records⟩
  · rintro before event book member _ ⟨sound, inv⟩
    obtain ⟨book', applied, outcome⟩ | ⟨_, _, failed⟩ := apply_cases sound event
    · exact .inl ⟨book', applied, outcome.sound sound,
        preserved before event book book' member sound inv outcome⟩
    · exact .inr failed

/-- With a hint past `2 ^ 62` no slot is ever there, so nothing can ever rest. -/
theorem vacant_of_large (large : 2 ^ 62 < hint) : ∀ before (book : Book L),
    replay hint before = .ok book → book.index.slots = [] ∧ book.levels = empty := by
  apply reached_induction
  · intro index constructed
    exact ⟨OrderIndex.new_of_large large constructed, rfl⟩
  · intro before event start book _ vacant applied
    obtain ⟨_, rfl⟩ := apply_of_no_slots vacant.1 applied
    exact vacant

end Replay

end Book

end OrderBook
