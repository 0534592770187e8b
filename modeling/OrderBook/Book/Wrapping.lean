import OrderBook.Book.Posted
import OrderBook.Levels.Wrapping

/-!
# The books on 64 bit quantities

`Book` computes with numbers of any size. Here are its operations with each sum and
difference as an `int64_t` keeps it: those of `level_add` and `level_sub`, and the one that
`reduce` stores in the order. The index is the same, and so are the ways to fail.

The two runs are equal for as long as the numbers that the exact one lists for its messages
are 64 bit integers. For well formed messages they are as long as the posted sizes sum to one.
-/

namespace OrderBook

open PriceLevels Word

namespace Book

variable {L : Type} [PriceLevels L] [WrappingLevels L]

open WrappingLevels

def addWrapping (book : Book L) (id : OrderId) (side : Side) (price : Price) (qty : Quantity) :
    Except Fault (Book L) := do
  let index ← book.index.insert ⟨id, price, qty, side⟩
  return { levels := levelAddWrapping book.levels side price qty, index }

def cancelWrapping (book : Book L) (id : OrderId) : Except Fault (Book L) := do
  match ← book.index.find id with
  | none => return book
  | some i =>
      let order ← book.index.deref i
      let levels := levelSubWrapping book.levels order.side order.price order.remaining
      let index ← book.index.erase id
      return { levels, index }

def reduceWrapping (book : Book L) (id : OrderId) (delta : Quantity) :
    Except Fault (Book L) := do
  match ← book.index.find id with
  | none => return book
  | some i =>
      let order ← book.index.deref i
      let applied := if delta < order.remaining then delta else order.remaining
      let levels := levelSubWrapping book.levels order.side order.price applied
      let index := book.index.setRemaining i (wrap (order.remaining - applied))
      let order ← index.deref i
      if order.remaining ≤ 0 then
        let index ← index.erase id
        return { levels, index }
      else return { levels, index }

def applyWrapping (book : Book L) (event : Event) : Except Fault (Book L) :=
  match event.type with
  | 1 => book.addWrapping event.id event.side event.price event.size
  | 2 => book.reduceWrapping event.id event.size
  | 3 => book.cancelWrapping event.id
  | 4 => book.reduceWrapping event.id event.size
  | _ => return book

def replayWrapping (orderCapacityHint : Nat) (events : List Event) : Except Fault (Book L) := do
  let book ← new orderCapacityHint
  events.foldlM applyWrapping book

variable {book book' : Book L} {event : Event} {id : OrderId}

theorem applyWrapping_of_add (adds : event.type = 1) : book.applyWrapping event =
    book.addWrapping event.id event.side event.price event.size := by
  simp only [applyWrapping, adds]

theorem applyWrapping_of_cancel (cancels : event.type = 3) :
    book.applyWrapping event = book.cancelWrapping event.id := by
  simp only [applyWrapping, cancels]

theorem applyWrapping_of_reduces (reduces : event.Reduces) :
    book.applyWrapping event = book.reduceWrapping event.id event.size := by
  obtain two | four := reduces
  · simp only [applyWrapping, two]
  · simp only [applyWrapping, four]

theorem applyWrapping_of_ignored (ignored : event.Ignored) :
    book.applyWrapping event = .ok book := by
  obtain ⟨not_one, not_three, not_reduces⟩ := ignored
  simp only [applyWrapping]
  split
  · exact absurd ‹_› not_one
  · exact absurd (.inl ‹_›) not_reduces
  · exact absurd ‹_› not_three
  · exact absurd (.inr ‹_›) not_reduces
  · rfl

/-- A call that touches an order leaves the levels alone or subtracts from one of them. -/
theorem levels_of_cancelWrapping (result : book.cancelWrapping id = .ok book') :
    book'.levels = book.levels ∨
      ∃ side price amount, book'.levels = levelSubWrapping book.levels side price amount := by
  obtain ⟨found, _, result⟩ := Run.of_bind_eq_ok result
  cases found with
  | none =>
      cases result
      exact .inl rfl
  | some i =>
      obtain ⟨order, _, result⟩ := Run.of_bind_eq_ok result
      obtain ⟨index, _, result⟩ := Run.of_bind_eq_ok result
      cases result
      exact .inr ⟨_, _, _, rfl⟩

theorem levels_of_reduceWrapping {delta : Quantity}
    (result : book.reduceWrapping id delta = .ok book') : book'.levels = book.levels ∨
      ∃ side price amount, book'.levels = levelSubWrapping book.levels side price amount := by
  obtain ⟨found, _, result⟩ := Run.of_bind_eq_ok result
  cases found with
  | none =>
      cases result
      exact .inl rfl
  | some i =>
      obtain ⟨order, _, result⟩ := Run.of_bind_eq_ok result
      obtain ⟨written, _, result⟩ := Run.of_bind_eq_ok result
      split at result
      · obtain ⟨index, _, result⟩ := Run.of_bind_eq_ok result
        cases result
        exact .inr ⟨_, _, _, rfl⟩
      · cases result
        exact .inr ⟨_, _, _, rfl⟩

/-- What a message does to the levels: only a new order adds to one, and what is there
afterwards is the sum as it is kept. -/
theorem levels_of_applyWrapping (fits : Fits event.size)
    (applied : book.applyWrapping event = .ok book') :
    (event.type = 1 ∧ book'.levels = levelAdd book.levels event.side event.price
        (wrap (quantityAt book.levels event.side event.price + event.size) -
          quantityAt book.levels event.side event.price)) ∨
      event.type ≠ 1 ∧ (book'.levels = book.levels ∨
        ∃ side price amount, book'.levels = levelSubWrapping book.levels side price amount) := by
  obtain adds | cancels | reduces | ignored := event.kinds
  · rw [applyWrapping_of_add adds] at applied
    obtain ⟨index, _, result⟩ := Run.of_bind_eq_ok applied
    cases result
    exact .inl ⟨adds, levelAddWrapping_eq _ _ _ fits⟩
  · rw [applyWrapping_of_cancel cancels] at applied
    exact .inr ⟨by omega, levels_of_cancelWrapping applied⟩
  · rw [applyWrapping_of_reduces reduces] at applied
    exact .inr ⟨reduces.type_ne.1, levels_of_reduceWrapping applied⟩
  · rw [applyWrapping_of_ignored ignored] at applied
    cases applied
    exact .inr ⟨ignored.1, .inl rfl⟩

theorem cancelWrapping_sound (sound : book.index.Sound) (id : OrderId) :
    ∃ book', book.cancelWrapping id = .ok book' ∧ book'.index.Sound := by
  obtain missing | ⟨i, order, holds⟩ := sound.roomy.find_cases id
  · refine ⟨book, ?_, sound⟩
    simp only [cancelWrapping, missing, Run.ok_bind]
    rfl
  · obtain ⟨index, erased, removes⟩ := sound.erase_spec holds
    simp only [cancelWrapping, holds.find, Run.ok_bind, holds.deref, erased]
    exact ⟨⟨_, index⟩, rfl, removes.sound⟩

theorem reduceWrapping_sound (sound : book.index.Sound) (id : OrderId) (delta : Quantity) :
    ∃ book', book.reduceWrapping id delta = .ok book' ∧ book'.index.Sound := by
  obtain missing | ⟨i, order, holds⟩ := sound.roomy.find_cases id
  · refine ⟨book, ?_, sound⟩
    simp only [reduceWrapping, missing, Run.ok_bind]
    rfl
  · simp only [reduceWrapping, holds.find, Run.ok_bind, holds.deref]
    generalize wrap (order.remaining - _) = left
    have holds' := holds.setRemaining left
    have sound' := sound.setRemaining holds left
    rw [holds'.deref, Run.ok_bind]
    split
    · obtain ⟨index, erased, removes⟩ := sound'.erase_spec holds'
      rw [erased, Run.ok_bind]
      exact ⟨⟨_, index⟩, rfl, removes.sound⟩
    · exact ⟨_, rfl, sound'⟩

/-- The step rule: on a sound index a message is applied, or is a new order that fails the
load factor assertion. -/
theorem applyWrapping_cases (sound : book.index.Sound) (event : Event) :
    (∃ book', book.applyWrapping event = .ok book' ∧ book'.index.Sound) ∨
      book.applyWrapping event = .error .assertion := by
  obtain adds | cancels | reduces | ignored := event.kinds
  · rw [applyWrapping_of_add adds]
    by_cases room : book.index.size * 2 < book.index.slots.length
    · obtain ⟨index, inserted, stores⟩ := sound.insert_spec room event.order
      refine .inl ⟨⟨levelAddWrapping book.levels event.side event.price event.size, index⟩, ?_,
        stores.sound⟩
      change (book.index.insert event.order >>= _) = _
      rw [inserted]
      rfl
    · refine .inr ?_
      rw [addWrapping, OrderIndex.insert_eq_assertion room]
      rfl
  · rw [applyWrapping_of_cancel cancels]
    exact .inl (cancelWrapping_sound sound event.id)
  · rw [applyWrapping_of_reduces reduces]
    exact .inl (reduceWrapping_sound sound event.id event.size)
  · exact .inl ⟨book, applyWrapping_of_ignored ignored, sound⟩

/-- An index without slots cannot be used. -/
theorem applyWrapping_of_no_slots (vacant : book.index.slots = [])
    (applied : book.applyWrapping event = .ok book') : event.Ignored ∧ book' = book := by
  have probe := OrderIndex.find_of_no_slots vacant
  obtain adds | cancels | reduces | ignored := event.kinds
  · rw [applyWrapping_of_add adds, addWrapping,
      OrderIndex.insert_eq_assertion (by simp [vacant])] at applied
    cases applied
  · rw [applyWrapping_of_cancel cancels, cancelWrapping, probe] at applied
    cases applied
  · rw [applyWrapping_of_reduces reduces, reduceWrapping, probe] at applied
    cases applied
  · rw [applyWrapping_of_ignored ignored] at applied
    cases applied
    exact ⟨ignored, rfl⟩

section Replay

variable {hint : Nat} {events before : List Event}

theorem replayWrapping_snoc (reached : replayWrapping hint before = .ok book) (event : Event) :
    replayWrapping hint (before ++ [event]) = book.applyWrapping event :=
  Run.foldlM_snoc_of_ok reached event

/-- On a stream on which the assertion holds, a book is reached after every prefix. -/
theorem exists_wrapping_of_asserted (hhint : hint ≤ 2 ^ 62)
    (asserted : (replayWrapping hint events : Except Fault (Book L)) ≠ .error .assertion) :
    ∀ before, before <+: events →
      ∃ book : Book L, replayWrapping hint before = .ok book ∧ book.index.Sound := by
  apply Run.reaches_unless asserted
  · obtain ⟨book, constructed, _, sound, _⟩ := new_eq_ok hhint (L := L)
    exact ⟨book, constructed, sound⟩
  · intro before event book _ _ sound
    exact applyWrapping_cases sound event

/-- On such a stream a new order is always added. -/
theorem exists_wrapping_of_add
    (asserted : (replayWrapping hint events : Except Fault (Book L)) ≠ .error .assertion)
    (member : before ++ [event] <+: events) (reached : replayWrapping hint before = .ok book)
    (adds : event.type = 1) : ∃ book', book.applyWrapping event = .ok book' := by
  by_cases hhint : hint ≤ 2 ^ 62
  · obtain ⟨book', reached', _⟩ := exists_wrapping_of_asserted hhint asserted _ member
    exact ⟨book', by rw [← replayWrapping_snoc reached, reached']⟩
  · have vacant : book.index.slots = [] := by
      refine Run.reached_induction (P := fun _ (book : Book L) => book.index.slots = [])
        (fun book constructed => ?_) (fun _ _ _ _ _ vacant applied => ?_) before book reached
      · obtain ⟨index, made, result⟩ := Run.of_bind_eq_ok constructed
        cases result
        exact OrderIndex.new_of_large (lt_of_not_ge hhint) made
      · obtain ⟨_, rfl⟩ := applyWrapping_of_no_slots vacant applied
        exact vacant
    have failed : book.applyWrapping event = .error .assertion := by
      rw [applyWrapping_of_add adds, addWrapping,
        OrderIndex.insert_eq_assertion (by simp [vacant])]
      rfl
    rw [← replayWrapping_snoc reached] at failed
    exact absurd (Run.foldlM_error_mono member failed) asserted

end Replay

section Exact

variable {i : Nat} {order : Order}

/-- The listed numbers are all that is kept: while they are 64 bit integers, so that
nothing is cut off, the calls are the exact ones. -/
theorem addWrapping_eq {side : Side} {price : Price} {qty : Quantity} (fits_qty : Fits qty)
    (fits : Fits (quantityAt book.levels side price + qty)) :
    book.addWrapping id side price qty = book.add id side price qty := by
  rw [addWrapping, levelAddWrapping_eq _ _ _ fits_qty, wrap_of_fits fits, add_sub_cancel_left]
  rfl

theorem levelSubWrapping_of_fits {l : L} {side : Side} {price : Price} {amount : Quantity}
    (fits : Fits (quantityAt l side price - amount)) :
    levelSubWrapping l side price amount = levelSub l side price amount := by
  rw [levelSubWrapping_eq, wrap_of_fits fits, sub_sub_cancel]

theorem cancelWrapping_eq (sound : book.index.Sound) {values : List Quantity}
    (listed : book.cancelArithmetic id = .ok values) (fits : ∀ value ∈ values, Fits value) :
    book.cancelWrapping id = book.cancel id := by
  obtain missing | ⟨i, order, holds⟩ := sound.roomy.find_cases id
  · simp only [cancelWrapping, cancel, missing, Run.ok_bind]
  · rw [cancelArithmetic_of_holds holds, Except.ok.injEq] at listed
    subst listed
    simp only [List.mem_singleton, forall_eq] at fits
    simp only [cancelWrapping, cancel, holds.find, holds.deref, Run.ok_bind,
      levelSubWrapping_of_fits fits]

theorem reduceWrapping_eq (sound : book.index.Sound) {delta : Quantity} {values : List Quantity}
    (listed : book.reduceArithmetic id delta = .ok values) (fits : ∀ value ∈ values, Fits value) :
    book.reduceWrapping id delta = book.reduce id delta := by
  obtain missing | ⟨i, order, holds⟩ := sound.roomy.find_cases id
  · simp only [reduceWrapping, reduce, missing, Run.ok_bind]
  · rw [reduceArithmetic_of_holds holds, Except.ok.injEq] at listed
    subst listed
    simp only [List.forall_mem_cons, List.not_mem_nil, false_imp_iff, implies_true, and_true]
      at fits
    simp only [reduceWrapping, reduce, holds.find, holds.deref, Run.ok_bind,
      levelSubWrapping_of_fits fits.1, wrap_of_fits fits.2]

theorem applyWrapping_eq (sound : book.index.Sound) (fits_size : event.type = 1 → Fits event.size)
    {values : List Quantity} (listed : book.arithmetic event = .ok values)
    (fits : ∀ value ∈ values, Fits value) : book.applyWrapping event = book.apply event := by
  obtain adds | cancels | reduces | ignored := event.kinds
  · rw [arithmetic_of_add adds, Except.ok.injEq] at listed
    subst listed
    rw [applyWrapping_of_add adds, apply_of_add adds]
    exact addWrapping_eq (fits_size adds) (fits _ (List.mem_singleton_self _))
  · rw [arithmetic_of_cancel cancels] at listed
    rw [applyWrapping_of_cancel cancels, apply_of_cancel cancels]
    exact cancelWrapping_eq sound listed fits
  · rw [arithmetic_of_reduces reduces] at listed
    rw [applyWrapping_of_reduces reduces, apply_of_reduces reduces]
    exact reduceWrapping_eq sound listed fits
  · rw [applyWrapping_of_ignored ignored, apply_of_ignored ignored]

end Exact

end Book

instance : (v : Variant) → WrappingLevels v.Levels
  | .map => inferInstanceAs (WrappingLevels MapLevels)
  | .linear => inferInstanceAs (WrappingLevels (VectorLevels BookLinear.locate))
  | .sortedVector => inferInstanceAs (WrappingLevels (VectorLevels BookSortedVector.locate))
  | .branchless => inferInstanceAs (WrappingLevels (VectorLevels BookBranchless.locate))

def Variant.replayWrapping (v : Variant) (orderCapacityHint : Nat) (events : List Event) :
    Except Fault (Book v.Levels) := Book.replayWrapping orderCapacityHint events

/-- While the posted sizes of a stream sum to a 64 bit integer, replaying it on 64 bit
quantities is replaying it. -/
theorem replayWrapping_eq (v : Variant) (hint : Nat) (hhint : hint ≤ 2 ^ 62)
    (events : List Event) (wellFormed : ∀ event ∈ events, event.WellFormed)
    (small : Fits ((Event.posted events).map Order.remaining).sum)
    (asserted : v.replay hint events ≠ .error .assertion) :
    ∀ before, before <+: events → v.replayWrapping hint before = v.replay hint before := by
  apply Run.prefix_induction
  · exact (Run.foldlM_nil _ _).trans (Book.replay_nil hint).symm
  · intro before event member ih
    obtain ⟨book, reached, sound, posted⟩ := Book.posted_of_replay hhint wellFormed asserted before
      ((List.prefix_append before [event]).trans member)
    have usable := wellFormed event (member.subset (by simp))
    obtain ⟨values, listed, within⟩ := posted.arithmetic_within sound usable
    have fits : ∀ value ∈ values, Fits value := by
      intro value member'
      obtain ⟨nonneg, le⟩ := within value member'
      exact fits_of_nonneg nonneg
        ((le.trans (Event.sum_posted_mono wellFormed member)).trans_lt small.2)
    -- The size of a new order is at most the sum that it leads to.
    have fits_size : event.type = 1 → Fits event.size := by
      intro adds
      rw [Book.arithmetic_of_add adds, Except.ok.injEq] at listed
      subst listed
      have sum := (fits _ (List.mem_singleton_self _)).2
      have pos := usable.size_pos adds
      exact fits_of_nonneg pos.le
        ((le_add_of_nonneg_left (posted.quantity_nonneg _ _)).trans_lt sum)
    have wrapped := Book.replayWrapping_snoc (ih.trans reached) event
    exact wrapped.trans ((Book.applyWrapping_eq sound fits_size listed fits).trans
      (Book.replay_snoc reached event).symm)

/-- Two orders that together are worth the largest 64 bit integer, on one level. -/
theorem replayWrapping_eq_largest : Variant.sortedVector.replayWrapping 4
      [⟨1, 7, 9223372036854775800, 100, 1⟩, ⟨1, 8, 7, 100, 1⟩, ⟨4, 7, 99, 100, 1⟩] =
    Variant.sortedVector.replay 4
      [⟨1, 7, 9223372036854775800, 100, 1⟩, ⟨1, 8, 7, 100, 1⟩, ⟨4, 7, 99, 100, 1⟩] :=
  replayWrapping_eq .sortedVector 4 (by decide) _ (by decide) (by decide) (by decide) _
    List.prefix_rfl

end OrderBook
