import OrderBook.Book.Outcome

/-!
# The four books cannot be told apart

Two books over lawful containers are similar when they have the same index and
containers with the same ladder. Each call keeps similar books similar or stops both
at the same fault, since the fault can only come from the index that they share. So
the runs of two books over one stream correspond, whatever the stream.

A similar book is also similar to itself, which is how the representation invariant
of a single container is read off the same simulation.
-/

namespace OrderBook

open PriceLevels Run

namespace Book

variable {L M : Type} [PriceLevels L] [LawfulLevels L] [PriceLevels M] [LawfulLevels M]

structure Similar (book : Book L) (other : Book M) : Prop where
  index : book.index = other.index
  levels : Alike book.levels other.levels

variable {book : Book L} {other : Book M}

theorem Similar.add (similar : Similar book other) (id : OrderId) (side : Side) (price : Price)
    (qty : Quantity) :
    Corresponds Similar (book.add id side price qty) (other.add id side price qty) := by
  obtain ⟨levels, index⟩ := book
  obtain ⟨others, _⟩ := other
  obtain ⟨rfl, alike⟩ := similar
  exact .of_eq _ fun _ => ⟨rfl, alike.levelAdd side price qty⟩

theorem Similar.cancel (similar : Similar book other) (id : OrderId) :
    Corresponds Similar (book.cancel id) (other.cancel id) := by
  obtain ⟨levels, index⟩ := book
  obtain ⟨others, _⟩ := other
  obtain ⟨rfl, alike⟩ := similar
  refine .of_eq _ fun found => ?_
  cases found with
  | none => exact ⟨rfl, alike⟩
  | some i =>
      refine .of_eq _ fun order => .of_eq _ fun _ => ?_
      exact ⟨rfl, alike.levelSub order.side order.price order.remaining⟩

theorem Similar.reduce (similar : Similar book other) (id : OrderId) (delta : Quantity) :
    Corresponds Similar (book.reduce id delta) (other.reduce id delta) := by
  obtain ⟨levels, index⟩ := book
  obtain ⟨others, _⟩ := other
  obtain ⟨rfl, alike⟩ := similar
  refine .of_eq _ fun found => ?_
  cases found with
  | none => exact ⟨rfl, alike⟩
  | some i =>
      refine .of_eq _ fun order => .of_eq _ fun written => ?_
      have lower := alike.levelSub order.side order.price
        (if delta < order.remaining then delta else order.remaining)
      split
      · exact .of_eq _ fun _ => ⟨rfl, lower⟩
      · exact ⟨rfl, lower⟩

theorem Similar.apply (similar : Similar book other) (event : Event) :
    Corresponds Similar (book.apply event) (other.apply event) := by
  obtain adds | cancels | reduces | ignored := event.kinds
  · rw [apply_of_add adds, apply_of_add adds]
    exact similar.add _ _ _ _
  · rw [apply_of_cancel cancels, apply_of_cancel cancels]
    exact similar.cancel _
  · rw [apply_of_reduces reduces, apply_of_reduces reduces]
    exact similar.reduce _ _
  · rw [apply_of_ignored ignored, apply_of_ignored ignored]
    exact similar

theorem replay_corresponds (hint : Nat) (events : List Event) :
    Corresponds Similar (replay hint events : Except Fault (Book L))
      (replay hint events : Except Fault (Book M)) := by
  refine Corresponds.bind (R := Similar) ?_ fun book other similar => ?_
  · exact .of_eq _ fun _ => ⟨rfl, .of_empty⟩
  · exact .foldlM (fun _ _ event similar => similar.apply event) events similar

/-- The containers of every reached book are valid. -/
theorem valid_of_replay {hint : Nat} {events : List Event}
    (reached : replay hint events = .ok book) : LevelView.Valid book.levels := by
  obtain ⟨other, reached', similar⟩ := (replay_corresponds (M := L) hint events).ok_right reached
  exact similar.levels.left

omit [LawfulLevels L] in
/-- A stream on which the assertion holds reaches a book after every prefix. -/
theorem exists_of_asserted {hint : Nat} {events : List Event} (hhint : hint ≤ 2 ^ 62)
    (asserted : (replay hint events : Except Fault (Book L)) ≠ .error .assertion) :
    ∀ before, before <+: events → ∃ book : Book L, replay hint before = .ok book := by
  intro before member
  obtain ⟨book, reached, _⟩ := replay_invariant (I := fun _ _ => True) hhint asserted
    (fun _ _ _ _ => trivial) (fun _ _ _ _ _ _ _ _ => trivial) before member
  exact ⟨book, reached⟩

end Book

/-- Variants of the book, run over the same stream from the same hint, show the same
after every prefix. -/
theorem variants_agree (v w : Variant) (hint : Nat) (events : List Event)
    (asserted : v.replay hint events ≠ .error .assertion) :
    ∀ before, before <+: events →
      Corresponds (fun book other => SameView book.levels other.levels)
        (v.replay hint before) (w.replay hint before) ∧
      (hint ≤ 2 ^ 62 → ∃ book, v.replay hint before = .ok book) := by
  intro before member
  constructor
  · exact (Book.replay_corresponds hint before).mono fun _ _ similar => similar.levels.sameView
  · intro hhint
    exact Book.exists_of_asserted hhint asserted before member

/-- A run with an ignored message, a reused id and a negative size. -/
theorem variants_agree_mixed :
    Corresponds (fun book other => SameView book.levels other.levels)
      (Variant.map.replay 2
        [⟨1, 7, 10, 100, 1⟩, ⟨1, 7, -3, 100, 1⟩, ⟨5, 7, 1, 1, 1⟩, ⟨4, 7, 2, 0, 0⟩])
      (Variant.branchless.replay 2
        [⟨1, 7, 10, 100, 1⟩, ⟨1, 7, -3, 100, 1⟩, ⟨5, 7, 1, 1, 1⟩, ⟨4, 7, 2, 0, 0⟩]) :=
  (variants_agree .map .branchless 2 _ (by decide) _ List.prefix_rfl).1

/-- Bids ascend and asks descend towards the back, where the best price is. -/
def VectorLevels.Ordered {locate : Locate} (levels : VectorLevels locate) : Prop :=
  levels.bids.Pairwise (fun a b => a.price < b.price) ∧
    levels.asks.Pairwise (fun a b => a.price > b.price)

/-- The storage invariant of the vector variants. -/
def Variant.Ordered : (v : Variant) → v.Levels → Prop
  | map, _ => True
  | linear, levels => VectorLevels.Ordered levels
  | sortedVector, levels => VectorLevels.Ordered levels
  | branchless, levels => VectorLevels.Ordered levels

theorem VectorLevels.ordered_of_valid {locate : Locate} {levels : VectorLevels locate}
    (valid : LevelView.Valid levels) : levels.Ordered := ⟨valid .buy, valid .sell⟩

theorem Variant.ordered_of_valid (v : Variant) {levels : v.Levels}
    (valid : LevelView.Valid levels) : v.Ordered levels := by
  cases v with
  | map => trivial
  | linear => exact VectorLevels.ordered_of_valid valid
  | sortedVector => exact VectorLevels.ordered_of_valid valid
  | branchless => exact VectorLevels.ordered_of_valid valid

/-- After every prefix of a stream the vectors are ordered and the observers of each
side agree with one another. -/
theorem observers_consistent (v : Variant) (hint : Nat) (events : List Event)
    (asserted : v.replay hint events ≠ .error .assertion) :
    ∀ before, before <+: events →
      (∀ book, v.replay hint before = .ok book →
        v.Ordered book.levels ∧ Consistent book.levels) ∧
      (hint ≤ 2 ^ 62 → ∃ book, v.replay hint before = .ok book) := by
  intro before member
  constructor
  · intro book reached
    have valid := Book.valid_of_replay reached
    exact ⟨v.ordered_of_valid valid, consistent_of_valid valid⟩
  · intro hhint
    exact Book.exists_of_asserted hhint asserted before member

theorem observers_consistent_mixed :
    ∃ book, Variant.linear.replay 3 [⟨1, 7, 0, kInvalidPrice, 1⟩, ⟨1, 8, 5, 9, -1⟩] = .ok book ∧
      Variant.linear.Ordered book.levels ∧ Consistent book.levels := by
  obtain ⟨observed, reaches⟩ := observers_consistent .linear 3
    [⟨1, 7, 0, kInvalidPrice, 1⟩, ⟨1, 8, 5, 9, -1⟩] (by decide) _ List.prefix_rfl
  obtain ⟨book, reached⟩ := reaches (by decide)
  exact ⟨book, reached, observed book reached⟩

end OrderBook
