import OrderBook.Index.Basic
import OrderBook.Levels.Locate

/-!
# The lookups against each other

On a sorted side the three lookups return the same `Located`, because a price has one
place there. `Located.IsPlace` spells that place out in terms of the vector.

The halving search of `BookBranchless` does not need a strict order.
`branchlessLowerBoundBy` is its source with every access checked at run time, over either
of the two ways in which it turns a comparison into an advance. On any run of levels that
is ordered, duplicates allowed, both return the lower bound that `locate` works with.
-/

namespace OrderBook

open SortedList

/-- The position of the level with the price, or else the one position at which a
level with that price can be inserted in order. -/
structure Located.IsPlace {book : List Level} (located : Located book) (ascending : Bool)
    (price : Price) : Prop where
  found_iff : located.found = true ↔ ∃ level ∈ book, level.price = price
  position : located.found = true →
    ∀ i : Nat, book[i]?.map Level.price = some price ↔ i = located.index
  insertion : located.found = false → ∀ qty i, i ≤ book.length →
    (Sorted Level.price (Precedes ascending) (book.insertIdx i ⟨price, qty⟩) ↔ i = located.index)

section Agree

variable {book : List Level} {ascending : Bool} {price : Price}

theorem Located.Finds.isPlace {located : Located book} (finds : located.Finds ascending price) :
    located.IsPlace ascending price where
  found_iff := finds.position.found_iff
  position := by
    intro found i
    rw [Option.map_eq_some_iff]
    constructor
    · rintro ⟨level, at_i, here⟩
      exact ((finds.position.here_iff at_i).mp here).2
    · rintro rfl
      have at_index := List.getElem?_eq_getElem (located.index_lt found)
      exact ⟨_, at_index, (finds.position.here_iff at_index).mpr ⟨found, rfl⟩⟩
  insertion := by
    intro missing qty i hi
    have place := finds.position
    rw [missing] at place
    constructor
    · intro sorted
      exact ((Position.of_insert_sorted hi sorted).unique place).2
    · rintro rfl
      exact place.insert_sorted finds.sorted rfl

/-- Lawful lookups cannot differ on a sorted side. -/
theorem LawfulLocate.eq {locate locate' : Locate} [LawfulLocate locate] [LawfulLocate locate']
    (sorted : Sorted Level.price (Precedes ascending) book) (price : Price) :
    locate book price ascending = locate' book price ascending := by
  have position : Position Level.price (Precedes ascending) price book
      (locate book price ascending).found (locate book price ascending).index :=
    LawfulLocate.position sorted price
  have position' : Position Level.price (Precedes ascending) price book
      (locate' book price ascending).found (locate' book price ascending).index :=
    LawfulLocate.position sorted price
  obtain ⟨found, index⟩ := position.unique position'
  cases left : locate book price ascending
  cases right : locate' book price ascending
  simp_all

end Agree

/-- The three lookups of a price in a sorted side return the same, and where it is. -/
theorem locates_agree (book : List Level) (ascending : Bool) (price : Price)
    (sorted : Sorted Level.price (Precedes ascending) book) :
    BookLinear.locate book price ascending = BookSortedVector.locate book price ascending ∧
      BookBranchless.locate book price ascending = BookSortedVector.locate book price ascending ∧
      (BookSortedVector.locate book price ascending).IsPlace ascending price :=
  ⟨LawfulLocate.eq sorted price, LawfulLocate.eq sorted price,
    Located.Finds.isPlace ⟨sorted, LawfulLocate.position sorted price⟩⟩

/-- An ask between two stored ones. -/
theorem locates_agree_between :
    BookLinear.locate [⟨9, 1⟩, ⟨5, 2⟩] 7 false = BookSortedVector.locate [⟨9, 1⟩, ⟨5, 2⟩] 7 false ∧
      BookBranchless.locate [⟨9, 1⟩, ⟨5, 2⟩] 7 false =
        BookSortedVector.locate [⟨9, 1⟩, ⟨5, 2⟩] 7 false ∧
      (BookSortedVector.locate [⟨9, 1⟩, ⟨5, 2⟩] 7 false).IsPlace false 7 :=
  locates_agree [⟨9, 1⟩, ⟨5, 2⟩] false 7 (by simp [Sorted, Precedes])

namespace BookBranchless

open OrderIndex (sizeRange)

/-- The portable select: `half & (0 - take)` on `size_t`. -/
def maskSelect (half : Nat) (take : Bool) : Nat :=
  half &&& ((0 + sizeRange - take.toNat) % sizeRange)

/-- The select on x86: the register of the advance starts at zero and the conditional
move overwrites it when the comparison holds. -/
def moveSelect (half : Nat) (take : Bool) : Nat := if take then half else 0

/-- The loop, with a read outside the run as a fault. -/
def halveBy (select : Nat → Bool → Nat) (data : List Level) (before : Level → Bool) :
    (fuel base n : Nat) → Except Fault Nat
  | 0, base, n => if n > 1 then .error .endless else .ok base
  | fuel + 1, base, n =>
      if n > 1 then
        let half := n / 2
        match data[base + half]? with
        | none => .error .outOfBounds
        | some probe =>
            let advance := select half (before probe)
            halveBy select data before fuel (base + advance) (n - half)
      else .ok base

/-- `branchless_lower_bound` on a whole run. -/
def branchlessLowerBoundBy (select : Nat → Bool → Nat) (data : List Level) (ascending : Bool)
    (key : Price) : Except Fault Nat := do
  let base ← halveBy select data (beforeKey ascending key) data.length 0 data.length
  match data[base]? with
  | none => .error .outOfBounds
  | some level =>
      let last := beforeKey ascending key level
      return base + last.toNat

theorem maskSelect_eq {half : Nat} (small : half < sizeRange) (take : Bool) :
    maskSelect half take = if take then half else 0 := by
  cases take with
  | false => simp [maskSelect]
  | true => exact Nat.and_two_pow_sub_one_of_lt_two_pow small

section Search

variable {select : Nat → Bool → Nat} {data : List Level} {before : Level → Bool}

/-- With a select that picks by the comparison, the checked loop is the halving loop. -/
theorem halveBy_eq
    (selects : ∀ half take, half < data.length → select half take = if take then half else 0)
    (fuel base n : Nat) (pos : 0 < n) (enough : n ≤ fuel + 1) (bound : base + n ≤ data.length) :
    halveBy select data before fuel base n =
      .ok (halve data before fuel base n pos enough bound) := by
  induction fuel generalizing base n with
  | zero =>
      obtain rfl : n = 1 := by omega
      rfl
  | succ fuel ih =>
      simp only [halveBy, halve]
      split
      case isTrue more =>
        have at_probe : data[base + n / 2]? = some data[base + n / 2] :=
          List.getElem?_eq_getElem (by omega)
        simp only [at_probe, selects (n / 2) _ (by omega)]
        exact ih _ _ _ _ _
      case isFalse => rfl

theorem branchlessLowerBoundBy_eq (ascending : Bool) (key : Price) (pos : 0 < data.length)
    (selects : ∀ half take, half < data.length → select half take = if take then half else 0) :
    branchlessLowerBoundBy select data ascending key =
      .ok (branchlessLowerBound data (beforeKey ascending key) pos) := by
  have halved : halveBy select data (beforeKey ascending key) data.length 0 data.length = _ :=
    halveBy_eq selects data.length 0 data.length pos (by omega) (by omega)
  simp only [branchlessLowerBoundBy, halved, Run.ok_bind, branchlessLowerBound]
  generalize halve data _ data.length 0 data.length _ _ _ = stopped
  obtain ⟨base, inside⟩ := stopped
  simp only [List.getElem?_eq_getElem inside]
  cases beforeKey ascending key data[base] <;> rfl

end Search

/-- On any ordered run, with duplicates or without, both ways to select the advance end
in bounds at the first level that does not come before the key, or at the end. That is
the lower bound that the lookup of the book uses. -/
theorem branchless_isLowerBound (data : List Level) (ascending : Bool) (key : Price)
    (pos : 0 < data.length) (size : data.length < sizeRange)
    (ordered : data.Pairwise fun a b =>
      if ascending then a.price ≤ b.price else a.price ≥ b.price) :
    ∃ index, branchlessLowerBoundBy maskSelect data ascending key = .ok index ∧
      branchlessLowerBoundBy moveSelect data ascending key = .ok index ∧
      (branchlessLowerBound data (beforeKey ascending key) pos).val = index ∧
      index ≤ data.length ∧
      (∀ i level, i < index → data[i]? = some level → Precedes ascending level.price key) ∧
      ∀ level, data[index]? = some level → ¬ Precedes ascending level.price key := by
  have partitioned : Partitioned (beforeKey ascending key · = true) data := by
    apply List.Pairwise.imp ?_ ordered
    intro a b le
    simp only [beforeKey_iff]
    cases ascending with
    | true => exact lt_of_le_of_lt le
    | false => exact fun before => lt_of_lt_of_le before le
  obtain ⟨front, stop⟩ := branchlessLowerBound_spec partitioned pos
  have mask := branchlessLowerBoundBy_eq ascending key pos
    fun half take inside => maskSelect_eq (inside.trans size) take
  have move := branchlessLowerBoundBy_eq ascending key pos
    fun half take _ => (rfl : moveSelect half take = _)
  have index_le := (branchlessLowerBound data (beforeKey ascending key) pos).property
  refine ⟨_, mask, move, rfl, index_le, ?_, ?_⟩
  · intro i level hi at_i
    apply beforeKey_iff.mp (front level ?_)
    exact List.mem_of_getElem? ((List.getElem?_take_of_lt hi).trans at_i)
  · intro level at_index precedes
    have stopped := stop level at_index
    rw [beforeKey_iff.mpr precedes] at stopped
    cases stopped

/-- Equal asks around the key. -/
theorem branchless_isLowerBound_equal :
    ∃ index, branchlessLowerBoundBy maskSelect
        [⟨9, 1⟩, ⟨7, 2⟩, ⟨7, 3⟩, ⟨7, 4⟩, ⟨5, 5⟩] false 7 = .ok index ∧
      branchlessLowerBoundBy moveSelect
        [⟨9, 1⟩, ⟨7, 2⟩, ⟨7, 3⟩, ⟨7, 4⟩, ⟨5, 5⟩] false 7 = .ok index := by
  obtain ⟨index, mask, move, _⟩ := branchless_isLowerBound
    [⟨9, 1⟩, ⟨7, 2⟩, ⟨7, 3⟩, ⟨7, 4⟩, ⟨5, 5⟩] false 7 (by decide) (by decide) (by simp)
  exact ⟨index, mask, move⟩

end BookBranchless

end OrderBook
