import OrderBook.Levels.Vector

/-!
# The three lookups of the vector books

`BookLinear` scans backwards from the best price, `BookSortedVector` calls
`std::lower_bound` and `BookBranchless` halves a run without branching on the key.
Each one is proved lawful: on a sorted side it answers with the place of the price.
The bounds of every access are part of the definitions.
-/

namespace OrderBook

open SortedList

/-- The comparison that `locate` chooses by side: the level comes before the key. -/
def beforeKey (ascending : Bool) (price : Price) (level : Level) : Bool :=
  if ascending then level.price < price else level.price > price

theorem beforeKey_iff {ascending : Bool} {price : Price} {level : Level} :
    beforeKey ascending price level = true ↔ Precedes ascending level.price price := by
  cases ascending <;> simp [beforeKey, Precedes]

/-- How both binary searches turn a lower bound into their answer. -/
def Located.ofLowerBound (book : List Level) (price : Price) (index : Nat)
    (index_le : index ≤ book.length) : Located book :=
  if inside : index < book.length then
    if book[index].price = price then ⟨true, index, index_le, fun _ => inside⟩
    else ⟨false, index, index_le, nofun⟩
  else ⟨false, index, index_le, nofun⟩

theorem Located.ofLowerBound_position {book : List Level} {ascending : Bool} {price : Price}
    (sorted : Sorted Level.price (Precedes ascending) book) {index : Nat}
    (index_le : index ≤ book.length)
    (before : ∀ level ∈ book.take index, beforeKey ascending price level = true)
    (stop : ∀ level, book[index]? = some level → beforeKey ascending price level = false) :
    Position Level.price (Precedes ascending) price book
      (ofLowerBound book price index index_le).found
      (ofLowerBound book price index index_le).index := by
  have position := sorted.lowerBound (k := price) index_le
    (fun level member => beforeKey_iff.mp (before level member))
    (fun level at_index precedes => by
      have := stop level at_index
      rw [beforeKey_iff.mpr precedes] at this
      cases this)
  simp only [ofLowerBound]
  split
  case isTrue inside =>
    rw [List.getElem?_eq_getElem inside] at position
    split
    case isTrue here =>
      simpa [here] using position
    case isFalse other =>
      simpa [other] using position
  case isFalse beyond =>
    rw [List.getElem?_eq_none (Nat.le_of_not_lt beyond)] at position
    exact position

namespace BookLinear

/-- Scan backwards over the levels that pass. The source's signed counter is one
less than `i`, so it is negative when `i` is zero. -/
def scanBack (book : List Level) (passes : Level → Bool) :
    (i : Nat) → i ≤ book.length → { i : Nat // i ≤ book.length }
  | 0, bound => ⟨0, bound⟩
  | i + 1, bound =>
      if passes book[i] then scanBack book passes i (Nat.le_of_succ_le bound) else ⟨i + 1, bound⟩

def locate : Locate := fun book price ascending =>
  let passes (level : Level) : Bool :=
    if ascending then level.price > price else level.price < price
  match scanBack book passes book.length (Nat.le_refl _) with
  | ⟨0, bound⟩ => ⟨false, 0, bound, nofun⟩
  | ⟨i + 1, bound⟩ =>
      if book[i].price = price then ⟨true, i, Nat.le_of_succ_le bound, fun _ => bound⟩
      else ⟨false, i + 1, bound, nofun⟩

/-- The scan stops below levels that pass, at one that does not. -/
theorem scanBack_spec {book : List Level} (passes : Level → Bool) (i : Nat)
    (bound : i ≤ book.length) (passed : ∀ level ∈ book.drop i, passes level = true) :
    (∀ level ∈ book.drop (scanBack book passes i bound), passes level = true) ∧
      ∀ j level, (scanBack book passes i bound).val = j + 1 → book[j]? = some level →
        passes level = false := by
  induction i with
  | zero => exact ⟨passed, nofun⟩
  | succ i ih =>
      simp only [scanBack]
      split
      case isTrue pass =>
        apply ih (Nat.le_of_succ_le bound)
        intro level member
        rw [List.drop_eq_getElem_cons bound] at member
        obtain rfl | later := List.mem_cons.mp member
        · exact pass
        · exact passed level later
      case isFalse stop =>
        refine ⟨passed, fun j level same at_j => ?_⟩
        cases same
        rw [List.getElem?_eq_getElem bound, Option.some.injEq] at at_j
        subst at_j
        simpa using stop

instance : LawfulLocate locate where
  position {book ascending} sorted price := by
    have passes_iff : ∀ level : Level,
        (if ascending then decide (level.price > price) else decide (level.price < price)) = true ↔
          Precedes ascending price level.price := by
      intro level
      cases ascending <;> simp [Precedes]
    obtain ⟨above, below⟩ := scanBack_spec (fun level : Level =>
      if ascending then decide (level.price > price) else decide (level.price < price))
      book.length (Nat.le_refl _) (by simp)
    unfold locate
    dsimp only
    generalize scanBack book _ book.length _ = stopped at above below ⊢
    obtain ⟨_ | i, bound⟩ := stopped
    · exact absent (Nat.zero_le _) (by simp) fun level member =>
        (passes_iff level).mp (above level member)
    · have at_i : book[i]? = some book[i] := List.getElem?_eq_getElem bound
      dsimp only
      split
      case isTrue here =>
        exact sorted.present at_i here
      case isFalse other =>
        have before : Precedes ascending book[i].price price := by
          obtain less | same | greater := trichotomous_of (Precedes ascending) book[i].price price
          · exact less
          · exact absurd same other
          · have stop := below i book[i] rfl at_i
            rw [(passes_iff book[i]).mpr greater] at stop
            cases stop
        exact absent bound ((sorted.partitioned price).take at_i before) fun level member =>
          (passes_iff level).mp (above level member)

/-- `scanBack` with the indices it reads. -/
def scanTraced (book : List Level) (passes : Level → Bool) :
    (i : Nat) → i ≤ book.length → { i : Nat // i ≤ book.length } × List Nat
  | 0, bound => (⟨0, bound⟩, [])
  | i + 1, bound =>
      if passes book[i] then
        let further := scanTraced book passes i (Nat.le_of_succ_le bound)
        (further.1, i :: further.2)
      else (⟨i + 1, bound⟩, [i])

/-- `locate` with the indices it reads. -/
def locateTraced (book : List Level) (price : Price) (ascending : Bool) :
    Located book × List Nat :=
  let passes (level : Level) : Bool :=
    if ascending then level.price > price else level.price < price
  let scanned := scanTraced book passes book.length (Nat.le_refl _)
  match scanned.1 with
  | ⟨0, bound⟩ => (⟨false, 0, bound, nofun⟩, scanned.2)
  | ⟨i + 1, bound⟩ =>
      if book[i].price = price then
        (⟨true, i, Nat.le_of_succ_le bound, fun _ => bound⟩, scanned.2 ++ [i])
      else (⟨false, i + 1, bound, nofun⟩, scanned.2 ++ [i])

end BookLinear

namespace BookSortedVector

/-- `std::lower_bound`: the first level that is not before the key. -/
def lowerBound (book : List Level) (before : Level → Bool) : Nat :=
  book.findIdx fun level => !before level

def locate : Locate := fun book price ascending =>
  Located.ofLowerBound book price (lowerBound book (beforeKey ascending price))
    List.findIdx_le_length

instance : LawfulLocate locate where
  position {book ascending} sorted price := by
    apply Located.ofLowerBound_position sorted
    · intro level member
      obtain ⟨j, hj, rfl⟩ := List.getElem_of_mem member
      rw [List.length_take] at hj
      rw [List.getElem_take]
      simpa using List.not_of_lt_findIdx (Nat.lt_of_lt_of_le hj (Nat.min_le_left _ _))
    · intro level at_index
      obtain ⟨inside, rfl⟩ := List.getElem?_eq_some_iff.mp at_index
      have stopped : (!beforeKey ascending price
          book[lowerBound book (beforeKey ascending price)]) = true :=
        List.findIdx_getElem (w := inside)
      simpa using stopped

end BookSortedVector

namespace BookBranchless

/-- The halving loop. `n` is at least one, as the caller guarantees, so no access
leaves the run; each turn makes `n` smaller, so `n` turns are enough. -/
def halve (data : List Level) (before : Level → Bool) : (fuel base n : Nat) → 0 < n →
    n ≤ fuel + 1 → base + n ≤ data.length → { base : Nat // base < data.length }
  | 0, base, _, _, _, bound => ⟨base, by omega⟩
  | fuel + 1, base, n, pos, enough, bound =>
      if more : n > 1 then
        let half := n / 2
        have inside : base + half < data.length := by omega
        let advance := if before data[base + half] then half else 0
        have advance_le : advance ≤ half := by
          dsimp only [advance]
          split <;> omega
        halve data before fuel (base + advance) (n - half) (by omega) (by omega) (by omega)
      else ⟨base, by omega⟩

def branchlessLowerBound (data : List Level) (before : Level → Bool) (pos : 0 < data.length) :
    { index : Nat // index ≤ data.length } :=
  let ⟨base, inside⟩ := halve data before data.length 0 data.length pos (by omega) (by omega)
  if before data[base] then ⟨base + 1, inside⟩ else ⟨base, Nat.le_of_lt inside⟩

def locate : Locate := fun book price ascending =>
  if vacant : book.length = 0 then ⟨false, 0, Nat.zero_le _, nofun⟩
  else
    let ⟨index, index_le⟩ :=
      branchlessLowerBound book (beforeKey ascending price) (Nat.pos_of_ne_zero vacant)
    Located.ofLowerBound book price index index_le

variable {data : List Level} {before : Level → Bool}

/-- The lower bound lies in the run that is left: the levels in front of the run
come before the key, and those behind it do not. -/
theorem halve_spec (partitioned : Partitioned (before · = true) data) (fuel base n : Nat)
    (pos : 0 < n) (enough : n ≤ fuel + 1) (bound : base + n ≤ data.length)
    (front : ∀ level ∈ data.take base, before level = true)
    (behind : ∀ level ∈ data.drop (base + n), ¬ before level = true) :
    (∀ level ∈ data.take (halve data before fuel base n pos enough bound),
      before level = true) ∧
    ∀ level ∈ data.drop ((halve data before fuel base n pos enough bound).val + 1),
      ¬ before level = true := by
  induction fuel generalizing base n with
  | zero =>
      obtain rfl : n = 1 := by omega
      exact ⟨front, behind⟩
  | succ fuel ih =>
      rw [halve]
      split
      case isTrue more =>
        have at_probe : data[base + n / 2]? = some data[base + n / 2] :=
          List.getElem?_eq_getElem (by omega)
        dsimp only
        apply ih
        · split
          case isTrue advances =>
            intro level member
            exact partitioned.take at_probe advances level
              (List.take_subset_take_left data (Nat.le_succ _) member)
          case isFalse => exact front
        · split
          case isTrue advances =>
            rw [show base + n / 2 + (n - n / 2) = base + n by omega]
            exact behind
          case isFalse stays =>
            intro level member
            have farther : level ∈ data.drop (base + n / 2) :=
              List.drop_subset_drop_left data (show base + n / 2 ≤ base + 0 + (n - n / 2) by omega)
                member
            exact partitioned.drop at_probe stays level farther
      case isFalse =>
        obtain rfl : n = 1 := by omega
        exact ⟨front, behind⟩

theorem branchlessLowerBound_spec (partitioned : Partitioned (before · = true) data)
    (pos : 0 < data.length) :
    (∀ level ∈ data.take (branchlessLowerBound data before pos), before level = true) ∧
    ∀ level, data[(branchlessLowerBound data before pos).val]? = some level →
      before level = false := by
  have halved := halve_spec partitioned data.length 0 data.length pos (by omega) (by omega)
    (by simp) (by simp)
  simp only [branchlessLowerBound]
  generalize halve data _ data.length 0 data.length _ _ _ = stopped at halved ⊢
  obtain ⟨base, inside⟩ := stopped
  obtain ⟨front, behind⟩ := halved
  dsimp only
  split
  case isTrue last =>
    refine ⟨partitioned.take (List.getElem?_eq_getElem inside) last, fun level at_next => ?_⟩
    rw [← Bool.not_eq_true]
    apply behind level
    rw [List.mem_iff_getElem?]
    exact ⟨0, by simpa using at_next⟩
  case isFalse last =>
    refine ⟨front, fun level at_base => ?_⟩
    rw [List.getElem?_eq_getElem inside, Option.some.injEq] at at_base
    subst at_base
    simpa using last

instance : LawfulLocate locate where
  position {book ascending} sorted price := by
    simp only [locate]
    split
    case isTrue vacant =>
      rw [List.length_eq_zero_iff] at vacant
      subst vacant
      exact absent (Nat.zero_le _) (by simp) (by simp)
    case isFalse occupied =>
      have partitioned : Partitioned (beforeKey ascending price · = true) book := by
        simpa only [beforeKey_iff] using sorted.partitioned price
      obtain ⟨before, stop⟩ :=
        branchlessLowerBound_spec partitioned (Nat.pos_of_ne_zero occupied)
      exact Located.ofLowerBound_position sorted _ before stop

/-- `halve` with the indices it reads. -/
def halveTraced (data : List Level) (before : Level → Bool) : (fuel base n : Nat) → 0 < n →
    n ≤ fuel + 1 → base + n ≤ data.length → { base : Nat // base < data.length } × List Nat
  | 0, base, _, _, _, bound => (⟨base, by omega⟩, [])
  | fuel + 1, base, n, pos, enough, bound =>
      if more : n > 1 then
        let half := n / 2
        have inside : base + half < data.length := by omega
        let advance := if before data[base + half] then half else 0
        have advance_le : advance ≤ half := by
          dsimp only [advance]
          split <;> omega
        let further := halveTraced data before fuel (base + advance) (n - half)
          (by omega) (by omega) (by omega)
        (further.1, (base + half) :: further.2)
      else (⟨base, by omega⟩, [])

/-- `branchlessLowerBound` with the indices it reads: the probes of the loop and the level
at which it ends. -/
def branchlessLowerBoundTraced (data : List Level) (before : Level → Bool)
    (pos : 0 < data.length) : { index : Nat // index ≤ data.length } × List Nat :=
  let halved := halveTraced data before data.length 0 data.length pos (by omega) (by omega)
  match halved.1 with
  | ⟨base, inside⟩ =>
      (if before data[base] then ⟨base + 1, inside⟩ else ⟨base, Nat.le_of_lt inside⟩,
        halved.2 ++ [base])

/-- `locate` with the indices it reads, the last of them to compare the price. -/
def locateTraced (book : List Level) (price : Price) (ascending : Bool) :
    Located book × List Nat :=
  if vacant : book.length = 0 then (⟨false, 0, Nat.zero_le _, nofun⟩, [])
  else
    let bounded := branchlessLowerBoundTraced book (beforeKey ascending price)
      (Nat.pos_of_ne_zero vacant)
    match bounded.1 with
    | ⟨index, index_le⟩ =>
        (Located.ofLowerBound book price index index_le,
          bounded.2 ++ if index < book.length then [index] else [])

end BookBranchless

end OrderBook
