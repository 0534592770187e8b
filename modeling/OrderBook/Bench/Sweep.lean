import OrderBook.Book.Equivalence
import OrderBook.Levels.Growth

/-!
# Populating a book for the depth sweep

The sweep rebuilds a book from a list of levels, one resting order each, with the levels
of a side given from the worst to the best. Such a list is `Rising`. Each of its levels is
better than all that have been added to its side before, so an addition always makes a
new level and a contiguous container always appends it.

After each addition the populated book has, from the best price outward, the levels
read so far backwards. Nothing else about the container is used.
-/

namespace OrderBook

open PriceLevels SortedList
open OrderIndex (sizeRange)

/-- A resting level to populate a book with. -/
structure SweepLevel where
  side : Side
  price : Price
  qty : Quantity
  deriving DecidableEq, Repr

namespace Sweep

def orderHintFor (depth : Nat) : Nat := (2 * depth + 1024) % sizeRange

def levelHintFor (depth : Nat) : Nat := (depth + 1024) % sizeRange

/-- The most elements of a vector: its size in bytes is at most the largest `ptrdiff_t`, and
a `SweepLevel` has 24 of them. -/
def maxLevels : Nat := (2 ^ 63 - 1) / 24

section Populate

variable {L : Type} [PriceLevels L]

/-- One turn of the loop of `populate`. -/
def addLevel (state : Book L × OrderId) (level : SweepLevel) :
    Except Fault (Book L × OrderId) := do
  let (book, id) := state
  let book ← book.add id level.side level.price level.qty
  return (book, id + 1)

def populate (book : Book L) (levels : List SweepLevel) : Except Fault (Book L) := do
  let (book, _) ← levels.foldlM addLevel (book, 1)
  return book

/-- A fresh book, constructed for a depth and populated. -/
def populated (depth : Nat) (levels : List SweepLevel) : Except Fault (Book L) := do
  let book ← Book.new (orderHintFor depth)
  populate book levels

/-- The top of a snapshot, each side from rank `depth - 1` to rank 0. There are no levels
if they are more than `out` can be reserved for. -/
def buildRealLevels (snapshot : Book L) (depth : Nat) : Option (List SweepLevel) :=
  let ranks := (List.range depth).reverse
  let bids := ranks.map fun r =>
    let level := nthBid snapshot.levels r
    (⟨.buy, level.price, level.quantity⟩ : SweepLevel)
  let asks := ranks.map fun r =>
    let level := nthAsk snapshot.levels r
    (⟨.sell, level.price, level.quantity⟩ : SweepLevel)
  if 2 * depth ≤ maxLevels then some (bids ++ asks) else none

end Populate

/-- The levels of one side, in the order of the list. -/
def sideLevels (side : Side) (levels : List SweepLevel) : List Level :=
  (levels.filter (·.side = side)).map fun level => ⟨level.price, level.qty⟩

/-- On each side the levels go from the worst price to the best. -/
def Rising (levels : List SweepLevel) : Prop :=
  ∀ side, Sorted Level.price side.Better (sideLevels side levels).reverse

/-- Levels that populate both sides of a book to the same depth. -/
structure Stacked (depth : Nat) (levels : List SweepLevel) : Prop where
  rising : Rising levels
  depth_eq : ∀ side, (sideLevels side levels).length = depth
  fits : 2 * depth ≤ maxLevels

section Rising

variable {before levels : List SweepLevel} {level : SweepLevel}

theorem sideLevels_snoc_self (before : List SweepLevel) (level : SweepLevel) :
    sideLevels level.side (before ++ [level]) =
      sideLevels level.side before ++ [⟨level.price, level.qty⟩] := by
  simp [sideLevels]

theorem sideLevels_snoc_ne {side : Side} (ne : side ≠ level.side) (before : List SweepLevel) :
    sideLevels side (before ++ [level]) = sideLevels side before := by
  simp [sideLevels, Ne.symm ne]

theorem length_eq_sides (levels : List SweepLevel) :
    levels.length = (sideLevels .buy levels).length + (sideLevels .sell levels).length := by
  have sells : levels.filter (fun level => !decide (level.side = .buy)) =
      levels.filter (·.side = .sell) := by
    refine List.filter_congr fun level _ => ?_
    cases level.side <;> rfl
  simp only [sideLevels, List.length_map]
  rw [List.length_eq_length_filter_add (·.side = .buy), sells]

theorem Stacked.length_eq {depth : Nat} (stacked : Stacked depth levels) :
    levels.length = 2 * depth := by
  rw [length_eq_sides, stacked.depth_eq, stacked.depth_eq, Nat.two_mul]

theorem Rising.of_prefix (rising : Rising levels) (member : before <+: levels) :
    Rising before := by
  intro side
  have front : sideLevels side before <+: sideLevels side levels := (member.filter _).map _
  exact List.Pairwise.sublist front.reverse.sublist (rising side)

/-- The last level of a rising list is better than all before it on its side. -/
theorem Rising.best_of_snoc (rising : Rising (before ++ [level])) :
    ∀ other ∈ (sideLevels level.side before).reverse,
      level.side.Better level.price other.price := by
  have sorted := rising level.side
  rw [sideLevels_snoc_self, List.reverse_append, Sorted] at sorted
  exact (List.pairwise_cons.mp sorted).1

end Rising

section Run

variable {L : Type} [PriceLevels L] [LawfulLevels L] {hint depth : Nat} {book : Book L}
variable {before levels : List SweepLevel} {level : SweepLevel}

/-- A book that was constructed from the hint and holds the levels added so far. -/
structure Populated (hint : Nat) (before : List SweepLevel) (book : Book L) : Prop where
  valid : Valid book.levels
  sound : book.index.Sound
  size : book.index.size = before.length
  slots : hint * 2 ≤ book.index.slots.length
  levels : ∀ side, LevelView.levels book.levels side = (sideLevels side before).reverse

theorem populated_new (hhint : hint ≤ 2 ^ 62) :
    ∃ book : Book L, Book.new hint = .ok book ∧ Populated hint [] book := by
  obtain ⟨index, constructed, sound, _, size, slots⟩ := OrderIndex.new_eq_ok hhint
  refine ⟨⟨empty, index⟩, ?_, LawfulLevels.valid_empty, sound, size, slots,
    LawfulLevels.levels_empty⟩
  rw [Book.new, constructed]
  rfl

namespace Populated

theorem room (populated : Populated hint before book) (enough : before.length < hint) :
    book.index.size * 2 < book.index.slots.length := by
  have := populated.size
  have := populated.slots
  omega

theorem best (populated : Populated hint before book) (rising : Rising (before ++ [level])) :
    ∀ other ∈ LevelView.levels book.levels level.side,
      level.side.Better level.price other.price := by
  rw [populated.levels]
  exact rising.best_of_snoc

/-- A level of a rising list is added in front of the levels of its side. -/
theorem add (populated : Populated hint before book) (rising : Rising (before ++ [level]))
    (enough : before.length < hint) (id : OrderId) :
    ∃ book', book.add id level.side level.price level.qty = .ok book' ∧
      Populated hint (before ++ [level]) book' := by
  obtain ⟨index, inserted, stores⟩ := populated.sound.insert_spec (populated.room enough)
    ⟨id, level.price, level.qty, level.side⟩
  refine ⟨⟨levelAdd book.levels level.side level.price level.qty, index⟩, ?_, ?_⟩
  · rw [Book.add, inserted]
    rfl
  constructor
  · exact LawfulLevels.valid_levelAdd populated.valid _ _ _
  · exact stores.sound
  · rw [stores.size, populated.size, List.length_append]
    rfl
  · rw [stores.length]
    exact populated.slots
  · intro side
    by_cases same : side = level.side
    · subst same
      rw [levels_levelAdd_of_best populated.valid level.qty (populated.best rising),
        sideLevels_snoc_self, populated.levels]
      simp
    · rw [levels_levelAdd_ne populated.valid same, sideLevels_snoc_ne same, populated.levels]

end Populated

/-- The run rule: a fresh book takes every prefix of a rising list that it has room for. -/
theorem populated_run (hhint : hint ≤ 2 ^ 62) (rising : Rising levels)
    (enough : levels.length ≤ hint) : ∀ before, before <+: levels →
      ∃ book : Book L, (Book.new hint >>= fun book => populate book before) = .ok book ∧
        Populated hint before book := by
  have run : ∀ before, before <+: levels → ∃ state : Book L × OrderId,
      ((Book.new hint >>= fun book => .ok (book, 1)) >>= before.foldlM addLevel) = .ok state ∧
        Populated hint before state.1 := by
    apply Run.reaches
    · obtain ⟨book, constructed, populated⟩ := populated_new hhint (L := L)
      exact ⟨(book, 1), by rw [constructed]; rfl, populated⟩
    · rintro before level ⟨book, id⟩ member _ populated
      have next := member.length_le
      rw [List.length_append, List.length_singleton] at next
      obtain ⟨book', added, populated'⟩ :=
        populated.add (rising.of_prefix member) (by omega) id
      refine ⟨(book', id + 1), ?_, populated'⟩
      simp only [addLevel, added, Run.ok_bind]
      rfl
  intro before member
  obtain ⟨⟨book, id⟩, reached, populated⟩ := run before member
  obtain ⟨start, constructed, folded⟩ := Run.of_bind_eq_ok reached
  obtain ⟨fresh, made, same⟩ := Run.of_bind_eq_ok constructed
  cases same
  refine ⟨book, ?_, populated⟩
  rw [made, Run.ok_bind, populate, folded]
  rfl

/-- Up to what a vector can hold, neither hint wraps. -/
theorem hints_eq (fits : 2 * depth ≤ maxLevels) : orderHintFor depth = 2 * depth + 1024 ∧
    levelHintFor depth = depth + 1024 ∧ orderHintFor depth ≤ 2 ^ 62 := by
  simp only [maxLevels] at fits
  simp only [orderHintFor, levelHintFor, sizeRange]
  omega

/-- The books of the sweep take every prefix of the levels of a depth. -/
theorem Stacked.populated (stacked : Stacked depth levels) : ∀ before, before <+: levels →
    ∃ book : Book L, Sweep.populated depth before = .ok book ∧
      Populated (orderHintFor depth) before book := by
  obtain ⟨hint, _, small⟩ := hints_eq stacked.fits
  have length := stacked.length_eq
  exact populated_run small stacked.rising (by omega)

theorem Stacked.depth_populated (stacked : Stacked depth levels)
    (populated : Populated hint levels book) (side : Side) :
    PriceLevels.depth book.levels side = depth := by
  rw [OrderBook.depth_eq, populated.levels, List.length_reverse, stacked.depth_eq]

theorem Stacked.prefix_length_lt (stacked : Stacked depth levels)
    (member : before ++ [level] <+: levels) : before.length < orderHintFor depth := by
  obtain ⟨hint, _, _⟩ := hints_eq stacked.fits
  have length := stacked.length_eq
  have next := member.length_le
  rw [List.length_append, List.length_singleton] at next
  omega

end Run

section Real

variable {L : Type} [PriceLevels L] [LawfulLevels L] {snapshot : Book L} {depth : Nat}
variable {levels : List SweepLevel}

omit [LawfulLevels L] in
theorem buildRealLevels_isSome (snapshot : Book L) (fits : 2 * depth ≤ maxLevels) :
    ∃ levels, buildRealLevels snapshot depth = some levels := by
  simp [buildRealLevels, fits]

omit [LawfulLevels L] in
theorem sideLevels_of_built (built : buildRealLevels snapshot depth = some levels) (side : Side) :
    sideLevels side levels = (List.range depth).reverse.map (nth snapshot.levels side) := by
  simp only [buildRealLevels, Option.ite_none_right_eq_some, Option.some.injEq] at built
  obtain ⟨_, rfl⟩ := built
  cases side <;> simp [sideLevels, Function.comp_def, nth, List.filter_map]

omit [LawfulLevels L] in
theorem le_depth_of_le_min {l : L} (shallow : depth ≤ min (bidDepth l) (askDepth l))
    (side : Side) : depth ≤ PriceLevels.depth l side := by
  cases side with
  | buy => exact shallow.trans (min_le_left _ _)
  | sell => exact shallow.trans (min_le_right _ _)

/-- The ranks below a depth, in order, show the top of the side. -/
theorem map_nth_range {l : L} {side : Side} (shallow : depth ≤ PriceLevels.depth l side) :
    (List.range depth).map (nth l side) = (LevelView.levels l side).take depth := by
  rw [depth_eq] at shallow
  apply List.ext_getElem
  · simp [shallow]
  · intro r within _
    rw [List.length_map, List.length_range] at within
    rw [List.getElem_map, List.getElem_range, List.getElem_take, nth_eq,
      List.getD_eq_getElem _ _ (within.trans_le shallow)]

theorem reverse_sideLevels_of_built (built : buildRealLevels snapshot depth = some levels)
    {side : Side} (shallow : depth ≤ PriceLevels.depth snapshot.levels side) :
    (sideLevels side levels).reverse = (LevelView.levels snapshot.levels side).take depth := by
  rw [sideLevels_of_built built, List.map_reverse, List.reverse_reverse, map_nth_range shallow]

theorem stacked_of_built (valid : Valid snapshot.levels)
    (shallow : ∀ side, depth ≤ PriceLevels.depth snapshot.levels side)
    (built : buildRealLevels snapshot depth = some levels) : Stacked depth levels where
  rising := by
    intro side
    rw [reverse_sideLevels_of_built built (shallow side)]
    exact List.Pairwise.sublist (List.take_sublist _ _) (LawfulLevels.sorted valid side)
  depth_eq side := by simp [sideLevels_of_built built]
  fits := by
    simp only [buildRealLevels, Option.ite_none_right_eq_some] at built
    exact built.1

end Real

/-- The top of the book is the top of the snapshot, and the book has nothing else. -/
structure Rebuilds {L M : Type} [PriceLevels L] [PriceLevels M] (snapshot : L) (depth : Nat)
    (levels : M) : Prop where
  bidDepth : bidDepth levels = depth
  askDepth : askDepth levels = depth
  nthBid : ∀ r, r < depth → nthBid levels r = nthBid snapshot r
  nthAsk : ∀ r, r < depth → nthAsk levels r = nthAsk snapshot r

end Sweep

/-- The lookup does not find the price, and places it behind all stored levels. -/
def VectorLevels.PlacesAtBack {locate : Locate} (levels : VectorLevels locate) (side : Side)
    (price : Price) : Prop :=
  (levels.locateIn side price).found = false ∧
    (levels.locateIn side price).index = (levels.book side).length

/-- A contiguous variant appends the level, so that no element moves. -/
def Variant.PlacesAtBack : (v : Variant) → v.Levels → Side → Price → Prop
  | map, _, _, _ => True
  | linear, levels, side, price => VectorLevels.PlacesAtBack levels side price
  | sortedVector, levels, side, price => VectorLevels.PlacesAtBack levels side price
  | branchless, levels, side, price => VectorLevels.PlacesAtBack levels side price

theorem VectorLevels.placesAtBack_of_best {locate : Locate} [LawfulLocate locate]
    {levels : VectorLevels locate} (valid : Valid levels) {side : Side} {price : Price}
    (best : ∀ other ∈ LevelView.levels levels side, side.Better price other.price) :
    levels.PlacesAtBack side price :=
  locateIn_of_best valid fun other member => best other (List.mem_reverse.mpr member)

theorem Variant.placesAtBack_of_best (v : Variant) {levels : v.Levels} (valid : Valid levels)
    {side : Side} {price : Price}
    (best : ∀ other ∈ LevelView.levels levels side, side.Better price other.price) :
    v.PlacesAtBack levels side price := by
  cases v with
  | map => trivial
  | linear => exact VectorLevels.placesAtBack_of_best valid best
  | sortedVector => exact VectorLevels.placesAtBack_of_best valid best
  | branchless => exact VectorLevels.placesAtBack_of_best valid best

namespace Sweep

/-- What an addition to a book of the sweep meets: the assertion of the index holds, the
level is new and goes to the back, and no side has outgrown its reservation. -/
structure Appends (v : Variant) (depth : Nat) (level : SweepLevel) (book : Book v.Levels) :
    Prop where
  room : book.index.size * 2 < book.index.slots.length
  fresh : ¬ Present book.levels level.side level.price
  at_back : v.PlacesAtBack book.levels level.side level.price
  reserved : ∀ side, PriceLevels.depth book.levels side < levelHintFor depth

theorem Stacked.appends {depth : Nat} {before levels : List SweepLevel} {level : SweepLevel}
    (stacked : Stacked depth levels) (member : before ++ [level] <+: levels) {v : Variant}
    {book : Book v.Levels} (populated : Populated (orderHintFor depth) before book) :
    Appends v depth level book where
  room := populated.room (stacked.prefix_length_lt member)
  fresh := by
    have best := populated.best (stacked.rising.of_prefix member)
    rintro ⟨rank, within, same⟩
    have better := best _ (mem_levels_iff_rank.mpr ⟨rank, within, rfl⟩)
    rw [same] at better
    exact irrefl_of level.side.Better _ better
  at_back := v.placesAtBack_of_best populated.valid
    (populated.best (stacked.rising.of_prefix member))
  reserved := by
    intro side
    obtain ⟨_, hint, _⟩ := hints_eq stacked.fits
    have front : sideLevels side before <+: sideLevels side levels :=
      (((List.prefix_append before [level]).trans member).filter _).map _
    have le := front.length_le
    rw [stacked.depth_eq] at le
    rw [OrderBook.depth_eq, populated.levels, List.length_reverse, hint]
    omega

theorem rebuilds_of_populated {L M : Type} [PriceLevels L] [LawfulLevels L] [PriceLevels M]
    [LawfulLevels M] {snapshot : Book L} {depth hint : Nat} {levels : List SweepLevel}
    (built : buildRealLevels snapshot depth = some levels)
    (shallow : ∀ side, depth ≤ PriceLevels.depth snapshot.levels side) {book : Book M}
    (populated : Populated hint levels book) :
    Rebuilds snapshot.levels depth book.levels := by
  have top : ∀ side, LevelView.levels book.levels side =
      (LevelView.levels snapshot.levels side).take depth := fun side =>
    (populated.levels side).trans (reverse_sideLevels_of_built built (shallow side))
  have depths : ∀ side, PriceLevels.depth book.levels side = depth := by
    intro side
    have enough := shallow side
    rw [depth_eq] at enough ⊢
    rw [top, List.length_take_of_le enough]
  have ranks : ∀ side r, r < depth → nth book.levels side r = nth snapshot.levels side r := by
    intro side r within
    rw [nth_eq, nth_eq, top, List.getD_eq_getElem?_getD,
      List.getD_eq_getElem?_getD, List.getElem?_take_of_lt within]
  exact ⟨depths .buy, depths .sell, ranks .buy, ranks .sell⟩

/-- For a snapshot of any variant and a depth that both of its sides have, every variant
is populated to a book that shows the top of the snapshot, and each addition on the way
appends a new level. -/
theorem sweep_rebuilds (w v : Variant) (hint : Nat) (events : List Event)
    (snapshot : Book w.Levels) (reached : w.replay hint events = .ok snapshot) (depth : Nat)
    (shallow : depth ≤ min (bidDepth snapshot.levels) (askDepth snapshot.levels)) :
    (2 * depth ≤ maxLevels → ∃ levels, buildRealLevels snapshot depth = some levels) ∧
      ∀ levels, buildRealLevels snapshot depth = some levels →
        (∃ book : Book v.Levels, populated depth levels = .ok book ∧
          Rebuilds snapshot.levels depth book.levels) ∧
        ∀ before level, before ++ [level] <+: levels →
          ∃ book : Book v.Levels, populated depth before = .ok book ∧
            Appends v depth level book := by
  have both := le_depth_of_le_min shallow
  refine ⟨buildRealLevels_isSome snapshot, fun levels built => ?_⟩
  have stacked := stacked_of_built (Book.valid_of_replay reached) both built
  constructor
  · obtain ⟨book, reached', populated⟩ := stacked.populated (L := v.Levels) levels List.prefix_rfl
    exact ⟨book, reached', rebuilds_of_populated built both populated⟩
  · intro before level member
    obtain ⟨book, reached', populated⟩ := stacked.populated (L := v.Levels) before
      ((List.prefix_append _ _).trans member)
    exact ⟨book, reached', stacked.appends member populated⟩

/-- The top two levels of a book with three bids, one of two orders, and two asks. -/
theorem sweep_rebuilds_two :
    ∃ (snapshot : Book Variant.sortedVector.Levels) (levels : List SweepLevel)
      (book : Book Variant.branchless.Levels),
      Variant.sortedVector.replay 8
          [⟨1, 1, 10, 100, 1⟩, ⟨1, 2, 5, 98, 1⟩, ⟨1, 3, 7, 101, -1⟩, ⟨1, 4, 2, 99, 1⟩,
            ⟨1, 5, 3, 104, -1⟩, ⟨1, 6, 4, 100, 1⟩] = .ok snapshot ∧
        buildRealLevels snapshot 2 = some levels ∧ populated 2 levels = .ok book ∧
        Rebuilds snapshot.levels 2 book.levels := by
  obtain ⟨snapshot, reached, shallow⟩ : ∃ snapshot, Variant.sortedVector.replay 8
      [⟨1, 1, 10, 100, 1⟩, ⟨1, 2, 5, 98, 1⟩, ⟨1, 3, 7, 101, -1⟩, ⟨1, 4, 2, 99, 1⟩,
        ⟨1, 5, 3, 104, -1⟩, ⟨1, 6, 4, 100, 1⟩] = .ok snapshot ∧
        2 ≤ min (bidDepth snapshot.levels) (askDepth snapshot.levels) := ⟨_, rfl, by decide⟩
  obtain ⟨builds, rebuilds⟩ :=
    sweep_rebuilds .sortedVector .branchless 8 _ snapshot reached 2 shallow
  obtain ⟨levels, built⟩ := builds (by decide)
  obtain ⟨⟨book, populated, same⟩, _⟩ := rebuilds levels built
  exact ⟨snapshot, levels, book, reached, built, populated, same⟩

end Sweep

end OrderBook
