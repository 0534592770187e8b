import OrderBook.Bench.Sweep
import OrderBook.Replay.Synthetic

/-!
# The lookups of the depth sweep

The prices that a batch looks up are read, by rank, from a reference book that has been
populated from the same levels as the variants. The levels come from a snapshot or from
the synthetic deep book; either way they are `Stacked`, which is all that the lookups
rely on. The geometric draws of the offsets are a parameter, any sequence of numbers.
-/

namespace OrderBook

open PriceLevels SortedList

/-- A precomputed lookup. -/
structure SweepTarget where
  side : Side
  price : Price
  deriving DecidableEq, Repr

namespace Sweep

def tick : Price := 1

/-- Far above the deepest offset, so that prices stay positive. -/
def mid : Price := 1000000000

/-- A loop of `build_synthetic_levels`, from the deepest level to the best. -/
def syntheticSide (rng : Rng) (side : Side) (price : Nat → Price) :
    (depth : Nat) → rng.State → List SweepLevel × rng.State
  | 0, state => ([], state)
  | k + 1, state =>
      let (qty, state) := rng.uniform 1 500 state
      let (levels, state) := syntheticSide rng side price k state
      (⟨side, price (k + 1), qty⟩ :: levels, state)

def buildSyntheticLevels (rng : Rng) (seed : rng.State) (depth : Nat) :
    Option (List SweepLevel) :=
  let (bids, state) := syntheticSide rng .buy (fun k => mid - k * tick) depth seed
  let (asks, _) := syntheticSide rng .sell (fun k => mid + k * tick) depth state
  if 2 * depth ≤ maxLevels then some (bids ++ asks) else none

section Targets

variable {L : Type} [PriceLevels L]

/-- One turn of the loop of `build_targets`, with the number of offsets drawn so far. -/
def targetTurn (book : Book L) (offset : Nat → Nat) (state : List SweepTarget × Nat) (i : Nat) :
    List SweepTarget × Nat :=
  let (out, drawn) := state
  let buy := i &&& 1 = 0
  let depth := if buy then bidDepth book.levels else askDepth book.levels
  if depth = 0 then (out, drawn)
  else
    let rank := offset drawn
    let rank := if rank ≥ depth then depth - 1 else rank
    let level := if buy then nthBid book.levels rank else nthAsk book.levels rank
    (out ++ [⟨if buy then .buy else .sell, level.price⟩], drawn + 1)

def buildTargets (book : Book L) (count : Nat) (offset : Nat → Nat) : List SweepTarget :=
  ((List.range count).foldl (targetTurn book offset) ([], 0)).1

end Targets

/-- The levels that the sweep measures a depth with. -/
inductive SweepSource (depth : Nat) : List SweepLevel → Prop
  | synthetic {rng : Rng} {seed : rng.State} {levels : List SweepLevel} (below : depth < 10 ^ 9)
      (built : buildSyntheticLevels rng seed depth = some levels) : SweepSource depth levels
  | real {w : Variant} {hint : Nat} {events : List Event} {snapshot : Book w.Levels}
      {levels : List SweepLevel} (reached : w.replay hint events = .ok snapshot)
      (shallow : depth ≤ min (bidDepth snapshot.levels) (askDepth snapshot.levels))
      (built : buildRealLevels snapshot depth = some levels) : SweepSource depth levels

section Synthetic

variable {rng : Rng} {side : Side} {price : Nat → Price} {depth : Nat} {state : rng.State}

theorem sideLevels_append (side : Side) (xs ys : List SweepLevel) :
    sideLevels side (xs ++ ys) = sideLevels side xs ++ sideLevels side ys := by
  simp [sideLevels]

theorem sideLevels_syntheticSide_ne {other : Side} (ne : side ≠ other) :
    sideLevels other (syntheticSide rng side price depth state).1 = [] := by
  induction depth generalizing state with
  | zero => rfl
  | succ k ih => simpa [syntheticSide, sideLevels, ne] using ih

/-- The prices of a side go from the deepest to the one next to the middle. -/
theorem prices_syntheticSide :
    (sideLevels side (syntheticSide rng side price depth state).1).map Level.price =
      (List.range depth).reverse.map fun k => price (k + 1) := by
  induction depth generalizing state with
  | zero => rfl
  | succ k ih => simpa [syntheticSide, sideLevels, List.range_succ] using ih

variable {levels : List SweepLevel}

/-- The price of each rank of the synthetic book. -/
def syntheticPrice : Side → Nat → Price
  | .buy, rank => mid - (rank + 1 : Nat) * tick
  | .sell, rank => mid + (rank + 1 : Nat) * tick

theorem better_syntheticPrice (side : Side) {i j : Nat} (before : i < j) :
    side.Better (syntheticPrice side i) (syntheticPrice side j) := by
  have deeper : ((i + 1 : Nat) : Int) * tick < (j + 1 : Nat) * tick := by
    simpa [tick] using before
  cases side with
  | buy => exact sub_lt_sub_left deeper mid
  | sell => exact Int.add_lt_add_left deeper mid

theorem prices_of_synthetic {seed : rng.State}
    (built : buildSyntheticLevels rng seed depth = some levels) (side : Side) :
    (sideLevels side levels).map Level.price =
      (List.range depth).reverse.map (syntheticPrice side) := by
  simp only [buildSyntheticLevels, Option.ite_none_right_eq_some, Option.some.injEq] at built
  obtain ⟨_, rfl⟩ := built
  have buy_ne : Side.buy ≠ .sell := by decide
  rw [sideLevels_append]
  cases side with
  | buy =>
      rw [sideLevels_syntheticSide_ne buy_ne.symm, List.append_nil, prices_syntheticSide]
      rfl
  | sell =>
      rw [sideLevels_syntheticSide_ne buy_ne, List.nil_append, prices_syntheticSide]
      rfl

theorem stacked_of_synthetic {seed : rng.State}
    (built : buildSyntheticLevels rng seed depth = some levels) : Stacked depth levels where
  rising := by
    intro side
    have ranked : ((sideLevels side levels).reverse.map Level.price).Pairwise side.Better := by
      rw [List.map_reverse, prices_of_synthetic built, ← List.map_reverse, List.reverse_reverse,
        List.pairwise_map]
      exact List.pairwise_lt_range.imp (better_syntheticPrice side)
    exact List.pairwise_map.mp ranked
  depth_eq side := by
    rw [← List.length_map Level.price, prices_of_synthetic built]
    simp
  fits := by
    simp only [buildSyntheticLevels, Option.ite_none_right_eq_some] at built
    exact built.1

end Synthetic

section Targets

variable {L : Type} [PriceLevels L] {book : Book L} {depth : Nat} {offset : Nat → Nat}

def targetSide (i : Nat) : Side := if i % 2 = 0 then .buy else .sell

/-- What a target is computed from: the level at the drawn rank, or the deepest. -/
def targetLevel (book : Book L) (depth : Nat) (offset : Nat → Nat) (i : Nat) : Level :=
  nth book.levels (targetSide i) (min (offset i) (depth - 1))

theorem targetTurn_eq (depths : ∀ side, PriceLevels.depth book.levels side = depth)
    (pos : 1 ≤ depth) (out : List SweepTarget) (i : Nat) :
    targetTurn book offset (out, i) i =
      (out ++ [⟨targetSide i, (targetLevel book depth offset i).price⟩], i + 1) := by
  have bids : bidDepth book.levels = depth := depths .buy
  have asks : askDepth book.levels = depth := depths .sell
  have some_level : ¬ depth = 0 := by omega
  have clamped : (if offset i ≥ depth then depth - 1 else offset i) =
      min (offset i) (depth - 1) := by
    split <;> omega
  simp only [targetTurn, Nat.and_one_is_mod, bids, asks, ite_self, some_level, if_false, clamped,
    targetSide, targetLevel]
  by_cases even : i % 2 = 0
  · simp only [even, if_true]
    rfl
  · simp only [even, if_false]
    rfl

/-- One target for each turn. -/
theorem buildTargets_eq (depths : ∀ side, PriceLevels.depth book.levels side = depth)
    (pos : 1 ≤ depth) (offset : Nat → Nat) (count : Nat) :
    buildTargets book count offset = (List.range count).map fun i =>
      ⟨targetSide i, (targetLevel book depth offset i).price⟩ := by
  have turns : (List.range count).foldl (targetTurn book offset) ([], 0) =
      ((List.range count).map fun i => ⟨targetSide i, (targetLevel book depth offset i).price⟩,
        count) := by
    induction count with
    | zero => rfl
    | succ count ih =>
        rw [List.range_succ, List.foldl_append, ih, List.foldl_cons, List.foldl_nil,
          targetTurn_eq depths pos, List.map_append]
        rfl
  rw [buildTargets, turns]

end Targets

section Hits

variable {L M : Type} [PriceLevels L] [LawfulLevels L] [PriceLevels M] [LawfulLevels M]
variable {depth hint hint' : Nat} {levels : List SweepLevel}

theorem buildSyntheticLevels_isSome (rng : Rng) (seed : rng.State) (below : depth < 10 ^ 9) :
    ∃ levels, buildSyntheticLevels rng seed depth = some levels := by
  have fits : 2 * depth ≤ maxLevels := by
    simp only [maxLevels]
    omega
  simp [buildSyntheticLevels, fits]

theorem SweepSource.stacked (source : SweepSource depth levels) : Stacked depth levels := by
  cases source with
  | synthetic _ built => exact stacked_of_synthetic built
  | real reached shallow built =>
      exact stacked_of_built (Book.valid_of_replay reached) (le_depth_of_le_min shallow) built

/-- A level of one populated book, looked up in another. -/
theorem Stacked.hit (stacked : Stacked depth levels) {reference : Book L} {book : Book M}
    (populated : Populated hint levels reference) (populated' : Populated hint' levels book)
    (side : Side) {rank : Nat} (within : rank < depth) :
    Present book.levels side (nth reference.levels side rank).price ∧
      quantityAt book.levels side (nth reference.levels side rank).price =
        (nth reference.levels side rank).quantity := by
  have same : nth book.levels side rank = nth reference.levels side rank := by
    rw [nth_eq, nth_eq, populated.levels, populated'.levels]
  rw [← stacked.depth_populated populated' side] at within
  rw [← same]
  exact ⟨⟨rank, within, rfl⟩,
    (consistent_of_valid populated'.valid side).quantity_nth rank within⟩

end Hits

/-- Every target that is drawn from the reference is one of its levels, at the drawn rank or
the deepest one, and every variant holds it with the reference's quantity. -/
def TargetsHit (depth : Nat) (levels : List SweepLevel) (count : Nat) (offset : Nat → Nat) :
    Prop :=
  ∃ reference : Book Variant.sortedVector.Levels, populated depth levels = .ok reference ∧
    (∀ side, PriceLevels.depth reference.levels side = depth) ∧
    (buildTargets reference count offset).length = count ∧
    ∀ i, i < count →
      let side := if i % 2 = 0 then Side.buy else .sell
      let level := nth reference.levels side (min (offset i) (depth - 1))
      (buildTargets reference count offset)[i]? = some ⟨side, level.price⟩ ∧
        quantityAt reference.levels side level.price = level.quantity ∧
        ∀ v : Variant, ∃ book : Book v.Levels, populated depth levels = .ok book ∧
          Present book.levels side level.price ∧
          quantityAt book.levels side level.price = level.quantity

theorem Stacked.targetsHit {depth : Nat} {levels : List SweepLevel}
    (stacked : Stacked depth levels) (pos : 1 ≤ depth) (count : Nat) (offset : Nat → Nat) :
    TargetsHit depth levels count offset := by
  obtain ⟨reference, reached, populated⟩ :=
    stacked.populated (L := Variant.sortedVector.Levels) levels List.prefix_rfl
  have depths := stacked.depth_populated populated
  have targets := buildTargets_eq depths pos offset count
  refine ⟨reference, reached, depths, by simp [targets], fun i turn => ⟨?_, ?_, fun v => ?_⟩⟩
  · rw [targets, List.getElem?_map, List.getElem?_range turn]
    rfl
  · exact (stacked.hit populated populated _ (by omega)).2
  · obtain ⟨book, reached', populated'⟩ :=
      stacked.populated (L := v.Levels) levels List.prefix_rfl
    exact ⟨book, reached', stacked.hit populated populated' _ (by omega)⟩

/-- Every target of the sweep is a level of the reference, at the drawn rank or the
deepest one, and is found with the reference's quantity in every variant populated from
the same levels. -/
theorem targets_hit {depth : Nat} {levels : List SweepLevel} (source : SweepSource depth levels)
    (pos : 1 ≤ depth) (count : Nat) (offset : Nat → Nat) :
    ∃ reference : Book Variant.sortedVector.Levels, populated depth levels = .ok reference ∧
      (∀ side, PriceLevels.depth reference.levels side = depth) ∧
      (buildTargets reference count offset).length = count ∧
      ∀ i, i < count →
        let side := if i % 2 = 0 then Side.buy else .sell
        let level := nth reference.levels side (min (offset i) (depth - 1))
        (buildTargets reference count offset)[i]? = some ⟨side, level.price⟩ ∧
          quantityAt reference.levels side level.price = level.quantity ∧
          ∀ v : Variant, ∃ book : Book v.Levels, populated depth levels = .ok book ∧
            Present book.levels side level.price ∧
            quantityAt book.levels side level.price = level.quantity :=
  source.stacked.targetsHit pos count offset

/-- The generator that always draws the lower bound. -/
def lowestRng : Rng where
  State := Unit
  uniform lo _ state := (lo, state)
  in_range _ _ _ le := ⟨le_rfl, le⟩

/-- Three lookups in a synthetic book of depth two, the later draws past its depth, and
four in the top two levels of a snapshot. -/
theorem targets_hit_sources :
    (∃ (levels : List SweepLevel) (reference : Book Variant.sortedVector.Levels)
      (book : Book Variant.map.Levels),
      buildSyntheticLevels lowestRng () 2 = some levels ∧ populated 2 levels = .ok reference ∧
        populated 2 levels = .ok book ∧ (buildTargets reference 3 (7 * ·)).length = 3 ∧
        quantityAt book.levels .sell (nth reference.levels .sell 1).price =
          (nth reference.levels .sell 1).quantity) ∧
    ∃ (snapshot : Book Variant.linear.Levels) (levels : List SweepLevel)
      (reference : Book Variant.sortedVector.Levels) (book : Book Variant.branchless.Levels),
      Variant.linear.replay 8
          [⟨1, 1, 10, 100, 1⟩, ⟨1, 2, 5, 98, 1⟩, ⟨1, 3, 7, 101, -1⟩, ⟨1, 4, 2, 99, 1⟩,
            ⟨1, 5, 3, 104, -1⟩] = .ok snapshot ∧
        buildRealLevels snapshot 2 = some levels ∧ populated 2 levels = .ok reference ∧
        populated 2 levels = .ok book ∧ (buildTargets reference 4 (· / 2)).length = 4 ∧
        quantityAt book.levels .sell (nth reference.levels .sell 1).price =
          (nth reference.levels .sell 1).quantity := by
  constructor
  · obtain ⟨levels, built⟩ := buildSyntheticLevels_isSome lowestRng () (by decide : 2 < 10 ^ 9)
    obtain ⟨reference, populated, _, length, targets⟩ :=
      targets_hit (.synthetic (by decide) built) (by decide) 3 (7 * ·)
    obtain ⟨_, _, hits⟩ := targets 1 (by decide)
    obtain ⟨book, populated', _, quantity⟩ := hits .map
    exact ⟨levels, reference, book, built, populated, populated', length, quantity⟩
  · obtain ⟨snapshot, reached, shallow⟩ : ∃ snapshot, Variant.linear.replay 8
        [⟨1, 1, 10, 100, 1⟩, ⟨1, 2, 5, 98, 1⟩, ⟨1, 3, 7, 101, -1⟩, ⟨1, 4, 2, 99, 1⟩,
          ⟨1, 5, 3, 104, -1⟩] = .ok snapshot ∧
          2 ≤ min (bidDepth snapshot.levels) (askDepth snapshot.levels) := ⟨_, rfl, by decide⟩
    obtain ⟨levels, built⟩ := buildRealLevels_isSome snapshot (by decide : 2 * 2 ≤ maxLevels)
    obtain ⟨reference, populated, _, length, targets⟩ :=
      targets_hit (.real reached shallow built) (by decide) 4 (· / 2)
    obtain ⟨_, _, hits⟩ := targets 3 (by decide)
    obtain ⟨book, populated', _, quantity⟩ := hits .branchless
    exact ⟨snapshot, levels, reference, book, reached, built, populated, populated', length,
      quantity⟩

/-- Both sources deliver the levels of a depth, whatever is drawn and whatever the snapshot
was reached by, and the targets that are drawn from them are hit. -/
theorem sources_deliver {depth : Nat} (pos : 1 ≤ depth) (count : Nat) (offset : Nat → Nat) :
    (∀ (rng : Rng) (seed : rng.State), depth < 10 ^ 9 → ∃ levels,
      buildSyntheticLevels rng seed depth = some levels ∧
        TargetsHit depth levels count offset) ∧
    ∀ (w : Variant) (hint : Nat) (events : List Event) (snapshot : Book w.Levels),
      w.replay hint events = .ok snapshot → 2 * depth ≤ maxLevels →
      depth ≤ min (bidDepth snapshot.levels) (askDepth snapshot.levels) → ∃ levels,
        buildRealLevels snapshot depth = some levels ∧ TargetsHit depth levels count offset := by
  constructor
  · intro rng seed below
    obtain ⟨levels, built⟩ := buildSyntheticLevels_isSome rng seed below
    have source : SweepSource depth levels := .synthetic below built
    exact ⟨levels, built, source.stacked.targetsHit pos count offset⟩
  · intro w hint events snapshot reached fits shallow
    obtain ⟨levels, built⟩ := buildRealLevels_isSome snapshot fits
    have source : SweepSource depth levels := .real reached shallow built
    exact ⟨levels, built, source.stacked.targetsHit pos count offset⟩

end Sweep

end OrderBook
