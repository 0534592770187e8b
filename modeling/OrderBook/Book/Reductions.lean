import OrderBook.Book.Conservation
import OrderBook.Index.Findable

/-!
# Reductions compose

Reducing an order twice is reducing it once by the sum, and reducing it by at least what
remains is deleting it. On the index side both rest on `erase`, which leaves the same
slots whatever remaining the erased record carries. On the side of the levels the first
of two reductions must not remove the level that the second one needs. It does not as
long as a level has at least as much as each order on it.

`Covers` is the invariant that gives this bound. It is `Conserves` without the condition
that ids are usable: an order under the free mark is added to its level but no probe
finds it, so the levels are those of the stored records and of some unlisted orders.
-/

namespace OrderBook

open PriceLevels Run
open scoped List

theorem Ladder.levelSub_levelSub {ladder : Ladder} {side : Side} {price : Price}
    {quantity a : Quantity} (present : ladder side price = some quantity) (left : a < quantity)
    (b : Quantity) : (ladder.levelSub side price a).levelSub side price b =
      ladder.levelSub side price (a + b) := by
  have some_left : ¬ quantity - a ≤ 0 := not_le.mpr (sub_pos.mpr left)
  rw [levelSub_of_some present, if_neg some_left, levelSub_of_some (set_self _ _ _ _),
    levelSub_of_some present, sub_sub]
  funext s p
  simp only [set_apply]
  split <;> rfl

/-- After an erasure no probe meets the id again, if it was stored once. -/
theorem OrderIndex.Removes.find_none {index index' : OrderIndex} {order : Order}
    (removes : index.Removes order index') (distinct : index.Distinct) :
    index'.find order.id = .ok none := by
  obtain unknown | ⟨j, other, holds⟩ := removes.sound.roomy.find_cases order.id
  · exact unknown
  · have once := (removes.records.map Order.id).nodup_iff.mpr distinct
    rw [List.map_cons, List.nodup_cons] at once
    exact absurd (List.mem_map.mpr ⟨other, holds.mem_records, holds.id_eq⟩) once.1

namespace Book

variable {L : Type} [PriceLevels L] [LawfulLevels L]
variable {book book' : Book L} {event : Event} {id : OrderId} {i : Nat} {order : Order}

/-- The levels are those of the stored records and of some unlisted orders. -/
def Covers (book : Book L) : Prop := ∃ unlisted, Keeps book.levels (unlisted ++ book.index.records)

namespace Covers

theorem valid (covers : Covers book) : LevelView.Valid book.levels := by
  obtain ⟨_, keeps⟩ := covers
  exact keeps.valid

theorem of_empty (levels : book.levels = empty) (records : book.index.records = []) :
    Covers book := by
  refine ⟨[], ?_⟩
  rw [levels, records]
  exact .of_empty

theorem added {index : OrderIndex} (covers : Covers book)
    (stores : book.index.Stores event.order index) (size_pos : 0 < event.size) :
    Covers ⟨levelAdd book.levels event.side event.price event.size, index⟩ := by
  obtain ⟨unlisted, keeps⟩ := covers
  have grown := keeps.add event.order size_pos
  by_cases busy : event.id = OrderIndex.kEmpty
  · have stored := stores.records
    have free : [event.order].filter (fun o => !OrderIndex.isFree o) = [] := by
      simp [OrderIndex.isFree, Event.order, busy]
    rw [free, List.nil_append] at stored
    exact ⟨event.order :: unlisted, grown.perm ((stored.symm.append_left _).cons _)⟩
  · have stored := (stores.records_of_busy busy).symm.append_left unlisted
    exact ⟨unlisted, grown.perm (List.perm_middle.symm.trans stored)⟩

theorem reduced (covers : Covers book) (holds : book.index.Holds id i order) {delta : Quantity}
    (left : delta < order.remaining) :
    Covers ⟨levelSub book.levels order.side order.price delta,
      book.index.setRemaining i (order.remaining - delta)⟩ := by
  obtain ⟨unlisted, keeps⟩ := covers
  obtain ⟨rest, before, after⟩ := holds.exists_rest (order.remaining - delta)
  have split := (before.append_left unlisted).trans List.perm_middle
  have joined := (after.append_left unlisted).trans List.perm_middle
  exact ⟨unlisted, ((keeps.perm split).reduce left).perm joined.symm⟩

theorem removed {index : OrderIndex} (covers : Covers book)
    (removes : book.index.Removes order index) :
    Covers ⟨levelSub book.levels order.side order.price order.remaining, index⟩ := by
  obtain ⟨unlisted, keeps⟩ := covers
  have split := (removes.records.symm.append_left unlisted).trans List.perm_middle
  exact ⟨unlisted, (keeps.perm split).remove⟩

theorem step (covers : Covers book) (outcome : Outcome book event book')
    (size_pos : event.type = 1 → 0 < event.size) : Covers book' := by
  cases outcome with
  | ignored _ => exact covers
  | unknown _ _ => exact covers
  | added adds stores => exact covers.added stores (size_pos adds)
  | reduced _ holds left => exact covers.reduced holds left
  | removed _ _ removes => exact covers.removed removes

theorem exists_level (covers : Covers book) (holds : book.index.Holds id i order) :
    ∃ quantity, contents book.levels order.side order.price = some quantity ∧
      order.remaining ≤ quantity := by
  obtain ⟨_, keeps⟩ := covers
  exact keeps.exists_level (List.mem_append_right _ holds.mem_records)

/-- Taking from a level twice, the first time less than an order on it has. -/
theorem levelSub_levelSub (covers : Covers book) (holds : book.index.Holds id i order)
    {a : Quantity} (left : a < order.remaining) (b : Quantity) :
    Alike (levelSub (levelSub book.levels order.side order.price a) order.side order.price b)
      (levelSub book.levels order.side order.price (a + b)) := by
  obtain ⟨quantity, present, enough⟩ := covers.exists_level holds
  have once := LawfulLevels.valid_levelSub covers.valid order.side order.price a
  refine ⟨LawfulLevels.valid_levelSub once _ _ _,
    LawfulLevels.valid_levelSub covers.valid _ _ _, ?_⟩
  rw [LawfulLevels.contents_levelSub once, LawfulLevels.contents_levelSub covers.valid,
    LawfulLevels.contents_levelSub covers.valid,
    Ladder.levelSub_levelSub present (left.trans_le enough)]

end Covers

theorem covers_of_replay {hint : Nat} {events : List Event} (hhint : hint ≤ 2 ^ 62)
    (sizes : ∀ event ∈ events, event.type = 1 → 0 < event.size)
    (reached : replay hint events = .ok book) : book.index.Sound ∧ Covers book := by
  have asserted : (replay hint events : Except Fault (Book L)) ≠ .error .assertion := by
    rw [reached]
    nofun
  obtain ⟨same, reached', sound, covers⟩ := replay_invariant (I := fun _ book => Covers book)
    hhint asserted (fun _ _ levels records => .of_empty levels records)
    (fun before event book book' member _ covers outcome =>
      covers.step outcome (sizes event (member.subset (by simp)))) events List.prefix_rfl
  cases reached.symm.trans reached'
  exact ⟨sound, covers⟩

theorem Similar.refl (valid : LevelView.Valid book.levels) : Similar book book :=
  ⟨rfl, valid, valid, rfl⟩

/-- Two reductions of one id against their sum. The split falls before the remaining
quantity is used up, at it or past it. -/
theorem reduce_reduce (sound : book.index.Sound) (covers : Covers book)
    (distinct : book.index.Distinct) (id : OrderId) (a : Quantity) {b : Quantity} (nonneg : 0 ≤ b) :
    Corresponds Similar (book.reduce id a >>= fun book => book.reduce id b)
      (book.reduce id (a + b)) := by
  obtain missing | ⟨i, order, holds⟩ := sound.roomy.find_cases id
  · rw [reduce_of_missing missing, ok_bind, reduce_of_missing missing, reduce_of_missing missing]
    exact .refl covers.valid
  obtain ⟨index, erased, removes⟩ := sound.erase_spec holds
  by_cases left : a < order.remaining
  · have sound' := sound.setRemaining holds (order.remaining - a)
    have holds' := holds.setRemaining (order.remaining - a)
    rw [reduce_of_lt holds left, ok_bind]
    by_cases more : a + b < order.remaining
    · rw [reduce_of_lt holds more, reduce_of_lt holds' (lt_sub_iff_add_lt'.mpr more)]
      refine ⟨?_, covers.levelSub_levelSub holds left b⟩
      simp [OrderIndex.setRemaining, List.modify_modify_eq, sub_sub, Function.comp_def]
    · have spent := not_lt.mp more
      have erased' := (holds.erase_setRemaining sound (order.remaining - a)).trans erased
      rw [reduce_eq_cancel sound holds spent, cancel_of_erase holds erased,
        reduce_eq_cancel sound' holds' (sub_le_iff_le_add'.mpr spent),
        cancel_of_erase holds' erased']
      refine ⟨rfl, ?_⟩
      have twice := covers.levelSub_levelSub holds left (order.remaining - a)
      rwa [add_sub_cancel] at twice
  · have spent := not_lt.mp left
    have gone : index.find id = .ok none := holds.id_eq ▸ removes.find_none distinct
    have spent_both : order.remaining ≤ a + b := spent.trans (le_add_of_nonneg_right nonneg)
    rw [reduce_eq_cancel sound holds spent, cancel_of_erase holds erased, ok_bind,
      reduce_of_missing gone, reduce_eq_cancel sound holds spent_both,
      cancel_of_erase holds erased]
    exact .refl (covers.removed removes).valid

end Book

/-- The same pair of maps. A `std::map` is its entries in order, whatever its tree. -/
def MapLevels.Same (levels others : MapLevels) : Prop :=
  SideMap.entries levels.bids = SideMap.entries others.bids ∧
    SideMap.entries levels.asks = SideMap.entries others.asks

namespace Variant

def SameLevels : (v : Variant) → v.Levels → v.Levels → Prop
  | map, levels, others => MapLevels.Same levels others
  | linear, levels, others => levels = others
  | sortedVector, levels, others => levels = others
  | branchless, levels, others => levels = others

/-- The same whole state: both level containers, and every slot and field of the index. -/
structure SameState (v : Variant) (book other : Book v.Levels) : Prop where
  levels : v.SameLevels book.levels other.levels
  index : book.index = other.index

theorem vector_eq {locate : Locate} [LawfulLocate locate] {levels others : VectorLevels locate}
    (alike : Alike levels others) : levels = others := by
  have same : ∀ side, levels.book side = others.book side := fun side =>
    List.reverse_injective (congrFun alike.levels_eq side)
  cases levels
  cases others
  congr
  · exact same .buy
  · exact same .sell

theorem sameState_of_similar (v : Variant) {book other : Book v.Levels}
    (similar : Book.Similar book other) : v.SameState book other := by
  refine ⟨?_, similar.index⟩
  have alike := similar.levels
  cases v with
  | map => exact ⟨congrFun alike.levels_eq .buy, congrFun alike.levels_eq .sell⟩
  | linear => exact vector_eq alike
  | sortedVector => exact vector_eq alike
  | branchless => exact vector_eq alike

end Variant

/-- In a reached state in which no two stored records share an id, two reductions of any
id leave the same book as one by their sum, and a reduction by at least what remains the
same book as a deletion. -/
theorem reductions_compose (v : Variant) (hint : Nat) (events : List Event)
    (sizes : ∀ event ∈ events, event.type = 1 → 0 < event.size) (book : Book v.Levels)
    (reached : v.replay hint events = .ok book) (distinct : book.index.Distinct) (id : OrderId) :
    (∀ a b, 0 ≤ b → Corresponds v.SameState (book.reduce id a >>= fun book => book.reduce id b)
      (book.reduce id (a + b))) ∧
    (∀ d, (∀ (i : Nat) order, book.index.find id = .ok (some i) →
        book.index.slots[i]? = some order → order.remaining ≤ d) →
      book.reduce id d = book.cancel id) ∧
    (hint ≤ 2 ^ 62 → ∀ d, ∃ book', book.reduce id d = .ok book') := by
  by_cases hhint : hint ≤ 2 ^ 62
  · obtain ⟨sound, covers⟩ := Book.covers_of_replay hhint sizes reached
    refine ⟨fun a b nonneg => ?_, fun d spent => ?_, fun _ d => ?_⟩
    · exact (Book.reduce_reduce sound covers distinct id a nonneg).mono
        fun _ _ => v.sameState_of_similar
    · obtain missing | ⟨i, order, holds⟩ := sound.roomy.find_cases id
      · rw [Book.reduce_of_missing missing, Book.cancel_of_missing missing]
      · exact Book.reduce_eq_cancel sound holds (spent i order holds.find holds.at_slot)
    · have reduces : Event.Reduces ⟨2, id, d, 0, 0⟩ := .inl rfl
      obtain ⟨book', result, _⟩ := Book.reduce_cases sound reduces
      exact ⟨book', result⟩
  · obtain ⟨vacant, _⟩ := Book.vacant_of_large (lt_of_not_ge hhint) events book reached
    have failed : ∀ d, book.reduce id d = .error .outOfBounds := fun d => by
      rw [Book.reduce, OrderIndex.find_of_no_slots vacant, error_bind]
    refine ⟨fun a b _ => ?_, fun d _ => ?_, fun small => absurd small hhint⟩
    · rw [failed, failed, error_bind]
      exact rfl
    · rw [failed, Book.cancel, OrderIndex.find_of_no_slots vacant, error_bind]

/-- The second reduction takes what the first one left. -/
theorem reductions_compose_exact :
    ∃ book, Variant.linear.replay 4 [⟨1, 7, 10, 100, 1⟩, ⟨1, 8, 5, 100, 1⟩] = .ok book ∧
      Corresponds Variant.linear.SameState (book.reduce 7 4 >>= fun book => book.reduce 7 6)
        (book.reduce 7 (4 + 6)) := by
  refine ⟨_, rfl, ?_⟩
  refine (reductions_compose .linear 4 [⟨1, 7, 10, 100, 1⟩, ⟨1, 8, 5, 100, 1⟩] (by decide) _ rfl
    ?_ 7).1 4 6 (by decide)
  change List.Nodup _
  decide

end OrderBook
