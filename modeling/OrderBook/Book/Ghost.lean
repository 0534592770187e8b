import OrderBook.Book.Wrapping
import OrderBook.Replay.Files

/-!
# Ghost levels

A level is taken as absent when its quantity is zero, so a level that is kept with a
quantity of zero or less is a ghost. `level_sub` removes such levels. `level_add` does not,
and the loader lets any size through: one that is not positive, and also one that takes the
sum at its price past the largest `int64_t`. So a file decides whether ghosts appear. A run
is free of them exactly as long as each new order leaves a positive quantity at its price
that is a 64 bit integer.
-/

namespace OrderBook

open PriceLevels Loader Word

/-- Every level has something on it, so a best quantity of zero means an empty side. -/
structure NoGhost {L : Type} [PriceLevels L] (l : L) : Prop where
  level_pos : ∀ side rank, rank < depth l side → 0 < (nth l side rank).quantity
  best_zero_iff : ∀ side, (best l side).quantity = 0 ↔ depth l side = 0

/-- Every level of a ladder has a quantity of this kind. -/
def Ladder.All (P : Quantity → Prop) (ladder : Ladder) : Prop :=
  ∀ side price quantity, ladder side price = some quantity → P quantity

namespace Ladder.All

variable {P : Quantity → Prop} {ladder : Ladder}

theorem empty (P : Quantity → Prop) : Ladder.empty.All P := fun _ _ _ present => nomatch present

theorem levelSub {side : Side} {price : Price} {amount : Quantity} (all : ladder.All P)
    (left : ∀ quantity, ladder side price = some quantity → 0 < quantity - amount →
      P (quantity - amount)) : (ladder.levelSub side price amount).All P := by
  cases held : ladder side price with
  | none =>
      rw [levelSub_of_none held]
      exact all
  | some resting =>
      rw [levelSub_of_some held]
      intro s p quantity present
      rw [set_apply] at present
      split at present
      · split at present
        · cases present
        · cases present
          exact left resting held (not_le.mp ‹_›)
      · exact all s p quantity present

theorem getD (all : ladder.All P) (zero : P 0) (side : Side) (price : Price) :
    P ((ladder side price).getD 0) := by
  cases held : ladder side price with
  | none => exact zero
  | some quantity => exact all side price quantity held

theorem levelAdd_iff (all : ladder.All P) (side : Side) (price : Price) (qty : Quantity) :
    (ladder.levelAdd side price qty).All P ↔ P ((ladder side price).getD 0 + qty) := by
  constructor
  · intro all'
    exact all' side price _ (set_self _ _ _ _)
  · intro added s p quantity present
    rw [Ladder.levelAdd, set_apply] at present
    split at present
    · cases present
      exact added
    · exact all s p quantity present

end Ladder.All

section Lawful

variable {L : Type} [PriceLevels L] [LawfulLevels L] {l : L}

theorem noGhost_iff (valid : LevelView.Valid l) : NoGhost l ↔ (contents l).All (0 < ·) := by
  constructor
  · intro clear side
    exact (forall_rank_iff valid).mp (clear.level_pos side)
  · intro positive
    have level_pos : ∀ side rank, rank < depth l side → 0 < (nth l side rank).quantity :=
      fun side => (forall_rank_iff valid).mpr (positive side)
    refine ⟨level_pos, fun side => ⟨fun zero => ?_, fun none => ?_⟩⟩
    · by_contra some
      have best_pos := level_pos side 0 (Nat.pos_of_ne_zero some)
      rw [← (consistent_of_valid valid side).best_eq, zero] at best_pos
      exact lt_irrefl 0 best_pos
    · rw [(consistent_of_valid valid side).best_absent none]
      rfl

end Lawful

namespace Book

/-- No reached book shows a ghost level. -/
def NoGhosts (L : Type) [PriceLevels L] [WrappingLevels L] (hint : Nat) (events : List Event) :
    Prop :=
  ∀ before, before <+: events → ∀ book : Book L, replayWrapping hint before = .ok book →
    NoGhost book.levels

/-- Each new order leaves a positive quantity at its price, and one that fits. -/
def AddsLeavePositive (L : Type) [PriceLevels L] [WrappingLevels L] (hint : Nat)
    (events : List Event) : Prop :=
  ∀ before event, before ++ [event] <+: events → event.type = 1 →
    ∀ book : Book L, replayWrapping hint before = .ok book →
      0 < quantityAt book.levels event.side event.price + event.size ∧
        Fits (quantityAt book.levels event.side event.price + event.size)

variable {L : Type} [PriceLevels L] [LawfulLevels L] [WrappingLevels L]
variable {hint : Nat} {events before : List Event} {book book' : Book L} {event : Event}

/-- Whatever the messages do, what is kept of a level is a 64 bit integer. -/
theorem step_fits (valid : LevelView.Valid book.levels) (all : (contents book.levels).All Fits)
    (fits_size : Fits event.size) (applied : book.applyWrapping event = .ok book') :
    LevelView.Valid book'.levels ∧ (contents book'.levels).All Fits := by
  obtain ⟨_, levels⟩ | ⟨_, levels | ⟨side, price, amount, levels⟩⟩ :=
    levels_of_applyWrapping fits_size applied
  · rw [levels, LawfulLevels.contents_levelAdd valid, all.levelAdd_iff,
      ← LawfulLevels.quantityAt_eq valid, add_sub_cancel]
    exact ⟨LawfulLevels.valid_levelAdd valid _ _ _, fits_wrap _⟩
  · rw [levels]
    exact ⟨valid, all⟩
  · rw [levels, WrappingLevels.levelSubWrapping_eq, LawfulLevels.contents_levelSub valid]
    refine ⟨LawfulLevels.valid_levelSub valid _ _ _, all.levelSub fun quantity held _ => ?_⟩
    rw [LawfulLevels.quantityAt_eq valid, held, Option.getD_some, sub_sub_cancel]
    exact fits_wrap _

/-- The run rule for the range: what is kept of a level is a 64 bit integer throughout. -/
theorem fits_of_replayWrapping (sizes : ∀ event ∈ events, Fits event.size) :
    ∀ before (book : Book L), replayWrapping hint before = .ok book → before <+: events →
      LevelView.Valid book.levels ∧ (contents book.levels).All Fits := by
  refine Run.reached_induction (fun book constructed _ => ?_) ?_
  · obtain ⟨index, _, result⟩ := Run.of_bind_eq_ok constructed
    cases result
    exact ⟨LawfulLevels.valid_empty, contents_empty (L := L) ▸ .empty Fits⟩
  · intro before event book book' _ ih applied member
    obtain ⟨valid, all⟩ := ih ((List.prefix_append _ _).trans member)
    exact step_fits valid all (sizes event (member.subset (by simp))) applied

/-- One message keeps a ladder positive unless it is a new order that does not leave it so. -/
theorem step_positive_iff (valid : LevelView.Valid book.levels)
    (all : (contents book.levels).All Fits) (positive : (contents book.levels).All (0 < ·))
    (fits_size : Fits event.size) (applied : book.applyWrapping event = .ok book') :
    (contents book'.levels).All (0 < ·) ↔ (event.type = 1 →
      0 < quantityAt book.levels event.side event.price + event.size ∧
        Fits (quantityAt book.levels event.side event.price + event.size)) := by
  obtain ⟨adds, levels⟩ | ⟨not_add, levels | ⟨side, price, amount, levels⟩⟩ :=
    levels_of_applyWrapping fits_size applied
  · have here := LawfulLevels.quantityAt_eq valid event.side event.price
    have fits : Fits ((contents book.levels event.side event.price).getD 0) :=
      all.getD (by decide) _ _
    have nonneg : 0 ≤ (contents book.levels event.side event.price).getD 0 := by
      cases held : contents book.levels event.side event.price with
      | none => exact le_rfl
      | some quantity => exact (positive _ _ _ held).le
    rw [levels, LawfulLevels.contents_levelAdd valid, positive.levelAdd_iff, here,
      add_sub_cancel, wrap_add_pos_iff nonneg fits fits_size]
    simp only [adds, true_imp_iff]
  · rw [levels]
    exact iff_of_true positive fun adds => absurd adds not_add
  · rw [levels, WrappingLevels.levelSubWrapping_eq, LawfulLevels.contents_levelSub valid]
    exact iff_of_true (positive.levelSub fun _ _ left => left) fun adds => absurd adds not_add

/-- And for the sign, while the new orders leave it positive. -/
theorem positive_of_replayWrapping (sizes : ∀ event ∈ events, Fits event.size)
    (leave : AddsLeavePositive L hint events) :
    ∀ before (book : Book L), replayWrapping hint before = .ok book → before <+: events →
      (contents book.levels).All (0 < ·) := by
  refine Run.reached_induction (fun book constructed _ => ?_) ?_
  · obtain ⟨index, _, result⟩ := Run.of_bind_eq_ok constructed
    cases result
    exact contents_empty (L := L) ▸ .empty (0 < ·)
  · intro before event book book' reached ih applied member
    have earlier : before <+: events := (List.prefix_append _ _).trans member
    obtain ⟨valid, all⟩ := fits_of_replayWrapping sizes before book reached earlier
    have fits_size := sizes event (member.subset (by simp))
    exact (step_positive_iff valid all (ih earlier) fits_size applied).mpr
      fun adds => leave before event member adds book reached

theorem noGhosts_iff (sizes : ∀ event ∈ events, Fits event.size)
    (asserted : (replayWrapping hint events : Except Fault (Book L)) ≠ .error .assertion) :
    NoGhosts L hint events ↔ AddsLeavePositive L hint events := by
  have kept : ∀ before (book : Book L), replayWrapping hint before = .ok book →
      before <+: events → LevelView.Valid book.levels ∧ (contents book.levels).All Fits :=
    fits_of_replayWrapping sizes
  constructor
  · intro clear before event member adds book reached
    have earlier : before <+: events := (List.prefix_append _ _).trans member
    obtain ⟨valid, all⟩ := kept before book reached earlier
    obtain ⟨book', applied⟩ := exists_wrapping_of_add asserted member reached adds
    have reached' := (replayWrapping_snoc reached event).trans applied
    have positive := (noGhost_iff valid).mp (clear before earlier book reached)
    have positive' := (noGhost_iff (kept _ book' reached' member).1).mp
      (clear _ member book' reached')
    have fits_size := sizes event (member.subset (by simp))
    exact (step_positive_iff valid all positive fits_size applied).mp positive' adds
  · intro leave before member book reached
    exact (noGhost_iff (kept before book reached member).1).mpr
      (positive_of_replayWrapping sizes leave before book reached member)

end Book

/-- The size column is parsed into a 64 bit integer or keeps its zero. -/
theorem fits_size_of_loaded {text : List Char} {out : List Event} :
    ∀ event ∈ (loadLobsterMessages (some text) out).2, Fits event.size := by
  intro event member
  obtain ⟨row, _, parsed⟩ := List.mem_filterMap.mp member
  have size := (representable_of_parsed parsed).size
  exact ⟨size.1, Int.lt_add_one_of_le size.2⟩

/-- Two orders on one level up to the largest quantity, a part of which is executed, and a
negative size that does not use up the rest. -/
def busyFile : List Char :=
  "0,1,5,9223372036854775800,7,1\n0,1,6,7,7,1\n0,4,5,90,7,1\n0,1,9,-50,7,1\n".toList

/-- One buy order at price 7 with size zero. -/
def zeroSizeFile : List Char := "0,1,5,0,7,1\n".toList

/-- Two orders of positive size whose sum is cut to the most negative quantity. -/
example : ¬ Book.AddsLeavePositive Variant.linear.Levels 2 (loadLobsterMessages
    (some "0,1,1,9223372036854775807,100,1\n0,1,2,1,100,1\n".toList) []).2 :=
  fun leave => absurd (Run.forall_snoc_iff.mp leave) (by decide)

end OrderBook
