import OrderBook.Foundation.Run
import OrderBook.Reference.Stream
import Mathlib.Tactic.Linarith

/-!
# The capacity estimate of a stream

`analyse` counts the new orders up and the deletions down, whatever their ids, and
keeps the largest count. It is meant to bound the orders that are live at any time.

The count differs from the number of live orders in two ways. An order that an
execution or a cancellation exhausts is still counted, which is the safe direction.
A deletion of an id that is not live is counted down all the same, which is not. The
estimate is a bound exactly when the former make up for the latter at the peak.
-/

namespace OrderBook

structure StreamStats where
  addCount : Nat := 0
  peakLiveEstimate : Nat := 0
  deriving DecidableEq, Repr

/-- The local variables of `analyse`. -/
structure Analysis where
  stats : StreamStats := {}
  live : Int := 0
  peak : Int := 0
  deriving DecidableEq, Repr

/-- One turn of the loop of `analyse`. -/
def Analysis.read (analysis : Analysis) (event : Event) : Analysis :=
  if event.type = 1 then
    let live := analysis.live + 1
    { stats := { analysis.stats with addCount := analysis.stats.addCount + 1 }
      live
      peak := if live > analysis.peak then live else analysis.peak }
  else if event.type = 3 then { analysis with live := analysis.live - 1 }
  else analysis

def Analysis.of (events : List Event) : Analysis := events.foldl read {}

def analyse (events : List Event) : StreamStats :=
  let analysis := Analysis.of events
  { analysis.stats with
    peakLiveEstimate := (if analysis.peak < 0 then 0 else analysis.peak).toNat }

namespace Analysis

@[simp] theorem of_nil : of [] = {} := rfl

@[simp] theorem of_snoc (events : List Event) (event : Event) :
    of (events ++ [event]) = (of events).read event := by
  simp [of]

variable {analysis : Analysis} {event : Event}

theorem live_read (analysis : Analysis) (event : Event) :
    (analysis.read event).live = analysis.live + (if event.type = 1 then 1 else 0) -
      (if event.type = 3 then 1 else 0) := by
  simp only [read]
  split
  · simp [*]
  · split <;> simp

theorem peak_read (analysis : Analysis) (event : Event) :
    (analysis.read event).peak =
      if event.type = 1 then max analysis.peak (analysis.live + 1) else analysis.peak := by
  simp only [read]
  split
  · exact (max_def_lt _ _).symm
  · split <;> rfl

theorem live_le_peak (events : List Event) : (of events).live ≤ (of events).peak := by
  induction events using List.reverseRecOn with
  | nil => exact le_rfl
  | append_singleton events event ih =>
      rw [of_snoc, live_read, peak_read]
      by_cases adds : event.type = 1
      · simp [adds]
      · simp only [adds, if_false]
        split <;> omega

/-- The peak is the largest count of a prefix. -/
theorem le_peak_iff (events : List Event) (n : Int) :
    n ≤ (of events).peak ↔ ∃ before, before <+: events ∧ n ≤ (of before).live := by
  induction events using List.reverseRecOn with
  | nil => simp [List.prefix_nil]
  | append_singleton events event ih =>
      have split_last : (∃ before, before <+: events ++ [event] ∧ n ≤ (of before).live) ↔
          n ≤ (of (events ++ [event])).live ∨
            ∃ before, before <+: events ∧ n ≤ (of before).live := by
        simp only [List.prefix_concat_iff, or_and_right, exists_or, exists_eq_left]
      have below := live_le_peak events
      rw [split_last, ← ih, of_snoc, peak_read, live_read]
      by_cases adds : event.type = 1
      · simp [adds, or_comm]
      · simp only [adds, if_false]
        constructor
        · exact .inr
        · rintro (later | earlier)
          · split at later <;> omega
          · exact earlier

end Analysis

theorem le_peakLiveEstimate_iff (events : List Event) (n : Nat) :
    n ≤ (analyse events).peakLiveEstimate ↔
      ∃ before, before <+: events ∧ (n : Int) ≤ (Analysis.of before).live := by
  rw [← Analysis.le_peak_iff]
  have start : 0 ≤ (Analysis.of events).peak :=
    (Analysis.le_peak_iff events 0).mpr ⟨[], List.nil_prefix, le_rfl⟩
  rw [analyse, if_neg (not_lt.mpr start)]
  exact Int.le_toNat start

namespace LiveOrders

/-- A new order never takes the id of an order that is live. -/
def NoLiveReuse (events : List Event) : Prop :=
  Run.Always step (fun live event => event.type = 1 → live.lookup event.id = none) ∅ events

instance (events : List Event) : Decidable (NoLiveReuse events) :=
  inferInstanceAs (Decidable (Run.Always _ _ _ _))

/-- A deletion of an id that is not live. -/
def Ghost (live : LiveOrders) (event : Event) : Prop :=
  event.type = 3 ∧ live.lookup event.id = none

instance (live : LiveOrders) (event : Event) : Decidable (live.Ghost event) :=
  inferInstanceAs (Decidable (_ ∧ _))

/-- A cancellation or an execution that takes all that is left of a live order. -/
def Spends (live : LiveOrders) (event : Event) : Prop :=
  event.Reduces ∧ ∃ resting ∈ live.lookup event.id, resting.remaining ≤ event.size

instance (live : LiveOrders) (event : Event) : Decidable (live.Spends event) :=
  inferInstanceAs (Decidable (_ ∧ ∃ resting ∈ live.lookup event.id, _))

/-- The number of deletions in a stream whose id is not live. -/
def ghosts (events : List Event) : Nat := Run.tally step Ghost ∅ events

/-- The number of orders in a stream that are used up instead of being deleted. -/
def exhausted (events : List Event) : Nat := Run.tally step Spends ∅ events

variable {live : LiveOrders} {event : Event} {events : List Event}

/-- One event changes the number of live orders as `analyse` counts it, corrected by
the orders it spends and the deletions that have no order. -/
theorem count_step (fresh : event.type = 1 → live.lookup event.id = none) :
    ((live.step event).count : Int) + (if live.Spends event then 1 else 0) =
      live.count + (if event.type = 1 then 1 else 0) - (if event.type = 3 then 1 else 0) +
        (if live.Ghost event then 1 else 0) := by
  by_cases adds : event.type = 1
  · have no_ghost : ¬ live.Ghost event := fun ghost =>
      absurd (adds.symm.trans ghost.1) (by decide)
    have no_spend : ¬ live.Spends event := fun spends => spends.1.type_ne.1 adds
    rw [step_of_add adds, count_put_of_fresh (fresh adds)]
    simp [adds, no_ghost, no_spend]
  cases found : live.lookup event.id with
  | none =>
      have no_spend : ¬ live.Spends event := by simp [Spends, found]
      rw [step_of_absent found adds]
      simp [adds, no_spend, Ghost, found]
  | some resting =>
      have no_ghost : ¬ live.Ghost event := by simp [Ghost, found]
      by_cases cancels : event.type = 3
      · have no_spend : ¬ live.Spends event := fun spends => spends.1.type_ne.2 cancels
        rw [step_of_cancel cancels, ← count_drop found]
        simp [cancels, no_ghost, no_spend]
      by_cases spends : live.Spends event
      · obtain ⟨reduces, _, held, spent⟩ := id spends
        rw [found] at held
        cases held
        rw [step_of_reduces reduces, reduce_of_le found spent, ← count_drop found]
        simp [adds, cancels, no_ghost, spends]
      · have same : (live.step event).count = live.count := by
          by_cases reduces : event.Reduces
          · have left : event.size < resting.remaining := by
              by_contra spent
              exact spends ⟨reduces, resting, found, not_lt.mp spent⟩
            rw [step_of_reduces reduces, reduce_of_lt found left, count_update found]
          · rw [step_of_ignored ⟨adds, cancels, reduces⟩]
        simp [same, adds, cancels, no_ghost, spends]

/-- The count of `analyse` after a stream, with the two corrections. -/
theorem count_after (fresh : NoLiveReuse events) : ∀ before, before <+: events →
    ((after before).count : Int) + exhausted before =
      (Analysis.of before).live + ghosts before := by
  apply Run.prefix_induction
  · rfl
  · intro before event member ih
    have unused : event.type = 1 → (after before).lookup event.id = none := fresh.at member
    have stepped := count_step unused
    have spent : exhausted (before ++ [event]) =
        exhausted before + if (after before).Spends event then 1 else 0 :=
      Run.tally_snoc step Spends ∅ before event
    have ghost : ghosts (before ++ [event]) =
        ghosts before + if (after before).Ghost event then 1 else 0 :=
      Run.tally_snoc step Ghost ∅ before event
    rw [after_snoc, Analysis.of_snoc, Analysis.live_read, spent, ghost]
    push_cast
    linarith

end LiveOrders

open LiveOrders

/-- The estimate bounds the live orders of a stream that reuses no live id exactly if,
for the live orders after any prefix, there is a prefix where the live and the used up
orders outnumber them by the deletions without an order. -/
theorem peakLiveEstimate_bounds_iff (events : List Event) (fresh : NoLiveReuse events) :
    (∀ before, before <+: events → (after before).count ≤ (analyse events).peakLiveEstimate) ↔
      ∀ before, before <+: events → ∃ other, other <+: events ∧
        (after before).count + ghosts other ≤ (after other).count + exhausted other := by
  refine forall₂_congr fun before member => ?_
  rw [le_peakLiveEstimate_iff]
  refine exists_congr fun other => and_congr_right fun member' => ?_
  have balance := count_after fresh other member'
  omega

/-- Deletions without an order do no harm as long as they never outnumber the orders
that were used up. -/
theorem count_le_peakLiveEstimate {events : List Event} (fresh : NoLiveReuse events)
    (covered : ∀ before, before <+: events → ghosts before ≤ exhausted before) :
    ∀ before, before <+: events → (after before).count ≤ (analyse events).peakLiveEstimate := by
  intro before member
  rw [le_peakLiveEstimate_iff]
  have balance := count_after fresh before member
  have none_more := covered before member
  exact ⟨before, member, by omega⟩

/-- An execution uses up an order, and a deletion then names it again. -/
theorem peakLiveEstimate_bounds_reused :
    (after [⟨1, 7, 5, 100, 1⟩, ⟨4, 7, 5, 100, 1⟩, ⟨3, 7, 5, 100, 1⟩]).count ≤ (analyse
      [⟨1, 7, 5, 100, 1⟩, ⟨4, 7, 5, 100, 1⟩, ⟨3, 7, 5, 100, 1⟩]).peakLiveEstimate := by
  refine (peakLiveEstimate_bounds_iff _ (by decide)).mpr ?_ _ List.prefix_rfl
  simp only [← List.mem_inits]
  decide

/-- A deletion of an order that the stream never added, then a new order. -/
theorem not_peakLiveEstimate_bounds_unknown :
    ¬ ∀ events, NoLiveReuse events → ∀ before, before <+: events →
      (after before).count ≤ (analyse events).peakLiveEstimate := by
  intro bounds
  exact absurd
    (bounds [⟨3, 1, 5, 100, 1⟩, ⟨1, 2, 5, 100, 1⟩] (by decide) _ List.prefix_rfl) (by decide)

end OrderBook
