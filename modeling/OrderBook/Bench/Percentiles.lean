import OrderBook.Foundation.Run
import OrderBook.Foundation.Selection
import Mathlib.Data.Rat.Floor
import Mathlib.Algebra.Order.Floor.Semiring
import Mathlib.Tactic.Linarith
import Mathlib.Tactic.NormNum

/-!
# Exact percentiles

The samples of one operation are collected in a buffer and the percentiles selected
from it, seven selections one after another on the same buffer. A selection reorders
the buffer, so each is specified by the rank of its answer in the samples as they were
recorded, which no reordering changes.

The share that a percentile asks for is an exact rational here.
-/

namespace OrderBook

structure Percentiles where
  count : Nat := 0
  min : Nat := 0
  p50 : Nat := 0
  p90 : Nat := 0
  p99 : Nat := 0
  p999 : Nat := 0
  p9999 : Nat := 0
  max : Nat := 0
  deriving DecidableEq, Repr

/-- The recorded samples, and how many the buffer was reserved for. -/
structure LatencySamples where
  reserved : Nat
  samples : List Nat
  deriving DecidableEq, Repr

namespace LatencySamples

def new (capacity : Nat) : LatencySamples := ⟨capacity, []⟩

def record (buffer : LatencySamples) (sample : Nat) : LatencySamples :=
  { buffer with samples := buffer.samples ++ [sample] }

def size (buffer : LatencySamples) : Nat := buffer.samples.length

@[simp] theorem reserved_record (buffer : LatencySamples) (sample : Nat) :
    (buffer.record sample).reserved = buffer.reserved := rfl

@[simp] theorem size_record (buffer : LatencySamples) (sample : Nat) :
    (buffer.record sample).size = buffer.size + 1 := List.length_append

/-- The position of the smallest sample whose cumulative share reaches the fraction. -/
def rank (buffer : LatencySamples) (fraction : ℚ) : Nat :=
  let n : ℚ := buffer.size
  let idx := ⌈fraction * n⌉₊
  let idx := if idx > 0 then idx - 1 else idx
  if idx ≥ buffer.size then buffer.size - 1 else idx

def select (nth : NthElement Nat) (buffer : LatencySamples) (k : Nat) :
    Except Fault (Nat × LatencySamples) :=
  let samples := nth.run buffer.samples k
  match samples[k]? with
  | none => .error .outOfBounds
  | some sample => .ok (sample, { buffer with samples })

def compute (nth : NthElement Nat) (buffer : LatencySamples) :
    Except Fault (Percentiles × LatencySamples) := do
  let out : Percentiles := { count := buffer.size }
  if buffer.samples.isEmpty then return (out, buffer)
  let (min, buffer) ← buffer.select nth 0
  let (p50, buffer) ← buffer.select nth (buffer.rank (50 / 100))
  let (p90, buffer) ← buffer.select nth (buffer.rank (90 / 100))
  let (p99, buffer) ← buffer.select nth (buffer.rank (99 / 100))
  let (p999, buffer) ← buffer.select nth (buffer.rank (999 / 1000))
  let (p9999, buffer) ← buffer.select nth (buffer.rank (9999 / 10000))
  let (max, buffer) ← buffer.select nth (buffer.size - 1)
  return ({ out with min, p50, p90, p99, p999, p9999, max }, buffer)

end LatencySamples

/-- A recorded sample at which the cumulative share of the samples reaches a fraction,
and below which it does not. -/
structure NearestRank (samples : List Nat) (fraction : ℚ) (v : Nat) : Prop where
  mem : v ∈ samples
  reaches : fraction * samples.length ≤ samples.countP (· ≤ v)
  before : samples.countP (· < v) < fraction * samples.length

namespace NearestRank

variable {samples others : List Nat} {f g : ℚ} {u v : Nat}

theorem perm (nearest : NearestRank samples f v) (perm : samples.Perm others) :
    NearestRank others f v where
  mem := perm.mem_iff.mp nearest.mem
  reaches := by
    rw [← perm.length_eq, ← perm.countP_eq]
    exact nearest.reaches
  before := by
    rw [← perm.length_eq, ← perm.countP_eq]
    exact nearest.before

theorem mono (first : NearestRank samples f u) (second : NearestRank samples g v)
    (le : f ≤ g) : u ≤ v := by
  by_contra above
  have counted := countP_le_countP_lt (not_le.mp above) samples
  have shares : f * samples.length ≤ g * samples.length :=
    mul_le_mul_of_nonneg_right le (Nat.cast_nonneg _)
  have casted : (samples.countP (· ≤ v) : ℚ) ≤ samples.countP (· < u) := Nat.cast_le.mpr counted
  linarith [first.before, second.reaches]

theorem unique (first : NearestRank samples f u) (second : NearestRank samples f v) : u = v :=
  le_antisymm (first.mono second le_rfl) (second.mono first le_rfl)

end NearestRank

namespace Percentiles

/-- The exact percentiles of some samples. -/
structure Exact (samples : List Nat) (out : Percentiles) : Prop where
  count : out.count = samples.length
  min : IsLeast {x | x ∈ samples} out.min
  p50 : NearestRank samples (50 / 100) out.p50
  p90 : NearestRank samples (90 / 100) out.p90
  p99 : NearestRank samples (99 / 100) out.p99
  p999 : NearestRank samples (999 / 1000) out.p999
  p9999 : NearestRank samples (9999 / 10000) out.p9999
  max : IsGreatest {x | x ∈ samples} out.max

def Ordered (out : Percentiles) : Prop :=
  out.min ≤ out.p50 ∧ out.p50 ≤ out.p90 ∧ out.p90 ≤ out.p99 ∧ out.p99 ≤ out.p999 ∧
    out.p999 ≤ out.p9999 ∧ out.p9999 ≤ out.max

namespace Exact

variable {samples others : List Nat} {out out' : Percentiles}

theorem perm (exact : Exact samples out) (perm : samples.Perm others) : Exact others out where
  count := exact.count.trans perm.length_eq
  min := by simpa only [perm.mem_iff] using exact.min
  p50 := exact.p50.perm perm
  p90 := exact.p90.perm perm
  p99 := exact.p99.perm perm
  p999 := exact.p999.perm perm
  p9999 := exact.p9999.perm perm
  max := by simpa only [perm.mem_iff] using exact.max

theorem unique (first : Exact samples out) (second : Exact samples out') : out = out' := by
  cases out
  cases out'
  rw [Percentiles.mk.injEq]
  exact ⟨first.count.trans second.count.symm, first.min.unique second.min,
    first.p50.unique second.p50, first.p90.unique second.p90, first.p99.unique second.p99,
    first.p999.unique second.p999, first.p9999.unique second.p9999,
    first.max.unique second.max⟩

theorem ordered (exact : Exact samples out) : out.Ordered :=
  ⟨exact.min.2 exact.p50.mem, exact.p50.mono exact.p90 (by norm_num),
    exact.p90.mono exact.p99 (by norm_num), exact.p99.mono exact.p999 (by norm_num),
    exact.p999.mono exact.p9999 (by norm_num), exact.max.2 exact.p9999.mem⟩

end Exact

end Percentiles

namespace LatencySamples

variable {nth : NthElement Nat} {buffer : LatencySamples} {samples : List Nat}

/-- The rank of a fraction of the samples is a position among them, one below the
rounded up share: where there is a sample, neither the decrement nor the clamp acts
on an edge. -/
theorem rank_spec {fraction : ℚ} (pos : 0 < fraction) (le_one : fraction ≤ 1)
    (nonempty : 0 < buffer.size) :
    buffer.rank fraction + 1 = ⌈fraction * buffer.size⌉₊ ∧ buffer.rank fraction < buffer.size := by
  have size_pos : (0 : ℚ) < buffer.size := Nat.cast_pos.mpr nonempty
  have ceil_pos : 0 < ⌈fraction * buffer.size⌉₊ := Nat.ceil_pos.mpr (mul_pos pos size_pos)
  have ceil_le : ⌈fraction * buffer.size⌉₊ ≤ buffer.size :=
    Nat.ceil_le.mpr (mul_le_of_le_one_left size_pos.le le_one)
  have within : ¬ ⌈fraction * buffer.size⌉₊ - 1 ≥ buffer.size := by omega
  simp only [rank, gt_iff_lt, ceil_pos, if_true, within, if_false]
  omega

/-- A selection from a reordered buffer picks by the rank in the recorded samples. -/
theorem select_spec (nth : NthElement Nat) (perm : buffer.samples.Perm samples) {k : Nat}
    (within : k < samples.length) : ∃ v after, buffer.select nth k = .ok (v, after) ∧
      HasRank samples k v ∧ after.samples.Perm samples := by
  rw [← perm.length_eq] at within
  obtain ⟨v, placed, ranked⟩ := nth.exists_hasRank within
  refine ⟨v, { buffer with samples := nth.run buffer.samples k }, ?_, ranked.perm perm,
    (nth.perm _ _ within).trans perm⟩
  simp only [select, placed]

theorem select_rank (nth : NthElement Nat) (perm : buffer.samples.Perm samples)
    (nonempty : samples ≠ []) (fraction : ℚ) (pos : 0 < fraction) (le_one : fraction ≤ 1) :
    ∃ v after, buffer.select nth (buffer.rank fraction) = .ok (v, after) ∧
      NearestRank samples fraction v ∧ after.samples.Perm samples := by
  have size : buffer.size = samples.length := perm.length_eq
  have size_pos : 0 < buffer.size := size ▸ List.length_pos_of_ne_nil nonempty
  obtain ⟨next, within⟩ := rank_spec pos le_one size_pos
  rw [size] at next within
  obtain ⟨v, after, selected, ranked, reordered⟩ := select_spec nth perm within
  refine ⟨v, after, selected, ⟨ranked.mem, Nat.ceil_le.mp ?_, Nat.lt_ceil.mp ?_⟩, reordered⟩
  · rw [← next]
    exact ranked.upTo
  · rw [← next]
    exact Nat.lt_succ_of_le ranked.below

theorem compute_spec (nth : NthElement Nat) (nonempty : buffer.samples ≠ []) :
    ∃ out after, buffer.compute nth = .ok (out, after) ∧ out.Exact buffer.samples ∧
      after.samples.Perm buffer.samples := by
  have pos := List.length_pos_of_ne_nil nonempty
  obtain ⟨min, after, min_eq, least, perm⟩ := select_spec nth (.refl buffer.samples) pos
  obtain ⟨p50, after50, p50_eq, nearest50, perm⟩ :=
    select_rank nth perm nonempty (50 / 100) (by norm_num) (by norm_num)
  obtain ⟨p90, after90, p90_eq, nearest90, perm⟩ :=
    select_rank nth perm nonempty (90 / 100) (by norm_num) (by norm_num)
  obtain ⟨p99, after99, p99_eq, nearest99, perm⟩ :=
    select_rank nth perm nonempty (99 / 100) (by norm_num) (by norm_num)
  obtain ⟨p999, after999, p999_eq, nearest999, perm⟩ :=
    select_rank nth perm nonempty (999 / 1000) (by norm_num) (by norm_num)
  obtain ⟨p9999, after9999, p9999_eq, nearest9999, perm⟩ :=
    select_rank nth perm nonempty (9999 / 10000) (by norm_num) (by norm_num)
  have last : after9999.size - 1 + 1 = buffer.samples.length := by
    rw [size, perm.length_eq, Nat.sub_add_cancel pos]
  obtain ⟨max, afterMax, max_eq, greatest, perm⟩ :=
    select_spec nth perm (Nat.lt_of_succ_le last.le)
  refine ⟨⟨buffer.size, min, p50, p90, p99, p999, p9999, max⟩, afterMax, ?_,
    ⟨rfl, least.isLeast, nearest50, nearest90, nearest99, nearest999, nearest9999,
      greatest.isGreatest last⟩, perm⟩
  have filled : buffer.samples.isEmpty = false := List.isEmpty_eq_false_iff.mpr nonempty
  simp only [compute, filled, Bool.false_eq_true, if_false, min_eq, p50_eq, p90_eq, p99_eq,
    p999_eq, p9999_eq, max_eq, Run.ok_bind]
  rfl

end LatencySamples

open LatencySamples

/-- The percentiles of recorded samples are their exact nearest rank values, in order.
They are the same for every order of recording and every selection, in particular when
they are computed again from the buffer that the first computation leaves. -/
theorem compute_exact (nth : NthElement Nat) (buffer : LatencySamples)
    (nonempty : buffer.samples ≠ []) :
    ∃ out after, buffer.compute nth = .ok (out, after) ∧
      out.Exact buffer.samples ∧ out.Ordered ∧
      after.samples.Perm buffer.samples ∧ (∃ again, after.compute nth = .ok (out, again)) ∧
      ∀ (nth' : NthElement Nat) (other : LatencySamples), other.samples.Perm buffer.samples →
        ∃ after', other.compute nth' = .ok (out, after') := by
  obtain ⟨out, after, computed, exact, perm⟩ := compute_spec nth nonempty
  have independent : ∀ (nth' : NthElement Nat) (other : LatencySamples),
      other.samples.Perm buffer.samples → ∃ after', other.compute nth' = .ok (out, after') := by
    intro nth' other reordered
    have filled : other.samples ≠ [] := fun vacant => nonempty (vacant ▸ reordered).symm.eq_nil
    obtain ⟨out', after', computed', exact', _⟩ := compute_spec nth' filled
    rw [(exact'.perm reordered).unique exact] at computed'
    exact ⟨after', computed'⟩
  exact ⟨out, after, computed, exact, exact.ordered, perm, independent nth after perm, independent⟩

/-- Three samples, two of them equal. -/
theorem compute_exact_three :
    ∃ out after, (⟨4, [30, 10, 30]⟩ : LatencySamples).compute .bySorting = .ok (out, after) ∧
      out.Exact [30, 10, 30] ∧ out.Ordered := by
  obtain ⟨out, after, computed, exact, ordered, _⟩ :=
    compute_exact .bySorting ⟨4, [30, 10, 30]⟩ (by simp)
  exact ⟨out, after, computed, exact, ordered⟩

end OrderBook
