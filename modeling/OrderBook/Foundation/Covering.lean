import Mathlib.Algebra.BigOperators.Group.Multiset.Basic
import Mathlib.Algebra.Order.BigOperators.Group.Multiset

/-!
# Lists covered by other lists

`Covered R xs ys` says that the entries of `xs` can be matched with entries of `ys`, no
two with the same one, such that `R` relates each to its match. Neither order matters.
It is the invariant of a store whose entries are put in from outside, may change and be
taken out again, but are never copied: sums over the store are bounded by sums over what
was put in.
-/

namespace OrderBook

open scoped List

variable {α β : Type*}

/-- Every entry of `xs` is matched with an entry of `ys` of its own. -/
def Covered (R : α → β → Prop) (xs : List α) (ys : List β) : Prop :=
  ∃ kept ≤ (ys : Multiset β), Multiset.Rel R xs kept

namespace Covered

variable {R : α → β → Prop} {xs xs' : List α} {ys : List β} {x x' : α} {y : β}

theorem nil (ys : List β) : Covered R [] ys := ⟨0, Multiset.zero_le _, .zero⟩

theorem perm (covered : Covered R xs ys) (same : xs ~ xs') : Covered R xs' ys := by
  obtain ⟨kept, among, related⟩ := covered
  exact ⟨kept, among, Multiset.coe_eq_coe.mpr same ▸ related⟩

theorem snoc (covered : Covered R xs ys) (related : R x y) : Covered R (x :: xs) (ys ++ [y]) := by
  obtain ⟨kept, among, others⟩ := covered
  refine ⟨y ::ₘ kept, ?_, .cons related others⟩
  have grown : ((ys ++ [y] : List β) : Multiset β) = y ::ₘ (ys : Multiset β) :=
    Multiset.coe_eq_coe.mpr (List.perm_append_singleton y ys)
  rw [grown]
  exact Multiset.cons_le_cons y among

/-- The match of the first entry, beside a covering of the others. -/
theorem uncons (covered : Covered R (x :: xs) ys) :
    ∃ y ∈ ys, R x y ∧ ∃ kept, y ::ₘ kept ≤ (ys : Multiset β) ∧ Multiset.Rel R xs kept := by
  obtain ⟨_, among, related⟩ := covered
  rw [← Multiset.cons_coe, Multiset.rel_cons_left] at related
  obtain ⟨y, kept, first, others, rfl⟩ := related
  have member : y ∈ (ys : Multiset β) := Multiset.mem_of_le among (Multiset.mem_cons_self y kept)
  exact ⟨y, Multiset.mem_coe.mp member, first, kept, among, others⟩

theorem tail (covered : Covered R (x :: xs) ys) : Covered R xs ys := by
  obtain ⟨y, _, _, kept, among, others⟩ := covered.uncons
  exact ⟨kept, (Multiset.le_cons_self kept y).trans among, others⟩

/-- An entry may be replaced by one that can have the same match. -/
theorem replace (covered : Covered R (x :: xs) ys) (keeps : ∀ y, R x y → R x' y) :
    Covered R (x' :: xs) ys := by
  obtain ⟨y, _, first, kept, among, others⟩ := covered.uncons
  exact ⟨y ::ₘ kept, among, .cons (keeps y first) others⟩

theorem exists_match (covered : Covered R xs ys) (member : x ∈ xs) : ∃ y ∈ ys, R x y := by
  obtain ⟨rest, split⟩ : ∃ rest, xs ~ x :: rest := by
    obtain ⟨before, after, rfl⟩ := List.append_of_mem member
    exact ⟨before ++ after, List.perm_middle⟩
  obtain ⟨y, matched, related, _⟩ := (covered.perm split).uncons
  exact ⟨y, matched, related⟩

theorem sum_le {M : Type*} [AddCommMonoid M] [PartialOrder M] [IsOrderedAddMonoid M]
    {f : α → M} {g : β → M} (covered : Covered R xs ys) (le : ∀ x y, R x y → f x ≤ g y)
    (nonneg : ∀ y ∈ ys, 0 ≤ g y) : (xs.map f).sum ≤ (ys.map g).sum := by
  obtain ⟨kept, among, related⟩ := covered
  obtain ⟨rest, split⟩ := Multiset.le_iff_exists_add.mp among
  have below : ((xs : Multiset α).map f).sum ≤ (kept.map g).sum :=
    Multiset.sum_le_sum_of_rel_le
      (Multiset.rel_map.mpr (related.mono fun x _ y _ first => le x y first))
  have others : 0 ≤ (rest.map g).sum := by
    apply Multiset.sum_nonneg
    intro value member
    obtain ⟨y, unmatched, rfl⟩ := Multiset.mem_map.mp member
    refine nonneg y (Multiset.mem_coe.mp ?_)
    rw [split]
    exact Multiset.mem_add.mpr (.inr unmatched)
  have total : ((ys : Multiset β).map g).sum = (kept.map g).sum + (rest.map g).sum := by
    rw [split, Multiset.map_add, Multiset.sum_add]
  rw [Multiset.map_coe, Multiset.sum_coe] at below total
  rw [total]
  exact below.trans (le_add_of_nonneg_right others)

end Covered

end OrderBook
