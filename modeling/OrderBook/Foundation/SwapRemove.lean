import Mathlib.Data.List.Perm.Basic

/-!
# Removal by swapping with the last element

An unordered vector drops an element by overwriting it with the last one and popping
the back. Up to order this erases the element, also where the element is the last
one and is overwritten by itself.
-/

namespace OrderBook

open scoped List

variable {α : Type*}

/-- Overwrite an element by the last one and pop the back. -/
def swapRemove (xs : List α) (k : Nat) : List α :=
  match xs.getLast? with
  | none => []
  | some back => (xs.set k back).dropLast

namespace SwapRemove

variable {xs : List α} {k : Nat}

theorem perm_eraseIdx (inside : k < xs.length) : swapRemove xs k ~ xs.eraseIdx k := by
  obtain rfl | ⟨init, back, rfl⟩ := xs.eq_nil_or_concat'
  · exact absurd inside (Nat.not_lt_zero k)
  · rw [swapRemove, List.getLast?_concat]
    rw [List.length_append, List.length_singleton] at inside
    obtain earlier | last := Nat.lt_succ_iff_lt_or_eq.mp inside
    · simp only [List.set_append_left k back earlier, List.dropLast_concat,
        List.eraseIdx_append_of_lt_length earlier]
      exact (List.set_perm_cons_eraseIdx earlier back).trans (List.perm_append_singleton _ _).symm
    · subst last
      simp [List.eraseIdx_append_of_length_le]

/-- An element is one of the others and itself, and so for what it is overwritten by. -/
theorem perm_set {x : α} (found : xs[k]? = some x) (y : α) :
    xs ~ x :: xs.eraseIdx k ∧ xs.set k y ~ y :: xs.eraseIdx k := by
  obtain ⟨inside, rfl⟩ := List.getElem?_eq_some_iff.mp found
  exact ⟨(List.getElem_cons_eraseIdx_perm inside).symm, List.set_perm_cons_eraseIdx inside y⟩

theorem perm_set_eraseIdx {x : α} (found : xs[k]? = some x) (y : α) :
    swapRemove (xs.set k y) k ~ xs.eraseIdx k := by
  obtain ⟨inside, _⟩ := List.getElem?_eq_some_iff.mp found
  have inside' : k < (xs.set k y).length := by rwa [List.length_set]
  exact (perm_eraseIdx inside').trans (by rw [List.eraseIdx_set_eq])

end SwapRemove

end OrderBook
