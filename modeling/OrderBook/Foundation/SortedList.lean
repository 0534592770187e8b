import Mathlib.Data.List.Basic
import Mathlib.Order.Defs.Unbundled

/-!
# Sorted lists as finite maps

A list whose keys increase strictly along an order `r` is a finite map from keys
to entries. `Position` says where a key sits in such a list, or where it belongs
if it is missing. A search is verified by the `Position` it returns, whatever way
it was found, and the positional updates are specified from a `Position` alone.

Two sorted lists with the same entries are equal, so a sorted list is determined by
what it maps.
-/

namespace OrderBook.SortedList

open scoped List

variable {α κ : Type*} (key : α → κ) (r : κ → κ → Prop)

def Sorted (xs : List α) : Prop := xs.Pairwise fun a b => r (key a) (key b)

def lookup [DecidableEq κ] (k : κ) (xs : List α) : Option α := xs.find? fun a => key a = k

/-- The entries that pass a test stand in front of those that fail it. -/
def Partitioned (P : α → Prop) (xs : List α) : Prop := xs.Pairwise fun a b => P b → P a

/-- The place of a key: at an entry, or between the entries before and after it. -/
inductive Position (k : κ) : List α → Bool → Nat → Prop
  | present (front : List α) (entry : α) (back : List α)
      (before : ∀ a ∈ front, r (key a) k) (here : key entry = k)
      (after : ∀ a ∈ back, r k (key a)) :
      Position k (front ++ entry :: back) true front.length
  | absent (front back : List α)
      (before : ∀ a ∈ front, r (key a) k) (after : ∀ a ∈ back, r k (key a)) :
      Position k (front ++ back) false front.length

variable {key r} {xs ys front back : List α} {entry : α} {i : Nat} {k : κ}

section Lookup

variable [DecidableEq κ]

@[simp] theorem lookup_nil (k : κ) : lookup key k ([] : List α) = none := rfl

theorem lookup_eq_none (absent : ∀ a ∈ xs, key a ≠ k) : lookup key k xs = none := by
  simpa [lookup] using absent

theorem lookup_mid (missing : ∀ a ∈ front, key a ≠ key entry) :
    lookup key (key entry) (front ++ entry :: back) = some entry := by
  have skip : front.find? (fun a => decide (key a = key entry)) = none := by simpa using missing
  simp [lookup, skip]

theorem lookup_mid_ne (other : key entry ≠ k) :
    lookup key k (front ++ entry :: back) = lookup key k (front ++ back) := by
  simp [lookup, other]

theorem mem_of_lookup (found : lookup key k xs = some entry) : entry ∈ xs ∧ key entry = k := by
  refine ⟨List.mem_of_find?_eq_some found, ?_⟩
  simpa using List.find?_some found

variable [IsStrictTotalOrder κ r]

theorem Sorted.lookup_eq_some_iff (sorted : Sorted key r xs) :
    lookup key k xs = some entry ↔ entry ∈ xs ∧ key entry = k := by
  refine ⟨mem_of_lookup, ?_⟩
  rintro ⟨member, rfl⟩
  obtain ⟨front, back, rfl⟩ := List.append_of_mem member
  apply lookup_mid
  intro a before same
  have less := (List.pairwise_append.mp sorted).2.2 a before entry (by simp)
  rw [same] at less
  exact irrefl _ less

omit [DecidableEq κ] in
theorem Sorted.nodup (sorted : Sorted key r xs) : xs.Nodup := by
  apply List.Pairwise.imp ?_ sorted
  rintro a _ less rfl
  exact irrefl _ less

omit [DecidableEq κ] in
theorem Sorted.nodup_keys (sorted : Sorted key r xs) : (xs.map key).Nodup := by
  apply List.Pairwise.imp ?_ (List.pairwise_map.mpr sorted)
  rintro k _ less rfl
  exact irrefl k less

omit [DecidableEq κ] in
/-- A sorted list is determined by its entries. -/
theorem Sorted.ext_mem (sorted : Sorted key r xs) (sorted' : Sorted key r ys)
    (same : ∀ a, a ∈ xs ↔ a ∈ ys) : xs = ys := by
  apply List.Perm.eq_of_pairwise ?_ sorted sorted'
    ((List.perm_ext_iff_of_nodup sorted.nodup sorted'.nodup).mpr same)
  intro a b _ _ less greater
  exact absurd greater (asymm less)

end Lookup

section Partition

variable {P : α → Prop}

/-- In front of an entry that passes every entry does. -/
theorem Partitioned.take (partitioned : Partitioned P xs) (at_i : xs[i]? = some entry)
    (pass : P entry) : ∀ a ∈ xs.take (i + 1), P a := by
  obtain ⟨hi, rfl⟩ := List.getElem?_eq_some_iff.mp at_i
  intro a member
  have split : Partitioned P (xs.take i ++ [xs[i]]) := by
    rw [List.take_append_getElem]
    exact List.Pairwise.sublist (List.take_sublist (i + 1) xs) partitioned
  rw [← List.take_append_getElem hi] at member
  obtain earlier | here := List.mem_append.mp member
  · exact (List.pairwise_append.mp split).2.2 a earlier xs[i] (by simp) pass
  · rw [List.mem_singleton.mp here]
    exact pass

/-- From an entry that fails on every entry does. -/
theorem Partitioned.drop (partitioned : Partitioned P xs) (at_i : xs[i]? = some entry)
    (fail : ¬ P entry) : ∀ a ∈ xs.drop i, ¬ P a := by
  obtain ⟨hi, rfl⟩ := List.getElem?_eq_some_iff.mp at_i
  intro a member pass
  have tail : Partitioned P (xs.drop i) :=
    List.Pairwise.sublist (List.drop_sublist i xs) partitioned
  rw [List.drop_eq_getElem_cons hi] at member tail
  obtain rfl | later := List.mem_cons.mp member
  · exact fail pass
  · exact fail ((List.pairwise_cons.mp tail).1 a later pass)

/-- The entries of a sorted list that precede a key stand in front. -/
theorem Sorted.partitioned [IsStrictTotalOrder κ r] (sorted : Sorted key r xs) (k : κ) :
    Partitioned (fun a => r (key a) k) xs := by
  apply List.Pairwise.imp ?_ sorted
  intro a b less before
  exact trans_of r less before

end Partition

section Search

/-- An entry with the key is the place of the key. -/
theorem Sorted.present (sorted : Sorted key r xs) (at_i : xs[i]? = some entry)
    (here : key entry = k) : Position key r k xs true i := by
  obtain ⟨hi, rfl⟩ := List.getElem?_eq_some_iff.mp at_i
  have whole : xs = xs.take i ++ xs[i] :: xs.drop (i + 1) := by simp
  have split := sorted
  rw [Sorted, whole, List.pairwise_append, List.pairwise_cons] at split
  obtain ⟨_, ⟨after, _⟩, before⟩ := split
  have position : Position key r k (xs.take i ++ xs[i] :: xs.drop (i + 1)) true
      (xs.take i).length := by
    refine .present _ _ _ (fun a member => ?_) here (fun a member => here ▸ after a member)
    exact here ▸ before a member xs[i] List.mem_cons_self
  rwa [← whole, List.length_take_of_le (by omega)] at position

theorem Position.le_length {found : Bool} (position : Position key r k xs found i) :
    i ≤ xs.length := by
  cases position <;> simp

theorem Position.lt_length (position : Position key r k xs true i) : i < xs.length := by
  cases position
  simp

/-- Where an entry stands relative to the place of a key. -/
theorem Position.cases_at {found : Bool} {j : Nat} (position : Position key r k xs found i)
    (at_j : xs[j]? = some entry) : j < i ∧ r (key entry) k ∨
      (found = true ∧ j = i) ∧ key entry = k ∨
        (i ≤ j ∧ ¬ (found = true ∧ j = i)) ∧ r k (key entry) := by
  cases position with
  | present front other back before here after =>
      obtain left | rfl | right := Nat.lt_trichotomy j front.length
      · rw [List.getElem?_append_left left] at at_j
        exact .inl ⟨left, before entry (List.mem_of_getElem? at_j)⟩
      · rw [List.getElem?_append_right (Nat.le_refl _), Nat.sub_self, List.getElem?_cons_zero,
          Option.some.injEq] at at_j
        exact .inr (.inl ⟨⟨rfl, rfl⟩, at_j ▸ here⟩)
      · obtain ⟨d, rfl⟩ := Nat.exists_eq_add_of_lt right
        rw [List.getElem?_append_right (by omega),
          show front.length + d + 1 - front.length = d + 1 by omega,
          List.getElem?_cons_succ] at at_j
        exact .inr (.inr ⟨⟨by omega, by omega⟩, after entry (List.mem_of_getElem? at_j)⟩)
  | absent front back before after =>
      obtain left | right := Nat.lt_or_ge j front.length
      · rw [List.getElem?_append_left left] at at_j
        exact .inl ⟨left, before entry (List.mem_of_getElem? at_j)⟩
      · rw [List.getElem?_append_right right] at at_j
        exact .inr (.inr ⟨⟨right, by simp⟩, after entry (List.mem_of_getElem? at_j)⟩)

section Place

variable [IsStrictTotalOrder κ r] {found : Bool} {j : Nat}

/-- The entries that precede a key are the ones in front of its place. -/
theorem Position.before_iff (position : Position key r k xs found i)
    (at_j : xs[j]? = some entry) : r (key entry) k ↔ j < i := by
  obtain ⟨left, before⟩ | ⟨⟨_, rfl⟩, rfl⟩ | ⟨⟨right, _⟩, after⟩ := position.cases_at at_j
  · exact iff_of_true before left
  · exact iff_of_false (irrefl _) (Nat.lt_irrefl _)
  · exact iff_of_false (asymm after) (Nat.not_lt.mpr right)

/-- The only entry with a key is the one at its place. -/
theorem Position.here_iff (position : Position key r k xs found i)
    (at_j : xs[j]? = some entry) : key entry = k ↔ found = true ∧ j = i := by
  obtain ⟨left, before⟩ | ⟨here, same⟩ | ⟨⟨_, other⟩, after⟩ := position.cases_at at_j
  · exact iff_of_false (ne_of_irrefl before) (by omega)
  · exact iff_of_true same here
  · exact iff_of_false (ne_of_irrefl' after) other

theorem Position.found_iff (position : Position key r k xs found i) :
    found = true ↔ ∃ a ∈ xs, key a = k := by
  constructor
  · rintro rfl
    have at_i := List.getElem?_eq_getElem position.lt_length
    exact ⟨_, List.mem_of_getElem? at_i, (position.here_iff at_i).mpr ⟨rfl, rfl⟩⟩
  · rintro ⟨a, member, here⟩
    obtain ⟨j, at_j⟩ := List.getElem?_of_mem member
    exact ((position.here_iff at_j).mp here).1

/-- The entries that a key precedes are the ones behind its place. -/
theorem Position.countP_after [DecidableRel r] (position : Position key r k xs found i) :
    (xs.countP fun a => r k (key a)) = if found then xs.length - 1 - i else xs.length - i := by
  have none_in_front : ∀ front : List α, (∀ a ∈ front, r (key a) k) →
      (front.countP fun a => r k (key a)) = 0 := by
    intro front before
    rw [List.countP_eq_zero]
    intro a member
    simpa using asymm_of r (before a member)
  have all_behind : ∀ back : List α, (∀ a ∈ back, r k (key a)) →
      (back.countP fun a => r k (key a)) = back.length := by
    intro back after
    rw [List.countP_eq_length]
    intro a member
    simpa using after a member
  cases position with
  | present front entry back before here after =>
      have not_here : ¬ r k (key entry) := here ▸ irrefl_of r k
      rw [List.countP_append, List.countP_cons_of_neg (by simpa using not_here),
        none_in_front front before, all_behind back after, if_pos rfl]
      simp only [List.length_append, List.length_cons]
      omega
  | absent front back before after =>
      rw [List.countP_append, none_in_front front before, all_behind back after,
        if_neg Bool.false_ne_true, List.length_append]
      omega

/-- A key has one place in a list. -/
theorem Position.unique {found' : Bool} (position : Position key r k xs found i)
    (position' : Position key r k xs found' j) : found = found' ∧ i = j := by
  have not_lt_place : ∀ {found found' : Bool} {i j : Nat}, Position key r k xs found i →
      Position key r k xs found' j → ¬ i < j := by
    intro found found' i j position position' less
    have at_i := List.getElem?_eq_getElem (Nat.lt_of_lt_of_le less position'.le_length)
    exact Nat.lt_irrefl i ((position.before_iff at_i).mp ((position'.before_iff at_i).mpr less))
  constructor
  · rw [Bool.eq_iff_iff, position.found_iff, position'.found_iff]
  · have := not_lt_place position position'
    have := not_lt_place position' position
    omega

end Place

/-- A key that all entries before `i` precede, and that precedes all others. -/
theorem absent (hi : i ≤ xs.length) (before : ∀ a ∈ xs.take i, r (key a) k)
    (after : ∀ a ∈ xs.drop i, r k (key a)) : Position key r k xs false i := by
  have position := Position.absent _ _ before after
  rwa [List.take_append_drop, List.length_take_of_le hi] at position

/-- The answer of a lower bound search: the first index whose entry does not
precede the key, tested once for equality. -/
theorem Sorted.lowerBound [DecidableEq κ] [IsStrictTotalOrder κ r] (sorted : Sorted key r xs)
    (hi : i ≤ xs.length)
    (before : ∀ a ∈ xs.take i, r (key a) k) (stop : ∀ a, xs[i]? = some a → ¬ r (key a) k) :
    Position key r k xs (decide (xs[i]?.map key = some k)) i := by
  cases at_i : xs[i]? with
  | none =>
      rw [List.getElem?_eq_none_iff] at at_i
      apply absent hi before
      simp [List.drop_eq_nil_of_le at_i]
  | some entry =>
      by_cases here : key entry = k
      · simpa [here] using sorted.present at_i here
      · obtain ⟨hi', at_i'⟩ := List.getElem?_eq_some_iff.mp at_i
        have next : r k (key entry) := by
          obtain less | same | greater := trichotomous_of r (key entry) k
          · exact absurd less (stop entry at_i)
          · exact absurd same here
          · exact greater
        simp only [Option.map_some, Option.some.injEq, here, decide_false]
        apply absent hi before
        rw [List.drop_eq_getElem_cons hi', at_i']
        have sorted_drop : Sorted key r (xs.drop i) :=
          List.Pairwise.sublist (List.drop_sublist i xs) sorted
        rw [List.drop_eq_getElem_cons hi', at_i', Sorted, List.pairwise_cons] at sorted_drop
        intro a member
        obtain rfl | later := List.mem_cons.mp member
        · exact next
        · exact trans_of r next (sorted_drop.1 a later)

end Search

section Update

private theorem insertIdx_length (front back : List α) (a : α) :
    (front ++ back).insertIdx front.length a = front ++ a :: back := by
  induction front with
  | nil => rfl
  | cons b front ih => simp [ih]

private theorem modify_length (front back : List α) (a : α) (f : α → α) :
    (front ++ a :: back).modify front.length f = front ++ f a :: back := by
  induction front with
  | nil => rfl
  | cons b front ih => simpa using ih

private theorem eraseIdx_length (front back : List α) (a : α) :
    (front ++ a :: back).eraseIdx front.length = front ++ back := by
  induction front with
  | nil => rfl
  | cons b front ih => simpa using ih

theorem Position.insert_sorted (position : Position key r k xs false i)
    (sorted : Sorted key r xs) (here : key entry = k) : Sorted key r (xs.insertIdx i entry) := by
  subst here
  cases position with
  | absent front back before after =>
      rw [Sorted, List.pairwise_append] at sorted
      obtain ⟨sorted_front, sorted_back, across⟩ := sorted
      rw [insertIdx_length, Sorted, List.pairwise_append, List.pairwise_cons]
      refine ⟨sorted_front, ⟨after, sorted_back⟩, ?_⟩
      intro a in_front b in_back
      obtain rfl | in_back := List.mem_cons.mp in_back
      · exact before a in_front
      · exact across a in_front b in_back

/-- Only at the place of its key does an entry fit into a sorted list. -/
theorem Position.of_insert_sorted (hi : i ≤ xs.length)
    (sorted : Sorted key r (xs.insertIdx i entry)) : Position key r (key entry) xs false i := by
  have split : xs.insertIdx i entry = xs.take i ++ entry :: xs.drop i := by
    have inserted := insertIdx_length (xs.take i) (xs.drop i) entry
    rwa [List.take_append_drop, List.length_take_of_le hi] at inserted
  rw [split, Sorted, List.pairwise_append, List.pairwise_cons] at sorted
  obtain ⟨_, ⟨after, _⟩, across⟩ := sorted
  exact SortedList.absent hi (fun a member => across a member entry List.mem_cons_self) after

theorem Position.modify (position : Position key r k xs true i) {f : α → α}
    (keeps : ∀ a, key (f a) = key a) : Position key r k (xs.modify i f) true i := by
  cases position with
  | present front entry back before here after =>
      rw [modify_length]
      exact .present front (f entry) back before ((keeps entry).trans here) after

theorem Sorted.modify (sorted : Sorted key r xs) {f : α → α} (keeps : ∀ a, key (f a) = key a)
    (i : Nat) : Sorted key r (xs.modify i f) := by
  have same : (xs.modify i f).map key = xs.map key := by
    apply List.ext_getElem (by simp)
    intro j _ _
    simp only [List.getElem_map, List.getElem_modify]
    split <;> simp [keeps]
  rw [Sorted, ← List.pairwise_map] at sorted ⊢
  rwa [same]

theorem Sorted.eraseIdx (sorted : Sorted key r xs) (i : Nat) : Sorted key r (xs.eraseIdx i) :=
  List.Pairwise.sublist (List.eraseIdx_sublist xs i) sorted

variable [IsStrictTotalOrder κ r]

private theorem ne_of_before {a : α} (before : ∀ a ∈ front, r (key a) k) (member : a ∈ front) :
    key a ≠ k := fun same => irrefl _ (same ▸ before a member)

private theorem ne_of_after {a : α} (after : ∀ a ∈ back, r k (key a)) (member : a ∈ back) :
    key a ≠ k := fun same => irrefl _ (same ▸ after a member)

variable [DecidableEq κ]

theorem Position.lookup_present (position : Position key r k xs true i) :
    lookup key k xs = xs[i]? := by
  cases position with
  | present front entry back before here after =>
      subst here
      rw [lookup_mid fun a => ne_of_before before]
      simp

theorem Position.lookup_absent (position : Position key r k xs false i) :
    lookup key k xs = none := by
  cases position with
  | absent front back before after =>
      apply lookup_eq_none
      intro a member
      obtain in_front | in_back := List.mem_append.mp member
      · exact ne_of_before before in_front
      · exact ne_of_after after in_back

theorem Position.lookup_insertIdx (position : Position key r k xs false i)
    (here : key entry = k) (k' : κ) :
    lookup key k' (xs.insertIdx i entry) = if k' = k then some entry else lookup key k' xs := by
  subst here
  cases position with
  | absent front back before after =>
      rw [insertIdx_length]
      split
      case isTrue same =>
        rw [same, lookup_mid fun a => ne_of_before before]
      case isFalse other =>
        rw [lookup_mid_ne (Ne.symm other)]

theorem Position.lookup_modify (position : Position key r k xs true i) {f : α → α}
    (keeps : ∀ a, key (f a) = key a) (k' : κ) : lookup key k' (xs.modify i f) =
      if k' = k then (lookup key k xs).map f else lookup key k' xs := by
  cases position with
  | present front entry back before here after =>
      subst here
      rw [modify_length]
      split
      case isTrue same =>
        rw [same, ← keeps entry, lookup_mid, keeps, lookup_mid fun a => ne_of_before before]
        · rfl
        · rw [keeps]
          exact fun a => ne_of_before before
      case isFalse other =>
        rw [lookup_mid_ne (by rw [keeps]; exact Ne.symm other), lookup_mid_ne (Ne.symm other)]

theorem Position.lookup_eraseIdx (position : Position key r k xs true i) (k' : κ) :
    lookup key k' (xs.eraseIdx i) = if k' = k then none else lookup key k' xs := by
  cases position with
  | present front entry back before here after =>
      subst here
      rw [eraseIdx_length]
      split
      case isTrue same =>
        subst same
        exact (Position.absent front back before after).lookup_absent
      case isFalse other =>
        rw [lookup_mid_ne (Ne.symm other)]

end Update

end OrderBook.SortedList
