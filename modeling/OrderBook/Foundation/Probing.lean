import OrderBook.Foundation.Cyclic
import OrderBook.Foundation.Run
import Mathlib.Data.List.Perm.Basic
import Mathlib.Data.Nat.Find

/-!
# Probe loops over a ring of slots

The two loops of a table with open addressing, over an arbitrary entry type.
`scan` walks from a slot to the first one that satisfies a stop test. `shift` is
the second half of a deletion without tombstones: it walks from a hole to the
next free slot and moves some of the entries it meets back into the hole, by a
policy that is a parameter.

Each loop carries fuel, one unit for each slot it reads, and reports `endless`
when it runs out. As much fuel as there are slots is exact for `scan`: a walk
that has met every slot without stopping starts over unchanged.

`scan_spec` and `shift_rule` are the rules for the two loops. Whatever the policy
moves, `shift` loses and duplicates nothing: `shift_perm`. `Linked` is the
invariant under which a probe that stops at free slots meets every entry.
-/

namespace OrderBook.Probing

open Cyclic
open scoped List

variable {α : Type*}

/-- Advance from slot `i` until the entry there satisfies `stop`. -/
def scan (slots : List α) (next : Nat → Nat) (stop : α → Bool) : Nat → Nat → Except Fault Nat
  | 0, _ => .error .endless
  | fuel + 1, i =>
      match slots[i]? with
      | none => .error .outOfBounds
      | some entry => if stop entry then .ok i else scan slots next stop fuel (next i)

/-- Walk from `j` to the next free slot, moving an entry into the hole whenever
the policy says so; its old slot is then the hole. -/
def shift (next : Nat → Nat) (free : α → Bool) (moves : α → Nat → Nat → Bool) :
    Nat → List α → Nat → Nat → Except Fault (List α × Nat)
  | 0, _, _, _ => .error .endless
  | fuel + 1, slots, hole, j =>
      match slots[next j]? with
      | none => .error .outOfBounds
      | some entry =>
          if free entry then .ok (slots, hole)
          else if moves entry hole (next j) then
            shift next free moves fuel (slots.set hole entry) (next j) (next j)
          else shift next free moves fuel slots hole (next j)

/-- No entry in the `k` slots from `h` on satisfies `stop`. -/
def Avoids (slots : List α) (stop : α → Bool) (h k : Nat) : Prop :=
  ∀ d, d < k → ∀ entry, slots[walk slots.length h d]? = some entry → stop entry = false

instance (slots : List α) (stop : α → Bool) (h k : Nat) : Decidable (Avoids slots stop h k) :=
  decidable_of_iff (∀ d, d < k → (slots[walk slots.length h d]?).all (!stop ·) = true) <| by
    simp only [Avoids, Option.all_eq_true, Bool.not_eq_true']

/-- Overwriting a slot trades its entry for the new one. -/
theorem cons_set_perm {slots : List α} {i : Nat} {old : α} (entry : α)
    (at_i : slots[i]? = some old) : (old :: slots.set i entry).Perm (entry :: slots) := by
  obtain ⟨hi, rfl⟩ := List.getElem?_eq_some_iff.mp at_i
  have whole : slots = slots.take i ++ slots[i] :: slots.drop (i + 1) := by simp
  rw [List.set_eq_take_append_cons_drop, if_pos hi]
  calc slots[i] :: (slots.take i ++ entry :: slots.drop (i + 1))
      ~ slots[i] :: entry :: (slots.take i ++ slots.drop (i + 1)) := List.perm_middle.cons _
    _ ~ entry :: slots[i] :: (slots.take i ++ slots.drop (i + 1)) := .swap _ _ _
    _ ~ entry :: (slots.take i ++ slots[i] :: slots.drop (i + 1)) := List.perm_middle.symm.cons _
    _ ~ entry :: slots := by rw [← whole]

/-- Modifying an entry in place is overwriting it with its new value. -/
theorem modify_eq_set {slots : List α} {i : Nat} {old : α} (f : α → α)
    (at_i : slots[i]? = some old) : slots.modify i f = slots.set i (f old) := by
  obtain ⟨hi, rfl⟩ := List.getElem?_eq_some_iff.mp at_i
  apply List.ext_getElem (by simp)
  intro j hj _
  rw [List.getElem_modify, List.getElem_set]
  split <;> simp_all

section Scan

variable {slots : List α} {next : Nat → Nat} {stop : α → Bool} {h k fuel : Nat}

/-- Among the slots of a ring there is a nearest one with a given property. -/
theorem exists_nearest (hh : h < slots.length)
    (some_stop : ∃ (i : Nat) (entry : α), slots[i]? = some entry ∧ stop entry = true) :
    ∃ k, k < slots.length ∧ Avoids slots stop h k ∧
      ∃ entry, slots[walk slots.length h k]? = some entry ∧ stop entry = true := by
  obtain ⟨i, found, at_i, stops⟩ := some_stop
  have hi : i < slots.length := (List.getElem?_eq_some_iff.mp at_i).1
  let hits := fun d => ∃ entry, slots[walk slots.length h d]? = some entry ∧ stop entry = true
  have reaches : hits (dist slots.length h i) := ⟨found, by rwa [walk_dist hh hi], stops⟩
  classical
  refine ⟨Nat.find ⟨_, reaches⟩, ?_, ?_, Nat.find_spec ⟨_, reaches⟩⟩
  · exact lt_of_le_of_lt (Nat.find_min' _ reaches) (dist_lt hh hi)
  · intro d hd entry at_d
    by_contra stops_d
    exact Nat.find_min ⟨_, reaches⟩ hd ⟨entry, at_d, by simpa using stops_d⟩

/-- The scan visits the slots it avoids and stops at the next one. -/
theorem scan_eq_ok (ring : ∀ i, i < slots.length → next i = walk slots.length i 1)
    (hh : h < slots.length) (hk : k < slots.length) (enough : k < fuel)
    (avoids : Avoids slots stop h k) {entry : α}
    (at_k : slots[walk slots.length h k]? = some entry) (stops : stop entry = true) :
    scan slots next stop fuel h = .ok (walk slots.length h k) := by
  induction k generalizing h fuel with
  | zero =>
      obtain ⟨fuel, rfl⟩ : ∃ m, fuel = m + 1 := ⟨fuel - 1, by omega⟩
      rw [walk_zero hh] at at_k ⊢
      simp [scan, at_k, stops]
  | succ k ih =>
      obtain ⟨fuel, rfl⟩ : ∃ m, fuel = m + 1 := ⟨fuel - 1, by omega⟩
      have here : slots[h]? = some slots[h] := List.getElem?_eq_getElem hh
      have passes : stop slots[h] = false := avoids 0 (by omega) _ (by rw [walk_zero hh, here])
      have step : walk slots.length (next h) k = walk slots.length h (k + 1) := by
        rw [ring h hh, walk_one_walk hh (by omega)]
      simp only [scan, here, passes]
      rw [← step] at at_k ⊢
      apply ih (by rw [ring h hh]; exact walk_lt hh (by omega)) (by omega) (by omega) ?_ at_k
      intro d hd found at_d
      apply avoids (d + 1) (by omega) found
      rwa [ring h hh, walk_one_walk hh (by omega)] at at_d

/-- With fuel for the whole ring, a scan stops at the nearest slot that satisfies
its test as soon as any slot does. -/
theorem scan_spec (ring : ∀ i, i < slots.length → next i = walk slots.length i 1)
    (hh : h < slots.length) (enough : slots.length ≤ fuel)
    (some_stop : ∃ (i : Nat) (entry : α), slots[i]? = some entry ∧ stop entry = true) :
    ∃ k entry, k < slots.length ∧
      scan slots next stop fuel h = .ok (walk slots.length h k) ∧
      Avoids slots stop h k ∧ slots[walk slots.length h k]? = some entry ∧ stop entry = true := by
  obtain ⟨k, hk, avoids, entry, at_k, stops⟩ := exists_nearest hh some_stop
  exact ⟨k, entry, hk, scan_eq_ok ring hh hk (by omega) avoids at_k stops, avoids, at_k, stops⟩

/-- A scan that ends does not need more fuel. -/
theorem scan_fuel_add {i : Nat} (ended : scan slots next stop fuel h = .ok i) (more : Nat) :
    scan slots next stop (fuel + more) h = .ok i := by
  induction fuel generalizing h with
  | zero => cases ended
  | succ fuel ih =>
      rw [Nat.succ_add, scan]
      rw [scan] at ended
      cases at_h : slots[h]? with
      | none =>
          rw [at_h] at ended
          cases ended
      | some entry =>
          simp only [at_h] at ended ⊢
          split at ended
          case isTrue stops => rwa [if_pos stops]
          case isFalse goes_on =>
            rw [if_neg goes_on]
            exact ih ended

/-- A scan reads its slots only through the stop test. -/
theorem scan_congr {slots' : List α} (same : slots.map stop = slots'.map stop) :
    scan slots next stop fuel h = scan slots' next stop fuel h := by
  induction fuel generalizing h with
  | zero => rfl
  | succ fuel ih =>
      have at_h : (slots[h]?).map stop = (slots'[h]?).map stop := by
        rw [← List.getElem?_map, ← List.getElem?_map, same]
      cases left : slots[h]? <;> cases right : slots'[h]? <;> simp_all [scan]

end Scan

section Shift

variable {slots : List α} {next : Nat → Nat} {free : α → Bool} {n hole j m fuel : Nat}

/-- The rule for `shift`: an invariant of the slots, the hole and the position
last visited holds at the end if visiting one more entry preserves it. The loop
ends because no free slot lies among the next `m`, and the one after is free. -/
theorem shift_rule (moves : α → Nat → Nat → Bool) (I : List α → Nat → Nat → Prop)
    (ring : ∀ i, i < n → next i = walk n i 1)
    (visit : ∀ slots hole j entry, slots.length = n → hole < n → j < n → walk n j 1 ≠ hole →
      I slots hole j → slots[walk n j 1]? = some entry → free entry = false →
      if moves entry hole (walk n j 1) then I (slots.set hole entry) (walk n j 1) (walk n j 1)
      else I slots hole (walk n j 1))
    (length : slots.length = n) (hhole : hole < n) (hj : j < n) (hm : m + 1 < n)
    (enough : m < fuel) (ahead : ∀ d, d ≤ m → walk n j (d + 1) ≠ hole)
    (busy : ∀ d, d < m → ∀ entry, slots[walk n j (d + 1)]? = some entry → free entry = false)
    (stop : ∃ entry, slots[walk n j (m + 1)]? = some entry ∧ free entry = true)
    (start : I slots hole j) :
    ∃ slots' hole', shift next free moves fuel slots hole j = .ok (slots', hole') ∧
      I slots' hole' (walk n j m) := by
  induction m generalizing slots hole j fuel with
  | zero =>
      obtain ⟨fuel, rfl⟩ : ∃ f, fuel = f + 1 := ⟨fuel - 1, by omega⟩
      obtain ⟨entry, at_next, frees⟩ := stop
      rw [walk_zero hj]
      exact ⟨slots, hole, by simp [shift, ring j hj, at_next, frees], start⟩
  | succ m ih =>
      obtain ⟨fuel, rfl⟩ : ∃ f, fuel = f + 1 := ⟨fuel - 1, by omega⟩
      have hnext : walk n j 1 < n := walk_lt hj (by omega)
      have onward : ∀ d, d ≤ m → walk n (walk n j 1) (d + 1) = walk n j (d + 2) :=
        fun d hd => walk_one_walk hj (by omega)
      have last : walk n (walk n j 1) m = walk n j (m + 1) := walk_one_walk hj (by omega)
      have apart : walk n j 1 ≠ hole := ahead 0 (by omega)
      obtain ⟨entry, here⟩ : ∃ entry, slots[walk n j 1]? = some entry :=
        ⟨_, List.getElem?_eq_getElem (by omega)⟩
      have taken : free entry = false := busy 0 (by omega) entry here
      have kept := visit slots hole j entry length hhole hj apart start here taken
      simp only [shift, ring j hj, here, taken, Bool.false_eq_true, if_false]
      rw [← last]
      split
      case isTrue moved =>
        rw [if_pos moved] at kept
        -- The old hole lies behind the walk, so the slots ahead are untouched.
        have beyond : ∀ d, d ≤ m → (slots.set hole entry)[walk n (walk n j 1) (d + 1)]? =
            slots[walk n j (d + 2)]? := by
          intro d hd
          rw [onward d hd]
          exact List.getElem?_set_ne (ahead (d + 1) (by omega)).symm
        apply ih (by simpa using length) hnext hnext (by omega) (by omega) ?_ ?_ ?_ kept
        · intro d hd
          exact walk_ne_self hnext (by omega) (by omega)
        · intro d hd found at_d
          rw [beyond d (by omega)] at at_d
          exact busy (d + 1) (by omega) found at_d
        · rw [beyond m (by omega)]
          exact stop
      case isFalse stays =>
        rw [if_neg stays] at kept
        apply ih length hhole hnext (by omega) (by omega) ?_ ?_ ?_ kept
        · intro d hd
          rw [onward d hd]
          exact ahead (d + 1) (by omega)
        · intro d hd found at_d
          rw [onward d (by omega)] at at_d
          exact busy (d + 1) (by omega) found at_d
        · rw [onward m (by omega)]
          exact stop

/-- Moving an entry into the hole and emptying its old slot permutes the table
that has the hole emptied in place. -/
theorem set_set_perm {entry : α} (blank : α) (apart : j ≠ hole) (hhole : hole < slots.length)
    (at_j : slots[j]? = some entry) :
    ((slots.set hole entry).set j blank).Perm (slots.set hole blank) := by
  have at_hole : slots[hole]? = some slots[hole] := List.getElem?_eq_getElem hhole
  have at_j' : (slots.set hole entry)[j]? = some entry := by
    rw [List.getElem?_set_ne apart.symm, at_j]
  apply List.Perm.cons_inv (a := slots[hole])
  apply List.Perm.cons_inv (a := entry)
  calc entry :: slots[hole] :: (slots.set hole entry).set j blank
      ~ slots[hole] :: entry :: (slots.set hole entry).set j blank := .swap _ _ _
    _ ~ slots[hole] :: blank :: slots.set hole entry := (cons_set_perm blank at_j').cons _
    _ ~ blank :: slots[hole] :: slots.set hole entry := .swap _ _ _
    _ ~ blank :: entry :: slots := (cons_set_perm entry at_hole).cons _
    _ ~ entry :: blank :: slots := .swap _ _ _
    _ ~ entry :: slots[hole] :: slots.set hole blank := (cons_set_perm blank at_hole).symm.cons _

/-- A shift that ends does not need more fuel. -/
theorem shift_fuel_add {moves : α → Nat → Nat → Bool} {fuel j : Nat} {result : List α × Nat}
    (ended : shift next free moves fuel slots hole j = .ok result) (more : Nat) :
    shift next free moves (fuel + more) slots hole j = .ok result := by
  induction fuel generalizing slots hole j with
  | zero => cases ended
  | succ fuel ih =>
      rw [Nat.succ_add, shift]
      rw [shift] at ended
      cases at_next : slots[next j]? with
      | none =>
          rw [at_next] at ended
          cases ended
      | some entry =>
          simp only [at_next] at ended ⊢
          split at ended
          case isTrue stops => rwa [if_pos stops]
          case isFalse goes_on =>
            rw [if_neg goes_on]
            split at ended
            case isTrue carried =>
              rw [if_pos carried]
              exact ih ended
            case isFalse kept =>
              rw [if_neg kept]
              exact ih ended

/-- Whatever the policy moves, the entries other than the one in the hole are the
ones the loop started with. -/
theorem shift_perm (blank : α) (moves : α → Nat → Nat → Bool) (fuel : Nat)
    (ring : ∀ i, i < n → next i = walk n i 1)
    (length : slots.length = n) (hhole : hole < n) (hm : m + 1 < n) (enough : m < fuel)
    (busy : ∀ d, d < m → ∀ entry, slots[walk n hole (d + 1)]? = some entry → free entry = false)
    (stop : ∃ entry, slots[walk n hole (m + 1)]? = some entry ∧ free entry = true) :
    ∃ slots' hole', shift next free moves fuel slots hole hole = .ok (slots', hole') ∧
      slots'.length = n ∧ hole' < n ∧
        (slots'.set hole' blank).Perm (slots.set hole blank) := by
  apply shift_rule moves (fun slots' hole' _ => slots'.length = n ∧ hole' < n ∧
      (slots'.set hole' blank).Perm (slots.set hole blank))
    ring ?_ length hhole hhole hm enough ?_ busy stop ⟨length, hhole, .refl _⟩
  · intro slots' hole' j entry length' hhole' hj apart inv at_next _
    split
    · exact ⟨by simpa using length', walk_lt hj (by omega),
        (set_set_perm blank apart (by omega) at_next).trans inv.2.2⟩
    · exact inv
  · intro d hd
    exact walk_ne_self hhole (by omega) (by omega)

theorem set_modify (slots : List α) (i : Nat) (f : α → α) (entry : α) :
    (slots.modify i f).set i entry = slots.set i entry := by
  apply List.ext_getElem (by simp)
  intro j _ _
  rw [List.getElem_set, List.getElem_set, List.getElem_modify]
  split <;> rfl

/-- The loop ends the same whatever is in the hole it starts from, as far as its tests
cannot tell: that slot is overwritten by an entry that moves or emptied in the end. -/
theorem shift_modify_hole (blank : α) (moves : α → Nat → Nat → Bool) (f : α → α)
    (same_free : ∀ entry, free (f entry) = free entry)
    (same_moves : ∀ entry hole j, moves (f entry) hole j = moves entry hole j)
    (fuel : Nat) (slots : List α) (hole j : Nat) :
    (shift next free moves fuel (slots.modify hole f) hole j).map (fun r => r.1.set r.2 blank) =
      (shift next free moves fuel slots hole j).map (fun r => r.1.set r.2 blank) := by
  induction fuel generalizing slots hole j with
  | zero => rfl
  | succ fuel ih =>
      cases here : slots[next j]? with
      | none =>
          have here' : (slots.modify hole f)[next j]? = none := by simpa using here
          simp [shift, here, here']
      | some entry =>
          by_cases back : hole = next j
          · -- The loop is back at the hole, which it can only move onto itself.
            subst back
            obtain ⟨inside, same⟩ := List.getElem?_eq_some_iff.mp here
            have here' : (slots.modify (next j) f)[next j]? = some (f entry) := by simp [here]
            have stays : slots.set (next j) entry = slots := by simp [← same]
            simp only [shift, here, here', same_free, same_moves]
            split
            · simp [Except.map, set_modify]
            · split
              · rw [set_modify, ← modify_eq_set f here, stays]
                exact ih _ _ _
              · exact ih _ _ _
          · have here' : (slots.modify hole f)[next j]? = some entry := by simp [back, here]
            simp only [shift, here, here']
            split
            · simp [Except.map, set_modify]
            · split
              · rw [set_modify]
              · exact ih _ _ _

end Shift

/-- No slot from the home of an entry up to its place is free. -/
def Linked (slots : List α) (free : α → Bool) (home : α → Nat) : Prop :=
  ∀ i entry, slots[i]? = some entry → free entry = false →
    Avoids slots free (home entry) (dist slots.length (home entry) i)

namespace Linked

variable {slots : List α} {free : α → Bool} {home : α → Nat} {i k : Nat}

theorem of_all_free (vacant : ∀ entry ∈ slots, free entry = true) : Linked slots free home := by
  intro i entry at_i busy
  have := vacant entry (List.mem_of_getElem? at_i)
  simp [busy] at this

/-- Filling the nearest free slot of an entry's probe path. -/
theorem set_nearest (linked : Linked slots free home) {entry : α} (busy : free entry = false)
    (hhome : home entry < slots.length) (hk : k < slots.length)
    (avoids : Avoids slots free (home entry) k) :
    Linked (slots.set (walk slots.length (home entry) k) entry) free home := by
  intro j other at_j busy_j d hd found at_d
  simp only [List.length_set] at hd at_d
  rw [List.getElem?_set] at at_d
  split at at_d
  · split at at_d
    · cases at_d
      exact busy
    · cases at_d
  · rw [List.getElem?_set] at at_j
    split at at_j
    case isTrue here =>
      split at at_j
      · cases at_j
        rw [← here, dist_walk hhome hk] at hd
        exact avoids d hd found at_d
      · cases at_j
    case isFalse => exact linked j other at_j busy_j d hd found at_d

/-- Freeing a slot that a free slot follows: no probe path runs through it. -/
theorem set_free (linked : Linked slots free home) (homes : ∀ entry, home entry < slots.length)
    (hi : i < slots.length) {blank after : α} (vacant : free blank = true)
    (at_next : slots[walk slots.length i 1]? = some after) (free_next : free after = true) :
    Linked (slots.set i blank) free home := by
  intro j other at_j busy_j d hd found at_d
  simp only [List.length_set] at hd at_d
  have away : i ≠ j := by
    rintro rfl
    rw [List.getElem?_set_self hi] at at_j
    cases at_j
    simp [vacant] at busy_j
  rw [List.getElem?_set_ne away] at at_j
  have hj : j < slots.length := (List.getElem?_eq_some_iff.mp at_j).1
  have hdist := dist_lt (homes other) hj
  have outside : i ≠ walk slots.length (home other) d := by
    intro on_path
    rw [on_path, walk_walk_one (homes other) (by omega)] at at_next
    by_cases last : d + 1 = dist slots.length (home other) j
    · rw [last, walk_dist (homes other) hj, at_j] at at_next
      cases at_next
      simp [busy_j] at free_next
    · have := linked j other at_j busy_j (d + 1) (by omega) after at_next
      simp [free_next] at this
  rw [List.getElem?_set_ne outside] at at_d
  exact linked j other at_j busy_j d hd found at_d

/-- A change to one entry that keeps its home and keeps it busy. -/
theorem modify (linked : Linked slots free home) (f : α → α)
    (same_free : ∀ entry, free (f entry) = free entry)
    (same_home : ∀ entry, home (f entry) = home entry) (i : Nat) :
    Linked (slots.modify i f) free home := by
  have before : ∀ (j : Nat) entry, (slots.modify i f)[j]? = some entry →
      ∃ old, slots[j]? = some old ∧ free entry = free old ∧ home entry = home old := by
    intro j entry at_j
    rw [List.getElem?_modify, Option.map_eq_map, Option.map_eq_some_iff] at at_j
    obtain ⟨old, at_j, rfl⟩ := at_j
    refine ⟨old, at_j, ?_⟩
    split
    · exact ⟨same_free old, same_home old⟩
    · exact ⟨rfl, rfl⟩
  intro j entry at_j busy d hd found at_d
  obtain ⟨old, at_j, free_j, home_j⟩ := before j entry at_j
  obtain ⟨found', at_d, free_d, _⟩ := before _ found at_d
  rw [List.length_modify, home_j] at hd at_d
  rw [free_d]
  exact linked j old at_j (free_j ▸ busy) d hd found' at_d

end Linked

universe u

section Endless

variable {slots : List α} {next : Nat → Nat} {stop free : α → Bool}

/-- A scan of a ring stops at one of its slots or at none at all. -/
theorem scan_cases (inside : ∀ i, i < slots.length → next i < slots.length) (fuel : Nat) {h : Nat}
    (hh : h < slots.length) :
    (∃ i, i < slots.length ∧ scan slots next stop fuel h = .ok i) ∨
      scan slots next stop fuel h = .error .endless := by
  induction fuel generalizing h with
  | zero => exact .inr rfl
  | succ fuel ih =>
      simp only [scan, List.getElem?_eq_getElem hh]
      split
      · exact .inl ⟨h, hh, rfl⟩
      · exact ih (inside h hh)

/-- Without a slot to stop at, it walks around the ring for good. -/
theorem scan_endless (inside : ∀ i, i < slots.length → next i < slots.length)
    (nowhere : ∀ entry ∈ slots, stop entry = false) (fuel : Nat) {h : Nat}
    (hh : h < slots.length) : scan slots next stop fuel h = .error .endless := by
  induction fuel generalizing h with
  | zero => rfl
  | succ fuel ih =>
      simp only [scan, List.getElem?_eq_getElem hh, nowhere _ (List.getElem_mem hh)]
      exact ih (inside h hh)

variable {moves : α → Nat → Nat → Bool}

theorem shift_cases {n : Nat} (inside : ∀ i, i < n → next i < n) (fuel : Nat) {hole j : Nat}
    (length : slots.length = n) (hhole : hole < n) (hj : j < n) :
    (∃ slots' hole', shift next free moves fuel slots hole j = .ok (slots', hole') ∧
        slots'.length = n ∧ hole' < n) ∨
      shift next free moves fuel slots hole j = .error .endless := by
  induction fuel generalizing slots hole j with
  | zero => exact .inr rfl
  | succ fuel ih =>
      have next_lt := inside j hj
      simp only [shift, List.getElem?_eq_getElem (length ▸ next_lt)]
      split
      · exact .inl ⟨slots, hole, rfl, length, hhole⟩
      · split
        · exact ih (by rwa [List.length_set]) next_lt next_lt
        · exact ih length hhole next_lt

/-- Moving entries around frees no slot. -/
theorem shift_endless {n : Nat} (inside : ∀ i, i < n → next i < n) (fuel : Nat) {hole j : Nat}
    (full : ∀ entry ∈ slots, free entry = false) (length : slots.length = n) (hj : j < n) :
    shift next free moves fuel slots hole j = .error .endless := by
  induction fuel generalizing slots hole j with
  | zero => rfl
  | succ fuel ih =>
      have next_lt := inside j hj
      have within : next j < slots.length := by omega
      have member : slots[next j] ∈ slots := List.getElem_mem within
      simp only [shift, List.getElem?_eq_getElem within, full _ member, Bool.false_eq_true,
        if_false]
      split
      · refine ih (fun entry inserted => ?_) (by rwa [List.length_set]) next_lt
        obtain kept | rfl := List.mem_or_eq_of_mem_set inserted
        · exact full entry kept
        · exact full _ member
      · exact ih full length next_lt

end Endless

/-- Two tables of one length whose entries are related slot by slot. -/
def Related {α β : Type u} (R : α → β → Prop) (slots : List α) (slots' : List β) : Prop :=
  ∀ i : Nat, Option.Rel R slots[i]? slots'[i]?

namespace Related

variable {α β : Type u} {R : α → β → Prop} {slots : List α} {slots' : List β}

theorem cases_at (related : Related R slots slots') (i : Nat) :
    slots[i]? = none ∧ slots'[i]? = none ∨
      ∃ a b, slots[i]? = some a ∧ slots'[i]? = some b ∧ R a b := by
  have here := related i
  cases at_i : slots[i]? <;> cases at_i' : slots'[i]? <;> rw [at_i, at_i'] at here
  · exact .inl ⟨rfl, rfl⟩
  · cases here
  · cases here
  · cases here
    exact .inr ⟨_, _, rfl, rfl, ‹_›⟩

theorem length_eq (related : Related R slots slots') : slots.length = slots'.length := by
  have ends : ∀ i, slots.length ≤ i ↔ slots'.length ≤ i := by
    intro i
    rw [← List.getElem?_eq_none_iff, ← List.getElem?_eq_none_iff]
    obtain ⟨at_i, at_i'⟩ | ⟨_, _, at_i, at_i', _⟩ := related.cases_at i <;> simp [at_i, at_i']
  exact Nat.le_antisymm ((ends _).mpr le_rfl) ((ends _).mp le_rfl)

theorem set (related : Related R slots slots') (i : Nat) {a : α} {b : β} (ab : R a b) :
    Related R (slots.set i a) (slots'.set i b) := by
  intro j
  by_cases here : i = j
  · subst here
    simp only [List.getElem?_set_self', Option.map_eq_map]
    obtain ⟨at_i, at_i'⟩ | ⟨_, _, at_i, at_i', _⟩ := related.cases_at i
    · simp only [at_i, at_i', Option.map_none]
      exact .none
    · simp only [at_i, at_i', Option.map_some]
      exact .some ab
  · rw [List.getElem?_set_ne here, List.getElem?_set_ne here]
    exact related j

variable {next : Nat → Nat} {stop : α → Bool} {stop' : β → Bool}

/-- A scan ends at the same slot of both tables. -/
theorem scan_eq (related : Related R slots slots') (stops : ∀ a b, R a b → stop a = stop' b)
    (fuel h : Nat) : scan slots next stop fuel h = scan slots' next stop' fuel h := by
  induction fuel generalizing h with
  | zero => rfl
  | succ fuel ih =>
      obtain ⟨at_h, at_h'⟩ | ⟨a, b, at_h, at_h', ab⟩ := related.cases_at h
      · simp only [scan, at_h, at_h']
      · simp only [scan, at_h, at_h', stops a b ab, ih]

variable {free : α → Bool} {free' : β → Bool} {moves : α → Nat → Nat → Bool}
variable {moves' : β → Nat → Nat → Bool}

/-- A shift moves the same slots of both tables. -/
theorem shift (related : Related R slots slots') (frees : ∀ a b, R a b → free a = free' b)
    (same_moves : ∀ a b, R a b → moves a = moves' b) (fuel hole j : Nat) :
    Run.Corresponds (fun r r' => Related R r.1 r'.1 ∧ r.2 = r'.2)
      (Probing.shift next free moves fuel slots hole j)
      (Probing.shift next free' moves' fuel slots' hole j) := by
  induction fuel generalizing slots slots' hole j with
  | zero => exact rfl
  | succ fuel ih =>
      obtain ⟨at_j, at_j'⟩ | ⟨a, b, at_j, at_j', ab⟩ := related.cases_at (next j)
      · simp only [Probing.shift, at_j, at_j']
        exact rfl
      · simp only [Probing.shift, at_j, at_j', frees a b ab, same_moves a b ab]
        split
        · exact ⟨related, rfl⟩
        · split
          · exact ih (related.set hole ab) _ _
          · exact ih related _ _

end Related

end OrderBook.Probing
