import OrderBook.Index.Operations

/-!
# Which records a probe can still find

A record is found by probing for its id when no slot between its home and its
place is free. `Linked` says this of every stored record. Insertion and stores
through a pointer keep it. Deletion does not always: the shift loop moves an
entry when its home lies in `(hole, j]`, which is when the move carries it in
front of its home, and leaves it when the hole lies on its probe path.

`erase_complete_iff` is the exact condition. The deletion keeps every other record
findable if and only if the slot after the deleted record is free, so that there
is nothing to shift.
-/

namespace OrderBook.OrderIndex

open Cyclic
open scoped List

variable {index : OrderIndex} {id : OrderId} {i : Nat} {order : Order}

/-- The stored ids are pairwise different. -/
def Distinct (index : OrderIndex) : Prop := (index.records.map Order.id).Nodup

/-- No slot from the home of a stored record up to its place is free. -/
def Linked (index : OrderIndex) : Prop :=
  Probing.Linked index.slots isFree fun order => index.slotFor order.id

/-- The probe of every stored record's id ends at that record. -/
def Complete (index : OrderIndex) : Prop :=
  ∀ order ∈ index.records, ∃ i, index.Holds order.id i order

/-- A record with this id is stored with no free slot on its probe path. -/
def Reachable (index : OrderIndex) (id : OrderId) : Prop :=
  ∃ (i : Nat) (order : Order), index.slots[i]? = some order ∧ order.id = id ∧
    isFree order = false ∧
    Probing.Avoids index.slots isFree (index.slotFor id)
      (dist index.slots.length (index.slotFor id) i)

/-- The slot after `i`, cyclically, is free. -/
def FreeAfter (index : OrderIndex) (i : Nat) : Prop :=
  ∃ entry, index.slots[index.next i]? = some entry ∧ isFree entry = true

/-- The slots with their entries. -/
theorem exists_slot_iff {P : Nat → Order → Prop} :
    (∃ (i : Nat) (order : Order), index.slots[i]? = some order ∧ P i order) ↔
      ∃ i, ∃ (within : i < index.slots.length), P i index.slots[i] := by
  simp only [List.getElem?_eq_some_iff]
  constructor
  · rintro ⟨i, _, ⟨within, rfl⟩, holds⟩
    exact ⟨i, within, holds⟩
  · rintro ⟨i, within, holds⟩
    exact ⟨i, _, ⟨within, rfl⟩, holds⟩

theorem forall_slot_iff {P : Nat → Order → Prop} :
    (∀ (i : Nat) (order : Order), index.slots[i]? = some order → P i order) ↔
      ∀ i (within : i < index.slots.length), P i index.slots[i] := by
  simp only [List.getElem?_eq_some_iff]
  constructor
  · intro slots i within
    exact slots i _ ⟨within, rfl⟩
  · rintro slots i _ ⟨within, rfl⟩
    exact slots i within

instance (index : OrderIndex) (id : OrderId) : Decidable (index.Reachable id) :=
  decidable_of_iff _ exists_slot_iff.symm

instance (index : OrderIndex) (i : Nat) : Decidable (index.FreeAfter i) :=
  decidable_of_iff ((index.slots[index.next i]?).any isFree = true) <| by
    simp only [FreeAfter, Option.any_eq_true]

theorem mem_records_iff : order ∈ index.records ↔
    isFree order = false ∧ ∃ i : Nat, index.slots[i]? = some order := by
  rw [records, List.mem_filter, List.mem_iff_getElem?, Bool.not_eq_true']
  exact and_comm

theorem Distinct.slot_unique (distinct : index.Distinct) {j : Nat} {order' : Order}
    (at_i : index.slots[i]? = some order) (at_j : index.slots[j]? = some order')
    (busy : isFree order = false) (same : order.id = order'.id) : i = j := by
  rw [Distinct, List.Nodup, records, List.pairwise_map, List.pairwise_filter,
    List.pairwise_iff_getElem] at distinct
  obtain ⟨hi, rfl⟩ := List.getElem?_eq_some_iff.mp at_i
  obtain ⟨hj, rfl⟩ := List.getElem?_eq_some_iff.mp at_j
  have busy' : isFree index.slots[j] = false := by
    rw [isFree, ← same]
    exact busy
  by_contra apart
  obtain before | after := Nat.lt_or_gt_of_ne apart
  · exact distinct i j hi hj before (by simp [busy]) (by simp [busy']) same
  · exact distinct j i hj hi after (by simp [busy']) (by simp [busy]) same.symm

/-- A probe finds an id exactly when some record with it is reachable. -/
theorem Roomy.reachable_iff (roomy : index.Roomy) :
    index.Reachable id ↔ ∃ i order, index.Holds id i order := by
  constructor
  · rintro ⟨i, order, at_i, id_eq, busy, unbroken⟩
    have hhome := roomy.slotFor_lt id
    have hi : i < index.slots.length := (List.getElem?_eq_some_iff.mp at_i).1
    obtain unknown | found := roomy.find_cases id
    · obtain ⟨k, entry, hk, scanned, avoids, at_k, _⟩ := roomy.probe id
      have near : k ≤ dist index.slots.length (index.slotFor id) i := by
        by_contra far
        have := avoids _ (not_le.mp far) order (by rwa [walk_dist hhome hi])
        simp [isFreeOr, id_eq] at this
      have taken : isFree entry = false := by
        obtain before | last := near.lt_or_eq
        · exact unbroken k before entry at_k
        · rw [last, walk_dist hhome hi, at_i] at at_k
          cases at_k
          exact busy
      simp only [find, scanned, Run.ok_bind, deref_eq at_k, taken] at unknown
      cases unknown
    · exact found
  · rintro ⟨i, order, holds⟩
    obtain ⟨k, hk, place, _, avoids⟩ := roomy.probe_of_holds holds
    refine ⟨i, order, holds.at_slot, holds.id_eq, holds.busy, ?_⟩
    rw [← place, dist_walk (roomy.slotFor_lt id) hk]
    intro d hd entry at_d
    exact (Bool.or_eq_false_iff.mp (avoids d hd entry at_d)).1

namespace Sound

/-- A record with no free slot between its home and its place is found. -/
theorem holds_of_avoids (sound : index.Sound) (distinct : index.Distinct)
    (at_i : index.slots[i]? = some order) (busy : isFree order = false)
    (avoids : Probing.Avoids index.slots isFree (index.slotFor order.id)
      (dist index.slots.length (index.slotFor order.id) i)) :
    index.Holds order.id i order := by
  have hi : i < index.slots.length := (List.getElem?_eq_some_iff.mp at_i).1
  have hhome := sound.roomy.slotFor_lt order.id
  have hdist := dist_lt hhome hi
  have place := walk_dist hhome hi
  have passes : Probing.Avoids index.slots (isFreeOr order.id) (index.slotFor order.id)
      (dist index.slots.length (index.slotFor order.id) i) := by
    intro d hd entry at_d
    have other : entry.id ≠ order.id := by
      intro same
      have here := distinct.slot_unique at_i at_d busy same.symm
      have := dist_walk hhome (d := d) (by omega)
      rw [← here] at this
      omega
    simp [isFreeOr, avoids d hd entry at_d, other]
  have scanned :=
    Probing.scan_eq_ok sound.roomy.next_eq hhome hdist (hdist.trans index.length_lt_fuel) passes
    (by rw [place]; exact at_i) (by simp [isFreeOr])
  rw [place] at scanned
  refine ⟨?_, at_i, rfl, busy⟩
  simp only [find, scanned, Run.ok_bind, deref_eq at_i, busy]
  rfl

/-- A record with a free slot on its probe path is lost. -/
theorem find_none_of_gap (sound : index.Sound) (distinct : index.Distinct)
    (at_i : index.slots[i]? = some order) (busy : isFree order = false) {d : Nat}
    (hd : d < dist index.slots.length (index.slotFor order.id) i) {gap : Order}
    (at_d : index.slots[walk index.slots.length (index.slotFor order.id) d]? = some gap)
    (free : isFree gap = true) : index.find order.id = .ok none := by
  have hi : i < index.slots.length := (List.getElem?_eq_some_iff.mp at_i).1
  have hhome := sound.roomy.slotFor_lt order.id
  have hdist := dist_lt hhome hi
  obtain ⟨k, entry, hk, scanned, avoids, at_k, stops⟩ := sound.roomy.probe order.id
  have near : k ≤ d := by
    by_contra far
    have := avoids d (by omega) gap at_d
    simp [isFreeOr, free] at this
  have free_k : isFree entry = true := by
    by_contra taken
    have same : entry.id = order.id := by simpa [isFreeOr, taken] using stops
    have here := distinct.slot_unique at_i at_k busy same.symm
    have := dist_walk hhome (d := k) (by omega)
    rw [← here] at this
    omega
  simp only [find, scanned, Run.ok_bind, deref_eq at_k, free_k]
  rfl

theorem complete_of_linked (sound : index.Sound) (distinct : index.Distinct)
    (linked : index.Linked) : index.Complete := by
  intro order member
  obtain ⟨busy, i, at_i⟩ := mem_records_iff.mp member
  exact ⟨i, sound.holds_of_avoids distinct at_i busy (linked i order at_i busy)⟩

theorem linked_of_complete (sound : index.Sound) (distinct : index.Distinct)
    (complete : index.Complete) : index.Linked := by
  intro i order at_i busy d hd gap at_d
  by_contra free
  obtain ⟨j, holds⟩ := complete order (mem_records_iff.mpr ⟨busy, i, at_i⟩)
  have lost := sound.find_none_of_gap distinct at_i busy hd at_d (by simpa using free)
  have := holds.find.symm.trans lost
  cases this

/-- Insertion puts the order at the first free slot of its probe path and frees
none. -/
theorem insert_linked (sound : index.Sound) (room : index.size * 2 < index.slots.length)
    (linked : index.Linked) (busy : isFree order = false) {index' : OrderIndex}
    (inserted : index.insert order = .ok index') : index'.Linked := by
  obtain ⟨k, free, hk, scanned, avoids, _, _⟩ :=
    Probing.scan_spec sound.roomy.next_eq (sound.roomy.slotFor_lt order.id)
      index.length_lt_fuel.le sound.exists_free
  simp only [insert, room, if_true, scanned, Run.ok_bind] at inserted
  cases inserted
  exact Probing.Linked.set_nearest linked busy (sound.roomy.slotFor_lt order.id) hk avoids

/-- With a free slot after the deleted record, the shift loop has nothing to do. -/
theorem erase_eq_of_freeAfter (sound : index.Sound) (holds : index.Holds id i order)
    (after : index.FreeAfter i) :
    index.erase id = .ok { index with
      slots := index.slots.set i emptyOrder, size := index.size - 1 } := by
  obtain ⟨entry, at_next, free⟩ := after
  rw [sound.roomy.erase_eq_of_holds holds, fuel]
  simp only [Probing.shift, at_next, free, if_true, Run.ok_bind]
  rfl

theorem erase_linked (sound : index.Sound) (linked : index.Linked)
    (holds : index.Holds id i order) (after : index.FreeAfter i) {index' : OrderIndex}
    (erased : index.erase id = .ok index') : index'.Linked := by
  have hi : i < index.slots.length := (List.getElem?_eq_some_iff.mp holds.at_slot).1
  rw [sound.erase_eq_of_freeAfter holds after] at erased
  cases erased
  obtain ⟨entry, at_next, free⟩ := after
  rw [sound.roomy.next_eq i hi] at at_next
  exact Probing.Linked.set_free linked (fun order => sound.roomy.slotFor_lt order.id) hi
    (by simp [isFree, emptyOrder]) at_next free

end Sound

theorem Linked.setRemaining (linked : index.Linked) (i : Nat) (remaining : Quantity) :
    (index.setRemaining i remaining).Linked :=
  Probing.Linked.modify linked (fun order => { order with remaining })
    (fun _ => rfl) (fun _ => rfl) i

/-- Slot `s` holds a record whose probe path runs through the hole. -/
private def Cut (index : OrderIndex) (slots : List Order) (hole s : Nat) (order : Order) : Prop :=
  slots[s]? = some order ∧ isFree order = false ∧ s ≠ hole ∧ hole < slots.length ∧
    dist slots.length (index.slotFor order.id) hole <
      dist slots.length (index.slotFor order.id) s

/-- An entry that moves leaves its old slot, on its own probe path, as the hole. -/
private theorem cut_of_moved {slots : List Order} {hole j : Nat} (hhole : hole < slots.length)
    (hj : j < slots.length) (hhome : index.slotFor order.id < slots.length)
    (busy : isFree order = false) (apart : j ≠ hole)
    (moved : inRange (index.slotFor order.id) hole j = true) :
    Cut index (slots.set hole order) j hole order := by
  refine ⟨List.getElem?_set_self hhole, busy, apart.symm, by simpa using hj, ?_⟩
  rw [List.length_set]
  simp only [inRange] at moved
  simp only [Cyclic.dist]
  split at moved <;> simp at moved <;> split <;> split <;> omega

/-- An entry right after the hole that stays has the hole on its probe path. -/
private theorem cut_of_stays {slots : List Order} {hole : Nat} (hhole : hole < slots.length)
    (hhome : index.slotFor order.id < slots.length) (busy : isFree order = false)
    (at_next : slots[walk slots.length hole 1]? = some order)
    (apart : walk slots.length hole 1 ≠ hole)
    (stays : ¬ inRange (index.slotFor order.id) hole (walk slots.length hole 1) = true) :
    Cut index slots hole (walk slots.length hole 1) order := by
  refine ⟨at_next, busy, apart, hhole, ?_⟩
  generalize place : walk slots.length hole 1 = j at *
  simp only [walk] at place
  simp only [inRange] at stays
  simp only [Cyclic.dist]
  split at place <;> split at stays <;> simp at stays <;> split <;> split <;> omega

/-- Once the shift loop has met an entry, the hole cuts some record off from its
home: an entry moves in front of its home or stays behind the hole. -/
private theorem Sound.shift_cut (sound : index.Sound) {m : Nat} (hi : i < index.slots.length)
    (hm : m + 1 < index.slots.length)
    (busy : ∀ d, d < m → ∀ entry,
      index.slots[walk index.slots.length i (d + 1)]? = some entry → isFree entry = false)
    (stop : ∃ entry, index.slots[walk index.slots.length i (m + 1)]? = some entry ∧
      isFree entry = true) :
    ∃ slots hole, Probing.shift index.next isFree
        (fun entry hole j => inRange (index.slotFor entry.id) hole j)
        index.fuel index.slots i i = .ok (slots, hole) ∧
      slots.length = index.slots.length ∧ (m = 0 ∨ ∃ s order, Cut index slots hole s order) := by
  obtain ⟨slots, hole, shifted, same, cut⟩ := Probing.shift_rule
    (fun entry hole j => inRange (index.slotFor entry.id) hole j)
    (fun slots hole j => slots.length = index.slots.length ∧
      ((j = i ∧ hole = i) ∨ ∃ s order, Cut index slots hole s order))
    sound.roomy.next_eq
    (by
      intro slots hole j entry same hhole hj apart inv at_next taken
      have hhome := sound.roomy.slotFor_lt entry.id
      rw [← same] at hhole hj hhome apart at_next ⊢
      split
      case isTrue moved =>
        have next_lt := walk_lt hj (show 1 ≤ slots.length by omega)
        exact ⟨by simp, .inr ⟨hole, entry, cut_of_moved hhole next_lt hhome taken apart moved⟩⟩
      case isFalse stays =>
        refine ⟨rfl, .inr ?_⟩
        obtain ⟨rfl, rfl⟩ | cut := inv.2
        · exact ⟨_, entry, cut_of_stays hhole hhome taken at_next apart stays⟩
        · exact cut)
    rfl hi hi hm ((Nat.lt_of_succ_lt hm).trans index.length_lt_fuel)
    (fun d hd => walk_ne_self hi (by omega) (by omega)) busy stop ⟨rfl, .inl ⟨rfl, rfl⟩⟩
  refine ⟨slots, hole, shifted, same, cut.imp ?_ id⟩
  rintro ⟨back, _⟩
  by_contra some_met
  exact walk_ne_self hi (by omega) (by omega) back

theorem Distinct.of_erase (distinct : index.Distinct) {index' : OrderIndex}
    (removed : order :: index'.records ~ index.records) : index'.Distinct :=
  ((removed.map Order.id).nodup_iff.mpr distinct).of_cons

/-- A deletion that has to shift loses a record for every later probe. -/
theorem Sound.erase_loses (sound : index.Sound) (distinct : index.Distinct)
    (holds : index.Holds id i order) (occupied : ¬ index.FreeAfter i) {index' : OrderIndex}
    (erased : index.erase id = .ok index') :
    ∃ lost ∈ index'.records, index'.find lost.id = .ok none := by
  have hi : i < index.slots.length := (List.getElem?_eq_some_iff.mp holds.at_slot).1
  obtain ⟨m, hm, busy, stop⟩ := sound.roomy.exists_run holds.at_slot holds.busy
  obtain ⟨sound', _, _, removed⟩ := sound.removes_of_erase holds erased
  obtain ⟨slots, hole, shifted, length, none_met | ⟨s, lost, at_s, taken, apart, hhole, gap⟩⟩ :=
    sound.shift_cut hi hm busy stop
  · subst none_met
    obtain ⟨entry, at_next, free⟩ := stop
    exact absurd ⟨entry, by rwa [sound.roomy.next_eq i hi], free⟩ occupied
  · rw [sound.roomy.erase_eq_of_holds holds, shifted] at erased
    cases erased
    have at_s' : (slots.set hole emptyOrder)[s]? = some lost := by
      rwa [List.getElem?_set_ne apart.symm]
    refine ⟨lost, mem_records_iff.mpr ⟨taken, s, at_s'⟩, ?_⟩
    have hhome : index.slotFor lost.id < slots.length := by
      rw [length]
      exact sound.roomy.slotFor_lt lost.id
    have in_front : dist (slots.set hole emptyOrder).length (index.slotFor lost.id) hole <
        dist (slots.set hole emptyOrder).length (index.slotFor lost.id) s := by
      rwa [List.length_set]
    have vacated : (slots.set hole emptyOrder)[walk (slots.set hole emptyOrder).length
        (index.slotFor lost.id) (dist (slots.set hole emptyOrder).length
          (index.slotFor lost.id) hole)]? = some emptyOrder := by
      rw [List.length_set, walk_dist hhome hhole, List.getElem?_set_self hhole]
    exact sound'.find_none_of_gap (distinct.of_erase removed) at_s' taken in_front vacated
      (by simp [isFree, emptyOrder])

/-- Deleting a known id leaves every other record findable exactly when the slot
after it is free. -/
theorem Sound.erase_complete_iff (sound : index.Sound) (distinct : index.Distinct)
    (complete : index.Complete) (holds : index.Holds id i order) {index' : OrderIndex}
    (erased : index.erase id = .ok index') : index'.Complete ↔ index.FreeAfter i := by
  obtain ⟨sound', _, _, removed⟩ := sound.removes_of_erase holds erased
  constructor
  · intro complete'
    by_contra occupied
    obtain ⟨lost, member, unknown⟩ := sound.erase_loses distinct holds occupied erased
    obtain ⟨j, found⟩ := complete' lost member
    have := found.find.symm.trans unknown
    cases this
  · intro after
    exact sound'.complete_of_linked (distinct.of_erase removed)
      (sound.erase_linked (sound.linked_of_complete distinct complete) holds after erased)

end OrderBook.OrderIndex
