import OrderBook.Index.Represents

/-!
# When the index is a finite map

A client of the index inserts orders, erases ids and stores through the pointers
that `find` returns. Over every legal history of such calls two things are asked
of the index. As a finite map, it finds each live id at its record and no other
id. As a bounded resource, its size is the number of live ids, so the load factor
assertion holds and every probe loop ends.

Neither is true of every legal history, because `erase` can cut a record off from
its home. The two `iff` theorems below name the histories on which each holds: for
the map, those whose erasures never have an entry to shift; for the size, those
whose erasures each meet a reachable record.
-/

namespace OrderBook.OrderIndex

/-- The calls of a client. `write` is a store to `remaining` through `find`. -/
inductive IndexOp where
  | insert (order : Order)
  | erase (id : OrderId)
  | write (id : OrderId) (remaining : Quantity)
  deriving DecidableEq, Repr

def apply (index : OrderIndex) : IndexOp → Except Fault OrderIndex
  | .insert order => index.insert order
  | .erase id => index.erase id
  | .write id remaining => do
      match ← index.find id with
      | none => return index
      | some i => return index.setRemaining i remaining

/-- A newly constructed index after a history of calls. -/
def run (hint : Nat) (ops : List IndexOp) : Except Fault OrderIndex := do
  let index ← new hint
  ops.foldlM apply index

namespace IndexOp

def target : IndexOp → OrderId
  | insert order => order.id
  | erase id => id
  | write id _ => id

/-- The id that a call erases, if it erases one. -/
def erased : IndexOp → Option OrderId
  | erase id => some id
  | _ => none

/-- What a call means for the map of live orders. -/
def onLive (live : LiveOrders) : IndexOp → LiveOrders
  | insert order => live.put order.id order.resting
  | erase id => live.drop id
  | write id remaining =>
      match live.lookup id with
      | none => live
      | some resting => live.put id { resting with remaining }

/-- An inserted id is not live and not the free mark, and the live ids fit the hint. -/
def Admissible (hint : Nat) (live : LiveOrders) (op : IndexOp) : Prop :=
  (match op with
    | insert order => live.lookup order.id = none ∧ order.id ≠ kEmpty
    | _ => True) ∧ (op.onLive live).count ≤ hint

/-- A history of insertions and erasures of live ids. -/
def Balanced (live : LiveOrders) : IndexOp → Prop
  | insert _ => True
  | erase id => live.lookup id ≠ none
  | write _ _ => False

instance (hint : Nat) (live : LiveOrders) (op : IndexOp) : Decidable (Admissible hint live op) := by
  unfold Admissible
  cases op <;> exact inferInstance

instance (live : LiveOrders) (op : IndexOp) : Decidable (Balanced live op) := by
  unfold Balanced
  cases op <;> exact inferInstance

end IndexOp

/-- The live orders after a history of calls. -/
def liveAfter (ops : List IndexOp) : LiveOrders := ops.foldl IndexOp.onLive ∅

def Legal (hint : Nat) (ops : List IndexOp) : Prop :=
  Run.Always IndexOp.onLive (IndexOp.Admissible hint) ∅ ops

/-- A legal history without writes that erases only live ids. -/
def LegalBalanced (hint : Nat) (ops : List IndexOp) : Prop :=
  Run.Always IndexOp.onLive (fun live op => op.Admissible hint live ∧ op.Balanced live) ∅ ops

instance (hint : Nat) (ops : List IndexOp) : Decidable (Legal hint ops) :=
  inferInstanceAs (Decidable (Run.Always _ _ _ _))

instance (hint : Nat) (ops : List IndexOp) : Decidable (LegalBalanced hint ops) :=
  inferInstanceAs (Decidable (Run.Always _ _ _ _))

/-- Each live id is found at its record and no other id is found. -/
def FindsLive (index : OrderIndex) (live : LiveOrders) : Prop :=
  ∀ id, match live.lookup id with
    | none => index.find id = .ok none
    | some resting => ∃ i, index.Holds id i (resting.toOrder id)

/-- After every call the index finds exactly the live orders. -/
def IsFiniteMap (hint : Nat) (ops : List IndexOp) : Prop :=
  ∀ before, before <+: ops → ∃ index, run hint before = .ok index ∧
    index.FindsLive (liveAfter before)

/-- Whenever a stored id is erased, the slot after its record is free. -/
def NeverShifts (hint : Nat) (ops : List IndexOp) : Prop :=
  ∀ before id, before ++ [.erase id] <+: ops → ∀ index, run hint before = .ok index →
    ∀ (i : Nat) order, index.slots[i]? = some order → isFree order = false → order.id = id →
      index.FreeAfter i

/-- After every call `size_` counts the live ids, and a free slot is left. -/
def CountsLive (hint : Nat) (ops : List IndexOp) : Prop :=
  ∀ before, before <+: ops → ∃ index, run hint before = .ok index ∧
    index.size = (liveAfter before).count ∧
      ∃ (i : Nat) (order : Order), index.slots[i]? = some order ∧ isFree order = true

/-- Whenever an id is erased, no free slot cuts it off from its record. -/
def ErasesReachable (hint : Nat) (ops : List IndexOp) : Prop :=
  ∀ before id, before ++ [.erase id] <+: ops → ∀ index, run hint before = .ok index →
    index.Reachable id

@[simp] theorem liveAfter_snoc (ops : List IndexOp) (op : IndexOp) :
    liveAfter (ops ++ [op]) = op.onLive (liveAfter ops) := by
  simp [liveAfter]

theorem run_nil (hint : Nat) : run hint [] = new hint := Run.foldlM_nil _ _

theorem run_snoc {hint : Nat} {ops : List IndexOp} {index : OrderIndex}
    (reached : run hint ops = .ok index) (op : IndexOp) :
    run hint (ops ++ [op]) = index.apply op :=
  Run.foldlM_snoc_of_ok reached op

variable {index : OrderIndex} {live : LiveOrders} {hint : Nat} {ops : List IndexOp}

theorem Represents.complete_iff (represents : index.Represents live) :
    index.Complete ↔ index.FindsLive live := by
  constructor
  · intro complete id
    cases present : live.lookup id with
    | none => exact represents.find_of_absent present
    | some resting =>
        exact complete (resting.toOrder id) (represents.mem_records.mpr present)
  · intro finds order member
    have present := represents.mem_records.mp member
    have found := finds order.id
    rw [present] at found
    exact found

/-- A legal call on an index that finds the record it needs. -/
theorem Represents.apply (represents : index.Represents live)
    (room : hint * 2 ≤ index.slots.length) (op : IndexOp) (legal : op.Admissible hint live)
    (found : ∀ resting, live.lookup op.target = some resting →
      ∃ i, index.Holds op.target i (resting.toOrder op.target)) :
    ∃ index', index.apply op = .ok index' ∧ index'.Represents (op.onLive live) ∧
      index'.slots.length = index.slots.length := by
  cases op with
  | insert order =>
      obtain ⟨⟨fresh, busy⟩, fits⟩ := legal
      apply represents.insert fresh busy
      have := LiveOrders.count_put_of_fresh fresh order.resting
      simp only [IndexOp.onLive] at fits
      omega
  | erase id =>
      cases present : live.lookup id with
      | none =>
          refine ⟨index, ?_, ?_, rfl⟩
          · exact represents.sound.roomy.erase_of_find_none (represents.find_of_absent present)
          · simpa [IndexOp.onLive, LiveOrders.drop_of_absent present] using represents
      | some resting =>
          obtain ⟨i, holds⟩ := found resting present
          exact represents.erase holds
  | write id remaining =>
      cases present : live.lookup id with
      | none =>
          refine ⟨index, ?_, ?_, rfl⟩
          · simp only [OrderIndex.apply, represents.find_of_absent present, Run.ok_bind]
            rfl
          · simpa [IndexOp.onLive, present] using represents
      | some resting =>
          obtain ⟨i, holds⟩ := found resting present
          have at_id : index.find id = .ok (some i) := holds.find
          refine ⟨index.setRemaining i remaining, ?_, ?_, ?_⟩
          · simp only [OrderIndex.apply, at_id, Run.ok_bind]
            rfl
          · simp only [IndexOp.onLive, present]
            exact represents.setRemaining holds remaining
          · simp [OrderIndex.setRemaining]

theorem Legal.at (legal : Legal hint ops) {before : List IndexOp} {op : IndexOp}
    (member : before ++ [op] <+: ops) : op.Admissible hint (liveAfter before) :=
  Run.Always.at legal member

/-- The records stay the live orders as long as the index finds them. -/
theorem exists_represents (hhint : hint ≤ 2 ^ 62) (legal : Legal hint ops)
    (finds : ∀ before op, before ++ [op] <+: ops → ∀ index, run hint before = .ok index →
      index.Represents (liveAfter before) → ∀ resting,
        (liveAfter before).lookup op.target = some resting →
          ∃ i, index.Holds op.target i (resting.toOrder op.target)) :
    ∀ before, before <+: ops → ∃ index, run hint before = .ok index ∧
      index.Represents (liveAfter before) ∧ hint * 2 ≤ index.slots.length := by
  apply Run.reaches
  · obtain ⟨index, constructed, represents, _, room⟩ := Represents.of_new hhint
    exact ⟨index, constructed, represents, room⟩
  · rintro before op index member reached ⟨represents, room⟩
    obtain ⟨index', stepped, represents', length⟩ := represents.apply room op (legal.at member)
      (finds before op member index reached represents)
    rw [liveAfter_snoc]
    exact ⟨index', stepped, represents', by omega⟩

/-- Without shifts the index stays linked. -/
private theorem linked_of_neverShifts (hhint : hint ≤ 2 ^ 62) (legal : Legal hint ops)
    (unshifted : NeverShifts hint ops) :
    ∀ before, before <+: ops → ∃ index, run hint before = .ok index ∧
      index.Represents (liveAfter before) ∧ index.Linked ∧ hint * 2 ≤ index.slots.length := by
  apply Run.reaches
  · obtain ⟨index, constructed, represents, linked, room⟩ := Represents.of_new hhint
    exact ⟨index, constructed, represents, linked, room⟩
  · rintro before op index member reached ⟨represents, linked, room⟩
    have complete := represents.sound.complete_of_linked represents.distinct linked
    have admissible := legal.at member
    obtain ⟨index', stepped, represents', length⟩ := represents.apply room op admissible (by
      intro resting present
      exact complete (resting.toOrder op.target) (represents.mem_records.mpr present))
    refine ⟨index', stepped, ?_, ?_, by omega⟩
    · rw [liveAfter_snoc]
      exact represents'
    cases op with
    | insert order =>
        obtain ⟨⟨fresh, busy⟩, fits⟩ := admissible
        have grown := LiveOrders.count_put_of_fresh fresh order.resting
        have counted := represents.size
        simp only [IndexOp.onLive] at fits
        exact represents.sound.insert_linked (by omega) linked (by simp [isFree, busy]) stepped
    | erase id =>
        obtain unknown | ⟨i, order, holds⟩ := represents.sound.roomy.find_cases id
        · have kept := (represents.sound.roomy.erase_of_find_none unknown).symm.trans stepped
          cases kept
          exact linked
        · exact represents.sound.erase_linked linked holds (unshifted before id member index
            reached i order holds.at_slot holds.busy holds.id_eq) stepped
    | write id remaining =>
        obtain unknown | ⟨i, order, holds⟩ := represents.sound.roomy.find_cases id
        · simp only [OrderIndex.apply, unknown, Run.ok_bind] at stepped
          cases stepped
          exact linked
        · simp only [OrderIndex.apply, holds.find, Run.ok_bind] at stepped
          cases stepped
          exact linked.setRemaining i remaining

/-- Exactly when the index is a finite map over a whole legal history. -/
theorem isFiniteMap_iff (hint : Nat) (ops : List IndexOp) (legal : Legal hint ops) :
    IsFiniteMap hint ops ↔ hint ≤ 2 ^ 62 ∧ NeverShifts hint ops := by
  constructor
  · intro finite
    have hhint : hint ≤ 2 ^ 62 := by
      by_contra large
      obtain ⟨index, constructed, finds⟩ := finite [] (List.nil_prefix)
      rw [run_nil] at constructed
      have found := finds 0
      simp only [liveAfter, List.foldl_nil, AList.lookup_empty,
        find_of_no_slots (new_of_large (by omega) constructed)] at found
      cases found
    have stored := exists_represents hhint legal (by
      intro before op member index reached represents resting present
      obtain ⟨same, reached', finds⟩ := finite before ((List.prefix_append _ _).trans member)
      cases reached.symm.trans reached'
      have found := finds op.target
      rwa [present] at found)
    refine ⟨hhint, ?_⟩
    intro before id member index reached i order at_i busy id_eq
    have earlier : before <+: ops := (List.prefix_append _ _).trans member
    obtain ⟨same, reached', represents, _⟩ := stored before earlier
    cases reached.symm.trans reached'
    obtain ⟨same, reached', finds⟩ := finite before earlier
    cases reached.symm.trans reached'
    have complete := represents.complete_iff.mpr finds
    obtain ⟨j, holds⟩ := complete order (mem_records_iff.mpr ⟨busy, i, at_i⟩)
    have here : i = j := represents.distinct.slot_unique at_i holds.at_slot busy rfl
    obtain ⟨index', erased, finds'⟩ := finite _ member
    obtain ⟨same, reached', represents', _⟩ := stored _ member
    cases erased.symm.trans reached'
    rw [run_snoc reached] at erased
    rw [here]
    exact (represents.sound.erase_complete_iff represents.distinct complete holds
      (id_eq ▸ erased)).mp (represents'.complete_iff.mpr finds')
  · rintro ⟨hhint, unshifted⟩ before member
    obtain ⟨index, reached, represents, linked, _⟩ :=
      linked_of_neverShifts hhint legal unshifted before member
    exact ⟨index, reached, represents.complete_iff.mp
      (represents.sound.complete_of_linked represents.distinct linked)⟩

/-- Ids 1 and 9 share a home in a slab of four, so the second one rests in the slot
after the first. -/
def colliding : List IndexOp :=
  [.insert ⟨1, 100, 10, .buy⟩, .insert ⟨9, 200, 20, .sell⟩, .erase 1]

theorem not_isFiniteMap_colliding : Legal 2 colliding ∧ ¬ IsFiniteMap 2 colliding := by
  refine ⟨by decide, fun finite => ?_⟩
  obtain ⟨index, reached, finds⟩ := finite colliding List.prefix_rfl
  have lost : (run 2 colliding >>= fun index => index.find 9) = .ok none := by decide
  have present : (liveAfter colliding).lookup 9 = some ⟨.sell, 200, 20⟩ := by decide
  have found := finds 9
  rw [present] at found
  obtain ⟨i, holds⟩ := found
  rw [reached, Run.ok_bind, holds.find] at lost
  cases lost

/-- The same two ids, the second of which is erased first. -/
def uncut : List IndexOp :=
  [.insert ⟨1, 100, 10, .buy⟩, .insert ⟨9, 200, 20, .sell⟩, .write 1 4, .erase 9, .erase 1]

theorem isFiniteMap_uncut : IsFiniteMap 2 uncut := by
  refine (isFiniteMap_iff 2 uncut (by decide)).mpr ⟨by decide, ?_⟩
  have unshifted : ∀ before op, before ++ [op] <+: uncut → ∀ id ∈ op.erased, ∀ index,
      run 2 before = .ok index → ∀ i (within : i < index.slots.length),
        isFree index.slots[i] = false → index.slots[i].id = id → index.FreeAfter i :=
    Run.forall_snoc_iff.mpr (by decide)
  intro before id member index reached
  exact forall_slot_iff.mpr (unshifted before (.erase id) member id rfl index reached)

/-- A history that erases only live ids needs only its erasures to find their records. -/
private theorem represents_of_erases (hhint : hint ≤ 2 ^ 62) (legal : LegalBalanced hint ops)
    (reaches : ∀ before id, before ++ [.erase id] <+: ops → ∀ index,
      run hint before = .ok index → index.Represents (liveAfter before) → index.Reachable id) :
    ∀ before, before <+: ops → ∃ index, run hint before = .ok index ∧
      index.Represents (liveAfter before) ∧ hint * 2 ≤ index.slots.length := by
  apply exists_represents hhint (Run.Always.imp (fun _ _ ok => ok.1) legal)
  intro before op member index reached represents resting present
  obtain ⟨⟨admissible, _⟩, balanced⟩ := Run.Always.at legal member
  cases op with
  | insert order =>
      rw [liveAfter, IndexOp.target, admissible.1] at present
      cases present
  | erase id =>
      exact represents.holds_of_reachable present
        (reaches before id member index reached represents)
  | write id remaining => exact balanced.elim

/-- Exactly when the size of the index counts the live ids over a whole legal
history, so that the capacity taken from the hint is enough. -/
theorem countsLive_iff (hint : Nat) (ops : List IndexOp) (hhint : 1 ≤ hint ∧ hint ≤ 2 ^ 62)
    (legal : LegalBalanced hint ops) : CountsLive hint ops ↔ ErasesReachable hint ops := by
  constructor
  · intro counts
    -- An erase that misses a live record leaves the size one above the live count.
    have reaches : ∀ before id, before ++ [.erase id] <+: ops → ∀ index,
        run hint before = .ok index → index.Represents (liveAfter before) →
          index.Reachable id := by
      intro before id member index reached represents
      by_contra lost
      have unknown := represents.find_of_unreachable lost
      obtain ⟨index', reached', counted, _⟩ := counts _ member
      rw [run_snoc reached, OrderIndex.apply,
        represents.sound.roomy.erase_of_find_none unknown] at reached'
      cases reached'
      obtain ⟨_, present⟩ := Run.Always.at legal member
      obtain ⟨resting, present⟩ := Option.ne_none_iff_exists'.mp present
      have dropped := LiveOrders.count_drop present
      have kept := represents.size
      rw [liveAfter_snoc, IndexOp.onLive] at counted
      unfold liveAfter at kept counted
      omega
    intro before id member index reached
    obtain ⟨same, reached', represents, _⟩ := represents_of_erases hhint.2 legal reaches before
      ((List.prefix_append _ _).trans member)
    cases reached.symm.trans reached'
    exact reaches before id member index reached represents
  · intro reaches before member
    obtain ⟨index, reached, represents, _⟩ := represents_of_erases hhint.2 legal
      (fun before id member index reached _ => reaches before id member index reached) before member
    exact ⟨index, reached, represents.size, represents.sound.exists_free⟩

theorem not_countsLive_colliding : LegalBalanced 2 (colliding ++ [.erase 9]) ∧
    ¬ CountsLive 2 (colliding ++ [.erase 9]) := by
  refine ⟨by decide, fun counts => ?_⟩
  obtain ⟨index, reached, counted, _⟩ := counts _ List.prefix_rfl
  have leaked : (run 2 (colliding ++ [.erase 9])).map size = .ok 1 := by decide
  rw [reached, Except.map, counted] at leaked
  revert leaked
  decide

/-- Both ids are erased from their slots, and one comes back. -/
def reinserted : List IndexOp :=
  [.insert ⟨1, 100, 10, .buy⟩, .insert ⟨9, 200, 20, .sell⟩, .erase 9, .erase 1,
    .insert ⟨9, 300, 30, .buy⟩, .erase 9]

theorem countsLive_reinserted : CountsLive 2 reinserted := by
  refine (countsLive_iff 2 reinserted (by decide) (by decide)).mpr ?_
  have reachable : ∀ before op, before ++ [op] <+: reinserted → ∀ id ∈ op.erased, ∀ index,
      run 2 before = .ok index → index.Reachable id :=
    Run.forall_snoc_iff.mpr (by decide)
  intro before id member
  exact reachable before (.erase id) member id rfl

end OrderBook.OrderIndex
