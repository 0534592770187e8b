import OrderBook.Bench.Percentiles
import OrderBook.Book.Equivalence
import OrderBook.Levels.Growth
import OrderBook.Replay.Analyse

/-!
# The timed replay of a variant

`run_variant` replays a stream twice. The warm up pass drives a book with `apply`; the
timed pass repeats the mapping from messages to calls by hand, with a clock reading on
each side of a call, and records the differences in four buffers. Nothing is known of
the clock. The best quotes that it reads after each message go to a sink.

The timed pass corresponds to the replay, message by message. So what it records is
counted over the prefix it has read, and its book has the levels of a replayed book.
-/

namespace OrderBook

open PriceLevels Run

/-- How many levels the contiguous books of a run reserve on each side. -/
def levelHint (events : List Event) : Nat :=
  let stats := analyse events
  if stats.addCount < 1024 then 1024 else stats.addCount

/-- The state of a timed pass, with the number of clock readings taken. -/
structure TimedPass (L : Type) where
  book : Book L
  readings : Nat
  addS : LatencySamples
  cancelS : LatencySamples
  reduceS : LatencySamples
  quoteS : LatencySamples
  sunk : List Level

namespace TimedPass

variable {L : Type} [PriceLevels L]

def new (orderCapacityHint capacity : Nat) : Except Fault (TimedPass L) := do
  let book ← Book.new orderCapacityHint
  return { book, readings := 0, addS := .new capacity, cancelS := .new capacity,
           reduceS := .new capacity, quoteS := .new capacity, sunk := [] }

/-- `Timer::read`, with the value of every reading given in advance. -/
def read (clock : Nat → UInt64) (pass : TimedPass L) : UInt64 × TimedPass L :=
  (clock pass.readings, { pass with readings := pass.readings + 1 })

/-- The switch in the body of the loop. -/
def timeCall (clock : Nat → UInt64) (pass : TimedPass L) (event : Event) :
    Except Fault (TimedPass L) :=
  match event.type with
  | 1 => do
      let (t0, pass) := pass.read clock
      let book ← pass.book.add event.id (if event.direction = 1 then .buy else .sell)
        event.price event.size
      let (t1, pass) := { pass with book }.read clock
      return { pass with addS := pass.addS.record (t1 - t0).toNat }
  | 2 | 4 => do
      let (t0, pass) := pass.read clock
      let book ← pass.book.reduce event.id event.size
      let (t1, pass) := { pass with book }.read clock
      return { pass with reduceS := pass.reduceS.record (t1 - t0).toNat }
  | 3 => do
      let (t0, pass) := pass.read clock
      let book ← pass.book.cancel event.id
      let (t1, pass) := { pass with book }.read clock
      return { pass with cancelS := pass.cancelS.record (t1 - t0).toNat }
  | _ => return pass

/-- The rest of the body, which times the best quotes. -/
def timeQuote (clock : Nat → UInt64) (pass : TimedPass L) : TimedPass L :=
  let (q0, pass) := pass.read clock
  let bid := bestBid pass.book.levels
  let ask := bestAsk pass.book.levels
  let (q1, pass) := pass.read clock
  { pass with sunk := pass.sunk ++ [bid, ask], quoteS := pass.quoteS.record (q1 - q0).toNat }

def step (clock : Nat → UInt64) (pass : TimedPass L) (event : Event) :
    Except Fault (TimedPass L) := do
  let pass ← pass.timeCall clock event
  return pass.timeQuote clock

/-- The timed pass over a stream, with buffers reserved for `capacity` samples. -/
def run (orderCapacityHint : Nat) (clock : Nat → UInt64) (capacity : Nat)
    (events : List Event) : Except Fault (TimedPass L) :=
  new orderCapacityHint capacity >>= events.foldlM (step clock)

def buffers (pass : TimedPass L) : List LatencySamples :=
  [pass.addS, pass.cancelS, pass.reduceS, pass.quoteS]

/-- What has been recorded when these messages have been read. -/
structure Recorded (pass : TimedPass L) (capacity : Nat) (events : List Event) : Prop where
  addS : pass.addS.size = events.countP (·.type = 1)
  cancelS : pass.cancelS.size = events.countP (·.type = 3)
  reduceS : pass.reduceS.size = events.countP (·.Reduces)
  quoteS : pass.quoteS.size = events.length
  reserved : ∀ buffer ∈ pass.buffers, buffer.reserved = capacity

section Step

variable {pass : TimedPass L} {event : Event} {capacity : Nat} {before : List Event}

/-- The difference of the two readings that a call or a quote is timed with. -/
def elapsed (clock : Nat → UInt64) (pass : TimedPass L) : Nat :=
  (clock (pass.readings + 1) - clock pass.readings).toNat

theorem timeCall_of_add (clock : Nat → UInt64) (adds : event.type = 1) :
    pass.timeCall clock event = pass.book.apply event >>= fun book =>
      .ok { pass with
        book, readings := pass.readings + 2,
        addS := pass.addS.record (pass.elapsed clock) } := by
  rw [Book.apply_of_add adds]
  simp only [timeCall, adds]
  rfl

theorem timeCall_of_reduces (clock : Nat → UInt64) (reduces : event.Reduces) :
    pass.timeCall clock event = pass.book.apply event >>= fun book =>
      .ok { pass with
        book, readings := pass.readings + 2,
        reduceS := pass.reduceS.record (pass.elapsed clock) } := by
  rw [Book.apply_of_reduces reduces]
  obtain two | four := reduces
  · simp only [timeCall, two]
    rfl
  · simp only [timeCall, four]
    rfl

theorem timeCall_of_cancel (clock : Nat → UInt64) (cancels : event.type = 3) :
    pass.timeCall clock event = pass.book.apply event >>= fun book =>
      .ok { pass with
        book, readings := pass.readings + 2,
        cancelS := pass.cancelS.record (pass.elapsed clock) } := by
  rw [Book.apply_of_cancel cancels]
  simp only [timeCall, cancels]
  rfl

theorem timeCall_of_ignored (clock : Nat → UInt64) (ignored : event.Ignored) :
    pass.timeCall clock event = pass.book.apply event >>= fun book => .ok { pass with book } := by
  rw [Book.apply_of_ignored ignored]
  obtain ⟨not_one, not_three, not_reduces⟩ := ignored
  simp only [timeCall]
  split
  · exact absurd ‹_› not_one
  · exact absurd (.inl ‹_›) not_reduces
  · exact absurd (.inr ‹_›) not_reduces
  · exact absurd ‹_› not_three
  · rfl

/-- One turn of the loop is `apply` on the book, and records what the message calls for. -/
theorem step_corresponds (clock : Nat → UInt64) (recorded : pass.Recorded capacity before)
    (event : Event) :
    Corresponds (fun after book => after.book = book ∧ after.Recorded capacity (before ++ [event]))
      (pass.step clock event) (pass.book.apply event) := by
  obtain ⟨addS, cancelS, reduceS, quoteS, reserved⟩ := recorded
  simp only [buffers, List.forall_mem_cons] at reserved
  obtain adds | cancels | reduces | ignored := event.kinds
  · have not_reduces : ¬ event.Reduces := fun reduces => reduces.type_ne.1 adds
    rw [step, timeCall_of_add clock adds, bind_assoc]
    refine .of_total fun book => ⟨_, rfl, rfl, ?_⟩
    constructor <;> simp [timeQuote, read, buffers, *]
  · have not_reduces : ¬ event.Reduces := fun reduces => reduces.type_ne.2 cancels
    rw [step, timeCall_of_cancel clock cancels, bind_assoc]
    refine .of_total fun book => ⟨_, rfl, rfl, ?_⟩
    constructor <;> simp [timeQuote, read, buffers, *]
  · obtain ⟨not_one, not_three⟩ := reduces.type_ne
    rw [step, timeCall_of_reduces clock reduces, bind_assoc]
    refine .of_total fun book => ⟨_, rfl, rfl, ?_⟩
    constructor <;> simp [timeQuote, read, buffers, *]
  · obtain ⟨not_one, not_three, not_reduces⟩ := id ignored
    rw [step, timeCall_of_ignored clock ignored, bind_assoc]
    refine .of_total fun book => ⟨_, rfl, rfl, ?_⟩
    constructor <;> simp [timeQuote, read, buffers, *]

/-- After every stream the timed pass has the book of the replay. -/
theorem run_corresponds (hint : Nat) (clock : Nat → UInt64) (capacity : Nat)
    (events : List Event) :
    Corresponds (fun pass book => pass.book = book ∧ pass.Recorded capacity events)
      (run hint clock capacity events) (Book.replay hint events : Except Fault (Book L)) := by
  induction events using List.reverseRecOn with
  | nil =>
      rw [Book.replay_nil, run, foldlM_nil]
      refine .of_total fun book => ⟨_, rfl, rfl, ?_⟩
      constructor <;> simp [buffers, LatencySamples.new, LatencySamples.size]
  | append_singleton events event ih =>
      rw [run, foldlM_snoc, Book.replay, foldlM_snoc]
      refine ih.bind fun pass book related => ?_
      obtain ⟨rfl, recorded⟩ := related
      exact step_corresponds clock recorded event

omit [PriceLevels L] in
theorem Recorded.size_le_reserved (recorded : pass.Recorded capacity before)
    (enough : before.length ≤ capacity) :
    ∀ buffer ∈ pass.buffers, buffer.size ≤ buffer.reserved := by
  intro buffer member
  rw [recorded.reserved buffer member]
  refine le_trans ?_ enough
  simp only [buffers, List.mem_cons, List.not_mem_nil, or_false] at member
  obtain rfl | rfl | rfl | rfl := member
  · exact recorded.addS.trans_le List.countP_le_length
  · exact recorded.cancelS.trans_le List.countP_le_length
  · exact recorded.reduceS.trans_le List.countP_le_length
  · exact recorded.quoteS.le

end Step

end TimedPass

/-- The levels of a side are at most the new orders of the stream. -/
theorem Book.depth_le_countP {L : Type} [PriceLevels L] [LawfulLevels L] {hint : Nat}
    (side : Side) : ∀ before (book : Book L), replay hint before = .ok book →
      depth book.levels side ≤ before.countP (·.type = 1) := by
  apply reached_induction
  · intro index _
    simp [depth_eq, LawfulLevels.levels_empty]
  · intro before event start book earlier bound applied
    have valid := valid_of_replay earlier
    rw [List.countP_append]
    obtain ⟨adds, grown⟩ | ⟨_, same | ⟨_, _, _, shrunk⟩⟩ := levels_of_apply applied
    · have step := depth_levelAdd_le valid event.side event.price event.size side
      rw [grown, List.countP_singleton, if_pos (by simpa using adds)]
      omega
    · rw [same]
      omega
    · rw [shrunk]
      exact (depth_levelSub_le valid _ _ _ side).trans (Nat.le_add_right_of_le bound)

theorem addCount_eq (events : List Event) :
    (analyse events).addCount = events.countP (·.type = 1) := by
  change (Analysis.of events).stats.addCount = _
  induction events using List.reverseRecOn with
  | nil => rfl
  | append_singleton events event ih =>
      rw [Analysis.of_snoc, List.countP_append, ← ih, Analysis.read]
      by_cases adds : event.type = 1
      · simp [adds]
      · simp only [adds, if_false]
        split <;> simp [adds]

theorem countP_le_levelHint {before events : List Event} (member : before <+: events) :
    before.countP (·.type = 1) ≤ levelHint events := by
  have counted : before.countP (·.type = 1) ≤ events.countP (·.type = 1) :=
    member.sublist.countP_le
  simp only [levelHint, addCount_eq]
  split <;> omega

/-- The timed pass of a variant, with buffers reserved for one sample a message. -/
def Variant.timedPass (v : Variant) (orderCapacityHint : Nat) (clock : Nat → UInt64)
    (events : List Event) : Except Fault (TimedPass v.Levels) :=
  TimedPass.run orderCapacityHint clock events.length events

/-- The timed pass leaves the book of the warm up pass. Until then it keeps every level
vector and every buffer of samples within what was reserved, and a sample is recorded for
each message of its kind and a quote for each message. -/
theorem timedPass_matches (v : Variant) (hint : Nat) (clock : Nat → UInt64)
    (events : List Event) (asserted : v.replay hint events ≠ .error .assertion) :
    Corresponds (fun pass warm => pass.book = warm) (v.timedPass hint clock events)
        (v.replay hint events) ∧
      (hint ≤ 2 ^ 62 → ∃ pass, v.timedPass hint clock events = .ok pass) ∧
      ∀ before, before <+: events → ∀ pass : TimedPass v.Levels,
        TimedPass.run hint clock events.length before = .ok pass →
          (∀ side, depth pass.book.levels side ≤ levelHint events) ∧
          pass.Recorded events.length before ∧
          ∀ buffer ∈ pass.buffers, buffer.size ≤ buffer.reserved := by
  have corresponds := TimedPass.run_corresponds (L := v.Levels) hint clock events.length
  refine ⟨(corresponds events).mono fun _ _ related => related.1, ?_, ?_⟩
  · intro hhint
    obtain ⟨book, reached⟩ := Book.exists_of_asserted hhint asserted events List.prefix_rfl
    obtain ⟨pass, run, _⟩ := (corresponds events).ok_left reached
    exact ⟨pass, run⟩
  · intro before member pass reached
    obtain ⟨book, replayed, rfl, recorded⟩ := (corresponds before).ok_right reached
    refine ⟨fun side => ?_, recorded, recorded.size_le_reserved member.length_le⟩
    exact (Book.depth_le_countP side before pass.book replayed).trans (countP_le_levelHint member)

/-- A reused id, an ignored message, a reduction of an unknown order and a clock that runs
backwards. -/
theorem timedPass_matches_mixed :
    Corresponds (fun pass warm => pass.book = warm)
      (Variant.branchless.timedPass 4 (fun reading => 5 - reading.toUInt64)
        [⟨1, 7, 10, 100, 1⟩, ⟨1, 7, -3, 100, -1⟩, ⟨7, 0, 0, 0, 0⟩, ⟨2, 9, 1, 0, 0⟩])
      (Variant.branchless.replay 4
        [⟨1, 7, 10, 100, 1⟩, ⟨1, 7, -3, 100, -1⟩, ⟨7, 0, 0, 0, 0⟩, ⟨2, 9, 1, 0, 0⟩]) :=
  (timedPass_matches .branchless 4 (fun reading => 5 - reading.toUInt64) _ (by decide)).1

end OrderBook
