import OrderBook.Book.Equivalence
import OrderBook.Replay.Analyse
import OrderBook.Replay.Synthetic

/-!
# The test that the variants agree

The test drives one book of each variant with the same message and then compares the three
contiguous books with the map: the best levels after every message, and the whole ladders
after every 250th and at the end. It stops at the first comparison that fails.

No comparison can fail, for any stream and any lawful containers in place of the four. And a
comparison of two whole ladders misses nothing: it succeeds only if no observer tells the two
containers apart.
-/

namespace OrderBook

open PriceLevels Run

/-- How a test can stop before its end. -/
inductive Stop where
  | fault (fault : Fault)
  | require
  deriving DecidableEq, Repr

def require (holds : Bool) : Except Stop Unit := if holds then return else throw .require

theorem require_of {holds : Bool} (true_here : holds = true) : require holds = .ok () := by
  subst true_here
  rfl

namespace BookEquivalence

section Compare

variable {L M : Type} [PriceLevels L] [PriceLevels M]

def sameLadder (a : L) (b : M) : Bool :=
  if bidDepth a ≠ bidDepth b ∨ askDepth a ≠ askDepth b then false
  else
    (List.range (bidDepth a)).all (fun r => nthBid a r = nthBid b r) &&
      (List.range (askDepth a)).all (fun r => nthAsk a r = nthAsk b r)

def sameTop (a : L) (b : M) : Bool := bestBid a = bestBid b && bestAsk a = bestAsk b

theorem sameLadder_of_sameView {a : L} {b : M} (same : SameView a b) : sameLadder a b = true := by
  simp [sameLadder, same.bidDepth, same.askDepth, same.nthBid, same.nthAsk]

/-- A side is determined by its depth and the ranks below it. -/
theorem levels_eq_of_nth [LawfulLevels L] [LawfulLevels M] {a : L} {b : M} {side : Side}
    (depths : depth a side = depth b side)
    (ranks : ∀ rank, rank < depth a side → nth a side rank = nth b side rank) :
    LevelView.levels a side = LevelView.levels b side := by
  have lengths := depths
  rw [depth_eq, depth_eq] at lengths
  refine List.ext_getElem lengths fun rank inside inside' => ?_
  have same := ranks rank (by rwa [depth_eq])
  rwa [nth_eq, nth_eq, List.getD_eq_getElem _ _ inside, List.getD_eq_getElem _ _ inside'] at same

theorem sameTop_of_alike [LawfulLevels L] [LawfulLevels M] {a : L} {b : M} (alike : Alike a b) :
    sameTop a b = true := by
  simp [sameTop, alike.sameView.bestBid, alike.sameView.bestAsk]

/-- Comparing the ladders of two lawful containers compares everything that they show. -/
theorem sameLadder_iff [LawfulLevels L] [LawfulLevels M] {a : L} {b : M}
    (valid : LevelView.Valid a) (valid' : LevelView.Valid b) :
    sameLadder a b = true ↔ SameView a b := by
  refine ⟨fun same => ?_, sameLadder_of_sameView⟩
  simp only [sameLadder, Bool.if_false_left, Bool.and_eq_true, List.all_eq_true, List.mem_range,
    decide_eq_true_eq, Bool.not_eq_true', decide_eq_false_iff_not, not_or, not_not] at same
  obtain ⟨⟨bid_depth, ask_depth⟩, bids, asks⟩ := same
  have levels : LevelView.levels a = LevelView.levels b := by
    funext side
    cases side with
    | buy => exact levels_eq_of_nth bid_depth bids
    | sell => exact levels_eq_of_nth ask_depth asks
  have alike : Alike a b := ⟨valid, valid', by rw [contents, contents, levels]⟩
  exact alike.sameView

theorem sameLadder_of_alike [LawfulLevels L] [LawfulLevels M] {a : L} {b : M}
    (alike : Alike a b) : sameLadder a b = true :=
  (sameLadder_iff alike.left alike.right).mpr alike.sameView

end Compare

section Loop

variable {A B C D : Type} [PriceLevels A] [PriceLevels B] [PriceLevels C] [PriceLevels D]

/-- The four books and the number of messages so far. -/
structure Books (A B C D : Type) where
  mapBook : Book A
  linearBook : Book B
  sortedBook : Book C
  branchlessBook : Book D
  step : Nat

def Books.new (orderCapacityHint : Nat) : Except Stop (Books A B C D) := do
  let mapBook ← (Book.new orderCapacityHint).mapError .fault
  let linearBook ← (Book.new orderCapacityHint).mapError .fault
  let sortedBook ← (Book.new orderCapacityHint).mapError .fault
  let branchlessBook ← (Book.new orderCapacityHint).mapError .fault
  return ⟨mapBook, linearBook, sortedBook, branchlessBook, 0⟩

/-- The comparisons of the three contiguous books with the map. -/
def Books.sameTops (books : Books A B C D) : Except Stop Unit := do
  require (sameTop books.mapBook.levels books.linearBook.levels)
  require (sameTop books.mapBook.levels books.sortedBook.levels)
  require (sameTop books.mapBook.levels books.branchlessBook.levels)

def Books.sameLadders (books : Books A B C D) : Except Stop Unit := do
  require (sameLadder books.mapBook.levels books.linearBook.levels)
  require (sameLadder books.mapBook.levels books.sortedBook.levels)
  require (sameLadder books.mapBook.levels books.branchlessBook.levels)

/-- The comparisons of the depths at the end. -/
def Books.sameDepths (books : Books A B C D) : Except Stop Unit := do
  require (bidDepth books.mapBook.levels = bidDepth books.linearBook.levels)
  require (bidDepth books.mapBook.levels = bidDepth books.sortedBook.levels)
  require (bidDepth books.mapBook.levels = bidDepth books.branchlessBook.levels)
  require (askDepth books.mapBook.levels = askDepth books.linearBook.levels)
  require (askDepth books.mapBook.levels = askDepth books.sortedBook.levels)
  require (askDepth books.mapBook.levels = askDepth books.branchlessBook.levels)

/-- One turn of the loop. -/
def Books.turn (books : Books A B C D) (event : Event) : Except Stop (Books A B C D) := do
  let mapBook ← (books.mapBook.apply event).mapError .fault
  let linearBook ← (books.linearBook.apply event).mapError .fault
  let sortedBook ← (books.sortedBook.apply event).mapError .fault
  let branchlessBook ← (books.branchlessBook.apply event).mapError .fault
  let driven : Books A B C D := ⟨mapBook, linearBook, sortedBook, branchlessBook, books.step⟩
  driven.sameTops
  if books.step % 250 = 0 then driven.sameLadders
  return { driven with step := books.step + 1 }

end Loop

/-- The test on a stream, with the hint that the books are made with. -/
def run (A B C D : Type) [PriceLevels A] [PriceLevels B] [PriceLevels C] [PriceLevels D]
    (orderCapacityHint : Nat) (events : List Event) : Except Stop Unit := do
  let books : Books A B C D ← Books.new orderCapacityHint
  let books ← events.foldlM Books.turn books
  books.sameLadders
  books.sameDepths

section Agreement

variable {A B C D : Type} [PriceLevels A] [PriceLevels B] [PriceLevels C] [PriceLevels D]
variable [LawfulLevels A] [LawfulLevels B] [LawfulLevels C] [LawfulLevels D]

/-- The contiguous books are similar to the map book. -/
structure Books.Agree (books : Books A B C D) : Prop where
  linear : Book.Similar books.mapBook books.linearBook
  sorted : Book.Similar books.mapBook books.sortedBook
  branchless : Book.Similar books.mapBook books.branchlessBook

namespace Books.Agree

variable {books : Books A B C D}

theorem sameTops (agree : Agree books) : books.sameTops = .ok () := by
  simp only [Books.sameTops, require_of (sameTop_of_alike agree.linear.levels),
    require_of (sameTop_of_alike agree.sorted.levels),
    require_of (sameTop_of_alike agree.branchless.levels)]
  rfl

theorem sameLadders (agree : Agree books) : books.sameLadders = .ok () := by
  simp only [Books.sameLadders,
    require_of (sameLadder_of_alike agree.linear.levels),
    require_of (sameLadder_of_alike agree.sorted.levels),
    require_of (sameLadder_of_alike agree.branchless.levels)]
  rfl

theorem sameDepths (agree : Agree books) : books.sameDepths = .ok () := by
  simp only [Books.sameDepths, ← agree.linear.levels.sameView.bidDepth,
    ← agree.sorted.levels.sameView.bidDepth, ← agree.branchless.levels.sameView.bidDepth,
    ← agree.linear.levels.sameView.askDepth, ← agree.sorted.levels.sameView.askDepth,
    ← agree.branchless.levels.sameView.askDepth]
  rfl

end Books.Agree

/-- The books are driven from the map book, and agree with it. -/
def Follows (book : Book A) (books : Books A B C D) : Prop := books.mapBook = book ∧ books.Agree

theorem new_corresponds (orderCapacityHint : Nat) :
    Corresponds Follows ((Book.new orderCapacityHint).mapError Stop.fault)
      (Books.new orderCapacityHint : Except Stop (Books A B C D)) := by
  simp only [Books.new, Book.new]
  cases OrderIndex.new orderCapacityHint with
  | error fault => exact rfl
  | ok index => exact ⟨rfl, ⟨rfl, .of_empty⟩, ⟨rfl, .of_empty⟩, ⟨rfl, .of_empty⟩⟩

/-- No comparison of a turn fails, so a turn is a step of the map book. -/
theorem turn_corresponds {books : Books A B C D} (agree : books.Agree) (event : Event) :
    Corresponds Follows ((books.mapBook.apply event).mapError Stop.fault) (books.turn event) := by
  have linear := agree.linear.apply event
  have sorted := agree.sorted.apply event
  have branchless := agree.branchless.apply event
  simp only [Books.turn]
  cases applied : books.mapBook.apply event with
  | error fault => exact rfl
  | ok mapBook =>
      obtain ⟨linearBook, applied_linear, linear⟩ := linear.ok_right applied
      obtain ⟨sortedBook, applied_sorted, sorted⟩ := sorted.ok_right applied
      obtain ⟨branchlessBook, applied_branchless, branchless⟩ := branchless.ok_right applied
      let driven : Books A B C D := ⟨mapBook, linearBook, sortedBook, branchlessBook, books.step⟩
      have together : driven.Agree := ⟨linear, sorted, branchless⟩
      simp only [applied_linear, applied_sorted, applied_branchless, Except.mapError, ok_bind]
      change Corresponds Follows (.ok mapBook) (driven.sameTops >>= fun _ => _)
      rw [together.sameTops, ok_bind]
      split
      · change Corresponds Follows (.ok mapBook) (driven.sameLadders >>= fun _ => _)
        rw [together.sameLadders]
        exact ⟨rfl, together.linear, together.sorted, together.branchless⟩
      · exact ⟨rfl, together.linear, together.sorted, together.branchless⟩

theorem mapError_foldlM {ε ε' α σ : Type} (f : ε → ε') (step : σ → α → Except ε σ) (s : σ)
    (xs : List α) :
    (xs.foldlM step s).mapError f = xs.foldlM (fun s x => (step s x).mapError f) s := by
  induction xs generalizing s with
  | nil => rfl
  | cons x xs ih =>
      rw [List.foldlM_cons, List.foldlM_cons]
      cases step s x with
      | error e => rfl
      | ok t => exact ih t

theorem loop_corresponds (orderCapacityHint : Nat) (events : List Event) :
    Corresponds Follows ((Book.replay orderCapacityHint events).mapError Stop.fault)
      ((Books.new orderCapacityHint : Except Stop (Books A B C D)) >>=
        events.foldlM Books.turn) := by
  have split : (Book.replay orderCapacityHint events : Except Fault (Book A)).mapError Stop.fault =
      (Book.new orderCapacityHint).mapError Stop.fault >>=
        events.foldlM fun book event => (book.apply event).mapError Stop.fault := by
    rw [Book.replay]
    cases (Book.new orderCapacityHint : Except Fault (Book A)) with
    | error fault => rfl
    | ok book => exact mapError_foldlM _ _ _ _
  rw [split]
  refine (new_corresponds orderCapacityHint).bind fun book books follows => ?_
  refine .foldlM (fun book books event follows => ?_) events follows
  obtain ⟨rfl, agree⟩ := follows
  exact turn_corresponds agree event

end Agreement

end BookEquivalence

/-- No comparison of the test fails: for any lawful containers and any stream it passes, or
it stops where the replay of the first book stops. -/
theorem equivalenceTest_eq (A B C D : Type) [PriceLevels A] [PriceLevels B] [PriceLevels C]
    [PriceLevels D] [LawfulLevels A] [LawfulLevels B] [LawfulLevels C] [LawfulLevels D]
    (orderCapacityHint : Nat) (events : List Event) :
    BookEquivalence.run A B C D orderCapacityHint events =
      ((Book.replay orderCapacityHint events : Except Fault (Book A)).map fun _ => ()).mapError
        Stop.fault := by
  have loop := BookEquivalence.loop_corresponds (A := A) (B := B) (C := C) (D := D)
    orderCapacityHint events
  rw [BookEquivalence.run, ← bind_assoc]
  revert loop
  generalize (BookEquivalence.Books.new orderCapacityHint >>= events.foldlM
    BookEquivalence.Books.turn : Except Stop (BookEquivalence.Books A B C D)) = driven
  cases (Book.replay orderCapacityHint events : Except Fault (Book A)) with
  | error fault =>
      cases driven with
      | error stop => exact fun same => congrArg Except.error (Eq.symm same)
      | ok books => exact False.elim
  | ok book =>
      cases driven with
      | error stop => exact False.elim
      | ok books =>
          rintro ⟨_, agree⟩
          rw [ok_bind, agree.sameLadders, ok_bind, agree.sameDepths]
          rfl

end OrderBook
