import Mathlib.Data.List.Basic
import Mathlib.Data.List.Infix
import Mathlib.Data.List.Induction

/-!
# Runs of fallible steps

A step of array code either returns its next state or stops at a `Fault`. A run
is the ordinary `List.foldlM` of such a step, so the state after each prefix of
the inputs is the run over that prefix.

Whole runs are reasoned about in three ways. `reaches` goes through the prefixes in
the order that a run reaches them and carries an invariant along. `Always` and `tally`
say of a total step that every input is admissible at its state, and count those that
are. `Corresponds` relates two runs of the same inputs in different state types: both
reach related states, or both stop at the same fault.
-/

namespace OrderBook

/-- The ways array code can fail to reach a next state: a failed assertion, an
access outside its array, or a loop that never leaves its body. -/
inductive Fault where
  | assertion
  | outOfBounds
  | endless
  deriving DecidableEq, Repr

namespace Run

universe u

variable {ε α : Type*} {σ τ σ' τ' : Type u}

@[simp] theorem ok_bind (s : σ) (next : σ → Except ε τ) : (Except.ok s >>= next) = next s := rfl

@[simp] theorem error_bind (fault : ε) (next : σ → Except ε τ) :
    (Except.error fault >>= next) = .error fault := rfl

/-- Peel the first computation off one that returns. -/
theorem of_bind_eq_ok {x : Except ε σ} {next : σ → Except ε τ} {t : τ}
    (returned : x >>= next = .ok t) : ∃ s, x = .ok s ∧ next s = .ok t := by
  cases x with
  | error fault => cases returned
  | ok s => exact ⟨s, rfl, returned⟩

/-- Whether a run stopped at a given fault can be decided on any type of states. -/
instance decidableEqError {α : Type*} [DecidableEq ε] (fault : ε) :
    (x : Except ε α) → Decidable (x = .error fault)
  | .ok _ => isFalse nofun
  | .error other => decidable_of_iff (other = fault) (by simp)

/-- What a computation returns, if it returns, can be tested. -/
instance decidableForallOk {α : Type*} {P : α → Prop} [DecidablePred P] :
    (x : Except ε α) → Decidable (∀ a, x = .ok a → P a)
  | .ok a => decidable_of_iff (P a) (by simp)
  | .error _ => isTrue nofun

/-- Every input of a list, with what stands in front of it. -/
theorem forall_snoc_iff {all : List α} {P : List α → α → Prop} :
    (∀ xs x, xs ++ [x] <+: all → P xs x) ↔
      ∀ i (within : i < all.length), P (all.take i) all[i] := by
  constructor
  · intro inputs i within
    apply inputs
    rw [List.take_concat_get' all i within]
    exact List.take_prefix _ _
  · rintro inputs xs x ⟨rest, rfl⟩
    simpa using inputs xs.length (by simp)

/-- Induction over the prefixes of one list, in the order a run reaches them. -/
theorem prefix_induction {all : List α} {P : List α → Prop} (nil : P [])
    (snoc : ∀ xs x, xs ++ [x] <+: all → P xs → P (xs ++ [x])) :
    ∀ xs, xs <+: all → P xs := by
  intro xs
  induction xs using List.reverseRecOn with
  | nil => exact fun _ => nil
  | append_singleton xs x ih =>
      intro member
      exact snoc xs x member (ih ((List.prefix_append xs [x]).trans member))

/-- A run from a start that is itself computed, one step on. -/
theorem foldlM_snoc (step : σ → α → Except ε σ) (start : Except ε σ) (xs : List α) (x : α) :
    start >>= (xs ++ [x]).foldlM step = (start >>= xs.foldlM step) >>= (step · x) := by
  simp [List.foldlM_append, List.foldlM_cons]

theorem foldlM_snoc_of_ok {step : σ → α → Except ε σ} {start : Except ε σ} {s : σ} {xs : List α}
    (reached : start >>= xs.foldlM step = .ok s) (x : α) :
    start >>= (xs ++ [x]).foldlM step = step s x := by
  rw [foldlM_snoc, reached, ok_bind]

theorem foldlM_nil (step : σ → α → Except ε σ) (start : Except ε σ) :
    start >>= ([] : List α).foldlM step = start := by
  cases start <;> rfl

/-- A fault is final: every longer run stops at the same one. -/
theorem foldlM_error_mono {step : σ → α → Except ε σ} {start : Except ε σ} {xs all : List α}
    {fault : ε} (member : xs <+: all) (stopped : start >>= xs.foldlM step = .error fault) :
    start >>= all.foldlM step = .error fault := by
  obtain ⟨rest, rfl⟩ := member
  cases start with
  | error first => exact stopped
  | ok init =>
      rw [ok_bind] at stopped
      rw [ok_bind, List.foldlM_append, stopped]
      rfl

/-- The run rule: what the start has and each next step reaches and keeps is reached
after every prefix. -/
theorem reaches {step : σ → α → Except ε σ} {start : Except ε σ} {all : List α}
    {I : List α → σ → Prop} (initial : ∃ s, start = .ok s ∧ I [] s)
    (preserved : ∀ xs x s, xs ++ [x] <+: all → start >>= xs.foldlM step = .ok s → I xs s →
      ∃ s', step s x = .ok s' ∧ I (xs ++ [x]) s') :
    ∀ xs, xs <+: all → ∃ s, start >>= xs.foldlM step = .ok s ∧ I xs s := by
  apply prefix_induction
  · obtain ⟨s, started, holds⟩ := initial
    exact ⟨s, by rw [foldlM_nil, started], holds⟩
  · rintro xs x member ⟨s, reached, holds⟩
    obtain ⟨s', stepped, holds'⟩ := preserved xs x s member reached holds
    exact ⟨s', by rw [foldlM_snoc_of_ok reached, stepped], holds'⟩

/-- The run rule for a run that does not stop at a given fault. -/
theorem reaches_unless {step : σ → α → Except ε σ} {start : Except ε σ} {all : List α}
    {I : List α → σ → Prop} {fault : ε} (avoided : start >>= all.foldlM step ≠ .error fault)
    (initial : ∃ s, start = .ok s ∧ I [] s)
    (preserved : ∀ xs x s, xs ++ [x] <+: all → start >>= xs.foldlM step = .ok s → I xs s →
      (∃ s', step s x = .ok s' ∧ I (xs ++ [x]) s') ∨ step s x = .error fault) :
    ∀ xs, xs <+: all → ∃ s, start >>= xs.foldlM step = .ok s ∧ I xs s := by
  refine reaches initial fun xs x s member reached holds => ?_
  obtain next | failed := preserved xs x s member reached holds
  · exact next
  · rw [← foldlM_snoc_of_ok reached] at failed
    exact absurd (foldlM_error_mono member failed) avoided

/-- The rule for the states that a run reaches, whatever stops it elsewhere. -/
theorem reached_induction {step : σ → α → Except ε σ} {start : Except ε σ}
    {P : List α → σ → Prop} (fresh : ∀ s, start = .ok s → P [] s)
    (stepped : ∀ xs x s t, start >>= xs.foldlM step = .ok s → P xs s → step s x = .ok t →
      P (xs ++ [x]) t) :
    ∀ xs s, start >>= xs.foldlM step = .ok s → P xs s := by
  intro xs
  induction xs using List.reverseRecOn with
  | nil =>
      intro s reached
      rw [foldlM_nil] at reached
      exact fresh s reached
  | append_singleton xs x ih =>
      intro t reached
      rw [foldlM_snoc] at reached
      obtain ⟨s, earlier, last⟩ := of_bind_eq_ok reached
      exact stepped xs x s t earlier (ih s earlier) last

/-- A run that looks at each state it reaches returns if the plain run does and every state
on the way passes. -/
theorem foldlM_checked_eq_ok_iff {ε' : Type*} {step : σ → α → Except ε σ}
    {checked : σ → α → Except ε' σ} {Passes : σ → α → Prop}
    (spec : ∀ s x t, checked s x = .ok t ↔ step s x = .ok t ∧ Passes t x) (s : σ)
    (xs : List α) (t : σ) :
    xs.foldlM checked s = .ok t ↔ xs.foldlM step s = .ok t ∧
      ∀ before x, before ++ [x] <+: xs → ∀ t', (before ++ [x]).foldlM step s = .ok t' →
        Passes t' x := by
  induction xs using List.reverseRecOn generalizing t with
  | nil =>
      refine ⟨fun returned => ⟨?_, by simp⟩, fun plain => ?_⟩
      · cases returned
        rfl
      · cases plain.1
        rfl
  | append_singleton xs x ih =>
      simp only [List.foldlM_append, List.foldlM_cons, List.foldlM_nil, bind_pure]
      constructor
      · intro returned
        obtain ⟨m, earlier, last⟩ := of_bind_eq_ok returned
        obtain ⟨plain, passed⟩ := (ih m).mp earlier
        obtain ⟨stepped, passes⟩ := (spec m x t).mp last
        rw [plain, ok_bind]
        refine ⟨stepped, fun before y member t' reached => ?_⟩
        obtain same | shorter := List.prefix_concat_iff.mp member
        · obtain ⟨rfl, rfl⟩ := List.append_singleton_inj.mp same
          rw [plain, ok_bind, stepped] at reached
          cases reached
          exact passes
        · exact passed before y shorter t' (by simpa [List.foldlM_append] using reached)
      · rintro ⟨returned, passes⟩
        obtain ⟨m, plain, stepped⟩ := of_bind_eq_ok returned
        have earlier : xs.foldlM checked s = .ok m := by
          refine (ih m).mpr ⟨plain, fun before y member t' reached => ?_⟩
          exact passes before y (member.trans (List.prefix_append xs [x])) t'
            (by simpa [List.foldlM_append] using reached)
        have last : Passes t x :=
          passes xs x List.prefix_rfl t (by rw [plain, ok_bind, stepped])
        rw [earlier, ok_bind]
        exact (spec m x t).mpr ⟨stepped, last⟩

/-- Every input is admissible at the state it meets. -/
def Always {σ : Type*} (step : σ → α → σ) (Ok : σ → α → Prop) : σ → List α → Prop
  | _, [] => True
  | s, x :: xs => Ok s x ∧ Always step Ok (step s x) xs

instance {σ : Type*} (step : σ → α → σ) (Ok : σ → α → Prop) [∀ s x, Decidable (Ok s x)] :
    ∀ s xs, Decidable (Always step Ok s xs)
  | _, [] => isTrue trivial
  | s, x :: xs =>
      have := instDecidableAlways step Ok (step s x) xs
      inferInstanceAs (Decidable (Ok s x ∧ Always step Ok (step s x) xs))

theorem Always.at {σ : Type*} {step : σ → α → σ} {Ok : σ → α → Prop} {s : σ} {all : List α}
    (always : Always step Ok s all) {xs : List α} {x : α} (member : xs ++ [x] <+: all) :
    Ok (xs.foldl step s) x := by
  obtain ⟨rest, rfl⟩ := member
  induction xs generalizing s with
  | nil => exact always.1
  | cons y xs ih => exact ih always.2

theorem Always.snoc {σ : Type*} {step : σ → α → σ} {Ok : σ → α → Prop} {s : σ} {xs : List α}
    (always : Always step Ok s xs) {x : α} (last : Ok (xs.foldl step s) x) :
    Always step Ok s (xs ++ [x]) := by
  induction xs generalizing s with
  | nil => exact ⟨last, trivial⟩
  | cons y xs ih => exact ⟨always.1, ih always.2 last⟩

/-- What holds at every input of a list holds always. -/
theorem Always.of_at {σ : Type*} {step : σ → α → σ} {Ok : σ → α → Prop} {s : σ} {all : List α}
    (ok : ∀ xs x, xs ++ [x] <+: all → Ok (xs.foldl step s) x) : Always step Ok s all := by
  refine prefix_induction (P := Always step Ok s) trivial ?_ all List.prefix_rfl
  intro xs x member always
  exact always.snoc (ok xs x member)

theorem Always.imp {σ : Type*} {step : σ → α → σ} {Ok Weaker : σ → α → Prop}
    (weaken : ∀ s x, Ok s x → Weaker s x) {s : σ} {all : List α} (always : Always step Ok s all) :
    Always step Weaker s all := by
  induction all generalizing s with
  | nil => exact trivial
  | cons x all ih => exact ⟨weaken s x always.1, ih always.2⟩

/-- The number of inputs that meet a condition at their state. -/
def tally {σ : Type*} (step : σ → α → σ) (P : σ → α → Prop) [∀ s x, Decidable (P s x)] :
    σ → List α → Nat
  | _, [] => 0
  | s, x :: xs => (if P s x then 1 else 0) + tally step P (step s x) xs

theorem tally_snoc {σ : Type*} (step : σ → α → σ) (P : σ → α → Prop) [∀ s x, Decidable (P s x)]
    (s : σ) (xs : List α) (x : α) :
    tally step P s (xs ++ [x]) = tally step P s xs + if P (xs.foldl step s) x then 1 else 0 := by
  induction xs generalizing s with
  | nil => exact Nat.add_comm _ _
  | cons y xs ih =>
      rw [List.cons_append, tally, tally, ih, Nat.add_assoc]
      rfl

/-- A view of the state that only some inputs touch, and these through the view alone, comes
from these inputs. -/
theorem view_foldl_filter {σ β : Type*} {step : σ → α → σ} {view : σ → β} {Touches : α → Prop}
    [DecidablePred Touches] (other : ∀ s x, ¬ Touches x → view (step s x) = view s)
    (through : ∀ s t x, view s = view t → view (step s x) = view (step t x)) (xs : List α)
    {s t : σ} (same : view s = view t) :
    view (xs.foldl step s) = view ((xs.filter (Touches ·)).foldl step t) := by
  induction xs generalizing s t with
  | nil => exact same
  | cons x xs ih =>
      by_cases touches : Touches x
      · simp only [List.filter_cons, touches, decide_true, if_true, List.foldl_cons]
        exact ih (through s t x same)
      · simp only [List.filter_cons, touches, decide_false, Bool.false_eq_true, if_false,
          List.foldl_cons]
        exact ih ((other s x touches).trans same)

/-- Both sides reach related states, or both stop at the same fault. -/
def Corresponds (R : σ → τ → Prop) : Except ε σ → Except ε τ → Prop
  | .ok s, .ok t => R s t
  | .error e, .error f => e = f
  | _, _ => False

namespace Corresponds

variable {R : σ → τ → Prop} {x : Except ε σ} {y : Except ε τ}

theorem bind {R' : σ' → τ' → Prop} {f : σ → Except ε σ'} {g : τ → Except ε τ'}
    (related : Corresponds R x y) (next : ∀ s t, R s t → Corresponds R' (f s) (g t)) :
    Corresponds R' (x >>= f) (y >>= g) := by
  cases x <;> cases y
  · exact related
  · exact related.elim
  · exact related.elim
  · exact next _ _ related

/-- Both sides run the same first step and go on from its result. -/
theorem of_eq {f : σ' → Except ε σ} {g : σ' → Except ε τ} (same : Except ε σ')
    (next : ∀ s, Corresponds R (f s) (g s)) :
    Corresponds R (same >>= f) (same >>= g) := by
  cases same with
  | error e => exact rfl
  | ok s => exact next s

/-- A computation that goes on without a fault, against itself. -/
theorem of_total {f : σ → Except ε τ} {R : τ → σ → Prop} {x : Except ε σ}
    (total : ∀ s, ∃ t, f s = .ok t ∧ R t s) : Corresponds R (x >>= f) x := by
  cases x with
  | error e => exact rfl
  | ok s =>
      obtain ⟨t, result, related⟩ := total s
      rw [ok_bind, result]
      exact related

theorem mono {R' : σ → τ → Prop} (related : Corresponds R x y)
    (weaken : ∀ s t, R s t → R' s t) : Corresponds R' x y := by
  cases x <;> cases y
  · exact related
  · exact related
  · exact related
  · exact weaken _ _ related

/-- The results, with where the first of them comes from. -/
theorem and_left (related : Corresponds R x y) :
    Corresponds (fun s t => R s t ∧ x = .ok s) x y := by
  cases x <;> cases y
  · exact related
  · exact related
  · exact related
  · exact ⟨related, rfl⟩

theorem ok_right (related : Corresponds R x y) {s : σ} (reached : x = .ok s) :
    ∃ t, y = .ok t ∧ R s t := by
  subst reached
  cases y with
  | error e => exact related.elim
  | ok t => exact ⟨t, rfl, related⟩

theorem ok_left (related : Corresponds R x y) {t : τ} (reached : y = .ok t) :
    ∃ s, x = .ok s ∧ R s t := by
  subst reached
  cases x with
  | error e => exact related.elim
  | ok s => exact ⟨s, rfl, related⟩

/-- Steps that correspond give runs that correspond, on any list of inputs. -/
theorem foldlM {f : σ → α → Except ε σ} {g : τ → α → Except ε τ}
    (steps : ∀ s t a, R s t → Corresponds R (f s a) (g t a)) (inputs : List α) {s : σ} {t : τ}
    (start : R s t) : Corresponds R (inputs.foldlM f s) (inputs.foldlM g t) := by
  induction inputs generalizing s t with
  | nil => exact start
  | cons a inputs ih =>
      rw [List.foldlM_cons, List.foldlM_cons]
      exact (steps s t a start).bind fun _ _ related => ih related

end Corresponds

end Run

end OrderBook
