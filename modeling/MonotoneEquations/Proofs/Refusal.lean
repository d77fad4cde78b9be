import Mathlib
import MonotoneEquations.Domain.Ternary
import MonotoneEquations.Proofs.StoreRun

/-!
# A refused equation cannot be observed

What a caller sees of a store is its counts, its log, the results of calls, and the findings of a
run. Two stores of one solver look alike through all of these and through any calls to come, in
whatever orders their keys were interned. A refusal leaves a store of the same solver, so nothing
that follows shows that it happened, although it can intern a key and so move the handles of all
keys that arrive later.

No condition on polarities is needed: the store follows the solver step by step.
-/

namespace MonotoneEquations

/-- What a caller reads off a store between two calls. -/
structure View (D : Type) where
  size : Nat
  pendingCount : Nat
  isEmpty : Bool
  log : List (Event D)
  deriving DecidableEq

variable {D : Type} [Domain D] [DecidableEq D]

namespace Store

omit [Domain D] [DecidableEq D] in
/-- The counts and the log of a store. -/
def view (store : Store D) : View D :=
  ⟨store.size, store.pendingCount, store.isEmpty, store.log⟩

/-- Offer equations in order and then solve: the result of each call with the view after it, and
what the run has found. -/
def transcript (store : Store D) :
    List (Equation D) → List (Except EquationError Unit × View D) × Findings D
  | [] => ([], store.solve)
  | equation :: rest =>
    let (result, next) := store.add equation
    let (calls, findings) := next.transcript rest
    ((result, next.view) :: calls, findings)

/-- No caller can tell two stores apart, neither now nor by further calls. -/
def Alike (store other : Store D) : Prop :=
  store.view = other.view ∧ ∀ later, store.transcript later = other.transcript later

end Store

namespace Solver

variable {keys other : ArrivalSet Key} {solver : Solver D}

omit [Domain D] [DecidableEq D] in
/-- The view of a store does not depend on the order of its keys. -/
theorem Interned.view_encode (h : Interned keys solver) :
    (solver.encode keys).view =
      ⟨solver.size, solver.pendingCount, solver.size == 0, solver.log⟩ := by
  rw [Store.view, h.pendingCount_encode]
  rfl

/-- Stores of one solver have the same transcripts. -/
theorem Interned.transcript_eq (h : Interned keys solver) (hother : Interned other solver)
    (later : List (Equation D)) :
    (solver.encode keys).transcript later = (solver.encode other).transcript later := by
  induction later generalizing keys other solver with
  | nil => rw [Store.transcript, Store.transcript, h.solve_encode, hother.solve_encode]
  | cons equation later ih =>
    rw [Store.transcript, Store.transcript]
    cases hadd : solver.add equation with
    | error error =>
      have hnext := h.insert equation.key
      have hotherNext := hother.insert equation.key
      rw [h.add_encode_of_error hadd, hother.add_encode_of_error hadd]
      dsimp only
      rw [hnext.view_encode, hotherNext.view_encode, ih hnext hotherNext]
    | ok next =>
      obtain ⟨larger, hstep, hnext⟩ := h.add_encode_of_ok hadd
      obtain ⟨otherLarger, hotherStep, hotherNext⟩ := hother.add_encode_of_ok hadd
      rw [hstep, hotherStep]
      dsimp only
      rw [hnext.view_encode, hotherNext.view_encode, ih hnext hotherNext]

end Solver

namespace Store

/-- A refused equation cannot be observed, whatever was offered before and whatever follows. It can
leave its key behind, as the last one in the order of arrival. -/
theorem alike_of_refused (limit : Nat) (offered : List (Equation D)) (equation : Equation D)
    {error : EquationError}
    (hrefused : (((new limit).addAll offered).add equation).1 = .error error) :
    (((new limit).addAll offered).add equation).2.Alike ((new limit).addAll offered) ∧
      (((new limit).addAll offered).add equation).2.keys =
        ((new limit).addAll offered).keys.insert equation.key := by
  obtain ⟨keys, hreached, h⟩ := exists_encode limit offered
  rw [hreached] at hrefused ⊢
  cases hadd : ((Solver.new limit).addAll offered).add equation with
  | ok next =>
    obtain ⟨larger, hstep, -⟩ := h.add_encode_of_ok hadd
    rw [hstep] at hrefused
    cases hrefused
  | error _ =>
    have hnext := h.insert equation.key
    rw [h.add_encode_of_error hadd]
    exact ⟨⟨hnext.view_encode.trans h.view_encode.symm, hnext.transcript_eq h⟩, rfl⟩

/-- A system that defines both polarities of a key, one of them by an equation that waits. -/
def bothPolaritiesSample : List (Equation Ternary) :=
  let p : Key := ⟨"p", false, false⟩
  let q : Key := ⟨"q", true, false⟩
  [⟨p, .ofProducts [.ofKeys .maybe [q.negate, p]]⟩, ⟨p.negate, .final .no⟩]

/-- An equation that mentions three keys. -/
def threeMentionsSample : Equation Ternary :=
  let p : Key := ⟨"p", false, false⟩
  let q : Key := ⟨"q", true, false⟩
  let r : Key := ⟨"r", true, false⟩
  ⟨r, .ofProducts [.ofKeys .yes [p, q], .ofKeys .no [r.negate]]⟩

/-- Refusing the equation as too large gives its key the fourth handle, so that a key that arrives
next gets the fifth one. -/
theorem alike_of_refused_threeMentions :
    (((new 2).addAll bothPolaritiesSample).add threeMentionsSample).1 = .error (.tooLarge ⟨3, 2⟩) ∧
      (((new 2).addAll bothPolaritiesSample).add threeMentionsSample).2.Alike
        ((new 2).addAll bothPolaritiesSample) ∧
      (((new 2).addAll bothPolaritiesSample).intern ⟨"s", true, false⟩).1 = 3 ∧
      ((((new 2).addAll bothPolaritiesSample).add threeMentionsSample).2.intern
        ⟨"s", true, false⟩).1 = 4 := by
  have hrefused : (((new 2).addAll bothPolaritiesSample).add threeMentionsSample).1 =
      .error (.tooLarge ⟨3, 2⟩) := by cbv
  exact ⟨hrefused, (alike_of_refused 2 bothPolaritiesSample threeMentionsSample hrefused).1,
    by cbv, by cbv⟩

end Store

end MonotoneEquations
