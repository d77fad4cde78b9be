import Mathlib.Logic.Function.Iterate
import MonotoneEquations.Proofs.StoreRun

/-!
# The points of a run

A run of a store takes one moving handle after the other. A point of the run records the keys that
were taken so far, with their values, and the store as it is then. The work left at the start is
enough steps to arrive at the end of the run.

What holds of a solver before anything is announced, and is kept by each announcement, holds at every
point of the run of its store.
-/

namespace MonotoneEquations

variable {D : Type} [Domain D] [DecidableEq D]

/-- A point of a run: the keys that were popped, with their values, the last one first, and the store
that they have led to. -/
structure Progress (D : Type) where
  popped : List (Key × D)
  store : Store D

namespace Progress

/-- Pop the first moving handle and announce it, if there is one. -/
def next (point : Progress D) : Progress D :=
  match point.store.moving with
  | [] => point
  | handle :: rest =>
    let value := point.store.solved.getD handle none
    ⟨(value.map fun value => (point.store.keyOf handle, value)).toList ++ point.popped,
      { point.store with moving := rest }.announce handle⟩

/-- At the end of a run nothing is popped. -/
theorem next_of_nil {point : Progress D} (h : point.store.moving = []) : point.next = point := by
  unfold next
  rw [h]

/-- Each step pops the first moving handle. -/
theorem next_of_cons {point : Progress D} {handle : Nat} {rest : List Nat}
    (h : point.store.moving = handle :: rest) :
    point.next =
      ⟨((point.store.solved.getD handle none).map fun value =>
          (point.store.keyOf handle, value)).toList ++ point.popped,
        { point.store with moving := rest }.announce handle⟩ := by
  unfold next
  rw [h]

/-- A step forgets no popped key. -/
theorem suffix_popped_next (point : Progress D) : point.popped <:+ point.next.popped := by
  cases h : point.store.moving with
  | nil => simp [next_of_nil h]
  | cons handle rest =>
    rw [next_of_cons h]
    exact List.suffix_append _ _

/-- A run goes through the next point. -/
theorem run_next (point : Progress D) : point.next.store.run = point.store.run := by
  cases h : point.store.moving with
  | nil => rw [next_of_nil h]
  | cons handle rest => rw [next_of_cons h, Store.run_of_cons h]

/-- Each step takes one from the work left, until the run is over. -/
theorem workLeft_next {point : Progress D} (h : point.store.moving ≠ []) :
    point.next.store.workLeft + 1 = point.store.workLeft := by
  obtain ⟨handle, rest, hmoving⟩ := List.exists_cons_of_ne_nil h
  rw [next_of_cons hmoving, Store.workLeft_announce]
  simp [Store.workLeft, Store.pendingCount, hmoving, Nat.add_assoc]

/-- The work left is enough steps to arrive at the end of the run. -/
theorem iterate_next_of_workLeft_le {n : Nat} {point : Progress D} (h : point.store.workLeft ≤ n) :
    (next^[n] point).store = point.store.run ∧ (next^[n] point).store.moving = [] := by
  induction n generalizing point with
  | zero =>
    have hmoving : point.store.moving = [] := by
      rw [Store.workLeft] at h
      exact List.eq_nil_of_length_eq_zero (by omega)
    exact ⟨(Store.run_of_nil hmoving).symm, hmoving⟩
  | succ n ih =>
    by_cases hmoving : point.store.moving = []
    · rw [Function.iterate_fixed (next_of_nil hmoving)]
      exact ⟨(Store.run_of_nil hmoving).symm, hmoving⟩
    · have hwork := workLeft_next hmoving
      rw [Function.iterate_succ_apply, ← run_next point]
      exact ih (by omega)

end Progress

namespace Store

/-- The point of a run after some steps. -/
def progress (start : Store D) (steps : Nat) : Progress D := Progress.next^[steps] ⟨[], start⟩

/-- One more step. -/
theorem progress_succ (start : Store D) (steps : Nat) :
    start.progress (steps + 1) = (start.progress steps).next :=
  Function.iterate_succ_apply' _ _ _

/-- A run ends when its work is done. -/
theorem progress_workLeft (start : Store D) :
    (start.progress start.workLeft).store = start.run ∧ start.run.moving = [] := by
  have hend : (start.progress start.workLeft).store = start.run ∧
      (start.progress start.workLeft).store.moving = [] :=
    Progress.iterate_next_of_workLeft_le (Nat.le_refl _)
  exact ⟨hend.1, hend.1 ▸ hend.2⟩

/-- Popped keys are never forgotten. -/
theorem suffix_popped_progress (start : Store D) {n m : Nat} (h : n ≤ m) :
    (start.progress n).popped <:+ (start.progress m).popped := by
  induction m, h using Nat.le_induction with
  | base => exact List.suffix_rfl
  | succ m _ ih =>
    rw [progress_succ]
    exact ih.trans (Progress.suffix_popped_next _)

end Store

namespace Solver

variable {keys : ArrivalSet Key} {solver : Solver D}

/-- The store pops its first moving handle as the solver pops the first key of the worklist. -/
theorem Interned.next_encode (h : Interned keys solver) (popped : List (Key × D)) {key : Key} {value : D}
    {rest : List (Key × D)} (hwork : solver.worklist = (key, value) :: rest) :
    Progress.next ⟨popped, solver.encode keys⟩ =
      ⟨(key, value) :: popped, ({ solver with worklist := rest }.announce key value).encode keys⟩ := by
  obtain ⟨hmoving, hannounce, -⟩ := h.announce_pop_encode hwork
  have hvalue := h.value?_of_worklist hwork
  have hkey : key ∈ keys := h.mem_of_value? hvalue
  have hsolved := (getD_solved_encode hkey solver).trans hvalue
  have hname : (solver.encode keys).keyOf (keys.indexOf key) = key := keyOf_indexOf hkey
  rw [Progress.next_of_cons hmoving, hannounce, hsolved, hname]
  rfl

/-- What each announcement keeps holds at every point of the run of a store. -/
theorem Interned.exists_progress (h : Interned keys solver) {P : List (Key × D) → Solver D → Prop}
    (hstep : ∀ (told : List (Key × D)) (solver : Solver D) (key : Key) (value : D)
      (rest : List (Key × D)), P told solver → solver.worklist = (key, value) :: rest →
      P ((key, value) :: told) ({ solver with worklist := rest }.announce key value))
    (hstart : P [] solver) (steps : Nat) :
    ∃ told reached, (solver.encode keys).progress steps = ⟨told, reached.encode keys⟩ ∧
      Interned keys reached ∧ P told reached := by
  induction steps with
  | zero => exact ⟨[], solver, rfl, h, hstart⟩
  | succ steps ih =>
    obtain ⟨told, reached, hpoint, hinterned, hreached⟩ := ih
    rw [Store.progress_succ, hpoint]
    cases hwork : reached.worklist with
    | nil =>
      have hmoving : (reached.encode keys).moving = [] := by rw [encode, hwork, List.map_nil]
      exact ⟨told, reached, Progress.next_of_nil hmoving, hinterned, hreached⟩
    | cons pair rest =>
      obtain ⟨key, value⟩ := pair
      exact ⟨_, _, hinterned.next_encode told hwork, (hinterned.announce_pop_encode hwork).2.2,
        hstep told reached key value rest hreached hwork⟩

end Solver

end MonotoneEquations
