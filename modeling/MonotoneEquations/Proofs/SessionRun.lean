import Mathlib
import MonotoneEquations.Proofs.Fates
import MonotoneEquations.Proofs.StoreRun
import MonotoneEquations.Session

/-!
# What solving leaves

A session offers its definitions to a new store, notes in the log how many were accepted and how many
of these wait, and runs the store. The note disturbs nothing: the run finds what it would have found
without it, and no other event announces numbers. So the log holds the numbers once, the refused
definitions are reported behind what was reported before, and the solution that is printed is that of
the store.
-/

namespace MonotoneEquations

/-! ## What the log counts -/

/-- The numbers of equations that an event announces once all of them are registered. -/
def Event.registration? {V : Type} : Event V → Option (Nat × Nat)
  | .registered equations waiting => some (equations, waiting)
  | _ => none

/-- The numbers of equations do not depend on the form of the values. -/
theorem Event.registration?_map {V W : Type} (f : V → W) (event : Event V) :
    (event.map f).registration? = event.registration? := by
  cases event <;> rfl

namespace Solver

variable {D : Type}

/-- The numbers of equations that a solver has announced. -/
def registrations (solver : Solver D) : List (Nat × Nat) := solver.log.filterMap Event.registration?

/-- Registering an equation announces no numbers. -/
theorem registrations_register (solver : Solver D) (key : Key) (status : Status D) :
    (solver.register key status).registrations = solver.registrations := by
  rw [registrations, register, List.filterMap_append]
  cases status <;> exact List.append_nil _

variable [Domain D] [DecidableEq D]

/-- Offering equations announces no numbers. -/
theorem registrations_addAll (solver : Solver D) (offered : List (Equation D)) :
    (solver.addAll offered).registrations = solver.registrations := by
  induction offered generalizing solver with
  | nil => rfl
  | cons equation offered ih =>
    rw [addAll]
    cases hadd : solver.add equation with
    | error _ => exact ih solver
    | ok next =>
      obtain ⟨-, -, rfl⟩ := add_eq_ok_iff.mp hadd
      exact (ih _).trans (registrations_register ..)

/-- Passing a value on announces no numbers. -/
theorem registrations_propagate (source : Key) (value : D) (solver : Solver D) :
    (solver.propagate source value).registrations = solver.registrations := by
  have hreceive (entry : Entry D) :
      (entry.receive source value).2.filterMap Event.registration? = [] := by
    unfold Entry.receive
    split
    next => rfl
    next =>
      split
      · split <;> rfl
      · rfl
  rw [registrations, propagate, List.filterMap_append, List.filterMap_flatMap, List.flatMap_map]
  simp [hreceive, registrations]

/-- A run announces no numbers. -/
theorem registrations_run (solver : Solver D) : solver.run.registrations = solver.registrations := by
  refine (run_induction (P := fun next => next.registrations = solver.registrations)
    (fun next key value rest hnext _ => ?_) rfl).1
  rw [announce]
  split <;> exact (registrations_propagate ..).trans ((registrations_propagate ..).trans hnext)

/-- A run finds the same values, whatever the log holds. -/
theorem solution_solve_record (solver : Solver D) (event : Event D) :
    (solver.record event).solve.solution = solver.solve.solution := by
  -- The two runs stay in step, and differ in nothing but their logs.
  have hstep : ∀ (next : Solver D) (key : Key) (value : D) (rest : List (Key × D)),
      (∃ log, (solver.record event).run = ({ next with log } : Solver D).run) →
      next.worklist = (key, value) :: rest →
      ∃ log, (solver.record event).run =
        ({ Solver.announce key value { next with worklist := rest } with log } : Solver D).run := by
    intro next key value rest hnext hwork
    obtain ⟨log, hrun⟩ := hnext
    have hlogged : ({ next with log } : Solver D).worklist = (key, value) :: rest := hwork
    rw [hrun, run_of_cons hlogged, announce, announce]
    split
    · exact ⟨_, rfl⟩
    · exact ⟨_, rfl⟩
  obtain ⟨⟨log, hrun⟩, hempty⟩ := run_induction hstep ⟨solver.log ++ [event], rfl⟩
  have hlast : ({ solver.run with log } : Solver D).worklist = [] := hempty
  rw [solve, solve, hrun, run_of_nil hlast]
  rfl

end Solver

/-! ## What a session leaves -/

/-- An event does not disturb what is interned. -/
theorem Solver.Interned.record {D : Type} {keys : ArrivalSet Key} {solver : Solver D}
    (h : Solver.Interned keys solver) (event : Event D) : Solver.Interned keys (solver.record event) :=
  ⟨h.nodup, h.entries, h.resolved⟩

variable {D : Type} [Domain D] [DecidableEq D]

namespace Store

/-- An event that is recorded before the run stays in the log, and changes no value. -/
theorem solve_record_addAll (limit : Nat) (offered : List (Equation D)) (event : Event D) :
    (((new limit).addAll offered).record event).solve.solution =
        ((new limit).addAll offered).solve.solution ∧
      (((new limit).addAll offered).record event).solve.log.filterMap Event.registration? =
        event.registration?.toList := by
  obtain ⟨keys, hencode, hkeys⟩ := exists_encode limit offered
  have hsolve : (((new limit).addAll offered).record event).solve =
      (((Solver.new limit).addAll offered).record event).solve := by
    rw [hencode]
    exact (hkeys.record event).solve_encode
  constructor
  · rw [hsolve, Solver.solution_solve_record, solve_addAll]
  · have hrun := Solver.registrations_run (((Solver.new limit).addAll offered).record event)
    have hadd := Solver.registrations_addAll (Solver.new limit) offered
    have hnew : (Solver.new limit : Solver D).registrations = [] := rfl
    rw [hsolve, Solver.solve, List.filterMap_append]
    simp only [Solver.registrations, Solver.record, List.filterMap_append] at hrun hadd hnew ⊢
    rw [hrun, hadd, hnew]
    cases event <;> rfl

end Store

namespace Session

/-- The store of a session, once its definitions are offered. -/
def store (options : Options) (definitions : List (Definition D)) : Store D :=
  (Store.new options.limit).addAll (definitions.map Definition.equation)

/-- Registering definitions offers their equations. -/
theorem fst_register (store : Store D) (definitions : List (Definition D)) :
    (register store definitions).1 = store.addAll (definitions.map Definition.equation) := by
  induction definitions generalizing store with
  | nil => rfl
  | cons definition definitions ih =>
    rw [register, List.map_cons, Store.addAll, ← ih]
    dsimp only
    split <;> rfl

variable [Spelling D]

/-- Solving definitions after some reports adds the reports of the refused ones, and prints the equations
if that is asked for and then the solution. -/
theorem diagnostics_solve (options : Options) (reports : List Report)
    (definitions : List (Definition D)) :
    (solve options ((Diagnostics.new .buffer).reportAll reports) definitions).diagnostics =
      { (Diagnostics.new .buffer).reportAll (reports ++ (register (.new options.limit) definitions).2) with
        out := (if options.dumpEquations then printEquations definitions ++ "\n" else "") ++
          printSolution options.showUnresolved definitions (store options definitions).solve.solution } := by
  have hsolution := (Store.solve_record_addAll options.limit (definitions.map Definition.equation)
    (.registered (store options definitions).size (store options definitions).pendingCount)).1
  rw [store, ← fst_register] at hsolution
  rw [store, ← fst_register, solve]
  dsimp only
  rw [hsolution, Diagnostics.print]
  simp only [Diagnostics.reportAll_eq, List.map_append, String.join_append, List.countP_append]
  split <;> simp [Diagnostics.new, Diagnostics.printLine, Diagnostics.print, String.append_assoc]

/-- Solving definitions logs how many of them are accepted and how many of these wait. -/
theorem registrations_solve (options : Options) (diagnostics : Diagnostics)
    (definitions : List (Definition D)) :
    (solve options diagnostics definitions).log.filterMap Event.registration? =
      [(((Store.new options.limit).accepted (definitions.map Definition.equation)).length,
        (store options definitions).pendingCount)] := by
  have hlog := (Store.solve_record_addAll options.limit (definitions.map Definition.equation)
    (.registered (store options definitions).size (store options definitions).pendingCount)).2
  rw [store, ← fst_register] at hlog
  rw [← Store.size_addAll, store, ← fst_register]
  exact hlog

end Session

end MonotoneEquations
