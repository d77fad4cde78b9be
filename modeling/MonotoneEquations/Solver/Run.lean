import MonotoneEquations.Solver.Basic

/-!
# Solving a system

A run takes the newest resolved key from the worklist, passes its value on, and repeats until the
worklist is empty. The value of a stable key stands for the key and for its negation. The value of
an unstable key stands for its negation only, and the key itself reads as top.

Every step removes one key from the worklist, and a key enters the worklist only when its equation
stops waiting. So the number of waiting equations and the length of the worklist together drop by
one at each step, and a run ends. Keys on a cycle that nothing breaks stay without a value.
-/

namespace MonotoneEquations

/-- The values that a run has found, and the log of the solver's whole life. -/
structure Findings (D : Type) where
  solution : KeyMap D
  log : List (Event D)

variable {D : Type} [Domain D] [DecidableEq D]

/-- Pass the value of a key on to one equation, which reacts if it waits and mentioned the key. -/
def Entry.receive (source : Key) (value : D) (entry : Entry D) : Entry D × List (Event D) :=
  match entry.status with
  | .resolved _ => (entry, [])
  | .waiting sum =>
    if source ∈ entry.mentions then
      match Status.substitute source value sum with
      | .waiting rest =>
        ({ entry with status := .waiting rest }, [.substituted source entry.key value])
      | .resolved result =>
        ({ entry with status := .resolved result },
          [.substituted source entry.key value, .resolved entry.key result])
    else (entry, [])

namespace Solver

/-- Pass the value of a key on to all equations, in the order of registration. -/
def propagate (source : Key) (value : D) (solver : Solver D) : Solver D :=
  let received := solver.entries.map (Entry.receive source value)
  let events := received.flatMap Prod.snd
  { solver with
    entries := received.map Prod.fst
    worklist := (events.filterMap Event.resolution?).reverse ++ solver.worklist
    log := solver.log ++ events }

/-- Pass the value of a resolved key on to the readers of the key and of its negation. -/
def announce (key : Key) (value : D) (solver : Solver D) : Solver D :=
  if key.stable then (solver.propagate key value).propagate key.negate value
  else (solver.propagate key.negate value).propagate key Domain.top

/-- The steps that a run can still take. -/
def workLeft (solver : Solver D) : Nat := solver.pendingCount + solver.worklist.length

/-- An equation that stops waiting announces one value. -/
theorem receive_work (source : Key) (value : D) (entry : Entry D) :
    (if (entry.receive source value).1.status.isWaiting then 1 else 0) +
        ((entry.receive source value).2.filterMap Event.resolution?).length =
      if entry.status.isWaiting then 1 else 0 := by
  unfold Entry.receive
  split
  next h => simp [h]
  next h =>
    split
    · split <;> simp [h, Status.isWaiting, Event.resolution?, List.filterMap_cons]
    · simp [h, Status.isWaiting]

/-- Passing a value on neither adds nor removes work. -/
theorem workLeft_propagate (source : Key) (value : D) (solver : Solver D) :
    (solver.propagate source value).workLeft = solver.workLeft := by
  have count : ∀ entries : List (Entry D),
      ((entries.map (Entry.receive source value)).map Prod.fst).countP
            (fun entry => entry.status.isWaiting) +
          (((entries.map (Entry.receive source value)).flatMap Prod.snd).filterMap
            Event.resolution?).length =
        entries.countP fun entry => entry.status.isWaiting := by
    intro entries
    induction entries with
    | nil => rfl
    | cons entry rest ih =>
      have work := receive_work source value entry
      simp only [List.map_cons, List.flatMap_cons, List.filterMap_append, List.length_append,
        List.countP_cons] at ih ⊢
      omega
  have := count solver.entries
  simp only [workLeft, pendingCount, propagate, List.length_append, List.length_reverse] at this ⊢
  omega

/-- Announcing a key neither adds nor removes work. -/
theorem workLeft_announce (key : Key) (value : D) (solver : Solver D) :
    (solver.announce key value).workLeft = solver.workLeft := by
  unfold announce
  split <;> simp only [workLeft_propagate]

/-- Announce resolved keys, the newest first, until none is left. -/
def run (solver : Solver D) : Solver D :=
  match h : solver.worklist with
  | [] => solver
  | (key, value) :: rest =>
    have : ({ solver with worklist := rest }.announce key value).workLeft < solver.workLeft := by
      rw [workLeft_announce]
      simp [workLeft, pendingCount, h]
    run ({ solver with worklist := rest }.announce key value)
termination_by solver.workLeft

/-- The values found so far, by key. -/
def solution (solver : Solver D) : KeyMap D :=
  .ofList (solver.entries.filterMap fun entry => entry.status.value?.map fun value => (entry.key, value))

/-- Solve the system; keys without a value are missing from the solution. -/
def solve (solver : Solver D) : Findings D :=
  let final := solver.run
  ⟨final.solution, final.log ++ [.finished final.resolvedCount final.pendingCount]⟩

end Solver

end MonotoneEquations
