import MonotoneEquations.Solver.Component
import MonotoneEquations.Solver.Run

/-!
# The store

A store keeps the state of a solver in tables that are indexed by handles. A key is interned when
it is first met, on the left of an equation or as a reference: it gets the next handle, and every
table grows by one place. An equation waits in the table of pending sums, and its handle stands in
the list of dependents of each handle that its sum mentioned when it was stored.

Registration interns the key of an equation before it decides whether to refuse the equation. So a
refused equation can leave its key behind, and later keys then get other handles than they would
have got without it.

`Solver` describes the same system by keys alone.
-/

namespace MonotoneEquations

/-- The state of a system of equations, in tables by handle. -/
structure Store (D : Type) where
  limit : Nat
  keys : ArrivalSet Key
  defined : List Bool
  solved : List (Option D)
  pending : List (Option (List (Component D)))
  dependencies : List (List Nat)
  moving : List Nat
  size : Nat
  log : List (Event D)

namespace Store

variable {D : Type}

/-- A store without keys. -/
def new (limit : Nat) : Store D := ⟨limit, .empty, [], [], [], [], [], 0, []⟩

/-- Whether no equation was accepted. -/
def isEmpty (store : Store D) : Bool := store.size == 0

/-- The number of accepted equations without a value. -/
def pendingCount (store : Store D) : Nat := store.pending.countP Option.isSome

/-- The number of accepted equations with a value. -/
def resolvedCount (store : Store D) : Nat := store.solved.countP Option.isSome

/-- The key that a handle stands for. -/
def keyOf (store : Store D) (handle : Nat) : Key := store.keys.toList.getD handle default

/-- Append an event to the log. -/
def record (store : Store D) (event : Event D) : Store D :=
  { store with log := store.log ++ [event] }

/-- The handle of a key, for which a new key gets a place in every table. -/
def intern (store : Store D) (key : Key) : Nat × Store D :=
  let handle := store.keys.indexOf key
  if key ∈ store.keys then (handle, store)
  else
    (handle, { store with
      keys := store.keys.insert key
      defined := store.defined ++ List.replicate (handle + 1 - store.defined.length) false
      solved := store.solved ++ [none]
      pending := store.pending ++ [none]
      dependencies := store.dependencies ++ [[]] })

/-- The handles of a list of keys, interned in order. -/
def internAll (store : Store D) : List Key → List Nat × Store D
  | [] => ([], store)
  | key :: rest =>
    let (handle, store) := store.intern key
    let (handles, store) := store.internAll rest
    (handle :: handles, store)

/-- The components of a list of products, whose keys are interned in order. -/
def internProducts (store : Store D) : List (Product D) → List (Component D) × Store D
  | [] => ([], store)
  | product :: rest =>
    let (handles, store) := store.internAll product.ids.toList
    let (components, store) := store.internProducts rest
    (⟨product.value, handles.mergeSort⟩ :: components, store)

/-- Mark a handle as defined by an accepted equation. -/
def register (handle : Nat) (store : Store D) : Store D :=
  { store with defined := store.defined.set handle true, size := store.size + 1 }

/-- Give a handle its value; its dependents are still to be told. -/
def resolve (handle : Nat) (value : D) (store : Store D) : Store D :=
  let store := store.record (.resolved (store.keyOf handle) value)
  { store with solved := store.solved.set handle (some value), moving := handle :: store.moving }

/-- Make a handle depend on others. -/
def subscribe (handle : Nat) (triggers : List Nat) (store : Store D) : Store D :=
  { store with
    dependencies := triggers.foldl (fun lists trigger => lists.modify trigger (· ++ [handle]))
      store.dependencies }

/-- Let a handle wait on a sum, as a dependent of every handle that the sum mentions. -/
def wait (handle : Nat) (sum : List (Component D)) (store : Store D) : Store D :=
  let triggers := (sum.flatMap Component.ids).mergeSort.eraseReps
  let store := (store.subscribe handle triggers).record (.pending (store.keyOf handle) sum.length)
  { store with pending := store.pending.set handle (some sum) }

/-- Store the term of an accepted equation. -/
def settle (handle : Nat) (term : Term D) (store : Store D) : Store D :=
  match term with
  | .final value => store.resolve handle value
  | .pending sum => store.wait handle sum

variable [Domain D] [DecidableEq D]

/-- Accept an equation, or say why it is refused. -/
def add (store : Store D) (equation : Equation D) : Except EquationError Unit × Store D :=
  let (handle, store) := store.intern equation.key
  if store.defined.getD handle false then (.error (.duplicate (store.keyOf handle)), store)
  else
    match equation.rhs with
    | .final value => (.ok (), (store.register handle).settle handle (.final value))
    | .pending products =>
      let size := Product.occurrences products.toList
      if store.limit < size then (.error (.tooLarge ⟨size, store.limit⟩), store)
      else
        let (components, store) := (store.register handle).internProducts products.toList
        (.ok (), store.settle handle (.normalize components))

/-- Put the value of a handle into the sum of a dependent, if the dependent waits. -/
def notify (trigger : Nat) (value : D) (store : Store D) (dependent : Nat) : Store D :=
  match store.pending.getD dependent none with
  | none => store
  | some sum =>
    let taken := { store with pending := store.pending.set dependent none }.record
      (.substituted (store.keyOf trigger) (store.keyOf dependent) value)
    match Term.substitute trigger value sum with
    | .final result => taken.resolve dependent result
    | .pending rest => { taken with pending := taken.pending.set dependent (some rest) }

/-- Put the value of a handle into the sums of its dependents, whose list is taken out meanwhile. -/
def propagate (trigger : Nat) (value : D) (store : Store D) : Store D :=
  let dependents := store.dependencies.getD trigger []
  let taken := { store with dependencies := store.dependencies.set trigger [] }
  let told := dependents.foldl (notify trigger value) taken
  { told with dependencies := told.dependencies.set trigger dependents }

/-- Pass values on in order, each to the dependents of a handle if it has one. -/
def propagateAll (store : Store D) : List (Option Nat × D) → Store D
  | [] => store
  | (none, _) :: rest => store.propagateAll rest
  | (some trigger, value) :: rest => (store.propagate trigger value).propagateAll rest

/-- Pass the value of a handle on to the dependents of its key and of the negation of its key. -/
def announce (handle : Nat) (store : Store D) : Store D :=
  match store.solved.getD handle none with
  | none => store
  | some value =>
    let key := store.keyOf handle
    let negated := store.keys.indexOf? key.negate
    store.propagateAll <|
      if key.stable then [(some handle, value), (negated, value)]
      else [(negated, value), (some handle, Domain.top)]

/-- The steps that a run can still take. -/
def workLeft (store : Store D) : Nat := store.pendingCount + store.moving.length

omit [Domain D] [DecidableEq D] in
/-- Emptying a place of a waiting handle takes one from the count, and filling it again adds one. -/
theorem countP_set_isSome {places : List (Option (List (Component D)))} {handle : Nat}
    {sum : List (Component D)} (h : places.getD handle none = some sum)
    (place : Option (List (Component D))) :
    (places.set handle place).countP Option.isSome + 1 =
      places.countP Option.isSome + if place.isSome then 1 else 0 := by
  induction places generalizing handle with
  | nil => cases h
  | cons first rest ih =>
    cases handle with
    | zero =>
      obtain rfl : first = some sum := h
      simp only [List.set_cons_zero, List.countP_cons, Option.isSome_some, if_true]
      omega
    | succ handle =>
      have hrest := @ih handle (by simpa using h)
      simp only [List.set_cons_succ, List.countP_cons]
      omega

/-- A dependent that gets its value starts to move. -/
theorem workLeft_notify (trigger : Nat) (value : D) (store : Store D) (dependent : Nat) :
    (store.notify trigger value dependent).workLeft = store.workLeft := by
  unfold notify
  split
  next => rfl
  next sum hsum =>
    have hempty := countP_set_isSome hsum none
    split
    · simp only [workLeft, pendingCount, resolve, record, List.length_cons] at hempty ⊢
      simp only [Option.isSome_none, Bool.false_eq_true, if_false] at hempty
      omega
    next rest _ =>
      have hfull := countP_set_isSome hsum (some rest)
      simp only [workLeft, pendingCount, record, List.set_set, Option.isSome_some, if_true] at hfull ⊢
      omega

/-- Passing a value on neither adds nor removes work. -/
theorem workLeft_propagate (trigger : Nat) (value : D) (store : Store D) :
    (store.propagate trigger value).workLeft = store.workLeft := by
  have hfold : ∀ (dependents : List Nat) (store : Store D),
      (dependents.foldl (notify trigger value) store).workLeft = store.workLeft := by
    intro dependents
    induction dependents with
    | nil => exact fun _ => rfl
    | cons dependent rest ih =>
      intro store
      rw [List.foldl_cons, ih, workLeft_notify]
  exact hfold _ _

/-- Passing several values on neither adds nor removes work. -/
theorem workLeft_propagateAll (propagations : List (Option Nat × D)) (store : Store D) :
    (store.propagateAll propagations).workLeft = store.workLeft := by
  induction propagations generalizing store with
  | nil => rfl
  | cons first rest ih =>
    obtain ⟨_ | trigger, value⟩ := first
    · exact ih store
    · exact (ih _).trans (workLeft_propagate trigger value store)

/-- Announcing a handle neither adds nor removes work. -/
theorem workLeft_announce (handle : Nat) (store : Store D) :
    (store.announce handle).workLeft = store.workLeft := by
  unfold announce
  split
  · rfl
  · exact workLeft_propagateAll _ store

/-- Announce moving handles, the newest first, until none is left. -/
def run (store : Store D) : Store D :=
  match h : store.moving with
  | [] => store
  | handle :: rest =>
    have : ({ store with moving := rest }.announce handle).workLeft < store.workLeft := by
      rw [workLeft_announce]
      simp [workLeft, pendingCount, h]
    run ({ store with moving := rest }.announce handle)
termination_by store.workLeft

omit [Domain D] [DecidableEq D] in
/-- The values found so far, by key. -/
def solution (store : Store D) : KeyMap D :=
  .ofList ((store.keys.toList.zip store.solved).filterMap fun (key, value) => value.map fun value => (key, value))

/-- Solve the system; keys without a value are missing from the solution. -/
def solve (store : Store D) : Findings D :=
  let final := store.run
  ⟨final.solution, final.log ++ [.finished final.resolvedCount final.pendingCount]⟩

end Store

end MonotoneEquations
