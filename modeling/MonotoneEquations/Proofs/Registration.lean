import MonotoneEquations.Proofs.Normalization
import MonotoneEquations.Solver.Run

/-!
# Registering a list of equations

Equations are offered to a solver one after the other, and the refused ones are left out. The entry
of an accepted equation is determined by the equation and by what is known: its status is the status
of the right hand side under that knowledge, and its readers are the keys it waited on at first.

`Announced` says where a solver stands: which equations it has accepted, and which resolved keys
have told their value. The other resolved keys are on the worklist.
-/

namespace MonotoneEquations

variable {D : Type} [Domain D] [DecidableEq D]

/-- The entry of an equation once everything known has been put into it. -/
def Equation.entryUnder (known : Knowledge D) (equation : Equation D) : Entry D :=
  ⟨equation.key, (equation.rhs.statusUnder .nothing).mentions, equation.rhs.statusUnder known⟩

omit [Domain D] [DecidableEq D] in
/-- The key of an entry with its value, if it has one. -/
def Entry.resolution? (entry : Entry D) : Option (Key × D) :=
  entry.status.value?.map fun value => (entry.key, value)

namespace Solver

omit [Domain D] [DecidableEq D] in
/-- The resolved keys with their values, in the order of registration. -/
def resolutions (solver : Solver D) : List (Key × D) := solver.entries.filterMap Entry.resolution?

omit [Domain D] [DecidableEq D] in
/-- Entries of different keys resolve different keys. -/
theorem nodup_resolutions_of_nodup {solver : Solver D} (h : (solver.entries.map Entry.key).Nodup) :
    (solver.resolutions.map Prod.fst).Nodup := by
  refine (map_filterMap_sublist (fun entry pair hpair => ?_) solver.entries).nodup h
  obtain ⟨value, -, rfl⟩ := Option.map_eq_some_iff.mp hpair
  rfl

omit [Domain D] [DecidableEq D] in
/-- The resolved keys are those of the entries that have a value. -/
theorem mem_resolutions {solver : Solver D} {key : Key} {value : D} :
    (key, value) ∈ solver.resolutions ↔
      ∃ entry ∈ solver.entries, entry.key = key ∧ entry.status = .resolved value := by
  have hresolution (entry : Entry D) :
      entry.resolution? = some (key, value) ↔ entry.key = key ∧ entry.status = .resolved value := by
    cases hstatus : entry.status <;> simp [Entry.resolution?, hstatus, Status.value?]
  simp only [resolutions, List.mem_filterMap, hresolution]

/-- Offer equations in order, and keep the accepted ones. -/
def addAll (solver : Solver D) : List (Equation D) → Solver D
  | [] => solver
  | equation :: rest =>
    match solver.add equation with
    | .ok next => next.addAll rest
    | .error _ => solver.addAll rest

/-- Of the equations offered in order, those that are accepted. -/
def accepted (solver : Solver D) : List (Equation D) → List (Equation D)
  | [] => []
  | equation :: rest =>
    match solver.add equation with
    | .ok next => equation :: next.accepted rest
    | .error _ => solver.accepted rest

/-- The solver has accepted the system, and the resolved keys have told their values, the last one
first, except those that still wait on the worklist. -/
structure Announced (system : List (Equation D)) (told : List (Key × D)) (solver : Solver D) : Prop where
  nodup : (system.map Equation.key).Nodup
  entries : solver.entries = system.map (Equation.entryUnder (.ofResolved told))
  resolutions : (solver.worklist ++ told).Perm solver.resolutions

/-- A new solver has accepted nothing. -/
theorem announced_new (limit : Nat) : Announced [] [] (new limit : Solver D) :=
  ⟨List.nodup_nil, rfl, List.Perm.nil⟩

omit [Domain D] [DecidableEq D] in
/-- A registered entry adds the value that it has already. -/
theorem resolutions_register (solver : Solver D) (key : Key) (status : Status D) :
    (solver.register key status).resolutions =
      solver.resolutions ++ (status.event key).resolution?.toList := by
  rw [resolutions, register, List.filterMap_append]
  cases status <;> rfl

/-- A solver defines exactly the keys of the accepted equations. -/
theorem Announced.defines_eq_false_iff {system : List (Equation D)} {told : List (Key × D)}
    {solver : Solver D} (h : Announced system told solver) {key : Key} :
    solver.defines key = false ↔ key ∉ system.map Equation.key := by
  rw [defines, h.entries, List.any_map, List.any_eq_false, List.mem_map, not_exists]
  exact forall_congr' fun equation => ⟨fun hall hmem => hall hmem.1 (decide_eq_true hmem.2),
    fun hnone hmem hkey => hnone ⟨hmem, of_decide_eq_true hkey⟩⟩

/-- An equation is accepted if its key is new and its size is within the limit; then its entry is
registered as far as it is known without knowing any reference. -/
theorem add_eq_ok_iff {solver next : Solver D} {equation : Equation D} :
    solver.add equation = .ok next ↔
      solver.defines equation.key = false ∧ equation.rhs.size ≤ solver.limit ∧
        solver.register equation.key (equation.rhs.statusUnder .nothing) = next := by
  obtain ⟨key, rhs⟩ := equation
  cases hdefined : solver.defines key with
  | true => simp [add, hdefined]
  | false =>
    cases rhs with
    | final value => simp [add, hdefined, Rhs.size, Rhs.statusUnder]
    | pending products =>
      by_cases hlarge : solver.limit < Product.occurrences products.toList
      · simp [add, hdefined, Rhs.size, hlarge, Nat.not_le.mpr hlarge]
      · simp [add, hdefined, Rhs.size, Rhs.statusUnder, hlarge, Nat.not_lt.mp hlarge]

/-- An equation is refused if its key is already defined or, failing that, if its size is above the
limit. -/
theorem add_eq_error_iff {solver : Solver D} {equation : Equation D} {error : EquationError} :
    solver.add equation = .error error ↔
      solver.defines equation.key = true ∧ error = .duplicate equation.key ∨
        solver.defines equation.key = false ∧ solver.limit < equation.rhs.size ∧
          error = .tooLarge ⟨equation.rhs.size, solver.limit⟩ := by
  obtain ⟨key, rhs⟩ := equation
  cases hdefined : solver.defines key with
  | true => simp [add, hdefined, eq_comm]
  | false =>
    cases rhs with
    | final value => simp [add, hdefined, Rhs.size]
    | pending products =>
      by_cases hlarge : solver.limit < Product.occurrences products.toList
      · simp [add, hdefined, Rhs.size, hlarge, eq_comm]
      · simp [add, hdefined, Rhs.size, hlarge]

/-- Registering an equation keeps the limit. -/
theorem limit_eq_of_add {solver next : Solver D} {equation : Equation D}
    (h : solver.add equation = .ok next) : next.limit = solver.limit := by
  obtain ⟨-, -, rfl⟩ := add_eq_ok_iff.mp h
  rfl

/-- An accepted equation joins the system. -/
theorem Announced.add {system : List (Equation D)} {solver next : Solver D}
    (h : Announced system [] solver) {equation : Equation D} (hadd : solver.add equation = .ok next) :
    Announced (system ++ [equation]) [] next := by
  obtain ⟨hnew, -, rfl⟩ := add_eq_ok_iff.mp hadd
  have hfresh := h.defines_eq_false_iff.mp hnew
  refine ⟨?_, ?_, ?_⟩
  · rw [List.map_append, List.map_singleton]
    exact (List.perm_append_singleton _ _).nodup_iff.mpr (List.nodup_cons.mpr ⟨hfresh, h.nodup⟩)
  · rw [register, h.entries, List.map_append]
    rfl
  · rw [resolutions_register, List.append_nil]
    have hold : solver.worklist.Perm solver.resolutions := by simpa using h.resolutions
    exact (hold.append_left _).trans List.perm_append_comm

/-- The accepted ones of all offered equations join the system. -/
theorem Announced.addAll {system : List (Equation D)} {solver : Solver D}
    (h : Announced system [] solver) (offered : List (Equation D)) :
    Announced (system ++ solver.accepted offered) [] (solver.addAll offered) := by
  induction offered generalizing system solver with
  | nil =>
    rw [accepted, List.append_nil]
    exact h
  | cons equation rest ih =>
    rw [accepted, Solver.addAll]
    cases hadd : solver.add equation with
    | ok next => simpa using ih (h.add hadd)
    | error _ => exact ih h

/-- A solver counts the equations that it has accepted. -/
theorem size_addAll (limit : Nat) (offered : List (Equation D)) :
    ((new limit).addAll offered).size = ((new limit).accepted offered).length := by
  have h := ((announced_new limit).addAll offered).entries
  rw [size, h, List.length_map, List.nil_append]

/-- Accepted equations define different keys. -/
theorem nodup_accepted (limit : Nat) (offered : List (Equation D)) :
    (((new limit).accepted offered).map Equation.key).Nodup :=
  ((announced_new limit).addAll offered).nodup

end Solver

end MonotoneEquations
