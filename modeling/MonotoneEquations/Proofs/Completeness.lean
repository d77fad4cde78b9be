import Mathlib
import MonotoneEquations.Domain.Ternary
import MonotoneEquations.Proofs.Quiescence

/-!
# Well-founded systems are solved completely

Suppose that the equations of a system can be ranked so that every key that an equation mentions is
defined, in one polarity at least, by an equation of smaller rank. Then a run gives a value to every
defined key: an equation of least rank without a value would wait on a key that is defined below it,
and when a run is over no equation waits on a key of which either polarity has a value.

Both polarities of a key may be defined, and keys may be stable or not.
-/

namespace MonotoneEquations

variable {D : Type}

/-- Whatever an equation mentions is defined, in one polarity at least, by an equation of smaller
rank. -/
def Ranked (rank : Key → Nat) (system : List (Equation D)) : Prop :=
  ∀ equation ∈ system, ∀ r ∈ equation.rhs.mentions, ∃ other ∈ system,
    (other.key = r ∨ other.key = r.negate) ∧ rank other.key < rank equation.key

instance (rank : Key → Nat) (system : List (Equation D)) : Decidable (Ranked rank system) :=
  inferInstanceAs (Decidable (∀ _ ∈ _, ∀ _ ∈ _, ∃ _ ∈ _, _))

namespace Solver

variable {solver : Solver D} {system : List (Equation D)}

/-- There are as many resolved keys as resolved equations. -/
theorem length_resolutions (solver : Solver D) : solver.resolutions.length = solver.resolvedCount := by
  rw [resolutions, List.length_filterMap_eq_countP, resolvedCount]
  refine List.countP_congr fun entry _ => ?_
  cases hstatus : entry.status <;>
    simp [Entry.resolution?, hstatus, Status.value?, Status.isWaiting]

/-- An equation has a value or waits. -/
theorem resolvedCount_add_pendingCount (solver : Solver D) :
    solver.resolvedCount + solver.pendingCount = solver.size := by
  have hsplit : solver.entries.length = _ :=
    List.length_eq_countP_add_countP fun entry => entry.status.isWaiting
  rw [size, hsplit, resolvedCount, pendingCount, Nat.add_comm]
  simp

variable [Domain D] [DecidableEq D]

/-- When a run is over, no equation of a ranked system waits. -/
theorem Announced.isWaiting_eq_false (h : Announced system [] solver) {rank : Key → Nat}
    (hranked : Ranked rank system) :
    ∀ entry ∈ solver.run.entries, entry.status.isWaiting = false := by
  have hstores := h.stores_run
  intro entry hentry
  -- By induction on the rank: what an entry waits on has an entry of smaller rank.
  induction hrank : rank entry.key using Nat.strongRecOn generalizing entry with
  | ind n ih =>
    obtain ⟨equation, hequation, hentryStores⟩ := hstores.stores entry hentry
    by_contra hwaits
    rw [Bool.not_eq_false] at hwaits
    obtain ⟨r, hr⟩ := List.exists_mem_of_ne_nil _ (hentryStores.waits_ne_nil hwaits)
    have hmentions := hentryStores.mentions_mem r (hentryStores.waits_mem r hr)
    obtain ⟨other, hother, hpolarity, hless⟩ := hranked equation hequation r hmentions
    obtain ⟨lower, hlower, hlowerStores⟩ := hstores.exists_entry h.nodup hother
    rw [← hlowerStores.key_eq] at hpolarity hless
    rw [← hentryStores.key_eq, hrank] at hless
    have hresolved := ih (rank lower.key) hless lower hlower rfl
    cases hstatus : lower.status with
    | waiting sum => simp [hstatus, Status.isWaiting] at hresolved
    | resolved value =>
      have hnone := h.not_mem_resolutions_run hentry hr value
      have hmem := mem_resolutions.mpr ⟨lower, hlower, rfl, hstatus⟩
      rcases hpolarity with hkey | hkey
      · exact hnone.1 (hkey ▸ hmem)
      · exact hnone.2 (hkey ▸ hmem)

/-- A run resolves different keys. -/
theorem Announced.nodup_resolutions_run (h : Announced system [] solver) :
    (solver.run.resolutions.map Prod.fst).Nodup :=
  nodup_resolutions_of_nodup (h.stores_run.keys_eq ▸ h.nodup)

/-- A run resolves only keys that the system defines. -/
theorem Announced.mem_keys_of_mem_resolutions_run (h : Announced system [] solver) {pair : Key × D}
    (hpair : pair ∈ solver.run.resolutions) : pair.1 ∈ system.map Equation.key := by
  obtain ⟨entry, hentry, hkey, -⟩ := mem_resolutions.mp hpair
  rw [← h.stores_run.keys_eq, ← hkey]
  exact List.mem_map_of_mem hentry

/-- The solution of a run holds the resolved keys, with their values. -/
theorem Announced.solution_run_perm (h : Announced system [] solver) :
    solver.run.solution.toList.Perm solver.run.resolutions :=
  KeyMap.toList_ofList_perm h.nodup_resolutions_run

/-- The solution of a run has as many members as there are resolved equations. -/
theorem Announced.size_solution_run (h : Announced system [] solver) :
    solver.run.solution.size = solver.run.resolvedCount := by
  rw [← length_resolutions]
  exact h.solution_run_perm.length_eq

/-- A run counts the equations that it started with. -/
theorem Announced.size_run (h : Announced system [] solver) : solver.run.size = solver.size := by
  have hkeys := h.stores_run.keys_eq.trans h.stores.keys_eq.symm
  simpa [size] using congrArg List.length hkeys

/-- A run of a ranked system leaves no equation without a value. -/
theorem Announced.pendingCount_run (h : Announced system [] solver) {rank : Key → Nat}
    (hranked : Ranked rank system) : solver.run.pendingCount = 0 :=
  List.countP_eq_zero.mpr fun entry hentry => by simp [h.isWaiting_eq_false hranked entry hentry]

/-- The keys in the solution of a ranked system are those that it defines. -/
theorem Announced.isSome_get?_solution_run (h : Announced system [] solver) {rank : Key → Nat}
    (hranked : Ranked rank system) (key : Key) :
    (solver.run.solution.get? key).isSome ↔ ∃ equation ∈ system, equation.key = key := by
  have hget (value : D) :
      solver.run.solution.get? key = some value ↔ (key, value) ∈ solver.run.resolutions :=
    KeyMap.get?_ofList h.nodup_resolutions_run
  rw [Option.isSome_iff_exists]
  constructor
  · intro hsome
    obtain ⟨value, hvalue⟩ := hsome
    exact List.mem_map.mp (h.mem_keys_of_mem_resolutions_run ((hget value).mp hvalue))
  · intro hdefined
    obtain ⟨equation, hequation, rfl⟩ := hdefined
    obtain ⟨entry, hentry, hentryStores⟩ := h.stores_run.exists_entry h.nodup hequation
    have hresolved := h.isWaiting_eq_false hranked entry hentry
    cases hstatus : entry.status with
    | waiting sum => simp [hstatus, Status.isWaiting] at hresolved
    | resolved value =>
      exact ⟨value, (hget value).mpr (mem_resolutions.mpr ⟨entry, hentry, hentryStores.key_eq, hstatus⟩)⟩

end Solver

namespace Store

variable [Domain D] [DecidableEq D]

/-- The solution of a ranked system holds exactly the defined keys. It has as many members as there
are accepted equations, and the last event of the run counts none that is unresolved. -/
theorem solution_complete_of_ranked (limit : Nat) (offered : List (Equation D)) {rank : Key → Nat}
    (hranked : Ranked rank ((new limit).accepted offered)) :
    let start := (new limit).addAll offered
    (∀ key, (start.solve.solution.get? key).isSome ↔
        ∃ equation ∈ (new limit).accepted offered, equation.key = key) ∧
      start.solve.solution.size = start.size ∧
      start.solve.log.getLast? = some (.finished start.size 0) := by
  intro start
  rw [accepted_new] at hranked ⊢
  have hannounced := (Solver.announced_new limit).addAll offered
  obtain ⟨keys, hreached, -⟩ := exists_encode limit offered
  have hsize : start.size = ((Solver.new limit).addAll offered).size := congrArg size hreached
  have hwaiting := hannounced.pendingCount_run hranked
  have hresolved : ((Solver.new limit).addAll offered).run.resolvedCount = start.size := by
    rw [hsize, ← hannounced.size_run, ← Solver.resolvedCount_add_pendingCount, hwaiting, Nat.add_zero]
  rw [show start.solve = _ from solve_addAll limit offered, Solver.solve]
  refine ⟨hannounced.isSome_get?_solution_run hranked, ?_, ?_⟩
  · rw [hannounced.size_solution_run, hresolved]
  · rw [List.getLast?_concat, hresolved, hwaiting]

/-- Four equations over the chain and one that is refused. Both polarities of an unstable key are
defined, one of them by an equation that depends on the other through two more keys. -/
def doubledSample : List (Equation Ternary) :=
  let p : Key := ⟨"p", false, false⟩
  let q : Key := ⟨"q", true, false⟩
  let r : Key := ⟨"r", true, false⟩
  [⟨p.negate, .ofProducts [.ofKeys .yes [q]]⟩,
    ⟨q, .ofProducts [.ofKeys .yes [p.negate, r]]⟩,
    ⟨r, .ofProducts [.ofKeys .maybe [p], .constant .no]⟩,
    ⟨p, .final .maybe⟩,
    ⟨r, .ofProducts [.ofKeys .yes [r]]⟩]

/-- A rank for each key of the sample. -/
def doubledRank (key : Key) : Nat :=
  if key.base = "q" then 2 else if key.base = "r" then 1 else if key.negated then 3 else 0

/-- All four accepted equations of the sample get a value. -/
theorem solution_complete_of_ranked_doubled :
    Ranked doubledRank ((new 2).accepted doubledSample) ∧
      ((new 2).addAll doubledSample).size = 4 ∧
      ((new 2).addAll doubledSample).solve.solution.size = ((new 2).addAll doubledSample).size ∧
      ((new 2).addAll doubledSample).solve.log.getLast? =
        some (.finished ((new 2).addAll doubledSample).size 0) := by
  have hranked : Ranked doubledRank ((new 2).accepted doubledSample) := by
    rw [accepted_new]
    decide
  have hcomplete := solution_complete_of_ranked 2 doubledSample hranked
  exact ⟨hranked, by cbv, hcomplete.2.1, hcomplete.2.2⟩

end Store

end MonotoneEquations
