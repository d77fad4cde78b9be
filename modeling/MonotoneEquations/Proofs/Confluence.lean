import MonotoneEquations.Proofs.LeastFixedPoint

/-!
# The order of equations does not matter

If the equations that fit the limit define different keys, and no key together with its negation,
then a solver accepts exactly these, in whatever order they are offered. The least fixed point of
what they derive depends on the set of equations alone, so the solution does too. This covers cycles
and references to keys without an equation.
-/

namespace MonotoneEquations

variable {D : Type} [Domain D] [DecidableEq D]

omit [Domain D] [DecidableEq D] in
/-- Whether the size of an equation is within a limit. -/
def Equation.fits (limit : Nat) (equation : Equation D) : Bool := equation.rhs.size ≤ limit

/-- What equations derive does not depend on their order. -/
theorem consequences_perm {system other : List (Equation D)} (hperm : system.Perm other)
    (hnodup : (system.map Equation.key).Nodup) : consequences system = consequences other := by
  have hother : (other.map Equation.key).Nodup := (hperm.map _).nodup_iff.mp hnodup
  funext s
  apply Assignment.ext_of_eq_some
  intro key value
  simp only [consequences_eq_some_iff hnodup, consequences_eq_some_iff hother, hperm.mem_iff]

omit [Domain D] [DecidableEq D] in
/-- There is only one least fixed point. -/
theorem IsLeastFixedPoint.unique {derive : Assignment D → Assignment D} {s t : Assignment D}
    (hs : IsLeastFixedPoint derive s) (ht : IsLeastFixedPoint derive t) : s = t :=
  Assignment.ext_of_eq_some fun key value =>
    ⟨hs.within t ht.fixed key value, ht.within s hs.fixed key value⟩

namespace Solver

/-- If the equations that fit define new and different keys, these are the accepted ones. -/
theorem Announced.accepted_eq_filter {system : List (Equation D)} {solver : Solver D}
    (h : Announced system [] solver) {offered : List (Equation D)}
    (hnodup : ((system ++ offered.filter (Equation.fits solver.limit)).map Equation.key).Nodup) :
    solver.accepted offered = offered.filter (Equation.fits solver.limit) := by
  induction offered generalizing system solver with
  | nil => rfl
  | cons equation rest ih =>
    by_cases hfits : equation.fits solver.limit
    · rw [List.filter_cons_of_pos hfits] at hnodup ⊢
      have hnew : solver.defines equation.key = false := by
        rw [h.defines_eq_false_iff]
        rw [List.map_append, List.nodup_append] at hnodup
        intro hold
        exact hnodup.2.2 _ hold _ (List.mem_map_of_mem List.mem_cons_self) rfl
      have hadd := add_eq_ok_iff.mpr ⟨hnew, of_decide_eq_true hfits, rfl⟩
      rw [accepted, hadd]
      have hlimit := limit_eq_of_add hadd
      have hrest := ih (h.add hadd) (by simpa [hlimit] using hnodup)
      rw [hlimit] at hrest
      exact congrArg _ hrest
    · rw [List.filter_cons_of_neg hfits] at hnodup ⊢
      cases hadd : solver.add equation with
      | ok next => exact absurd (decide_eq_true (add_eq_ok_iff.mp hadd).2.1) hfits
      | error error =>
        rw [accepted, hadd]
        exact ih h hnodup

/-- Before solving, those equations wait that are not resolved without knowing any reference. -/
theorem pendingCount_addAll (limit : Nat) (offered : List (Equation D)) :
    ((new limit).addAll offered).pendingCount = ((new limit).accepted offered).countP
      fun equation => (equation.rhs.statusUnder .nothing).isWaiting := by
  have h := ((announced_new limit).addAll offered).entries
  rw [pendingCount, h, List.countP_map, List.nil_append]
  rfl

variable [EquationalDomain D]

/-- Offering equations in another order leads to the same accepted equations, the same counts and the
same solution, if those that fit the limit never define a key twice or in both polarities. -/
theorem agree_of_perm (limit : Nat) {offered reordered : List (Equation D)}
    (hperm : offered.Perm reordered)
    (hnodup : ((offered.filter (Equation.fits limit)).map Equation.key).Nodup)
    (hone : OnePolarity (offered.filter (Equation.fits limit))) :
    ((new limit).accepted offered).Perm ((new limit).accepted reordered) ∧
      ((new limit).addAll offered).size = ((new limit).addAll reordered).size ∧
      ((new limit).addAll offered).pendingCount = ((new limit).addAll reordered).pendingCount ∧
      ((new limit).addAll offered).solve.solution = ((new limit).addAll reordered).solve.solution := by
  have hfilter := hperm.filter (Equation.fits limit)
  have hleft : (new limit).accepted offered = offered.filter (Equation.fits limit) :=
    (announced_new limit).accepted_eq_filter hnodup
  have hright : (new limit).accepted reordered = reordered.filter (Equation.fits limit) :=
    (announced_new limit).accepted_eq_filter ((hfilter.map _).nodup_iff.mp hnodup)
  have haccepted : ((new limit).accepted offered).Perm ((new limit).accepted reordered) := by
    rwa [hleft, hright]
  have hone' : OnePolarity ((new limit).accepted reordered) := by
    intro equation hequation other hother
    rw [← haccepted.mem_iff, hleft] at hequation hother
    exact hone equation hequation other hother
  rw [← hleft] at hnodup hone
  refine ⟨haccepted, ?_, ?_, KeyMap.ext_of_get? fun key => ?_⟩
  · rw [size_addAll, size_addAll, haccepted.length_eq]
  · rw [pendingCount_addAll, pendingCount_addAll, haccepted.countP_eq]
  · obtain ⟨told, hsaturated, hsolution⟩ := exists_saturated limit offered
    obtain ⟨told', hsaturated', hsolution'⟩ := exists_saturated limit reordered
    have hleast := hsaturated.isLeastFixedPoint hone hnodup
    rw [consequences_perm haccepted hnodup] at hleast
    have hleast' := hsaturated'.isLeastFixedPoint hone' (nodup_accepted limit reordered)
    rw [hsolution, hsolution', hleast.unique hleast']

/-- Equations over the chain with a cycle, an undefined reference and two equations for one key, of
which only one fits a limit of two. -/
def crowdedSample : List (Equation Ternary) :=
  let p : Key := ⟨"p", false, false⟩
  let q : Key := ⟨"q", true, true⟩
  let r : Key := ⟨"r", true, false⟩
  [⟨p, .ofProducts [.ofKeys .maybe [q.negate], .ofKeys .yes [p]]⟩,
    ⟨q, .ofProducts [.ofKeys .yes [p, q, r]]⟩,
    ⟨q, .ofProducts [.ofKeys .no [p, r], .constant .maybe]⟩,
    ⟨r, .ofProducts [.ofKeys .yes [q, r.negate.mkUnstable]]⟩]

end Solver

namespace Store

/-- Offering equations to a store in another order leads to the same accepted equations, the same counts
and the same solution, if those that fit the limit never define a key twice or in both polarities. -/
theorem solution_eq_of_perm [EquationalDomain D] (limit : Nat) {offered reordered : List (Equation D)}
    (hperm : offered.Perm reordered)
    (hnodup : ((offered.filter (Equation.fits limit)).map Equation.key).Nodup)
    (hone : OnePolarity (offered.filter (Equation.fits limit))) :
    ((new limit).accepted offered).Perm ((new limit).accepted reordered) ∧
      ((new limit).addAll offered).size = ((new limit).addAll reordered).size ∧
      ((new limit).addAll offered).pendingCount = ((new limit).addAll reordered).pendingCount ∧
      ((new limit).addAll offered).solve.solution = ((new limit).addAll reordered).solve.solution := by
  obtain ⟨haccepted, -, hpending, hsolution⟩ := Solver.agree_of_perm limit hperm hnodup hone
  rw [← accepted_new, ← accepted_new] at haccepted
  refine ⟨haccepted, ?_, ?_, ?_⟩
  · rw [size_addAll, size_addAll, haccepted.length_eq]
  · rw [pendingCount_addAll, pendingCount_addAll, hpending]
  · rw [solve_addAll, solve_addAll, hsolution]

/-- Offering the sample backwards makes no difference. -/
theorem solution_eq_of_perm_crowded :
    let sample := Solver.crowdedSample
    sample.Perm sample.reverse ∧
      ((sample.filter (Equation.fits 2)).map Equation.key).Nodup ∧
      OnePolarity (sample.filter (Equation.fits 2)) ∧
      ((new 2).addAll sample).solve.solution = ((new 2).addAll sample.reverse).solve.solution := by
  intro sample
  have hperm : sample.Perm sample.reverse := (List.reverse_perm _).symm
  have hnodup : ((sample.filter (Equation.fits 2)).map Equation.key).Nodup := by decide
  have hone : OnePolarity (sample.filter (Equation.fits 2)) := by decide
  exact ⟨hperm, hnodup, hone, (solution_eq_of_perm 2 hperm hnodup hone).2.2.2⟩

end Store

end MonotoneEquations
