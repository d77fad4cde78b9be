import Mathlib
import MonotoneEquations.Proofs.Confluence
import MonotoneEquations.Proofs.StoreRun

/-!
# Revising a system

Two revisions of a system leave the values that it has. If equations are added anywhere among the
others, whatever the old system derives is still derived, so each resolved key keeps its value. If
resolved keys are given their values as right hand sides, in place of the equations from which these
values came, the new system derives neither more nor less than the old one: a cycle that was not
resolved stays unresolved.

Both follow from leastness. What a system derives holds in every assignment that is closed under its
equations, and each of the two solutions is closed under the equations of the other system. All keys
are defined in one polarity at most.
-/

namespace MonotoneEquations

variable {D : Type} [Domain D] [DecidableEq D]

/-- The equation with the value that a summary has for its key, if it has one, in the place of its
right hand side. -/
def Equation.feedBack (summary : Assignment D) (equation : Equation D) : Equation D :=
  match summary equation.key with
  | some value => ⟨equation.key, .final value⟩
  | none => equation

/-- The keys of a system that a solution leaves without a value. -/
def unresolvedKeys (system : List (Equation D)) (solution : KeyMap D) : List Key :=
  (system.map Equation.key).filter fun key => (solution.get? key).isNone

omit [Domain D] [DecidableEq D] in
/-- Feeding a value back keeps the key. -/
@[simp] theorem Equation.key_feedBack (summary : Assignment D) (equation : Equation D) :
    (equation.feedBack summary).key = equation.key := by
  unfold feedBack
  split <;> rfl

omit [Domain D] [DecidableEq D] in
/-- Feeding values back keeps the keys of a system. -/
theorem map_key_map_feedBack (summary : Assignment D) (system : List (Equation D)) :
    (system.map (Equation.feedBack summary)).map Equation.key = system.map Equation.key := by
  rw [List.map_map]
  exact List.map_congr_left fun equation _ => equation.key_feedBack summary

/-- An equation to which a value was fed back has that value, and any other its own consequence. -/
theorem Equation.consequence?_feedBack (summary : Assignment D) (equation : Equation D)
    (known : Knowledge D) :
    (equation.feedBack summary).rhs.consequence? known =
      (summary equation.key).or (equation.rhs.consequence? known) := by
  unfold feedBack
  split
  next value hvalue =>
    rw [hvalue]
    rfl
  next hnone => rw [hnone, Option.none_or]

omit [Domain D] [DecidableEq D] in
/-- Feeding a value back does not make an equation larger. -/
theorem Equation.fits_feedBack {limit : Nat} {equation : Equation D} (h : equation.fits limit)
    (summary : Assignment D) : (equation.feedBack summary).fits limit := by
  unfold feedBack
  split
  · exact decide_eq_true (Nat.zero_le limit)
  · exact h

/-! ## Derived values -/

/-- A derivation is also one from more equations. -/
theorem Derivation.of_subset {system other : List (Equation D)} {told : List (Key × D)}
    (h : Derivation system told) (hsubset : system ⊆ other) : Derivation other told := by
  induction h with
  | nil => exact .nil
  | cons _ hmem hvalue ih => exact .cons ih (hsubset hmem) hvalue

/-- What is derived does not depend on the order of the equations. -/
theorem Saturated.of_perm {system other : List (Equation D)} {told : List (Key × D)}
    (h : Saturated system told) (hperm : system.Perm other) : Saturated other told :=
  ⟨h.derivation.of_subset hperm.subset, h.nodup,
    fun equation hequation => h.mem_iff equation (hperm.mem_iff.mpr hequation)⟩

section Derivations

variable [EquationalDomain D] {system other : List (Equation D)} {told later : List (Key × D)}

/-- A larger system derives what a smaller one derives. -/
theorem Saturated.within_of_subset (h : Saturated system told) (hlater : Saturated other later)
    (hsystem : (system.map Equation.key).Nodup) (hother : (other.map Equation.key).Nodup)
    (hone : OnePolarity other) (hsubset : system ⊆ other) :
    Assignment.Within (fun key => told.lookup key) fun key => later.lookup key := by
  have hfixed := hlater.consequences_lookup hone hother
  have honeSystem : OnePolarity system := fun equation hequation second hsecond =>
    hone equation (hsubset hequation) second (hsubset hsecond)
  refine h.within_of_closed honeSystem hsystem (hlater.onePolarity_lookup hone hother) ?_
  intro key value hvalue
  obtain ⟨equation, hequation, hkey, hderived⟩ := (consequences_eq_some_iff hsystem).mp hvalue
  exact (congrFun hfixed key).symm.trans
    ((consequences_eq_some_iff hother).mpr ⟨equation, hsubset hequation, hkey, hderived⟩)

omit [EquationalDomain D] in
/-- A system to which values were fed back derives these values, and otherwise what it derived. -/
theorem consequences_map_feedBack_eq_some_iff (summary : Assignment D)
    (hsystem : (system.map Equation.key).Nodup) {s : Assignment D} {key : Key} {value : D} :
    consequences (system.map (Equation.feedBack summary)) s key = some value ↔
      ∃ equation ∈ system, equation.key = key ∧
        (summary key).or (equation.rhs.consequence? s.read) = some value := by
  rw [consequences_eq_some_iff ((map_key_map_feedBack summary system).symm ▸ hsystem)]
  constructor
  · intro hderived
    obtain ⟨_, hmem, rfl, hvalue⟩ := hderived
    obtain ⟨equation, hequation, rfl⟩ := List.mem_map.mp hmem
    rw [Equation.consequence?_feedBack] at hvalue
    exact ⟨equation, hequation, (equation.key_feedBack summary).symm,
      (equation.key_feedBack summary).symm ▸ hvalue⟩
  · intro hderived
    obtain ⟨equation, hequation, rfl, hvalue⟩ := hderived
    exact ⟨_, List.mem_map_of_mem hequation, equation.key_feedBack summary,
      (equation.consequence?_feedBack summary s.read).trans hvalue⟩

/-- A system to which derived values are fed back derives the same values. -/
theorem Saturated.lookup_eq_of_feedBack {summary : Assignment D} (h : Saturated system told)
    (hlater : Saturated (system.map (Equation.feedBack summary)) later)
    (hsystem : (system.map Equation.key).Nodup) (hone : OnePolarity system)
    (hsummary : summary.Within fun key => told.lookup key) :
    (fun key => later.lookup key) = fun key => told.lookup key := by
  have hother : ((system.map (Equation.feedBack summary)).map Equation.key).Nodup :=
    (map_key_map_feedBack summary system).symm ▸ hsystem
  have honeOther : OnePolarity (system.map (Equation.feedBack summary)) := by
    simpa [OnePolarity] using hone
  have hfixed := h.consequences_lookup hone hsystem
  have hfixedLater := hlater.consequences_lookup honeOther hother
  have hpolarity := h.onePolarity_lookup hone hsystem
  have hpolarityLater := hlater.onePolarity_lookup honeOther hother
  -- A value that the new system derives was fed back, or is derived by an equation that was kept.
  have hback : Assignment.Within (fun key => later.lookup key) fun key => told.lookup key := by
    refine hlater.within_of_closed honeOther hother hpolarity fun key value hvalue => ?_
    obtain ⟨equation, hequation, hkey, hor⟩ :=
      (consequences_map_feedBack_eq_some_iff summary hsystem).mp hvalue
    rcases Option.or_eq_some_iff.mp hor with hgiven | ⟨-, hderived⟩
    · exact hsummary key value hgiven
    · exact (congrFun hfixed key).symm.trans
        ((consequences_eq_some_iff hsystem).mpr ⟨equation, hequation, hkey, hderived⟩)
  -- What an equation derives from the new values it derives from the old ones too, so the value that
  -- was fed back to its key is the same.
  have hforth : Assignment.Within (fun key => told.lookup key) fun key => later.lookup key := by
    refine h.within_of_closed hone hsystem hpolarityLater fun key value hvalue => ?_
    obtain ⟨equation, hequation, hkey, hderived⟩ := (consequences_eq_some_iff hsystem).mp hvalue
    have hold : told.lookup key = some value :=
      (congrFun hfixed key).symm.trans (consequences_within system hback hpolarity key value hvalue)
    have hor : (summary key).or (equation.rhs.consequence?
        (Assignment.read fun key => later.lookup key)) = some value := by
      cases hgiven : summary key with
      | none => exact hderived
      | some given => exact (hsummary key given hgiven).symm.trans hold
    exact (congrFun hfixedLater key).symm.trans
      ((consequences_map_feedBack_eq_some_iff summary hsystem).mpr ⟨equation, hequation, hkey, hor⟩)
  exact Assignment.ext_of_eq_some fun key value => ⟨hback key value, hforth key value⟩

end Derivations

namespace Solver

/-- An accepted equation is within the limit. -/
theorem fits_of_mem_accepted {solver : Solver D} {offered : List (Equation D)} {equation : Equation D}
    (h : equation ∈ solver.accepted offered) : equation.fits solver.limit := by
  induction offered generalizing solver with
  | nil => cases h
  | cons first rest ih =>
    rw [accepted] at h
    cases hadd : solver.add first with
    | error error =>
      rw [hadd] at h
      exact ih h
    | ok next =>
      rw [hadd] at h
      rcases List.mem_cons.mp h with rfl | h
      · exact decide_eq_true (add_eq_ok_iff.mp hadd).2.1
      · rw [← limit_eq_of_add hadd]
        exact ih h

end Solver

/-! ## Solutions -/

namespace Store

variable [EquationalDomain D]

/-- If every accepted equation is also accepted among more equations, in whatever order these are
offered, then every resolved key keeps its value. A key whose value changes had none before, and it is
defined in the larger system, which defines no key in both polarities. -/
theorem solution_kept_of_subset (limit wider : Nat) {offered enlarged : List (Equation D)}
    (hone : OnePolarity ((new wider).accepted enlarged))
    (hsubset : (new limit).accepted offered ⊆ (new wider).accepted enlarged) :
    let before := ((new limit).addAll offered).solve.solution
    let after := ((new wider).addAll enlarged).solve.solution
    (∀ key value, before.get? key = some value → after.get? key = some value) ∧
      ∀ key, after.get? key ≠ before.get? key →
        before.get? key = none ∧ key ∈ ((new wider).accepted enlarged).map Equation.key := by
  simp only [solve_addAll, accepted_new] at hone hsubset ⊢
  obtain ⟨told, hsaturated, hbefore⟩ := Solver.exists_saturated limit offered
  obtain ⟨later, hlater, hafter⟩ := Solver.exists_saturated wider enlarged
  have hkept := hsaturated.within_of_subset hlater (Solver.nodup_accepted limit offered)
    (Solver.nodup_accepted wider enlarged) hone hsubset
  rw [hbefore, hafter]
  refine ⟨hkept, fun key hchanged => ?_⟩
  have hnone : told.lookup key = none := by
    refine Option.eq_none_iff_forall_ne_some.mpr fun value hvalue => hchanged ?_
    exact (hkept key value hvalue).trans hvalue.symm
  refine ⟨hnone, ?_⟩
  cases hvalue : later.lookup key with
  | none => exact absurd (hvalue.trans hnone.symm) hchanged
  | some value =>
    have hmem : (key, value) ∈ later := (lookup_eq_some_iff_mem hlater.nodup).mp hvalue
    obtain ⟨equation, hequation, rfl⟩ := hlater.derivation.exists_equation hmem
    exact List.mem_map_of_mem hequation

/-- A system over the chain with an unstable key `p`, a key `r` that reads it as top, a key `s` on a
cycle, and a key `t` that is mentioned and not defined. -/
def openEndedSample : List (Equation Ternary) :=
  let p : Key := ⟨"p", false, false⟩
  let q : Key := ⟨"q", true, false⟩
  let r : Key := ⟨"r", true, false⟩
  let s : Key := ⟨"s", true, false⟩
  let t : Key := ⟨"t", true, false⟩
  [⟨p, .ofProducts [.ofKeys .yes [q.negate]]⟩,
    ⟨q, .final .maybe⟩,
    ⟨r, .ofProducts [.ofKeys .yes [p], .ofKeys .maybe [t]]⟩,
    ⟨s, .ofProducts [.ofKeys .yes [p.negate, s], .ofKeys .yes [t]]⟩]

/-- The sample with an equation for `t`, which leads back to `r`, among the others. -/
def closedSample : List (Equation Ternary) :=
  openEndedSample.take 2 ++
    ⟨⟨"t", true, false⟩, .ofProducts [.ofKeys .yes [⟨"r", true, false⟩]]⟩ :: openEndedSample.drop 2

/-- With the new equation `r` keeps its value, and `s` gets one. -/
theorem solution_kept_of_subset_closed :
    OnePolarity ((new 3).accepted closedSample) ∧
      (new 3).accepted openEndedSample ⊆ (new 3).accepted closedSample ∧
      ((new 3).addAll openEndedSample).solve.solution.get? ⟨"r", true, false⟩ = some .yes ∧
      ((new 3).addAll closedSample).solve.solution.get? ⟨"r", true, false⟩ = some .yes ∧
      ((new 3).addAll openEndedSample).solve.solution.get? ⟨"s", true, false⟩ = none ∧
      ((new 3).addAll closedSample).solve.solution.get? ⟨"s", true, false⟩ = some .yes := by
  have hone : OnePolarity ((new 3).accepted closedSample) := by
    rw [accepted_new]
    decide
  have hsubset : (new 3).accepted openEndedSample ⊆ (new 3).accepted closedSample := by
    rw [accepted_new, accepted_new]
    decide
  have hkept := solution_kept_of_subset 3 3 hone hsubset
  have hr : ((new 3).addAll openEndedSample).solve.solution.get? ⟨"r", true, false⟩ = some .yes := by cbv
  have hs : ((new 3).addAll closedSample).solve.solution.get? ⟨"s", true, false⟩ = some .yes := by cbv
  exact ⟨hone, hsubset, hr, hkept.1 _ _ hr, by cbv, hs⟩

/-- If resolved keys are given their values as right hand sides, in the place of their equations, then
the equations are accepted in whatever order they are offered, and the solution stays the same, with
the same keys left unresolved. The system defines no key in both polarities. -/
theorem solution_eq_of_feedBack (limit : Nat) {offered revised : List (Equation D)}
    {summary : Assignment D} (hone : OnePolarity ((new limit).accepted offered))
    (hsummary : summary.Within ((new limit).addAll offered).solve.solution.get?)
    (hrevised : revised.Perm (((new limit).accepted offered).map (Equation.feedBack summary))) :
    (new limit).accepted revised = revised ∧
      ((new limit).addAll revised).solve.solution = ((new limit).addAll offered).solve.solution ∧
      (unresolvedKeys revised ((new limit).addAll revised).solve.solution).Perm
        (unresolvedKeys ((new limit).accepted offered) ((new limit).addAll offered).solve.solution) := by
  simp only [solve_addAll, accepted_new] at hone hsummary hrevised ⊢
  have hsystem := Solver.nodup_accepted limit offered
  have hkeys : (revised.map Equation.key).Perm (((Solver.new limit).accepted offered).map Equation.key) :=
    (hrevised.map Equation.key).trans (.of_eq (map_key_map_feedBack summary _))
  have hfits : revised.filter (Equation.fits limit) = revised := by
    refine List.filter_eq_self.mpr fun equation hequation => ?_
    obtain ⟨original, horiginal, rfl⟩ := List.mem_map.mp (hrevised.mem_iff.mp hequation)
    exact Equation.fits_feedBack (Solver.fits_of_mem_accepted horiginal) summary
  have haccepted : (Solver.new limit).accepted revised = revised := by
    have hnodup : ((revised.filter (Equation.fits limit)).map Equation.key).Nodup :=
      hfits.symm ▸ hkeys.nodup_iff.mpr hsystem
    exact ((Solver.announced_new limit).accepted_eq_filter hnodup).trans hfits
  obtain ⟨told, hsaturated, hbefore⟩ := Solver.exists_saturated limit offered
  obtain ⟨later, hlater, hafter⟩ := Solver.exists_saturated limit revised
  rw [haccepted] at hlater
  rw [hbefore] at hsummary
  have hlookup := hsaturated.lookup_eq_of_feedBack (hlater.of_perm hrevised) hsystem hone hsummary
  have hsolution : ((Solver.new limit).addAll revised).solve.solution =
      ((Solver.new limit).addAll offered).solve.solution :=
    KeyMap.ext_of_get? (congrFun (hafter.trans (hlookup.trans hbefore.symm)))
  refine ⟨haccepted, hsolution, ?_⟩
  rw [hsolution]
  exact hkeys.filter _

/-- The values of `p` and `r` in the sample. -/
def openEndedSummary : Assignment Ternary := fun key =>
  if key = ⟨"p", false, false⟩ then some .maybe else if key = ⟨"r", true, false⟩ then some .yes else none

/-- The sample backwards, with the values of the summary fed back. -/
def revisedSample : List (Equation Ternary) :=
  (openEndedSample.map (Equation.feedBack openEndedSummary)).reverse

/-- The cycle of `s` stays unresolved, although `p` and `r` have values from the start. -/
theorem solution_eq_of_feedBack_openEnded :
    OnePolarity ((new 3).accepted openEndedSample) ∧
      openEndedSummary.Within ((new 3).addAll openEndedSample).solve.solution.get? ∧
      revisedSample.Perm (((new 3).accepted openEndedSample).map (Equation.feedBack openEndedSummary)) ∧
      ((new 3).addAll revisedSample).solve.solution = ((new 3).addAll openEndedSample).solve.solution ∧
      unresolvedKeys revisedSample ((new 3).addAll revisedSample).solve.solution =
        [⟨"s", true, false⟩] := by
  have haccepted : (new 3).accepted openEndedSample = openEndedSample := by
    rw [accepted_new]
    decide
  have hone : OnePolarity ((new 3).accepted openEndedSample) := by
    rw [haccepted]
    decide
  have hsummary : openEndedSummary.Within ((new 3).addAll openEndedSample).solve.solution.get? := by
    intro key value hvalue
    unfold openEndedSummary at hvalue
    split at hvalue
    next hkey =>
      subst hkey
      rw [← hvalue]
      cbv
    next =>
      split at hvalue
      next hkey =>
        subst hkey
        rw [← hvalue]
        cbv
      next => cases hvalue
  have hrevised : revisedSample.Perm
      (((new 3).accepted openEndedSample).map (Equation.feedBack openEndedSummary)) := by
    rw [haccepted]
    exact List.reverse_perm _
  obtain ⟨-, hsolution, -⟩ := solution_eq_of_feedBack 3 hone hsummary hrevised
  exact ⟨hone, hsummary, hrevised, hsolution, by cbv⟩

end Store

end MonotoneEquations
