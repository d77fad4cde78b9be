import Mathlib
import MonotoneEquations.Proofs.LeastFixedPoint

/-!
# Evaluating a system under total assignments

A right hand side has a value as soon as every reference reads as some value. A total assignment
solves a system if each key has the value of its right hand side, where a reference reads the
negation if that is defined, an unstable defined key as top, and an undefined key as anything.

A system can have several such solutions, because of cycles and of undefined keys. The values that a
solver finds are forced: they are the same in all of them, and so also in the least one.
-/

namespace MonotoneEquations

variable {D : Type} [Domain D]

/-- The meet of the constant of a product and the values that its references read. -/
def Product.eval (reads : Key → D) (product : Product D) : D :=
  (product.ids.toList.map reads).foldl Domain.meet product.value

/-- The value of a right hand side when every reference reads a value. -/
def Rhs.eval (reads : Key → D) : Rhs D → D
  | .final value => value
  | .pending products => Domain.joinAll (products.toList.map (Product.eval reads))

/-- Every reference is known. -/
def Knowledge.total (reads : Key → D) : Knowledge D := fun r => some (reads r)

/-- If every reference is known, the known part of a product is its value. -/
theorem Product.knownMeet_total (reads : Key → D) (product : Product D) :
    product.knownMeet (.total reads) = product.eval reads := by
  rw [knownMeet, eval, ← List.filterMap_eq_map]
  rfl

variable [DecidableEq D]

/-- If every reference is known, the only consequence of an equation is its value. -/
theorem Rhs.consequence?_total (reads : Key → D) (rhs : Rhs D) :
    rhs.consequence? (.total reads) = some (rhs.eval reads) := by
  cases rhs with
  | final value => rfl
  | pending products =>
    have hsettled : ∀ product ∈ products.toList, product.isSettled (.total reads) := by
      intro product _
      rw [Product.isSettled, Bool.or_eq_true, List.all_eq_true]
      exact .inl fun r _ => rfl
    have hmeet : Product.knownMeet (.total reads) = Product.eval reads :=
      funext (Product.knownMeet_total reads)
    rw [consequence?, if_pos (List.all_eq_true.mpr hsettled), settledJoin,
      List.filter_eq_self.mpr hsettled, hmeet, eval]

/-- What follows from some references is the value of the right hand side, whatever the others read. -/
theorem Rhs.eval_of_consequence? [EquationalDomain D] {known : Knowledge D} {reads : Key → D}
    (hreads : known.Le (.total reads)) {rhs : Rhs D} {value : D}
    (h : rhs.consequence? known = some value) : rhs.eval reads = value := by
  have htotal := Rhs.consequence?_mono hreads h
  rw [Rhs.consequence?_total] at htotal
  exact Option.some.inj htotal

omit [Domain D] [DecidableEq D] in
/-- Whether a system has an equation for a key. -/
def Defines (system : List (Equation D)) (key : Key) : Prop :=
  ∃ equation ∈ system, equation.key = key

instance (system : List (Equation D)) (key : Key) : Decidable (Defines system key) :=
  inferInstanceAs (Decidable (∃ equation ∈ system, _))

/-- How references read a total assignment, with a value of their own for undefined keys. -/
def readings (system : List (Equation D)) (undefined values : Key → D) : Key → D := fun r =>
  if Defines system r.negate then values r.negate
  else if Defines system r then if r.stable then values r else Domain.top
  else undefined r

/-- Every defined key has the value of its right hand side. -/
def Solves (system : List (Equation D)) (undefined values : Key → D) : Prop :=
  ∀ equation ∈ system, values equation.key = equation.rhs.eval (readings system undefined values)

instance (system : List (Equation D)) (undefined values : Key → D) :
    Decidable (Solves system undefined values) := inferInstanceAs (Decidable (∀ _ ∈ _, _))

/-- Values that a solution of the system agrees with are read as the solution reads them. -/
theorem Derivation.read_le_readings {system : List (Equation D)} {told : List (Key × D)}
    (h : Derivation system told) (hone : OnePolarity system) (hnodup : (told.map Prod.fst).Nodup)
    {undefined values : Key → D} (hvalues : ∀ key value, (key, value) ∈ told → value = values key) :
    (Assignment.read fun key => told.lookup key).Le (.total (readings system undefined values)) := by
  have hlookup : ∀ key value, told.lookup key = some value →
      Defines system key ∧ value = values key := by
    intro key value hkey
    have hmem := (lookup_eq_some_iff_mem hnodup).mp hkey
    exact ⟨h.exists_equation hmem, hvalues key value hmem⟩
  intro r v hv
  cases hnegate : told.lookup r.negate with
  | some w =>
    obtain ⟨hdefined, rfl⟩ := hlookup _ _ hnegate
    simpa [Assignment.read, hnegate, Knowledge.total, readings, hdefined] using hv
  | none =>
    cases hr : told.lookup r with
    | none =>
      rw [Assignment.read_eq_none hr hnegate] at hv
      cases hv
    | some w =>
      obtain ⟨hdefined, rfl⟩ := hlookup _ _ hr
      have hother : ¬Defines system r.negate := by
        intro hdefined
        obtain ⟨other, hother, hkey⟩ := hdefined
        obtain ⟨equation, hequation, rfl⟩ := hdefined
        exact hone equation hequation other hother hkey
      simpa [Assignment.read, hnegate, hr, Knowledge.total, readings, hdefined, hother] using hv

/-- What follows from a derivation is the value of the right hand side, if a total assignment agrees
with the derivation. -/
theorem Derivation.eval_eq [EquationalDomain D] {system : List (Equation D)} {told : List (Key × D)}
    (h : Derivation system told) (hone : OnePolarity system) (hnodup : (told.map Prod.fst).Nodup)
    {undefined values : Key → D} (hvalues : ∀ key value, (key, value) ∈ told → value = values key)
    {rhs : Rhs D} {value : D} (hvalue : rhs.consequence? (.ofResolved told) = some value) :
    rhs.eval (readings system undefined values) = value := by
  have hreads : (Assignment.read _).Le (.total (readings system undefined values)) :=
    h.read_le_readings hone hnodup hvalues
  rw [h.ofResolved_eq_read hone hnodup] at hvalue
  exact Rhs.eval_of_consequence? hreads hvalue

/-- The values of a derivation are the same in every solution of the system. -/
theorem Derivation.eq_of_solves [EquationalDomain D] {system : List (Equation D)}
    {told : List (Key × D)} (h : Derivation system told) (hone : OnePolarity system)
    (hnodup : (told.map Prod.fst).Nodup) {undefined values : Key → D}
    (hsolves : Solves system undefined values) :
    ∀ key value, (key, value) ∈ told → value = values key := by
  induction h with
  | nil => exact fun key value hmem => nomatch hmem
  | cons hderived hequation hvalue ih =>
    have htold := (List.nodup_cons.mp hnodup).2
    intro key value hmem
    rcases List.mem_cons.mp hmem with heq | hmem
    · obtain ⟨rfl, rfl⟩ := Prod.mk.inj heq
      rw [hsolves _ hequation, hderived.eval_eq hone htold (ih htold) hvalue]
    · exact ih htold key value hmem

namespace Solver

/-- A value that a solver finds is the value of its key in every solution of the accepted equations,
whatever undefined references read and whatever values unbroken cycles take. -/
theorem eq_of_solves [EquationalDomain D] (limit : Nat) (offered : List (Equation D))
    (hone : OnePolarity ((new limit).accepted offered)) {undefined values : Key → D}
    (hsolves : Solves ((new limit).accepted offered) undefined values) {key : Key} {value : D}
    (hvalue : ((new limit).addAll offered).solve.solution.get? key = some value) :
    value = values key := by
  obtain ⟨told, hsaturated, hsolution⟩ := exists_saturated limit offered
  rw [hsolution, lookup_eq_some_iff_mem hsaturated.nodup] at hvalue
  exact hsaturated.derivation.eq_of_solves hone hsaturated.nodup hsolves key value hvalue

/-- In the sample, two assignments that differ on the cycle. -/
def earlyTopValues (onCycle : Ternary) : Key → Ternary := fun key =>
  if key.base = "p" then .maybe else if key.base = "r" then onCycle else .yes

end Solver

namespace Store

/-- A value that a store finds is the value of its key in every solution of the accepted equations,
whatever undefined references read and whatever values unbroken cycles take. -/
theorem value_eq_of_solves [EquationalDomain D] (limit : Nat) (offered : List (Equation D))
    (hone : OnePolarity ((new limit).accepted offered)) {undefined values : Key → D}
    (hsolves : Solves ((new limit).accepted offered) undefined values) {key : Key} {value : D}
    (hvalue : ((new limit).addAll offered).solve.solution.get? key = some value) :
    value = values key := by
  rw [accepted_new] at hone hsolves
  rw [solve_addAll] at hvalue
  exact Solver.eq_of_solves limit offered hone hsolves hvalue

/-- Both assignments solve the sample, and they agree where it has a solution. -/
theorem value_eq_of_solves_earlyTop :
    OnePolarity ((new 2).accepted Solver.earlyTopSample) ∧
      Solves ((new 2).accepted Solver.earlyTopSample) (fun _ => .no) (Solver.earlyTopValues .maybe) ∧
      Solves ((new 2).accepted Solver.earlyTopSample) (fun _ => .no) (Solver.earlyTopValues .yes) ∧
      ((new 2).addAll Solver.earlyTopSample).solve.solution.get? ⟨"s", true, false⟩ = some .yes ∧
      .yes = Solver.earlyTopValues .maybe ⟨"s", true, false⟩ := by
  have hone : OnePolarity ((new 2).accepted Solver.earlyTopSample) := by
    rw [accepted_new]
    decide
  have hmaybe : Solves ((new 2).accepted Solver.earlyTopSample) (fun _ => .no)
      (Solver.earlyTopValues .maybe) := by
    rw [accepted_new]
    decide
  have hyes : Solves ((new 2).accepted Solver.earlyTopSample) (fun _ => .no)
      (Solver.earlyTopValues .yes) := by
    rw [accepted_new]
    decide
  have hvalue : ((new 2).addAll Solver.earlyTopSample).solve.solution.get? ⟨"s", true, false⟩ =
      some .yes := by
    rw [solve_addAll]
    cbv
  exact ⟨hone, hmaybe, hyes, hvalue,
    value_eq_of_solves 2 Solver.earlyTopSample hone hmaybe hvalue⟩

end Store

end MonotoneEquations
