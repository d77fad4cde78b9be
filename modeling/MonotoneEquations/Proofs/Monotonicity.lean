import MonotoneEquations.Proofs.Evaluation
import MonotoneEquations.Proofs.StoreRun

/-!
# Larger equations have larger solutions

A product is dominated by another one that has a larger constant and mentions fewer keys. If each
product of a system is dominated by a product of the other system for the same key, then a key that
both systems resolve has a value in the first that is below its value in the second.

The two runs cannot be compared step by step, because they resolve different keys for different
reasons, and the sets of resolved keys may differ in either direction. They are compared through
rounds of total evaluation, which start with bottom everywhere. A round of the first system is below
that of the second, and once a key is derived all late enough rounds agree with its value. The rounds
need not come to an end for the other keys.
-/

namespace MonotoneEquations

variable {D : Type} [Domain D]

/-- The products of a right hand side, where a known value counts as a constant product. -/
def Rhs.products : Rhs D → List (Product D)
  | .final value => [.constant value]
  | .pending products => products.toList

/-- The other product has a larger constant and mentions no further keys. -/
def Product.DominatedBy (product other : Product D) : Prop :=
  Domain.Le product.value other.value ∧ ∀ r ∈ other.ids.toList, r ∈ product.ids.toList

/-- Each product is dominated by one of the other right hand side. -/
def Rhs.DominatedBy (rhs other : Rhs D) : Prop :=
  ∀ product ∈ rhs.products, ∃ larger ∈ other.products, product.DominatedBy larger

/-- The systems define the same keys, and the equations of the first are dominated by those of the
second. -/
structure DominatedBy (system other : List (Equation D)) : Prop where
  defines_other : ∀ equation ∈ system, Defines other equation.key
  defines_system : ∀ equation ∈ other, Defines system equation.key
  dominated : ∀ equation ∈ system, ∀ larger ∈ other, larger.key = equation.key →
    equation.rhs.DominatedBy larger.rhs

instance (product other : Product D) : Decidable (product.DominatedBy other) :=
  inferInstanceAs (Decidable (_ ∧ _))

instance (rhs other : Rhs D) : Decidable (rhs.DominatedBy other) :=
  inferInstanceAs (Decidable (∀ _ ∈ _, ∃ _ ∈ _, _))

instance (system other : List (Equation D)) : Decidable (DominatedBy system other) :=
  decidable_of_iff ((∀ equation ∈ system, Defines other equation.key) ∧
    (∀ equation ∈ other, Defines system equation.key) ∧
    ∀ equation ∈ system, ∀ larger ∈ other, larger.key = equation.key →
      equation.rhs.DominatedBy larger.rhs)
    ⟨fun h => ⟨h.1, h.2.1, h.2.2⟩, fun h => ⟨h.defines_other, h.defines_system, h.dominated⟩⟩

/-- One round of evaluation: each defined key takes the value of its right hand side. -/
def evaluate (system : List (Equation D)) (undefined values : Key → D) : Key → D := fun key =>
  match system.find? fun equation => equation.key = key with
  | some equation => equation.rhs.eval (readings system undefined values)
  | none => Domain.bottom

/-- Bottom for every key. -/
def allBottom : Key → D := fun _ => Domain.bottom

/-- A round gives a key the value of the equation that defines it. -/
theorem evaluate_key {system : List (Equation D)} (hnodup : (system.map Equation.key).Nodup)
    {equation : Equation D} (hequation : equation ∈ system) (undefined values : Key → D) :
    evaluate system undefined values equation.key =
      equation.rhs.eval (readings system undefined values) := by
  rw [evaluate, (find?_eq_some_iff_mem hnodup).mpr ⟨hequation, rfl⟩]

/-- A round gives an undefined key bottom. -/
theorem evaluate_of_not_defines {system : List (Equation D)} {key : Key} (h : ¬Defines system key)
    (undefined values : Key → D) : evaluate system undefined values key = Domain.bottom := by
  have hnone : (system.find? fun equation => equation.key = key) = none :=
    List.find?_eq_none.mpr fun equation hequation hkey =>
      h ⟨equation, hequation, of_decide_eq_true hkey⟩
  rw [evaluate, hnone]

/-! ## Rounds of larger systems -/

section Order

variable [LawfulDomain D] {system other : List (Equation D)} {reads largerReads : Key → D}

/-- A right hand side has the join of its products as value. -/
theorem Rhs.eval_eq_joinAll (reads : Key → D) (rhs : Rhs D) :
    rhs.eval reads = Domain.joinAll (rhs.products.map (Product.eval reads)) := by
  cases rhs with
  | final value => exact (Domain.bottom_join value).symm
  | pending products => rfl

/-- A dominated product has a smaller value if all references read smaller values. -/
theorem Product.DominatedBy.eval_le {product larger : Product D} (h : product.DominatedBy larger)
    (hreads : ∀ r, Domain.Le (reads r) (largerReads r)) :
    Domain.Le (product.eval reads) (larger.eval largerReads) := by
  have hbounds := Domain.le_foldl_meet_iff.mp (Domain.le_refl (product.eval reads))
  refine Domain.le_foldl_meet_iff.mpr ⟨LawfulDomain.le_trans _ _ _ hbounds.1 h.1, ?_⟩
  refine List.forall_mem_map.mpr fun r hr => ?_
  have hread := hbounds.2 (reads r) (List.mem_map_of_mem (h.2 r hr))
  exact LawfulDomain.le_trans _ _ _ hread (hreads r)

/-- A dominated right hand side has a smaller value if all references read smaller values. -/
theorem Rhs.DominatedBy.eval_le {rhs larger : Rhs D} (h : rhs.DominatedBy larger)
    (hreads : ∀ r, Domain.Le (reads r) (largerReads r)) :
    Domain.Le (rhs.eval reads) (larger.eval largerReads) := by
  rw [Rhs.eval_eq_joinAll, Rhs.eval_eq_joinAll]
  refine Domain.joinAll_le_joinAll (List.forall_mem_map.mpr fun product hproduct => ?_)
  obtain ⟨dominating, hdominating, hdominated⟩ := h product hproduct
  exact ⟨_, List.mem_map_of_mem hdominating, hdominated.eval_le hreads⟩

omit [LawfulDomain D] in
/-- Systems that are compared define the same keys. -/
theorem DominatedBy.defines_iff (h : DominatedBy system other) (key : Key) :
    Defines system key ↔ Defines other key := by
  constructor
  · intro hdefined
    obtain ⟨equation, hequation, rfl⟩ := hdefined
    exact h.defines_other equation hequation
  · intro hdefined
    obtain ⟨equation, hequation, rfl⟩ := hdefined
    exact h.defines_system equation hequation

omit [LawfulDomain D] in
/-- A system that is compared with one that defines no key in both polarities does not either. -/
theorem DominatedBy.onePolarity (h : DominatedBy system other) (hone : OnePolarity system) :
    OnePolarity other := by
  intro larger hlarger second hsecond hkeys
  obtain ⟨equation, hequation, hkey⟩ := h.defines_system larger hlarger
  obtain ⟨opposite, hopposite, hoppositeKey⟩ := h.defines_system second hsecond
  exact hone equation hequation opposite hopposite (by rw [hkey, hoppositeKey, hkeys])

/-- References read larger values from larger values, if the same keys are defined. -/
theorem DominatedBy.readings_le (h : DominatedBy system other) (undefined : Key → D)
    {values largerValues : Key → D} (hvalues : ∀ key, Domain.Le (values key) (largerValues key))
    (r : Key) :
    Domain.Le (readings system undefined values r) (readings other undefined largerValues r) := by
  unfold readings
  simp only [h.defines_iff]
  split
  · exact hvalues _
  · split
    · split
      · exact hvalues r
      · exact Domain.le_refl _
    · exact Domain.le_refl _

/-- A round of a larger system from larger values gives larger values. -/
theorem DominatedBy.evaluate_le (h : DominatedBy system other)
    (hsystem : (system.map Equation.key).Nodup) (hother : (other.map Equation.key).Nodup)
    (undefined : Key → D) {values largerValues : Key → D}
    (hvalues : ∀ key, Domain.Le (values key) (largerValues key)) (key : Key) :
    Domain.Le (evaluate system undefined values key) (evaluate other undefined largerValues key) := by
  by_cases hdefined : Defines system key
  · obtain ⟨equation, hequation, rfl⟩ := hdefined
    obtain ⟨larger, hlarger, hkey⟩ := h.defines_other equation hequation
    rw [evaluate_key hsystem hequation, ← hkey, evaluate_key hother hlarger]
    exact (h.dominated equation hequation larger hlarger hkey).eval_le (h.readings_le undefined hvalues)
  · rw [evaluate_of_not_defines hdefined]
    exact LawfulDomain.bottom_le _

/-- The rounds of a larger system are larger. -/
theorem DominatedBy.iterate_evaluate_le (h : DominatedBy system other)
    (hsystem : (system.map Equation.key).Nodup) (hother : (other.map Equation.key).Nodup)
    (undefined : Key → D) (n : ℕ) (key : Key) :
    Domain.Le ((evaluate system undefined)^[n] allBottom key)
      ((evaluate other undefined)^[n] allBottom key) := by
  induction n generalizing key with
  | zero => exact Domain.le_refl _
  | succ n ih =>
    rw [Function.iterate_succ_apply', Function.iterate_succ_apply']
    exact h.evaluate_le hsystem hother undefined ih key

end Order

/-! ## Rounds and derived values -/

variable [DecidableEq D]

/-- All late enough rounds agree with the values of a derivation. -/
theorem Derivation.exists_round [EquationalDomain D] {system : List (Equation D)}
    {told : List (Key × D)} (h : Derivation system told) (hone : OnePolarity system)
    (hsystem : (system.map Equation.key).Nodup) (hnodup : (told.map Prod.fst).Nodup)
    (undefined : Key → D) :
    ∃ n, ∀ m ≥ n, ∀ key value, (key, value) ∈ told →
      value = (evaluate system undefined)^[m] allBottom key := by
  induction h with
  | nil => exact ⟨0, fun _ _ _ _ hmem => nomatch hmem⟩
  | @cons equation value told hderived hequation hvalue ih =>
    have htold := (List.nodup_cons.mp hnodup).2
    obtain ⟨n, hn⟩ := ih htold
    refine ⟨n + 1, fun m hm key result hmem => ?_⟩
    rcases List.mem_cons.mp hmem with heq | hmem
    · obtain ⟨rfl, rfl⟩ := Prod.mk.inj heq
      obtain ⟨m, rfl⟩ := Nat.exists_eq_add_of_le' (Nat.one_le_of_lt hm)
      have hagrees := hn m (Nat.le_of_succ_le_succ hm)
      rw [Function.iterate_succ_apply', evaluate_key hsystem hequation,
        hderived.eval_eq hone htold hagrees hvalue]
    · exact hn m (Nat.le_of_succ_le hm) key result hmem

/-- A key that two systems resolve has a smaller value in the dominated one, whatever other keys they
resolve. The systems define no key in both polarities. -/
theorem DominatedBy.value_le [LawfulDomain D] {system other : List (Equation D)}
    {told later : List (Key × D)} (h : DominatedBy system other) (hone : OnePolarity system)
    (hsystem : (system.map Equation.key).Nodup) (hother : (other.map Equation.key).Nodup)
    (htold : Saturated system told) (hlater : Saturated other later) {key : Key} {value larger : D}
    (hvalue : (key, value) ∈ told) (hlarger : (key, larger) ∈ later) : Domain.Le value larger := by
  obtain ⟨n, hn⟩ := htold.derivation.exists_round hone hsystem htold.nodup allBottom
  obtain ⟨m, hm⟩ := hlater.derivation.exists_round (h.onePolarity hone) hother hlater.nodup allBottom
  rw [hn (max n m) (Nat.le_max_left n m) key value hvalue,
    hm (max n m) (Nat.le_max_right n m) key larger hlarger]
  exact h.iterate_evaluate_le hsystem hother allBottom (max n m) key

namespace Store

/-- If two stores have accepted equations for the same keys, and the equations of the first are
dominated by those of the second, then a key that both resolve has a value in the first that is below
its value in the second. No key is defined in both polarities; the systems may have cycles, unstable
keys and references to undefined keys. -/
theorem solution_le_of_dominatedBy [LawfulDomain D] (limit otherLimit : Nat)
    {offered other : List (Equation D)} (hone : OnePolarity ((new limit).accepted offered))
    (hdominated : DominatedBy ((new limit).accepted offered) ((new otherLimit).accepted other))
    {key : Key} {value larger : D}
    (hvalue : ((new limit).addAll offered).solve.solution.get? key = some value)
    (hlarger : ((new otherLimit).addAll other).solve.solution.get? key = some larger) :
    Domain.Le value larger := by
  rw [solve_addAll] at hvalue hlarger
  rw [accepted_new] at hone
  rw [accepted_new, accepted_new] at hdominated
  obtain ⟨told, hsaturated, hsolution⟩ := Solver.exists_saturated limit offered
  obtain ⟨later, hlater, hotherSolution⟩ := Solver.exists_saturated otherLimit other
  rw [hsolution, lookup_eq_some_iff_mem hsaturated.nodup] at hvalue
  rw [hotherSolution, lookup_eq_some_iff_mem hlater.nodup] at hlarger
  exact hdominated.value_le hone (Solver.nodup_accepted limit offered)
    (Solver.nodup_accepted otherLimit other) hsaturated hlater hvalue hlarger

/-- A system over the chain with an unstable key `p`, and a key `r` whose equation mentions `r` itself
and an undefined key. -/
def smallerSample : List (Equation Ternary) :=
  let p : Key := ⟨"p", false, false⟩
  let q : Key := ⟨"q", true, false⟩
  let r : Key := ⟨"r", true, false⟩
  let t : Key := ⟨"t", true, false⟩
  [⟨p, .final .no⟩,
    ⟨q, .ofProducts [.ofKeys .yes [p.negate], .ofKeys .maybe [p]]⟩,
    ⟨r, .ofProducts [.ofKeys .yes [q], .ofKeys .no [r, t]]⟩]

/-- A larger system, in which `p` waits on the undefined key, and `r` is top for the sake of `q`. -/
def largerSample : List (Equation Ternary) :=
  let p : Key := ⟨"p", false, false⟩
  let q : Key := ⟨"q", true, false⟩
  let r : Key := ⟨"r", true, false⟩
  let t : Key := ⟨"t", true, false⟩
  [⟨r, .ofProducts [.ofKeys .maybe [r, t], .ofKeys .yes [q]]⟩,
    ⟨q, .ofProducts [.ofKeys .yes [p, r], .constant .yes]⟩,
    ⟨p, .ofProducts [.constant .maybe, .ofKeys .yes [t]]⟩]

/-- The value of `r` is smaller in the smaller sample, and `p` has a value in that one alone. -/
theorem solution_le_of_dominatedBy_samples :
    OnePolarity ((new 4).accepted smallerSample) ∧
      DominatedBy ((new 4).accepted smallerSample) ((new 3).accepted largerSample) ∧
      ((new 4).addAll smallerSample).solve.solution.get? ⟨"r", true, false⟩ = some .maybe ∧
      ((new 3).addAll largerSample).solve.solution.get? ⟨"r", true, false⟩ = some .yes ∧
      Domain.Le Ternary.maybe .yes ∧
      ((new 4).addAll smallerSample).solve.solution.get? ⟨"p", false, false⟩ = some .no ∧
      ((new 3).addAll largerSample).solve.solution.get? ⟨"p", false, false⟩ = none := by
  have hone : OnePolarity ((new 4).accepted smallerSample) := by
    rw [accepted_new]
    decide
  have hdominated : DominatedBy ((new 4).accepted smallerSample) ((new 3).accepted largerSample) := by
    rw [accepted_new, accepted_new]
    decide
  have hvalue : ((new 4).addAll smallerSample).solve.solution.get? ⟨"r", true, false⟩ =
      some .maybe := by cbv
  have hlarger : ((new 3).addAll largerSample).solve.solution.get? ⟨"r", true, false⟩ =
      some .yes := by cbv
  exact ⟨hone, hdominated, hvalue, hlarger,
    solution_le_of_dominatedBy 4 3 hone hdominated hvalue hlarger, by cbv, by cbv⟩

end Store

end MonotoneEquations
