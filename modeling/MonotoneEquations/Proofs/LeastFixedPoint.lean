import Mathlib.Logic.Function.Iterate
import MonotoneEquations.Domain.Ternary
import MonotoneEquations.Proofs.StoreRun

/-!
# A solution is a least fixed point

The equations of a system derive values from values: given a partial assignment, each equation that
has a consequence under it derives the value of its key. A reference is read through its negation if
that has a value; otherwise an unstable key that has a value reads as top, and a stable one as its
value.

If no key is defined together with its negation, this operator is monotone, and the solution of a
solver is its least fixed point, whatever order the solver works in. The fixed point is reached from
below: a key is in the solution exactly if finitely many rounds derive it. A store finds the same
solution.
-/

namespace MonotoneEquations

variable {D : Type}

/-- Values for some of the keys. -/
abbrev Assignment (D : Type) : Type := Key → Option D

namespace Assignment

/-- No key has a value. -/
def empty : Assignment D := fun _ => none

/-- All values of the first assignment are also values of the second. -/
def Within (s t : Assignment D) : Prop := ∀ key value, s key = some value → t key = some value

/-- No key has a value together with its negation. -/
def OnePolarity (s : Assignment D) : Prop := ∀ key, (s key).isSome → s key.negate = none

/-- How references read: through the negation if it has a value, otherwise through the key itself,
which is trusted only if it is stable. -/
def read [Domain D] (s : Assignment D) : Knowledge D := fun r =>
  match s r.negate with
  | some value => some value
  | none => (s r).map fun value => if r.stable then value else Domain.top

/-- Assignments that hold the same values are equal. -/
theorem ext_of_eq_some {s t : Assignment D} (h : ∀ key value, s key = some value ↔ t key = some value) :
    s = t := by
  funext key
  exact Option.ext (h key)

variable [Domain D]

/-- A reference is unknown while neither polarity has a value. -/
theorem read_eq_none {s : Assignment D} {r : Key} (hr : s r = none) (hnegate : s r.negate = none) :
    s.read r = none := by
  simp [read, hr, hnegate]

/-- More values let more references be read, and none differently. -/
theorem read_le_read {s t : Assignment D} (h : s.Within t) (hone : t.OnePolarity) :
    s.read.Le t.read := by
  intro r v hv
  cases hnegate : s r.negate with
  | some w =>
    have hlater : t r.negate = some w := h _ _ hnegate
    simpa [read, hnegate, hlater] using hv
  | none =>
    cases hr : s r with
    | none => simp [read_eq_none hr hnegate] at hv
    | some w =>
      have hlater : t r = some w := h _ _ hr
      have hother : t r.negate = none := hone r (by simp [hlater])
      simpa [read, hnegate, hr, hlater, hother] using hv

end Assignment

/-- No key is defined together with its negation. -/
def OnePolarity (system : List (Equation D)) : Prop :=
  ∀ equation ∈ system, ∀ other ∈ system, other.key ≠ equation.key.negate

instance (system : List (Equation D)) : Decidable (OnePolarity system) :=
  inferInstanceAs (Decidable (∀ _ ∈ _, ∀ _ ∈ _, _))

variable [Domain D] [DecidableEq D]

/-- The values that the equations of a system derive from an assignment. -/
def consequences (system : List (Equation D)) (s : Assignment D) : Assignment D := fun key =>
  (system.find? fun equation => equation.key = key).bind fun equation =>
    equation.rhs.consequence? s.read

/-- The least of the assignments that an operator leaves as they are, by inclusion. -/
structure IsLeastFixedPoint (derive : Assignment D → Assignment D) (least : Assignment D) : Prop where
  fixed : derive least = least
  within : ∀ s, derive s = s → least.Within s

section System

variable {system : List (Equation D)}

/-- The derived values are the consequences of the equations. -/
theorem consequences_eq_some_iff (hnodup : (system.map Equation.key).Nodup) {s : Assignment D}
    {key : Key} {value : D} : consequences system s key = some value ↔
      ∃ equation ∈ system, equation.key = key ∧ equation.rhs.consequence? s.read = some value := by
  rw [consequences, Option.bind_eq_some_iff]
  simp only [find?_eq_some_iff_mem hnodup, and_assoc]

/-- Only defined keys get values, so no two polarities do. -/
theorem onePolarity_consequences (hone : OnePolarity system) (s : Assignment D) :
    (consequences system s).OnePolarity := by
  have hdefined : ∀ key, (consequences system s key).isSome →
      ∃ equation ∈ system, equation.key = key := by
    intro key hkey
    obtain ⟨equation, hfind, -⟩ := Option.bind_eq_some_iff.mp (Option.some_get hkey).symm
    exact ⟨equation, List.mem_of_find?_eq_some hfind, by simpa using List.find?_some hfind⟩
  intro key hkey
  obtain ⟨equation, hmem, rfl⟩ := hdefined key hkey
  rw [← Option.not_isSome_iff_eq_none]
  intro hnegate
  obtain ⟨other, hother, hkeys⟩ := hdefined _ hnegate
  exact hone equation hmem other hother hkeys

/-- More values derive more values. -/
theorem consequences_within [EquationalDomain D] (system : List (Equation D)) {s t : Assignment D}
    (h : s.Within t) (hone : t.OnePolarity) :
    (consequences system s).Within (consequences system t) := by
  intro key value hvalue
  obtain ⟨equation, hfind, hvalue⟩ := Option.bind_eq_some_iff.mp hvalue
  exact Option.bind_eq_some_iff.mpr
    ⟨equation, hfind, Rhs.consequence?_mono (Assignment.read_le_read h hone) hvalue⟩

end System

omit [DecidableEq D] in
/-- If no polarity is resolved twice, announced keys are read from the values they have. -/
theorem Knowledge.ofResolved_eq_read {told : List (Key × D)} (hnodup : (told.map Prod.fst).Nodup)
    (hone : ∀ key ∈ told.map Prod.fst, key.negate ∉ told.map Prod.fst) :
    Knowledge.ofResolved told = Assignment.read fun key => told.lookup key := by
  induction told with
  | nil => rfl
  | cons first earlier ih =>
    obtain ⟨key, value⟩ := first
    simp only [List.map_cons, List.nodup_cons, List.mem_cons, forall_eq_or_imp, not_or] at hnodup hone
    have habsent : ∀ q ∉ earlier.map Prod.fst, earlier.lookup q = none := by
      intro q hq
      refine Option.eq_none_iff_forall_ne_some.mpr fun w hw => hq ?_
      exact List.mem_map.mpr ⟨(q, w), (lookup_eq_some_iff_mem hnodup.2).mp hw, rfl⟩
    have hkey := habsent key hnodup.1
    have hnegate := habsent key.negate hone.1.2
    have hne : key.negate ≠ key := key.negate_ne
    rw [Knowledge.ofResolved, ih hnodup.2 fun q hq => (hone.2 q hq).2]
    funext r
    rw [Knowledge.learn_apply]
    by_cases hr : r = key
    · subst r
      simp [Assignment.read, List.lookup_cons, beq_false_of_ne hne, hkey, hnegate]
    by_cases hr' : r = key.negate
    · subst r
      simp [Assignment.read, hne, hkey, hnegate]
    · have hnot : r.negate ≠ key := fun heq => hr' (by rw [← heq, Key.negate_negate])
      simp [Assignment.read, List.lookup_cons, beq_false_of_ne hr, beq_false_of_ne hnot, hr, hr']

section Solution

variable {system : List (Equation D)} {told : List (Key × D)}

/-- The keys of a derivation are read from the values they have, if no polarity is defined twice. -/
theorem Derivation.ofResolved_eq_read (h : Derivation system told) (hone : OnePolarity system)
    (hnodup : (told.map Prod.fst).Nodup) :
    Knowledge.ofResolved told = Assignment.read fun key => told.lookup key := by
  refine Knowledge.ofResolved_eq_read hnodup fun key hkey hnegate => ?_
  obtain ⟨⟨_, value⟩, hmem, rfl⟩ := List.mem_map.mp hkey
  obtain ⟨⟨_, other⟩, hother, hkeys⟩ := List.mem_map.mp hnegate
  obtain ⟨equation, hequation, rfl⟩ := h.exists_equation hmem
  obtain ⟨second, hsecond, rfl⟩ := h.exists_equation hother
  exact hone equation hequation second hsecond hkeys

/-- A saturated derivation is a fixed point. -/
theorem Saturated.consequences_lookup (h : Saturated system told) (hone : OnePolarity system)
    (hsystem : (system.map Equation.key).Nodup) :
    consequences system (fun key => told.lookup key) = fun key => told.lookup key := by
  apply Assignment.ext_of_eq_some
  intro key value
  rw [consequences_eq_some_iff hsystem, ← h.derivation.ofResolved_eq_read hone h.nodup,
    lookup_eq_some_iff_mem h.nodup]
  constructor
  · intro hderived
    obtain ⟨equation, hmem, rfl, hvalue⟩ := hderived
    exact (h.mem_iff equation hmem value).mpr hvalue
  · intro htold
    obtain ⟨equation, hmem, rfl⟩ := h.derivation.exists_equation htold
    exact ⟨equation, hmem, rfl, (h.mem_iff equation hmem value).mp htold⟩

/-- A saturated derivation has values for one polarity at most. -/
theorem Saturated.onePolarity_lookup (h : Saturated system told) (hone : OnePolarity system)
    (hsystem : (system.map Equation.key).Nodup) :
    Assignment.OnePolarity fun key => told.lookup key :=
  h.consequences_lookup hone hsystem ▸ onePolarity_consequences hone _

/-- No round derives values for two polarities. -/
theorem onePolarity_iterate (hone : OnePolarity system) (n : ℕ) :
    ((consequences system)^[n] .empty).OnePolarity := by
  cases n with
  | zero => exact fun key hkey => nomatch hkey
  | succ n =>
    rw [Function.iterate_succ_apply']
    exact onePolarity_consequences hone _

variable [EquationalDomain D]

/-- Later rounds keep what earlier ones have derived. -/
theorem iterate_within_succ (hone : OnePolarity system) (n : ℕ) :
    ((consequences system)^[n] .empty).Within ((consequences system)^[n + 1] .empty) := by
  induction n with
  | zero => exact fun key value hvalue => nomatch hvalue
  | succ n ih =>
    have hlater := consequences_within system ih (onePolarity_iterate hone (n + 1))
    rwa [← Function.iterate_succ_apply' (consequences system),
      ← Function.iterate_succ_apply' (consequences system)] at hlater

/-- What finitely many rounds derive holds in every assignment that holds all that it derives. -/
theorem iterate_within_of_closed {s : Assignment D} (hpolarity : s.OnePolarity)
    (hclosed : (consequences system s).Within s) (n : ℕ) :
    ((consequences system)^[n] .empty).Within s := by
  induction n with
  | zero => exact fun key value hvalue => nomatch hvalue
  | succ n ih =>
    rw [Function.iterate_succ_apply']
    exact fun key value hvalue =>
      hclosed key value (consequences_within system ih hpolarity key value hvalue)

/-- What finitely many rounds derive holds in every fixed point. -/
theorem iterate_within_of_fixed (hone : OnePolarity system) {s : Assignment D}
    (hfixed : consequences system s = s) (n : ℕ) : ((consequences system)^[n] .empty).Within s :=
  iterate_within_of_closed (hfixed ▸ onePolarity_consequences hone s)
    (fun _ _ hvalue => hfixed ▸ hvalue) n

/-- What is announced in a run is derived by finitely many rounds. -/
theorem Derivation.exists_iterate (h : Derivation system told) (hone : OnePolarity system)
    (hsystem : (system.map Equation.key).Nodup) (hnodup : (told.map Prod.fst).Nodup) :
    ∃ n, Assignment.Within (fun key => told.lookup key) ((consequences system)^[n] .empty) := by
  induction h with
  | nil => exact ⟨0, fun key value hvalue => nomatch hvalue⟩
  | @cons equation value told hderived hmem hvalue ih =>
    have htold := (List.nodup_cons.mp hnodup).2
    obtain ⟨n, hn⟩ := ih htold
    refine ⟨n + 1, fun key result hresult => ?_⟩
    rcases List.mem_cons.mp ((lookup_eq_some_iff_mem hnodup).mp hresult) with heq | hearlier
    · obtain ⟨rfl, rfl⟩ := Prod.mk.inj heq
      rw [hderived.ofResolved_eq_read hone htold] at hvalue
      rw [Function.iterate_succ_apply', consequences_eq_some_iff hsystem]
      exact ⟨equation, hmem, rfl, Rhs.consequence?_mono
        (Assignment.read_le_read hn (onePolarity_iterate hone n)) hvalue⟩
    · exact iterate_within_succ hone n _ _ (hn _ _ ((lookup_eq_some_iff_mem htold).mpr hearlier))

/-- A saturated derivation lists what finitely many rounds derive. -/
theorem Saturated.mem_iff_exists_iterate (h : Saturated system told) (hone : OnePolarity system)
    (hsystem : (system.map Equation.key).Nodup) {key : Key} {value : D} :
    (key, value) ∈ told ↔ ∃ n, (consequences system)^[n] .empty key = some value := by
  rw [← lookup_eq_some_iff_mem h.nodup]
  constructor
  · intro hvalue
    obtain ⟨n, hn⟩ := h.derivation.exists_iterate hone hsystem h.nodup
    exact ⟨n, hn _ _ hvalue⟩
  · intro hround
    obtain ⟨n, hn⟩ := hround
    exact iterate_within_of_fixed hone (h.consequences_lookup hone hsystem) n _ _ hn

/-- A saturated derivation holds in every assignment that holds all that it derives. -/
theorem Saturated.within_of_closed (h : Saturated system told) (hone : OnePolarity system)
    (hsystem : (system.map Equation.key).Nodup) {s : Assignment D} (hpolarity : s.OnePolarity)
    (hclosed : (consequences system s).Within s) :
    Assignment.Within (fun key => told.lookup key) s := by
  obtain ⟨n, hn⟩ := h.derivation.exists_iterate hone hsystem h.nodup
  exact fun key value hvalue =>
    iterate_within_of_closed hpolarity hclosed n key value (hn key value hvalue)

/-- A saturated derivation is the least fixed point. -/
theorem Saturated.isLeastFixedPoint (h : Saturated system told) (hone : OnePolarity system)
    (hsystem : (system.map Equation.key).Nodup) :
    IsLeastFixedPoint (consequences system) fun key => told.lookup key := by
  refine ⟨h.consequences_lookup hone hsystem, fun s hs => ?_⟩
  exact h.within_of_closed hone hsystem (hs ▸ onePolarity_consequences hone s)
    (fun _ _ hvalue => hs ▸ hvalue)

end Solution

namespace Solver

variable [EquationalDomain D]

/-- The solution of the equations that a solver accepts is the least fixed point of what they derive,
if they never define both polarities of a key; its values are those derived by finitely many rounds. -/
theorem isLeastFixedPoint_solve (limit : Nat) (offered : List (Equation D))
    (hone : OnePolarity ((new limit).accepted offered)) :
    IsLeastFixedPoint (consequences ((new limit).accepted offered))
        ((new limit).addAll offered).solve.solution.get? ∧
      ∀ key value, ((new limit).addAll offered).solve.solution.get? key = some value ↔
        ∃ n, (consequences ((new limit).accepted offered))^[n] .empty key = some value := by
  obtain ⟨told, hsaturated, hsolution⟩ := exists_saturated limit offered
  have hsystem := nodup_accepted limit offered
  rw [hsolution]
  exact ⟨hsaturated.isLeastFixedPoint hone hsystem, fun key value =>
    (lookup_eq_some_iff_mem hsaturated.nodup).trans (hsaturated.mem_iff_exists_iterate hone hsystem)⟩

/-- Six equations over the chain: an unstable key, a key that reads it as top, a key on a cycle, a
key that is top although it mentions the cycle, a second equation for a key, and one that is too
large. -/
def earlyTopSample : List (Equation Ternary) :=
  let p : Key := ⟨"p", false, false⟩
  let q : Key := ⟨"q", true, false⟩
  let r : Key := ⟨"r", true, false⟩
  let s : Key := ⟨"s", true, false⟩
  [⟨p, .final .maybe⟩,
    ⟨q, .ofProducts [.ofKeys .yes [p]]⟩,
    ⟨r, .ofProducts [.ofKeys .yes [p.negate], .ofKeys .yes [r]]⟩,
    ⟨s, .ofProducts [.ofKeys .yes [q], .ofKeys .yes [r]]⟩,
    ⟨q, .final .no⟩,
    ⟨p.negate, .ofProducts [.ofKeys .yes [q, r, s]]⟩]

end Solver

namespace Store

/-- The solution of the equations that a store accepts is the least fixed point of what they derive, if
they never define both polarities of a key; its values are those derived by finitely many rounds. -/
theorem solution_isLeastFixedPoint [EquationalDomain D] (limit : Nat) (offered : List (Equation D))
    (hone : OnePolarity ((new limit).accepted offered)) :
    IsLeastFixedPoint (consequences ((new limit).accepted offered))
        ((new limit).addAll offered).solve.solution.get? ∧
      ∀ key value, ((new limit).addAll offered).solve.solution.get? key = some value ↔
        ∃ n, (consequences ((new limit).accepted offered))^[n] .empty key = some value := by
  rw [accepted_new] at hone ⊢
  rw [solve_addAll]
  exact Solver.isLeastFixedPoint_solve limit offered hone

/-- The sample is solved by its least fixed point, which three rounds show to be top at `s`. -/
theorem solution_isLeastFixedPoint_earlyTop :
    OnePolarity ((new 2).accepted Solver.earlyTopSample) ∧
      IsLeastFixedPoint (consequences ((new 2).accepted Solver.earlyTopSample))
        ((new 2).addAll Solver.earlyTopSample).solve.solution.get? ∧
      ((new 2).addAll Solver.earlyTopSample).solve.solution.get? ⟨"s", true, false⟩ = some .yes := by
  have hone : OnePolarity ((new 2).accepted Solver.earlyTopSample) := by
    rw [accepted_new]
    decide
  have hleast := solution_isLeastFixedPoint 2 Solver.earlyTopSample hone
  refine ⟨hone, hleast.1, (hleast.2 _ _).mpr ⟨3, ?_⟩⟩
  rw [accepted_new]
  decide

end Store

end MonotoneEquations
