import Mathlib
import MonotoneEquations.Proofs.StoreRegistration
import MonotoneEquations.Proofs.ViablePrefix
import MonotoneEquations.Session

/-!
# What becomes of the equations of a text

Every equation of a text meets one of four fates. It can be dropped when its alternatives are joined;
otherwise its key can have an equation already, which is a warning; otherwise it can be too large, which
is an error; and otherwise it is registered. Only the keys that are registered before it matter.

So nothing is lost and nothing is counted twice: the number of registered equations, which the log of
the session shows, and the numbers of warnings and errors add up to the number of equations.
-/

namespace MonotoneEquations

/-! ## Fates -/

/-- What becomes of an equation of a text. -/
inductive Fate (D : Type) where
  /-- Its alternatives mention too many keys to be joined. -/
  | dropped (statement : Statement) (excess : TooLarge)
  /-- Its key has an equation already. -/
  | duplicate (definition : Definition D)
  /-- Its right hand side mentions too many keys to be registered. -/
  | tooLarge (definition : Definition D) (excess : TooLarge)
  /-- It is registered. -/
  | registered (definition : Definition D)

namespace Fate

variable {D : Type}

/-- The definition of an equation that is offered to the solver. -/
def definition? : Fate D → Option (Definition D)
  | .dropped _ _ => none
  | .duplicate definition | .tooLarge definition _ | .registered definition => some definition

/-- The report that an equation is dropped before it can be offered to the solver. -/
def drop? : Fate D → Option Report
  | .dropped statement excess => some (statement.dropReport excess)
  | _ => none

/-- The report that the solver refuses an equation. -/
def refusal? : Fate D → Option Report
  | .duplicate definition =>
    some (Session.refusal definition (.duplicate definition.equation.key))
  | .tooLarge definition excess => some (Session.refusal definition (.tooLarge excess))
  | _ => none

/-- The equation that is registered. -/
def equation? : Fate D → Option (Equation D)
  | .registered definition => some definition.equation
  | _ => none

/-- Whether an equation repeats a key. -/
def isDuplicate : Fate D → Bool
  | .duplicate _ => true
  | _ => false

/-- Whether an equation is too large to be joined or to be registered. -/
def isTooLarge : Fate D → Bool
  | .dropped _ _ | .tooLarge _ _ => true
  | _ => false

/-- What the report of an equation says, on the line and at the key of the equation: that its key has an
equation already, or that it is too large, with the size that exceeds the limit. -/
inductive IsReportedWith (limit : Nat) : Fate D → Report → Prop
  | dropped {statement : Statement} {size : Nat} (hlarge : limit < size) :
    IsReportedWith limit (.dropped statement ⟨size, limit⟩) ⟨.error, statement.line,
      "at '" ++ statement.key.base ++ "'", "Equation dropped, equation size " ++ toString size ++
        " exceeds the limit of " ++ toString limit ++ "."⟩
  | duplicate {definition : Definition D} :
    IsReportedWith limit (.duplicate definition) ⟨.warning, definition.line,
      "at '" ++ definition.equation.key.write ++ "'", "Duplicate equation, keeping the first one."⟩
  | tooLarge {definition : Definition D} (hlarge : limit < definition.equation.rhs.size) :
    IsReportedWith limit (.tooLarge definition ⟨definition.equation.rhs.size, limit⟩) ⟨.error,
      definition.line, "at '" ++ definition.equation.key.write ++ "'",
      "Equation dropped, equation size " ++ toString definition.equation.rhs.size ++
        " exceeds the limit of " ++ toString limit ++ "."⟩

variable [Domain D] [DecidableEq D] [Spelling D]

/-- What becomes of a statement when the given keys are registered. -/
def ofStatement (limit : Nat) (taken : List Key) (statement : Statement) : Fate D :=
  match Rhs.ofAlternatives limit statement.alternatives with
  | .error excess => .dropped statement excess
  | .ok rhs =>
    let definition : Definition D := ⟨statement.line, statement.key, rhs⟩
    if statement.key ∈ taken then .duplicate definition
    else if limit < rhs.size then .tooLarge definition ⟨rhs.size, limit⟩
    else .registered definition

/-- What becomes of statements in order, after the given keys are registered. -/
def all (limit : Nat) (taken : List Key) : List Statement → List (Fate D)
  | [] => []
  | statement :: rest =>
    let fate := ofStatement limit taken statement
    fate :: all limit (taken ++ (fate.equation?.map Equation.key).toList) rest

/-- Every statement has one fate. -/
theorem length_all (limit : Nat) (taken : List Key) (statements : List Statement) :
    (all limit taken statements : List (Fate D)).length = statements.length := by
  induction statements generalizing taken with
  | nil => rfl
  | cons statement statements ih => exact congrArg (· + 1) (ih _)

/-- Whether a statement is dropped does not depend on what is registered. -/
theorem definition?_ofStatement (limit : Nat) (taken : List Key) (statement : Statement) :
    (ofStatement limit taken statement : Fate D).definition? = statement.definition? D limit ∧
      (ofStatement limit taken statement : Fate D).drop? = statement.drop? D limit := by
  simp only [ofStatement, Statement.definition?, Statement.drop?]
  cases (Rhs.ofAlternatives limit statement.alternatives : Except TooLarge (Rhs D)) with
  | error excess => exact ⟨rfl, rfl⟩
  | ok rhs =>
    dsimp only
    split
    next => exact ⟨rfl, rfl⟩
    next => split <;> exact ⟨rfl, rfl⟩

/-- Which statements are dropped does not depend on what is registered. -/
theorem filterMap_definition?_all (limit : Nat) (taken : List Key) (statements : List Statement) :
    (all limit taken statements : List (Fate D)).filterMap definition? =
        statements.filterMap (Statement.definition? D limit) ∧
      (all limit taken statements : List (Fate D)).filterMap drop? =
        statements.filterMap (Statement.drop? D limit) := by
  induction statements generalizing taken with
  | nil => exact ⟨rfl, rfl⟩
  | cons statement statements ih =>
    obtain ⟨hdefinition, hdrop⟩ := definition?_ofStatement (D := D) limit taken statement
    obtain ⟨hdefinitions, hdrops⟩ := ih (taken ++ _)
    constructor
    · rw [all, List.filterMap_cons, List.filterMap_cons, hdefinition, hdefinitions]
    · rw [all, List.filterMap_cons, List.filterMap_cons, hdrop, hdrops]

/-- A statement is registered only within the limit. -/
theorem size_le_of_equation?_eq_some {limit : Nat} {taken : List Key} {statement : Statement}
    {equation : Equation D} (h : (ofStatement limit taken statement).equation? = some equation) :
    equation.rhs.size ≤ limit := by
  unfold ofStatement at h
  split at h
  next => cases h
  next rhs _ =>
    dsimp only at h
    split at h
    next => cases h
    next =>
      split at h
      next => cases h
      next hfits =>
        cases h
        exact Nat.le_of_not_lt hfits

/-- Every fate of a list is that of a statement, after some keys are registered. -/
theorem exists_ofStatement_of_mem_all {limit : Nat} {taken : List Key} {statements : List Statement}
    {fate : Fate D} (h : fate ∈ all limit taken statements) :
    ∃ earlier statement, fate = ofStatement limit earlier statement := by
  induction statements generalizing taken with
  | nil => cases h
  | cons statement statements ih =>
    rcases List.mem_cons.mp h with rfl | hrest
    · exact ⟨taken, statement, rfl⟩
    · exact ih hrest

/-- Registered equations are within the limit. -/
theorem size_le_of_mem_all {limit : Nat} {taken : List Key} {statements : List Statement} :
    ∀ equation ∈ (all limit taken statements : List (Fate D)).filterMap equation?,
      equation.rhs.size ≤ limit := by
  intro equation hmem
  obtain ⟨fate, hfate, hequation⟩ := List.mem_filterMap.mp hmem
  obtain ⟨_, _, rfl⟩ := exists_ofStatement_of_mem_all hfate
  exact size_le_of_equation?_eq_some hequation

/-- The report of a statement, whether it is dropped or refused, says what became of it. -/
theorem isReportedWith_ofStatement {limit : Nat} {taken : List Key} {statement : Statement}
    {report : Report} (h : (ofStatement limit taken statement : Fate D).drop? = some report ∨
      (ofStatement limit taken statement : Fate D).refusal? = some report) :
    (ofStatement limit taken statement : Fate D).IsReportedWith limit report := by
  unfold ofStatement at h ⊢
  split at h
  next excess hrhs =>
    obtain ⟨size, other⟩ := excess
    obtain ⟨rfl, hlarge⟩ := Rhs.lt_of_ofAlternatives_eq_error hrhs
    obtain rfl : statement.dropReport ⟨size, other⟩ = report := by simpa [drop?, refusal?] using h
    rw [Statement.dropReport_mk]
    exact .dropped hlarge
  next rhs hrhs =>
    dsimp only at h ⊢
    split at h
    next htaken =>
      obtain rfl := Option.some.inj (h.resolve_left nofun)
      rw [if_pos htaken]
      exact .duplicate
    next htaken =>
      split at h
      next hlarge =>
        obtain rfl := Option.some.inj (h.resolve_left nofun)
        rw [if_neg htaken, if_pos hlarge]
        simp only [Session.refusal, TooLarge.dropped_message]
        exact .tooLarge hlarge
      next => cases h <;> contradiction

/-- The reports of some statements say what became of them, one by one and in their order: first those
of the dropped ones, then those of the refused ones. -/
theorem forall₂_isReportedWith (limit : Nat) (taken : List Key) (statements : List Statement) :
    let fates : List (Fate D) := all limit taken statements
    List.Forall₂ (IsReportedWith limit)
      ((fates.filter fun fate => fate.drop?.isSome) ++ fates.filter fun fate => fate.refusal?.isSome)
      (fates.filterMap drop? ++ fates.filterMap refusal?) := by
  refine List.rel_append (forall₂_filter_filterMap fun fate hfate report hreport => ?_)
    (forall₂_filter_filterMap fun fate hfate report hreport => ?_)
  · obtain ⟨_, _, rfl⟩ := exists_ofStatement_of_mem_all hfate
    exact isReportedWith_ofStatement (.inl hreport)
  · obtain ⟨_, _, rfl⟩ := exists_ofStatement_of_mem_all hfate
    exact isReportedWith_ofStatement (.inr hreport)

end Fate

/-! ## Counting reports -/

namespace Diagnostics

/-- Reports are written in order, and counted by their severity. -/
theorem reportAll_eq (diagnostics : Diagnostics) (reports : List Report) :
    diagnostics.reportAll reports = { diagnostics with
      err := diagnostics.err ++ String.join (reports.map Report.text)
      errors := diagnostics.errors + reports.countP fun report => report.severity = .error
      warnings := diagnostics.warnings + reports.countP fun report => report.severity = .warning } := by
  induction reports generalizing diagnostics with
  | nil => simp [reportAll]
  | cons first reports ih =>
    have hstep : diagnostics.reportAll (first :: reports) =
        (diagnostics.report first).reportAll reports := rfl
    rw [hstep, ih]
    cases hseverity : first.severity <;>
      simp [report, hseverity, String.append_assoc, Nat.add_assoc, Nat.add_comm 1]

/-- Reports that are written first are all that is written. -/
theorem reportAll_new (sink : Sink) (reports : List Report) :
    (new sink).reportAll reports = ⟨sink, "", String.join (reports.map Report.text),
      reports.countP fun report => report.severity = .error,
      reports.countP fun report => report.severity = .warning⟩ := by
  rw [reportAll_eq]
  simp [new]

end Diagnostics

namespace Fate

variable {D : Type}

/-- The errors among the reports are the equations that are too large, and the warnings are those that
repeat a key. -/
theorem countP_reports (fates : List (Fate D)) :
    ((fates.filterMap drop? ++ fates.filterMap refusal?).countP fun report =>
        report.severity = .error) = fates.countP isTooLarge ∧
      ((fates.filterMap drop? ++ fates.filterMap refusal?).countP fun report =>
        report.severity = .warning) = fates.countP isDuplicate := by
  induction fates with
  | nil => exact ⟨rfl, rfl⟩
  | cons fate fates ih =>
    simp only [List.countP_append, List.filterMap_cons, List.countP_cons, ← ih.1, ← ih.2]
    cases fate <;>
      simp [drop?, refusal?, isTooLarge, isDuplicate, Session.refusal, Statement.dropReport] <;> omega

/-- Every equation is registered, repeats a key, or is too large. -/
theorem length_eq_add (fates : List (Fate D)) :
    fates.length = (fates.filterMap equation?).length + fates.countP isDuplicate +
      fates.countP isTooLarge := by
  induction fates with
  | nil => rfl
  | cons fate fates ih =>
    rw [List.length_cons, ih, List.filterMap_cons, List.countP_cons, List.countP_cons]
    cases fate <;> simp [equation?, isDuplicate, isTooLarge] <;> omega

-- With limit 1: a sum that is dropped leaves its key free, so the next equation for the key is
-- registered and only the third repeats it. A product is not measured before the solver sees it.
example :
    (Fate.all 1 []
      [⟨1, ⟨"a", true, false⟩, [[⟨"b", true, false⟩], [⟨"c", true, false⟩]]⟩,
        ⟨2, ⟨"a", true, false⟩, [[⟨"b", true, false⟩]]⟩,
        ⟨3, ⟨"a", true, false⟩, [[⟨"c", true, false⟩]]⟩,
        ⟨4, ⟨"d", true, false⟩, [[⟨"b", true, false⟩, ⟨"c", true, false⟩]]⟩] : List (Fate Ternary)).map
      (fun fate => (fate.drop?.isSome, fate.isDuplicate, fate.isTooLarge)) =
    [(true, false, true), (false, false, false), (false, true, false), (false, false, true)] := by
  decide

end Fate

/-! ## Registering -/

section Register

variable {D : Type} [Domain D] [DecidableEq D] [Spelling D]

namespace Solver

/-- What the solver does with a definition is the fate of its statement: a refusal that is reported,
or a registration. -/
inductive Treats (solver : Solver D) (definition : Definition D) (fate : Fate D) : Prop
  | refuses (error : EquationError) (hadd : solver.add definition.equation = .error error)
    (hrefusal : fate.refusal? = some (Session.refusal definition error))
    (hequation : fate.equation? = none)
  | registers (next : Solver D) (hadd : solver.add definition.equation = .ok next)
    (hrefusal : fate.refusal? = none) (hequation : fate.equation? = some definition.equation)

/-- A statement that is not dropped meets its fate at the solver. -/
theorem Announced.treats {system : List (Equation D)} {solver : Solver D}
    (h : Announced system [] solver) {statement : Statement} {rhs : Rhs D}
    (hrhs : Rhs.ofAlternatives solver.limit statement.alternatives = .ok rhs) :
    solver.Treats ⟨statement.line, statement.key, rhs⟩
      (.ofStatement solver.limit (system.map Equation.key) statement) := by
  simp only [Fate.ofStatement, hrhs]
  split
  next hmem =>
    have hdefined : solver.defines statement.key = true := by
      by_contra hnew
      exact h.defines_eq_false_iff.mp (Bool.eq_false_iff.mpr hnew) hmem
    exact .refuses _ (add_eq_error_iff.mpr (.inl ⟨hdefined, rfl⟩)) rfl rfl
  next hmem =>
    have hnew : solver.defines statement.key = false := h.defines_eq_false_iff.mpr hmem
    split
    next hlarge => exact .refuses _ (add_eq_error_iff.mpr (.inr ⟨hnew, hlarge, rfl⟩)) rfl rfl
    next hfits =>
      exact .registers _ (add_eq_ok_iff.mpr ⟨hnew, Nat.le_of_not_lt hfits, rfl⟩) rfl rfl

/-- Registering the definitions of some statements reports the refusals among their fates, and accepts
the equations that are registered by their fates. -/
theorem Announced.register_encode {limit : Nat} {system : List (Equation D)} {solver : Solver D}
    {keys : ArrivalSet Key} (h : Announced system [] solver) (hkeys : Interned keys solver)
    (hlimit : solver.limit = limit) (statements : List Statement) :
    (Session.register (solver.encode keys) (statements.filterMap (Statement.definition? D limit))).2 =
        (Fate.all limit (system.map Equation.key) statements : List (Fate D)).filterMap Fate.refusal? ∧
      solver.accepted ((statements.filterMap (Statement.definition? D limit)).map Definition.equation) =
        (Fate.all limit (system.map Equation.key) statements).filterMap Fate.equation? := by
  subst hlimit
  induction statements generalizing system solver keys with
  | nil => exact ⟨rfl, rfl⟩
  | cons statement statements ih =>
    rw [Fate.all, List.filterMap_cons (f := Statement.definition? D solver.limit)]
    match hrhs : (Rhs.ofAlternatives solver.limit statement.alternatives : Except TooLarge (Rhs D)) with
    | .error excess =>
      have hdefinition : statement.definition? D solver.limit = none := by
        rw [Statement.definition?, hrhs]
      have hfate : (Fate.ofStatement solver.limit (system.map Equation.key) statement : Fate D) =
          .dropped statement excess := by rw [Fate.ofStatement, hrhs]
      rw [hdefinition, hfate]
      simp only [Fate.equation?, Option.map_none, Option.toList_none, List.append_nil]
      exact ih h hkeys
    | .ok rhs =>
      have hdefinition : statement.definition? D solver.limit =
          some ⟨statement.line, statement.key, rhs⟩ := by rw [Statement.definition?, hrhs]
      rw [hdefinition]
      dsimp only
      rw [Session.register, List.map_cons, accepted]
      cases h.treats hrhs with
      | refuses error hadd hrefusal hequation =>
        obtain ⟨hreports, haccepted⟩ := ih h (hkeys.insert statement.key)
        rw [hkeys.add_encode_of_error hadd, hadd]
        simp only [hrefusal, hequation, List.filterMap_cons, Option.map_none, Option.toList_none,
          List.append_nil]
        exact ⟨congrArg _ hreports, haccepted⟩
      | registers next hadd hrefusal hequation =>
        obtain ⟨larger, hstep, hnext⟩ := hkeys.add_encode_of_ok hadd
        have hrest := ih (h.add hadd) hnext
        rw [limit_eq_of_add hadd, List.map_append, List.map_singleton] at hrest
        rw [hstep, hadd]
        simp only [hrefusal, hequation, List.filterMap_cons, Option.map_some, Option.toList_some]
        exact ⟨hrest.1, congrArg _ hrest.2⟩

end Solver

end Register

end MonotoneEquations
