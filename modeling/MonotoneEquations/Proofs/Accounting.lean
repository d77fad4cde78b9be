import Mathlib
import MonotoneEquations.Proofs.PrintedSolution

/-!
# The account of a session

A session that cannot read its text fails without output, and registers nothing. Otherwise every
equation of the text has one fate, and the fates show in what the session leaves: the log counts the
registered equations, the warnings are the equations that repeat a key, and the errors are those that
are too large. So the three numbers add up to the number of equations. Whatever they are, a solution is
printed, and it can be read off the output.
-/

namespace MonotoneEquations

variable {D : Type} [Domain D] [DecidableEq D]

/-- An equation that is dropped is an error. -/
theorem Statement.severity_of_drop? [Spelling D] {limit : Nat} {statement : Statement} {report : Report}
    (hdrop : statement.drop? D limit = some report) : report.severity = .error := by
  obtain ⟨_, -, -, rfl⟩ := Statement.drop?_eq_some_iff.mp hdrop
  rfl

/-- A text that cannot be read has no definitions, and is reported by errors alone. -/
theorem Reading.ofSource_of_unreadable [Spelling D] (limit : Nat) {source : String}
    (hsource : ∀ tokens, Tokens.ofSource source = .ok tokens → tokens.lexemes ∉ Grammar.text) :
    ∃ reports : List Report, reports ≠ [] ∧ (∀ report ∈ reports, report.severity = .error) ∧
      (ofSource limit source : Reading D) = ⟨none, reports⟩ := by
  rw [ofSource]
  cases htokens : Tokens.ofSource source with
  | error error =>
    refine ⟨[error.report], List.cons_ne_nil _ _, ?_, rfl⟩
    cases error <;> simp [TokenError.report]
  | ok tokens =>
    obtain ⟨statements, _, _, error, _, _, _, _, hread, _⟩ :=
      ofTokens_of_not_mem_text (D := D) limit (hsource tokens htokens)
    refine ⟨_, List.append_ne_nil_of_right_ne_nil _ (List.cons_ne_nil _ _), ?_, hread⟩
    intro report hreport
    rcases List.mem_append.mp hreport with hdrop | herror
    · obtain ⟨statement, -, hdrop⟩ := List.mem_filterMap.mp hdrop
      exact Statement.severity_of_drop? hdrop
    · obtain rfl := List.mem_singleton.mp herror
      rfl

namespace Session

variable [Spelling D]

/-- A session fails with errors and leaves nothing else. -/
structure FailsAtOnce {V : Type} (outcome : Outcome V) : Prop where
  succeeded : outcome.succeeded = false
  errors : outcome.diagnostics.errors ≠ 0
  warnings : outcome.diagnostics.warnings = 0
  out : outcome.diagnostics.out = ""
  log : outcome.log = []

/-- A session that fails at once does so whatever the form of the values. -/
theorem FailsAtOnce.map {V W : Type} {outcome : Outcome V} (h : FailsAtOnce outcome) (f : V → W) :
    FailsAtOnce (outcome.map f) where
  succeeded := h.succeeded
  errors := h.errors
  warnings := h.warnings
  out := h.out
  log := congrArg (List.map (Event.map f)) h.log

/-- The outcome of a session shows the fates of the equations of its text. Equations that are dropped are
reported before those that the solver refuses, each with what became of it, and the solution is printed
whatever is reported, in lines that show it. -/
structure Accounts {V : Type} (options : Options) (source : String) (statements : List Statement)
    (fates : List (Fate D)) (outcome : Outcome V) : Prop where
  fates_eq : fates = Fate.all options.limit [] statements
  succeeded : outcome.succeeded = true ↔ outcome.diagnostics.errors = 0
  balance : statements.length = (fates.filterMap Fate.equation?).length +
    outcome.diagnostics.warnings + outcome.diagnostics.errors
  warnings : outcome.diagnostics.warnings = fates.countP Fate.isDuplicate
  errors : outcome.diagnostics.errors = fates.countP Fate.isTooLarge
  reports : outcome.diagnostics.err =
    String.join ((fates.filterMap Fate.drop? ++ fates.filterMap Fate.refusal?).map Report.text)
  reported : List.Forall₂ (Fate.IsReportedWith options.limit)
    ((fates.filter fun fate => fate.drop?.isSome) ++ fates.filter fun fate => fate.refusal?.isSome)
    (fates.filterMap Fate.drop? ++ fates.filterMap Fate.refusal?)
  registrations : outcome.log.filterMap Event.registration? =
    [((fates.filterMap Fate.equation?).length,
      (store options (fates.filterMap Fate.definition?)).pendingCount)]
  accepted : fates.filterMap Fate.equation? = (Store.new options.limit).accepted
    ((fates.filterMap Fate.definition?).map Definition.equation)
  nodup : ((fates.filterMap Fate.equation?).map Equation.key).Nodup
  fits : ∀ equation ∈ fates.filterMap Fate.equation?, equation.rhs.size ≤ options.limit
  out : outcome.diagnostics.out =
    (if options.dumpEquations then printEquations (fates.filterMap Fate.definition?) ++ "\n" else "") ++
      printSolution options.showUnresolved (fates.filterMap Fate.definition?)
        (store options (fates.filterMap Fate.definition?)).solve.solution
  shown : PrintsSolution D options source outcome.diagnostics.out

/-- The form of the values in the log makes no difference to the account. -/
theorem Accounts.map {V W : Type} {options : Options} {source : String} {statements : List Statement}
    {fates : List (Fate D)} {outcome : Outcome V} (h : Accounts options source statements fates outcome)
    (f : V → W) : Accounts options source statements fates (outcome.map f) where
  fates_eq := h.fates_eq
  succeeded := h.succeeded
  balance := h.balance
  warnings := h.warnings
  errors := h.errors
  reports := h.reports
  reported := h.reported
  registrations := by
    rw [← h.registrations, Outcome.map, List.filterMap_map]
    exact congrArg (List.filterMap · outcome.log) (funext (Event.registration?_map f))
  accepted := h.accepted
  nodup := h.nodup
  fits := h.fits
  out := h.out
  shown := h.shown

/-- Registering the definitions of some statements in a new store reports the refusals among their
fates, and accepts the equations that are registered by their fates. -/
theorem register_new {limit : Nat} {statements : List Statement} {fates : List (Fate D)}
    (hfates : fates = Fate.all limit [] statements) :
    (register (.new limit) (fates.filterMap Fate.definition?)).2 = fates.filterMap Fate.refusal? ∧
      (Store.new limit).accepted ((fates.filterMap Fate.definition?).map Definition.equation) =
        fates.filterMap Fate.equation? := by
  have hregister := (Solver.announced_new (D := D) limit).register_encode
    (Solver.interned_new limit) rfl statements
  rw [hfates, (Fate.filterMap_definition?_all limit [] statements).1, Store.accepted_new]
  exact hregister

/-- Solving the definitions of some statements accounts for the statements, if its output shows the
solution. -/
theorem accounts_solve {options : Options} {source : String} {statements : List Statement}
    {fates : List (Fate D)} (hfates : fates = Fate.all options.limit [] statements)
    (hshown : PrintsSolution D options source
      (solve options ((Diagnostics.new .buffer).reportAll (fates.filterMap Fate.drop?))
        (fates.filterMap Fate.definition?)).diagnostics.out) :
    Accounts options source statements fates
      (solve options ((Diagnostics.new .buffer).reportAll (fates.filterMap Fate.drop?))
        (fates.filterMap Fate.definition?)) := by
  obtain ⟨hrefusals, haccepted⟩ := register_new hfates
  obtain ⟨herrors, hwarnings⟩ := Fate.countP_reports fates
  have hwritten := diagnostics_solve options (fates.filterMap Fate.drop?) (fates.filterMap Fate.definition?)
  have hlog := registrations_solve options
    ((Diagnostics.new .buffer).reportAll (fates.filterMap Fate.drop?)) (fates.filterMap Fate.definition?)
  have hnodup := Solver.nodup_accepted options.limit
    ((fates.filterMap Fate.definition?).map Definition.equation)
  rw [← Store.accepted_new, haccepted] at hnodup
  rw [haccepted] at hlog
  have hreported := Diagnostics.reportAll_new .buffer
    (fates.filterMap Fate.drop? ++ fates.filterMap Fate.refusal?)
  rw [herrors, hwarnings] at hreported
  rw [hrefusals, hreported] at hwritten
  exact
    { fates_eq := hfates
      succeeded := decide_eq_true_iff
      balance := by
        rw [hwritten, ← Fate.length_all (D := D) options.limit [] statements, ← hfates]
        exact Fate.length_eq_add fates
      warnings := by rw [hwritten]
      errors := by rw [hwritten]
      reports := by rw [hwritten]
      reported := by
        rw [hfates]
        exact Fate.forall₂_isReportedWith options.limit [] statements
      registrations := hlog
      accepted := haccepted.symm
      nodup := hnodup
      fits := by
        rw [hfates]
        exact Fate.size_le_of_mem_all
      out := by rw [hwritten]
      shown := hshown }

/-- A session over a text that cannot be read fails at once. -/
theorem runOver_of_unreadable (options : Options) {source : String}
    (hsource : ∀ tokens, Tokens.ofSource source = .ok tokens → tokens.lexemes ∉ Grammar.text) :
    FailsAtOnce (runOver D options source) := by
  obtain ⟨reports, hne, herrors, hread⟩ := Reading.ofSource_of_unreadable (D := D) options.limit hsource
  rw [runOver, hread, Diagnostics.reportAll_new]
  refine ⟨rfl, ?_, ?_, rfl, rfl⟩
  · obtain ⟨report, hreport⟩ := List.exists_mem_of_ne_nil reports hne
    exact (List.countP_pos_iff.mpr ⟨report, hreport, decide_eq_true (herrors report hreport)⟩).ne'
  · exact List.countP_eq_zero.mpr fun report hreport => by simp [herrors report hreport]

/-- A session over a text that can be read accounts for its equations. -/
theorem runOver_of_readable [LegibleDomain D] (hlegible : ∀ value : D, IsLegible value)
    (options : Options) {source : String} {tokens : Tokens}
    (hsource : Tokens.ofSource source = .ok tokens) (htext : tokens.lexemes ∈ Grammar.text) :
    ∃ statements parts, List.Forall₂ Statement.IsSpelledBy statements parts ∧
      parts.flatten = tokens.body ∧
      ∃ fates : List (Fate D), Accounts options source statements fates (runOver D options source) := by
  obtain ⟨statements, parts, hparts, hbody, hread⟩ :=
    Reading.ofTokens_of_mem_text (D := D) options.limit htext
  obtain ⟨hdefinitions, hdrops⟩ := Fate.filterMap_definition?_all (D := D) options.limit [] statements
  have hshown := printsSolution_runOver hlegible options ⟨tokens, parts, hsource, hparts, hbody⟩
  have hrun : runOver D options source =
      solve options ((Diagnostics.new .buffer).reportAll
        ((Fate.all options.limit [] statements : List (Fate D)).filterMap Fate.drop?))
        ((Fate.all options.limit [] statements).filterMap Fate.definition?) := by
    rw [runOver, Reading.ofSource, hsource]
    dsimp only
    rw [hread, hdefinitions, hdrops]
  rw [hrun] at hshown ⊢
  exact ⟨statements, parts, hparts, hbody, _, accounts_solve rfl hshown⟩

/-- The outcome of a session accounts for the equations of its text, over the domain that its options
choose. -/
def AccountsFor (options : Options) (source : String) (statements : List Statement)
    (outcome : Outcome String) : Prop :=
  match options.domain with
  | .ternary => ∃ fates : List (Fate Ternary), Accounts options source statements fates outcome
  | .contract => ∃ fates : List (Fate (Flat Contract)), Accounts options source statements fates outcome

/-- An account says whether the session succeeds. -/
theorem AccountsFor.succeeded {options : Options} {source : String} {statements : List Statement}
    {outcome : Outcome String} (h : AccountsFor options source statements outcome) :
    outcome.succeeded = true ↔ outcome.diagnostics.errors = 0 := by
  unfold AccountsFor at h
  split at h
  · exact h.choose_spec.succeeded
  · exact h.choose_spec.succeeded

/-- A session over a text that cannot be read fails at once, over either domain. -/
theorem run_of_unreadable (options : Options) {source : String}
    (hsource : ∀ tokens, Tokens.ofSource source = .ok tokens → tokens.lexemes ∉ Grammar.text) :
    FailsAtOnce (run options source) := by
  rw [run]
  split
  · exact (runOver_of_unreadable options hsource).map _
  · exact (runOver_of_unreadable options hsource).map _

/-- A session over a text that can be read accounts for its equations, over either domain. -/
theorem run_of_readable (options : Options) {source : String} {tokens : Tokens}
    (hsource : Tokens.ofSource source = .ok tokens) (htext : tokens.lexemes ∈ Grammar.text) :
    ∃ statements parts, List.Forall₂ Statement.IsSpelledBy statements parts ∧
      parts.flatten = tokens.body ∧ AccountsFor options source statements (run options source) := by
  rw [run]
  unfold AccountsFor
  cases options.domain with
  | ternary =>
    obtain ⟨statements, parts, hparts, hbody, fates, haccounts⟩ :=
      runOver_of_readable Ternary.isLegible options hsource htext
    exact ⟨statements, parts, hparts, hbody, fates, haccounts.map _⟩
  | contract =>
    obtain ⟨statements, parts, hparts, hbody, fates, haccounts⟩ :=
      runOver_of_readable Flat.isLegible_of_contract options hsource htext
    exact ⟨statements, parts, hparts, hbody, fates, haccounts.map _⟩

/-- A session succeeds if no error is reported. Over a text that has no tokens, or whose tokens are not
a text of the grammar, it fails at once. Otherwise each equation of the text is registered, or is
warned about as a repeated key, or is reported as too large, in one way only; the log counts the
registered equations, all of which are within the limit, and the solution is printed and can be read
off the output. -/
theorem run_accounts (options : Options) (source : String) :
    ((run options source).succeeded = true ↔ (run options source).diagnostics.errors = 0) ∧
    ((∀ tokens, Tokens.ofSource source = .ok tokens → tokens.lexemes ∉ Grammar.text) →
      FailsAtOnce (run options source)) ∧
    (∀ tokens, Tokens.ofSource source = .ok tokens → tokens.lexemes ∈ Grammar.text →
      ∃ statements parts, List.Forall₂ Statement.IsSpelledBy statements parts ∧
        parts.flatten = tokens.body ∧ AccountsFor options source statements (run options source)) := by
  refine ⟨?_, run_of_unreadable options, fun tokens => run_of_readable options⟩
  by_cases hreadable : ∃ tokens, Tokens.ofSource source = .ok tokens ∧ tokens.lexemes ∈ Grammar.text
  · obtain ⟨tokens, hsource, htext⟩ := hreadable
    obtain ⟨_, _, _, _, haccounts⟩ := run_of_readable options hsource htext
    exact haccounts.succeeded
  · have hfails : FailsAtOnce (run options source) :=
      run_of_unreadable options fun tokens hsource htext => hreadable ⟨tokens, hsource, htext⟩
    exact iff_of_false (by simp [hfails.succeeded]) hfails.errors

end Session

end MonotoneEquations
