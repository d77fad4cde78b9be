import Mathlib
import MonotoneEquations.Proofs.Alternatives
import MonotoneEquations.Proofs.RenamedRun
import MonotoneEquations.Proofs.SessionRun

/-!
# How a right hand side is written does not matter

The same alternatives can be written in another order, and with repetitions. The right hand sides that
are read off two such writings can differ, and so do the handles that their keys get. But within the
limit both are accepted, and what they leave in the solver is alike: values are equal, and sums hold
the same products in whatever order. Entries that are alike react alike to every value, so two sessions
over such texts cannot be told apart by anything that they leave, the log included.

Nothing is assumed about the polarities in which keys are defined.
-/

namespace MonotoneEquations

variable {D : Type}

/-! ## What is alike -/

namespace Status.Alike

variable {status other : Status D}

/-- Statuses that are alike are as far known. -/
theorem isWaiting_eq (h : status.Alike other) : other.isWaiting = status.isWaiting := by
  cases h <;> rfl

/-- Statuses that are alike have the same value. -/
theorem value?_eq (h : status.Alike other) : other.value? = status.value? := by
  cases h <;> rfl

/-- Statuses that are alike wait on the same keys. -/
theorem mem_mentions_iff (h : status.Alike other) (r : Key) :
    r ∈ other.mentions ↔ r ∈ status.mentions := by
  cases h with
  | resolved value => exact Iff.rfl
  | waiting hperm => exact (hperm.flatMap_right _).mem_iff.symm

/-- Statuses that are alike are recorded alike. -/
theorem event_eq (h : status.Alike other) (key : Key) : other.event key = status.event key := by
  cases h with
  | resolved value => rfl
  | waiting hperm => exact congrArg (Event.pending key) hperm.length_eq.symm

end Status.Alike

/-- Entries of the same key that have read the same keys and are as far known. -/
structure Entry.Alike (entry other : Entry D) : Prop where
  key_eq : other.key = entry.key
  mentions_iff (r : Key) : r ∈ other.mentions ↔ r ∈ entry.mentions
  status_alike : entry.status.Alike other.status

namespace Solver

/-- Solvers with entries that are alike, which have come as far with them and have logged the same. -/
structure Alike (solver other : Solver D) : Prop where
  limit_eq : other.limit = solver.limit
  entries : List.Forall₂ Entry.Alike solver.entries other.entries
  worklist_eq : other.worklist = solver.worklist
  log_eq : other.log = solver.log

namespace Alike

variable {solver other : Solver D}

/-- Solvers that are alike have accepted as many equations. -/
theorem size_eq (h : solver.Alike other) : other.size = solver.size := h.entries.length_eq.symm

/-- Solvers that are alike define the same keys. -/
theorem defines_eq (h : solver.Alike other) (key : Key) : other.defines key = solver.defines key := by
  have hkeys := map_eq_map_of_forall₂ h.entries (g := Entry.key) (k := Entry.key)
    fun _ _ hentry => hentry.key_eq
  have hany := congrArg (List.any · fun q => decide (q = key)) hkeys
  simpa [List.any_map, Function.comp_def, defines] using hany

/-- Solvers that are alike have as many waiting and as many resolved equations. -/
theorem counts_eq (h : solver.Alike other) :
    other.pendingCount = solver.pendingCount ∧ other.resolvedCount = solver.resolvedCount := by
  have hkind := map_eq_map_of_forall₂ h.entries (g := fun entry => entry.status.isWaiting)
    (k := fun entry => entry.status.isWaiting) fun _ _ hentry => hentry.status_alike.isWaiting_eq
  have hwaiting := congrArg (List.countP id) hkind
  have hresolved := congrArg (List.countP not) hkind
  rw [List.countP_map, List.countP_map] at hwaiting hresolved
  exact ⟨hwaiting, hresolved⟩

/-- Solvers that are alike have the same solution. -/
theorem solution_eq (h : solver.Alike other) : other.solution = solver.solution := by
  have hvalues := map_eq_map_of_forall₂ h.entries (g := Entry.resolution?) (k := Entry.resolution?)
    fun _ _ hentry => by
      rw [Entry.resolution?, Entry.resolution?, hentry.key_eq, hentry.status_alike.value?_eq]
  have hpairs := congrArg (List.filterMap id) hvalues
  rw [List.filterMap_map, List.filterMap_map] at hpairs
  exact congrArg KeyMap.ofList hpairs

/-- Registering equations whose statuses are alike. -/
theorem register (h : solver.Alike other) (key : Key) {status otherStatus : Status D}
    (hstatus : status.Alike otherStatus) :
    (solver.register key status).Alike (other.register key otherStatus) := by
  refine ⟨h.limit_eq, List.rel_append h.entries (.cons ?_ .nil), ?_, ?_⟩
  · exact ⟨rfl, hstatus.mem_mentions_iff, hstatus⟩
  · rw [Solver.register, Solver.register, hstatus.event_eq, h.worklist_eq]
  · rw [Solver.register, Solver.register, hstatus.event_eq, h.log_eq]

/-- Recording an event. -/
theorem record (h : solver.Alike other) (event : Event D) :
    (solver.record event).Alike (other.record event) :=
  ⟨h.limit_eq, h.entries, h.worklist_eq, congrArg (· ++ [event]) h.log_eq⟩

end Alike

end Solver

/-! ## Runs -/

variable [Domain D] [DecidableEq D]

/-- The order of its products does not matter when a value is put into a sum. -/
theorem Status.substitute_alike [EquationalDomain D] {sum other : List (Product D)}
    (hperm : sum.Perm other) (key : Key) (value : D) :
    (substitute key value sum).Alike (substitute key value other) := by
  have hmapped := hperm.map (Product.substitute key value)
  refine normalize_alike ?_ fun _ => hmapped.filter _
  exact (SaysSame.of_mem_iff fun product => hmapped.mem_iff).known_eq

/-- Entries that are alike react alike. -/
theorem Entry.Alike.receive [EquationalDomain D] {entry other : Entry D} (h : entry.Alike other)
    (source : Key) (value : D) :
    (entry.receive source value).1.Alike (other.receive source value).1 ∧
      (other.receive source value).2 = (entry.receive source value).2 := by
  obtain ⟨key, mentions, status⟩ := entry
  obtain ⟨otherKey, otherMentions, otherStatus⟩ := other
  obtain ⟨rfl, hmentions, hstatus⟩ := h
  cases hstatus with
  | resolved result => exact ⟨⟨rfl, hmentions, .resolved result⟩, rfl⟩
  | @waiting sum other hperm =>
    by_cases hsource : source ∈ mentions
    · rw [receive_of_waiting rfl hsource, receive_of_waiting rfl ((hmentions source).mpr hsource)]
      have halike := Status.substitute_alike hperm source value
      revert halike
      generalize Status.substitute source value sum = next
      generalize Status.substitute source value other = otherNext
      intro halike
      cases halike with
      | resolved result => exact ⟨⟨rfl, hmentions, .resolved result⟩, rfl⟩
      | waiting hperm => exact ⟨⟨rfl, hmentions, .waiting hperm⟩, rfl⟩
    · rw [receive_of_not_mem hsource, receive_of_not_mem (mt (hmentions source).mp hsource)]
      exact ⟨⟨rfl, hmentions, .waiting hperm⟩, rfl⟩

/-- Lists of entries that are alike react alike, and in the same order. -/
theorem forall₂_alike_receive [EquationalDomain D] {entries others : List (Entry D)}
    (h : List.Forall₂ Entry.Alike entries others) (source : Key) (value : D) :
    List.Forall₂ Entry.Alike ((entries.map (Entry.receive source value)).map Prod.fst)
        ((others.map (Entry.receive source value)).map Prod.fst) ∧
      (others.map (Entry.receive source value)).flatMap Prod.snd =
        (entries.map (Entry.receive source value)).flatMap Prod.snd := by
  induction h with
  | nil => exact ⟨.nil, rfl⟩
  | cons hentry _ ih =>
    obtain ⟨hreceived, hevents⟩ := hentry.receive source value
    refine ⟨.cons hreceived ih.1, ?_⟩
    simp only [List.map_cons, List.flatMap_cons, hevents, ih.2]

namespace Solver.Alike

variable [EquationalDomain D] {solver other : Solver D}

/-- Passing a value on. -/
theorem propagate (h : solver.Alike other) (source : Key) (value : D) :
    (solver.propagate source value).Alike (other.propagate source value) := by
  obtain ⟨hentries, hevents⟩ := forall₂_alike_receive h.entries source value
  refine ⟨h.limit_eq, hentries, ?_, ?_⟩
  · unfold Solver.propagate
    dsimp only
    rw [hevents, h.worklist_eq]
  · unfold Solver.propagate
    dsimp only
    rw [hevents, h.log_eq]

/-- Announcing a key. -/
theorem announce (h : solver.Alike other) (key : Key) (value : D) :
    (solver.announce key value).Alike (other.announce key value) := by
  unfold Solver.announce
  split
  · exact (h.propagate key value).propagate key.negate value
  · exact (h.propagate key.negate value).propagate key Domain.top

/-- Solvers that are alike arrive at solvers that are alike. -/
theorem run (h : solver.Alike other) : solver.run.Alike other.run := by
  -- Each step of the run has a partner from which the other run goes on.
  have hstep : ∀ (next : Solver D) (key : Key) (value : D) (rest : List (Key × D)),
      (∃ partner, next.Alike partner ∧ other.run = partner.run) →
      next.worklist = (key, value) :: rest →
      ∃ partner, ({ next with worklist := rest }.announce key value).Alike partner ∧
        other.run = partner.run := by
    intro next key value rest hnext hwork
    obtain ⟨partner, hpartner, hrun⟩ := hnext
    have hpop : Solver.Alike { next with worklist := rest } { partner with worklist := rest } :=
      ⟨hpartner.limit_eq, hpartner.entries, rfl, hpartner.log_eq⟩
    exact ⟨_, hpop.announce key value, hrun.trans (run_of_cons (hpartner.worklist_eq.trans hwork))⟩
  obtain ⟨⟨partner, hpartner, hrun⟩, hempty⟩ := run_induction hstep ⟨other, h, rfl⟩
  rw [hrun, run_of_nil (hpartner.worklist_eq.trans hempty)]
  exact hpartner

/-- Solvers that are alike find and log the same. -/
theorem solve_eq (h : solver.Alike other) : other.solve = solver.solve := by
  have hrun := h.run
  rw [solve, solve, hrun.solution_eq, hrun.log_eq, hrun.counts_eq.1, hrun.counts_eq.2]

end Solver.Alike

/-! ## Definitions -/

/-- Definitions of the same key on the same line, within the limit, of which nothing but the order of
their open products can be told apart. -/
structure Definition.Alike (limit : Nat) (definition other : Definition D) : Prop where
  line_eq : other.line = definition.line
  key_eq : other.equation.key = definition.equation.key
  status_alike : (definition.equation.rhs.statusUnder .nothing).Alike
    (other.equation.rhs.statusUnder .nothing)
  fits : definition.equation.rhs.size ≤ limit
  other_fits : other.equation.rhs.size ≤ limit

/-- Solvers that are alike treat definitions that are alike in the same way: they refuse both for the
same reason, or they accept both and stay alike. -/
theorem Solver.Alike.add {solver other : Solver D} (h : solver.Alike other)
    {definition otherDefinition : Definition D}
    (hdefinition : definition.Alike solver.limit otherDefinition) :
    (∃ error, solver.add definition.equation = .error error ∧
        other.add otherDefinition.equation = .error error) ∨
      ∃ next partner, solver.add definition.equation = .ok next ∧
        other.add otherDefinition.equation = .ok partner ∧ next.Alike partner := by
  have hdefines : other.defines otherDefinition.equation.key = solver.defines definition.equation.key := by
    rw [hdefinition.key_eq, h.defines_eq]
  cases hdefined : solver.defines definition.equation.key with
  | true =>
    refine .inl ⟨_, add_eq_error_iff.mpr (.inl ⟨hdefined, rfl⟩), add_eq_error_iff.mpr (.inl ⟨?_, ?_⟩)⟩
    · rw [hdefines, hdefined]
    · rw [hdefinition.key_eq]
  | false =>
    refine .inr ⟨_, _, add_eq_ok_iff.mpr ⟨hdefined, hdefinition.fits, rfl⟩,
      add_eq_ok_iff.mpr ⟨hdefines.trans hdefined, ?_, rfl⟩, ?_⟩
    · rw [h.limit_eq]
      exact hdefinition.other_fits
    · rw [hdefinition.key_eq]
      exact h.register _ hdefinition.status_alike

namespace Session

/-- A refusal is reported in the same way for definitions that are alike. -/
theorem refusal_eq {limit : Nat} {definition other : Definition D} (h : definition.Alike limit other)
    (error : EquationError) : refusal other error = refusal definition error := by
  unfold refusal
  rw [h.key_eq, h.line_eq]

/-- Registering definitions that are alike in stores of solvers that are alike leads to such stores
again, with the same reports. -/
theorem register_alike {keys otherKeys : ArrivalSet Key} {solver other : Solver D}
    (h : solver.Alike other) (hkeys : Solver.Interned keys solver)
    (hotherKeys : Solver.Interned otherKeys other) {definitions others : List (Definition D)}
    (hdefinitions : List.Forall₂ (Definition.Alike solver.limit) definitions others) :
    ∃ (last partner : Solver D) (larger otherLarger : ArrivalSet Key),
      (register (solver.encode keys) definitions).1 = last.encode larger ∧
      (register (other.encode otherKeys) others).1 = partner.encode otherLarger ∧
      Solver.Interned larger last ∧ Solver.Interned otherLarger partner ∧ last.Alike partner ∧
      (register (other.encode otherKeys) others).2 = (register (solver.encode keys) definitions).2 := by
  generalize hlimit : solver.limit = limit at hdefinitions
  induction hdefinitions generalizing solver other keys otherKeys with
  | nil => exact ⟨_, _, _, _, rfl, rfl, hkeys, hotherKeys, h, rfl⟩
  | @cons definition otherDefinition _ _ hdefinition _ ih =>
    subst hlimit
    rw [register, register]
    rcases h.add hdefinition with ⟨error, hadd, hotherAdd⟩ | ⟨next, partner, hadd, hpartner, hnext⟩
    · have hrest := ih h (hkeys.insert definition.equation.key)
        (hotherKeys.insert otherDefinition.equation.key) rfl
      obtain ⟨_, _, _, _, hlast, hlastPartner, hinterned, hpartnerInterned, halike, hreports⟩ := hrest
      rw [hkeys.add_encode_of_error hadd, hotherKeys.add_encode_of_error hotherAdd]
      dsimp only
      rw [hreports, refusal_eq hdefinition]
      exact ⟨_, _, _, _, hlast, hlastPartner, hinterned, hpartnerInterned, halike, rfl⟩
    · obtain ⟨larger, hstep, hlarger⟩ := hkeys.add_encode_of_ok hadd
      obtain ⟨otherLarger, hotherStep, hotherLarger⟩ := hotherKeys.add_encode_of_ok hpartner
      rw [hstep, hotherStep]
      exact ih hnext hlarger hotherLarger (Solver.limit_eq_of_add hadd)

variable [EquationalDomain D] [Spelling D]

/-- Solving definitions that are alike leads to the same outcome, unless the equations are printed. -/
theorem solve_eq_of_alike (options : Options) (hdump : options.dumpEquations = false)
    (diagnostics : Diagnostics) {definitions others : List (Definition D)}
    (h : List.Forall₂ (Definition.Alike options.limit) definitions others) :
    solve options diagnostics others = solve options diagnostics definitions := by
  have hnew : (Store.new options.limit : Store D) =
      (Solver.new options.limit).encode .empty := rfl
  have hself : (Solver.new options.limit : Solver D).Alike (.new options.limit) := ⟨rfl, .nil, rfl, rfl⟩
  have hinterned := Solver.interned_new (D := D) options.limit
  obtain ⟨last, partner, larger, otherLarger, hlast, hpartner, hlarger, hotherLarger, halike, hreports⟩ :=
    register_alike hself hinterned hinterned h
  have hkeys : others.map (fun definition => definition.equation.key) =
      definitions.map fun definition => definition.equation.key :=
    map_eq_map_of_forall₂ h fun _ _ hdefinition => hdefinition.key_eq
  have hsize : (partner.encode otherLarger).size = (last.encode larger).size := halike.size_eq
  have hcount : (partner.encode otherLarger).pendingCount = (last.encode larger).pendingCount := by
    rw [hotherLarger.pendingCount_encode, hlarger.pendingCount_encode, halike.counts_eq.1]
  have hfound (event : Event D) : ((partner.encode otherLarger).record event).solve =
      ((last.encode larger).record event).solve :=
    ((hotherLarger.record event).solve_encode.trans (halike.record event).solve_eq).trans
      (hlarger.record event).solve_encode.symm
  simp only [solve, hnew, hlast, hpartner, hreports, hsize, hcount, hfound, hdump, printSolution, hkeys]
  rfl

end Session

/-! ## Texts -/

/-- Sets with the same members list them in some order. -/
theorem ArrivalSet.SameMembers.perm {α : Type} [DecidableEq α] {s t : ArrivalSet α}
    (h : s.SameMembers t) : s.toList.Perm t.toList :=
  (s.nodup.subperm h.2).perm_of_length_le h.1.ge

section Texts

variable [Spelling D]

/-- Another statement about the same key on the same line has the same alternatives over `D`, when each
is read as a value and a set of keys, and the different ones do not mention too many keys. -/
structure Statement.Rewords (D : Type) [Domain D] [DecidableEq D] [Spelling D] (limit : Nat)
    (statement other : Statement) : Prop where
  line_eq : other.line = statement.line
  key_eq : other.key = statement.key
  same : (Product.ofAlternatives statement.alternatives : ArrivalSet (Product D)).SameMembers
    (Product.ofAlternatives other.alternatives)
  fits : Product.occurrences
    (Product.ofAlternatives statement.alternatives : ArrivalSet (Product D)).toList ≤ limit

instance (limit : Nat) (statement other : Statement) : Decidable (statement.Rewords D limit other) :=
  decidable_of_iff (other.line = statement.line ∧ other.key = statement.key ∧
    (Product.ofAlternatives statement.alternatives : ArrivalSet (Product D)).SameMembers
      (Product.ofAlternatives other.alternatives) ∧
    Product.occurrences
      (Product.ofAlternatives statement.alternatives : ArrivalSet (Product D)).toList ≤ limit)
    ⟨fun h => ⟨h.1, h.2.1, h.2.2.1, h.2.2.2⟩, fun h => ⟨h.line_eq, h.key_eq, h.same, h.fits⟩⟩

variable [EquationalDomain D] {limit : Nat}

/-- A statement and a rewording of it make definitions that are alike. -/
theorem Statement.Rewords.exists_alike {statement other : Statement}
    (h : statement.Rewords D limit other) :
    ∃ definition otherDefinition, statement.definition? D limit = some definition ∧
      other.definition? D limit = some otherDefinition ∧ definition.Alike limit otherDefinition := by
  have hperm := h.same.perm
  have hotherFits : Product.occurrences
      (Product.ofAlternatives other.alternatives : ArrivalSet (Product D)).toList ≤ limit := by
    rw [Product.occurrences_eq_sum, ← (hperm.map _).sum_eq, ← Product.occurrences_eq_sum]
    exact h.fits
  obtain ⟨rhs, hrhs, hsize⟩ := Rhs.exists_ofAlternatives h.fits
  obtain ⟨otherRhs, hotherRhs, hotherSize⟩ := Rhs.exists_ofAlternatives hotherFits
  have hsame : SaysSame (statement.alternatives.map (Product.ofAlternative (D := D)))
      (other.alternatives.map Product.ofAlternative) :=
    .of_mem_iff fun product =>
      ArrivalSet.mem_ofList.symm.trans (hperm.mem_iff.trans ArrivalSet.mem_ofList)
  have hsums : SaysSame rhs.sum otherRhs.sum :=
    (Rhs.saysSame_of_ofAlternatives hrhs).trans
      (hsame.trans (Rhs.saysSame_of_ofAlternatives hotherRhs).symm)
  have hstatus := hsums.normalize_alike rhs.nodup_sum otherRhs.nodup_sum
  rw [Rhs.normalize_sum, Rhs.normalize_sum] at hstatus
  refine ⟨_, _, by rw [definition?, hrhs], by rw [definition?, hotherRhs], ?_⟩
  exact ⟨h.line_eq, h.key_eq, hstatus, hsize, hotherSize⟩

/-- Statements and rewordings of them make definitions that are alike, and none is dropped. -/
theorem forall₂_alike_of_rewords {statements others : List Statement}
    (h : List.Forall₂ (Statement.Rewords D limit) statements others) :
    List.Forall₂ (Definition.Alike limit) (statements.filterMap (Statement.definition? D limit))
        (others.filterMap (Statement.definition? D limit)) ∧
      statements.filterMap (Statement.drop? D limit) = [] ∧
      others.filterMap (Statement.drop? D limit) = [] := by
  have hdrop {statement : Statement} {definition : Definition D}
      (hdefinition : statement.definition? D limit = some definition) :
      statement.drop? D limit = none := by
    unfold Statement.definition? at hdefinition
    split at hdefinition
    next hok => rw [Statement.drop?, hok]
    next => cases hdefinition
  induction h with
  | nil => exact ⟨.nil, rfl, rfl⟩
  | cons hfirst _ ih =>
    obtain ⟨definition, otherDefinition, hdefinition, hother, halike⟩ := hfirst.exists_alike
    simp only [List.filterMap_cons, hdefinition, hother, hdrop hdefinition, hdrop hother]
    exact ⟨.cons halike ih.1, ih.2⟩

end Texts

namespace Session

/-- A session over a rewording of a text has the same outcome, unless the equations are printed. -/
theorem runOver_eq_of_rewords [Spelling D] [EquationalDomain D] {options : Options}
    (hdump : options.dumpEquations = false) {source other : String} {statements others : List Statement}
    (hsource : ConsistsOf source statements) (hother : ConsistsOf other others)
    (h : List.Forall₂ (Statement.Rewords D options.limit) statements others) :
    runOver D options other = runOver D options source := by
  obtain ⟨halike, hdrops, hotherDrops⟩ := forall₂_alike_of_rewords h
  rw [runOver, runOver, hsource.ofSource_eq, hother.ofSource_eq, hdrops, hotherDrops]
  exact solve_eq_of_alike options hdump _ halike

/-- The other statements reword the statements over the domain that the options choose. -/
def RewordsFor (options : Options) (statements others : List Statement) : Prop :=
  match options.domain with
  | .ternary => List.Forall₂ (Statement.Rewords Ternary options.limit) statements others
  | .contract => List.Forall₂ (Statement.Rewords (Flat Contract) options.limit) statements others

/-- How right hand sides are written does not matter within the limit: over a text with the same
alternatives in each equation, in whatever order and however often they are repeated, a session succeeds
or fails in the same way, with the same output, the same reports and the same log. -/
theorem run_eq_of_rewords (options : Options) (hdump : options.dumpEquations = false)
    {source other : String} {statements others : List Statement} (hsource : ConsistsOf source statements)
    (hother : ConsistsOf other others) (hrewords : RewordsFor options statements others) :
    run options source = run options other := by
  unfold RewordsFor at hrewords
  split at hrewords
  next hdomain => rw [run, run, hdomain, runOver_eq_of_rewords hdump hsource hother hrewords]
  next hdomain => rw [run, run, hdomain, runOver_eq_of_rewords hdump hsource hother hrewords]

/-- A text that defines both polarities of a key. -/
def doubledText : String := "k = a | NotNull | Null;\n!k = k & c | Null & Pure & d | Null | c & k;"

/-- The same with the constants first. -/
def doubledRewording : String := "k = NotNull | Null | a;\n!k = Null | d & Pure & Null | k & c;"

/-- The statements of the text. -/
def doubledStatements : List Statement :=
  let atom (base : String) : Key := ⟨base, true, false⟩
  [⟨1, atom "k", [[atom "a"], [atom "NotNull"], [atom "Null"]]⟩,
    ⟨2, (atom "k").negate, [[atom "k", atom "c"], [atom "Null", atom "Pure", atom "d"], [atom "Null"],
      [atom "c", atom "k"]]⟩]

/-- The statements of the rewording. -/
def doubledOthers : List Statement :=
  let atom (base : String) : Key := ⟨base, true, false⟩
  [⟨1, atom "k", [[atom "NotNull"], [atom "Null"], [atom "a"]]⟩,
    ⟨2, (atom "k").negate, [[atom "Null"], [atom "d", atom "Pure", atom "Null"], [atom "k", atom "c"]]⟩]

/-- Both texts have the same outcome over contracts with the limit 3, although one of them has a value
where the other has products. -/
theorem run_eq_of_rewords_doubled :
    let options : Options := { domain := .contract, limit := 3 }
    ConsistsOf doubledText doubledStatements ∧ ConsistsOf doubledRewording doubledOthers ∧
      RewordsFor options doubledStatements doubledOthers ∧
      run options doubledText = run options doubledRewording ∧
      doubledStatements.map (fun statement =>
          ((statement.definition? (Flat Contract) 3).map fun definition => definition.equation.rhs.size)) =
        [some 1, some 3] ∧
      doubledOthers.map (fun statement =>
          ((statement.definition? (Flat Contract) 3).map fun definition => definition.equation.rhs.size)) =
        [some 0, some 3] := by
  have htokens : Tokens.ofSource doubledText = .ok ⟨(doubledStatements.map fun statement =>
      statement.lexemes.map fun lexeme => ⟨lexeme, statement.line⟩).flatten, 2⟩ := by cbv
  have hotherTokens : Tokens.ofSource doubledRewording = .ok ⟨(doubledOthers.map fun statement =>
      statement.lexemes.map fun lexeme => ⟨lexeme, statement.line⟩).flatten, 2⟩ := by cbv
  have hsource : ConsistsOf doubledText doubledStatements :=
    ⟨_, _, htokens, .cons ⟨by simp [Statement.IsComplete], rfl, rfl⟩
      (.cons ⟨by simp [Statement.IsComplete], rfl, rfl⟩ .nil), rfl⟩
  have hother : ConsistsOf doubledRewording doubledOthers :=
    ⟨_, _, hotherTokens, .cons ⟨by simp [Statement.IsComplete], rfl, rfl⟩
      (.cons ⟨by simp [Statement.IsComplete], rfl, rfl⟩ .nil), rfl⟩
  have hrewords : RewordsFor { domain := .contract, limit := 3 } doubledStatements doubledOthers :=
    .cons (by decide) (.cons (by decide) .nil)
  exact ⟨hsource, hother, hrewords, run_eq_of_rewords _ rfl hsource hother hrewords, by decide, by decide⟩

end Session

end MonotoneEquations
