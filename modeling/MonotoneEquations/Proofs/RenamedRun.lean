import MonotoneEquations.Proofs.Refusal
import MonotoneEquations.Proofs.Renaming

/-!
# Names of keys and their order do not matter

Renaming all keys of a system renames what a caller sees of it: the results of calls, the counts after
each of them, the log, and the solution. The renamed store works in another order inside. It interns
the keys of a product in the order of the new names, so keys get other handles, the handles in its
components are sorted differently, and dependents are linked in another order. None of this shows.

The proof follows the solver, which knows no handles. Entries of a solver and of its renamed one
correspond in the order of registration. They can list the keys that they mentioned in different
orders, but only whether a key is among them makes a difference. Both solvers pop corresponding keys,
so nothing is assumed about the polarities in which keys are defined.
-/

namespace MonotoneEquations

variable {D : Type} {f : Renaming}

/-! ## Entries -/

/-- The other entry is the one of the renamed equation, up to the order of its mentions. -/
structure Entry.Renamed (f : Renaming) (entry other : Entry D) : Prop where
  key_eq : other.key = f entry.key
  mentions_iff (r : Key) : f r ∈ other.mentions ↔ r ∈ entry.mentions
  status_eq : other.status = entry.status.rename f

/-- Lists whose members correspond have the same images, if members that correspond have. -/
theorem map_eq_map_of_forall₂ {α β γ : Type} {R : α → β → Prop} {l : List α} {m : List β}
    (h : List.Forall₂ R l m) {g : β → γ} {k : α → γ} (himage : ∀ a b, R a b → g b = k a) :
    m.map g = l.map k := by
  rw [eq_comm, ← List.forall₂_eq_eq_eq, List.forall₂_map_left_iff, List.forall₂_map_right_iff]
  exact h.imp fun a b hab => (himage a b hab).symm

/-- Entries that correspond have corresponding values. -/
theorem Entry.Renamed.resolution?_eq {entry other : Entry D} (h : entry.Renamed f other) :
    other.resolution? = entry.resolution?.map f.assignment := by
  rw [resolution?, resolution?, h.status_eq, h.key_eq, Status.value?_rename, Option.map_map]
  rfl

/-- The renamed status is recorded under the new name. -/
theorem Status.event_rename (f : Renaming) (key : Key) (status : Status D) :
    (status.rename f).event (f key) = (status.event key).rename f := by
  cases status with
  | waiting sum => exact congrArg (Event.pending (f key)) (List.length_map _)
  | resolved value => rfl

variable [Domain D] [DecidableEq D]

/-- Entries that correspond react alike to a key and its new name. -/
theorem Entry.Renamed.receive {entry other : Entry D} (h : entry.Renamed f other) (source : Key)
    (value : D) :
    (entry.receive source value).1.Renamed f (other.receive (f source) value).1 ∧
      (other.receive (f source) value).2 = (entry.receive source value).2.map (Event.rename f) := by
  cases hstatus : entry.status with
  | resolved result =>
    have hother : other.status = .resolved result := by rw [h.status_eq, hstatus]; rfl
    rw [receive_of_resolved hstatus, receive_of_resolved hother]
    exact ⟨h, rfl⟩
  | waiting sum =>
    have hother : other.status = .waiting (sum.map (Product.rename f)) := by
      rw [h.status_eq, hstatus]
      rfl
    by_cases hsource : source ∈ entry.mentions
    · rw [receive_of_waiting hstatus hsource,
        receive_of_waiting hother ((h.mentions_iff source).mpr hsource),
        Status.substitute_map_rename, h.key_eq]
      cases Status.substitute source value sum with
      | waiting rest => exact ⟨⟨rfl, h.mentions_iff, rfl⟩, rfl⟩
      | resolved result => exact ⟨⟨rfl, h.mentions_iff, rfl⟩, rfl⟩
    · rw [receive_of_not_mem hsource,
        receive_of_not_mem (mt (h.mentions_iff source).mp hsource)]
      exact ⟨h, rfl⟩

/-- Lists of entries that correspond react alike, and in the same order. -/
theorem forall₂_renamed_receive {entries others : List (Entry D)}
    (h : List.Forall₂ (Entry.Renamed f) entries others) (source : Key) (value : D) :
    List.Forall₂ (Entry.Renamed f) ((entries.map (Entry.receive source value)).map Prod.fst)
        ((others.map (Entry.receive (f source) value)).map Prod.fst) ∧
      (others.map (Entry.receive (f source) value)).flatMap Prod.snd =
        ((entries.map (Entry.receive source value)).flatMap Prod.snd).map (Event.rename f) := by
  induction h with
  | nil => exact ⟨.nil, rfl⟩
  | cons hentry _ ih =>
    obtain ⟨hreceived, hevents⟩ := hentry.receive source value
    refine ⟨.cons hreceived ih.1, ?_⟩
    simp only [List.map_cons, List.flatMap_cons, List.map_append, hevents, ih.2]

namespace Solver

/-! ## Solvers -/

/-- The other solver has accepted the renamed equations and has come as far with them. -/
structure Renamed (f : Renaming) (solver other : Solver D) : Prop where
  limit_eq : other.limit = solver.limit
  entries : List.Forall₂ (Entry.Renamed f) solver.entries other.entries
  worklist_eq : other.worklist = solver.worklist.map f.assignment
  log_eq : other.log = solver.log.map (Event.rename f)

variable {solver other : Solver D}

omit [Domain D] [DecidableEq D] in
/-- A new solver corresponds to itself. -/
theorem renamed_new (f : Renaming) (limit : Nat) : Renamed f (new limit : Solver D) (new limit) :=
  ⟨rfl, .nil, rfl, rfl⟩

omit [Domain D] [DecidableEq D] in
/-- Solvers that correspond have accepted as many equations. -/
theorem Renamed.size_eq (h : Renamed f solver other) : other.size = solver.size :=
  h.entries.length_eq.symm

omit [Domain D] [DecidableEq D] in
/-- Solvers that correspond have as many entries with a status of some kind, if its kind does not
depend on names. -/
theorem Renamed.countP_eq (h : Renamed f solver other) {p : Status D → Bool}
    (hp : ∀ status, p (status.rename f) = p status) :
    other.entries.countP (fun entry => p entry.status) =
      solver.entries.countP fun entry => p entry.status := by
  have hkind := map_eq_map_of_forall₂ h.entries (g := fun entry => p entry.status)
    (k := fun entry => p entry.status) fun _ _ hentry => by rw [hentry.status_eq, hp]
  simpa [List.countP_map, Function.comp_def] using congrArg (List.countP id) hkind

omit [Domain D] [DecidableEq D] in
/-- Solvers that correspond have as many waiting equations. -/
theorem Renamed.pendingCount_eq (h : Renamed f solver other) :
    other.pendingCount = solver.pendingCount := h.countP_eq (Status.isWaiting_rename f)

omit [Domain D] [DecidableEq D] in
/-- Solvers that correspond have as many resolved equations. -/
theorem Renamed.resolvedCount_eq (h : Renamed f solver other) :
    other.resolvedCount = solver.resolvedCount :=
  h.countP_eq (p := fun status => !status.isWaiting) fun status => by rw [Status.isWaiting_rename]

omit [Domain D] [DecidableEq D] in
/-- The renamed solver defines the new name of a key exactly if the solver defines the key. -/
theorem Renamed.defines_eq (h : Renamed f solver other) (key : Key) :
    other.defines (f key) = solver.defines key := by
  have hkeys := map_eq_map_of_forall₂ h.entries (g := Entry.key) (k := fun entry => f entry.key)
    fun _ _ hentry => hentry.key_eq
  have hany := congrArg (List.any · fun q => decide (q = f key)) hkeys
  simpa [List.any_map, Function.comp_def, f.injective.eq_iff, defines] using hany

omit [Domain D] [DecidableEq D] in
/-- Solvers that correspond have resolved corresponding keys, with the same values. -/
theorem Renamed.resolutions_eq (h : Renamed f solver other) :
    other.resolutions = solver.resolutions.map f.assignment := by
  have hvalues := map_eq_map_of_forall₂ h.entries fun _ _ hentry => hentry.resolution?_eq
  have hpairs := congrArg (List.filterMap id) hvalues
  rw [List.filterMap_map, List.filterMap_map] at hpairs
  rw [resolutions, resolutions, List.map_filterMap]
  exact hpairs

omit [Domain D] [DecidableEq D] in
/-- The solution of the renamed solver is the renamed solution. -/
theorem Renamed.solution_eq (h : Renamed f solver other) (hnodup : (solver.entries.map Entry.key).Nodup) :
    other.solution = solver.solution.rename f := by
  have hother : other.solution = .ofList other.resolutions := rfl
  rw [hother, h.resolutions_eq]
  exact KeyMap.ofList_map_assignment f (nodup_resolutions_of_nodup hnodup)

/-! ## Steps -/

omit [Domain D] [DecidableEq D] in
/-- Registering an equation under its new name. -/
theorem Renamed.register (h : Renamed f solver other) (key : Key) (status : Status D) :
    Renamed f (solver.register key status) (other.register (f key) (status.rename f)) := by
  have hresolved : ((status.event key).rename f).resolution?.toList =
      (status.event key).resolution?.toList.map f.assignment := by
    cases status <;> rfl
  refine ⟨h.limit_eq, List.rel_append h.entries (.cons ?_ .nil), ?_, ?_⟩
  · exact ⟨rfl, fun r => Status.apply_mem_mentions_rename, rfl⟩
  · rw [Solver.register, Solver.register, Status.event_rename, hresolved, h.worklist_eq, List.map_append]
  · rw [Solver.register, Solver.register, Status.event_rename, h.log_eq, List.map_append,
      List.map_singleton]

/-- Passing on the value of a key, and of its new name. -/
theorem Renamed.propagate (h : Renamed f solver other) (source : Key) (value : D) :
    Renamed f (solver.propagate source value) (other.propagate (f source) value) := by
  obtain ⟨hentries, hevents⟩ := forall₂_renamed_receive h.entries source value
  refine ⟨h.limit_eq, hentries, ?_, ?_⟩
  · unfold Solver.propagate
    dsimp only
    rw [hevents, Event.filterMap_resolution?_rename, h.worklist_eq, List.map_append, List.map_reverse]
  · unfold Solver.propagate
    dsimp only
    rw [hevents, h.log_eq, List.map_append]

/-- Announcing a key, and its new name. -/
theorem Renamed.announce (h : Renamed f solver other) (key : Key) (value : D) :
    Renamed f (solver.announce key value) (other.announce (f key) value) := by
  unfold Solver.announce
  rw [f.stable_apply, ← f.negate_apply]
  split
  · exact (h.propagate key value).propagate key.negate value
  · exact (h.propagate key.negate value).propagate key Domain.top

/-- Corresponding keys leave the worklists and are announced. -/
theorem Renamed.announce_pop (h : Renamed f solver other) {key : Key} {value : D}
    {rest : List (Key × D)} (hwork : solver.worklist = (key, value) :: rest) :
    other.worklist = (f key, value) :: rest.map f.assignment ∧
      Renamed f ({ solver with worklist := rest }.announce key value)
        ({ other with worklist := rest.map f.assignment }.announce (f key) value) := by
  have hpop : Renamed f { solver with worklist := rest }
      { other with worklist := rest.map f.assignment } := ⟨h.limit_eq, h.entries, rfl, h.log_eq⟩
  refine ⟨?_, hpop.announce key value⟩
  rw [h.worklist_eq, hwork]
  rfl

/-- Solvers that correspond arrive at solvers that correspond. -/
theorem Renamed.run (h : Renamed f solver other) : Renamed f solver.run other.run := by
  -- Each step of the run has a partner from which the renamed run goes on.
  have hstep : ∀ (next : Solver D) (key : Key) (value : D) (rest : List (Key × D)),
      (∃ partner, Renamed f next partner ∧ other.run = partner.run) →
      next.worklist = (key, value) :: rest →
      ∃ partner, Renamed f ({ next with worklist := rest }.announce key value) partner ∧
        other.run = partner.run := by
    intro next key value rest hnext hwork
    obtain ⟨partner, hpartner, hrun⟩ := hnext
    obtain ⟨hpartnerWork, hannounced⟩ := hpartner.announce_pop hwork
    exact ⟨_, hannounced, hrun.trans (run_of_cons hpartnerWork)⟩
  obtain ⟨⟨partner, hpartner, hrun⟩, hempty⟩ := run_induction hstep ⟨other, h, rfl⟩
  have hpartnerEmpty : partner.worklist = [] := by rw [hpartner.worklist_eq, hempty, List.map_nil]
  rw [hrun, run_of_nil hpartnerEmpty]
  exact hpartner

/-- An equation is accepted under its new name if it is accepted. -/
theorem Renamed.add_of_ok (h : Renamed f solver other) {equation : Equation D} {next : Solver D}
    (hadd : solver.add equation = .ok next) :
    ∃ partner, other.add (equation.rename f) = .ok partner ∧ Renamed f next partner := by
  obtain ⟨hnew, hfits, rfl⟩ := add_eq_ok_iff.mp hadd
  refine ⟨_, add_eq_ok_iff.mpr ⟨?_, ?_, rfl⟩, ?_⟩
  · exact (h.defines_eq equation.key).trans hnew
  · rw [h.limit_eq]
    exact (Rhs.size_rename f equation.rhs).trans_le hfits
  · rw [Equation.rename, Rhs.statusUnder_nothing_rename]
    exact h.register equation.key _

/-- An equation is refused under its new name if it is refused, for the same reason. -/
theorem Renamed.add_of_error (h : Renamed f solver other) {equation : Equation D}
    {error : EquationError} (hadd : solver.add equation = .error error) :
    other.add (equation.rename f) = .error (error.rename f) := by
  have hdefines : other.defines (equation.rename f).key = solver.defines equation.key :=
    h.defines_eq equation.key
  have hsize : (equation.rename f).rhs.size = equation.rhs.size := Rhs.size_rename f equation.rhs
  rw [add_eq_error_iff, hdefines, hsize, h.limit_eq]
  rcases add_eq_error_iff.mp hadd with ⟨hdefined, rfl⟩ | ⟨hnew, hlarge, rfl⟩
  · exact .inl ⟨hdefined, rfl⟩
  · exact .inr ⟨hnew, hlarge, rfl⟩

end Solver

/-! ## What a caller sees -/

/-- The results of calls, each with the view after it, and what a run has found. -/
abbrev Transcript (D : Type) : Type := List (Except EquationError Unit × View D) × Findings D

/-- The view with the log renamed. -/
def View.rename (f : Renaming) (view : View D) : View D :=
  { view with log := view.log.map (Event.rename f) }

/-- The findings with solution and log renamed. -/
def Findings.rename (f : Renaming) (findings : Findings D) : Findings D :=
  ⟨findings.solution.rename f, findings.log.map (Event.rename f)⟩

/-- The transcript with the errors, the views and the findings renamed. -/
def Transcript.rename (f : Renaming) (transcript : Transcript D) : Transcript D :=
  (transcript.1.map fun call => (call.1.mapError (EquationError.rename f), call.2.rename f),
    transcript.2.rename f)

namespace Solver

variable {keys otherKeys : ArrivalSet Key} {solver other : Solver D}

omit [Domain D] [DecidableEq D] in
/-- Stores of solvers that correspond have corresponding views. -/
theorem Renamed.view_encode (h : Renamed f solver other) (hkeys : Interned keys solver)
    (hotherKeys : Interned otherKeys other) :
    (other.encode otherKeys).view = (solver.encode keys).view.rename f := by
  rw [hotherKeys.view_encode, hkeys.view_encode, h.size_eq, h.pendingCount_eq, h.log_eq]
  rfl

/-- Stores of solvers that correspond have corresponding findings. -/
theorem Renamed.solve_encode (h : Renamed f solver other) (hkeys : Interned keys solver)
    (hotherKeys : Interned otherKeys other) :
    (other.encode otherKeys).solve = (solver.encode keys).solve.rename f := by
  have hrun := h.run
  have hnodup := hkeys.run_encode.2.nodup
  rw [hotherKeys.solve_encode, hkeys.solve_encode, solve, solve, hrun.solution_eq hnodup,
    hrun.log_eq, hrun.resolvedCount_eq, hrun.pendingCount_eq, Findings.rename, List.map_append]
  rfl

/-- Stores of solvers that correspond have corresponding transcripts. -/
theorem Renamed.transcript_encode (h : Renamed f solver other) (hkeys : Interned keys solver)
    (hotherKeys : Interned otherKeys other) (later : List (Equation D)) :
    (other.encode otherKeys).transcript (later.map (Equation.rename f)) =
      Transcript.rename f ((solver.encode keys).transcript later) := by
  induction later generalizing keys otherKeys solver other with
  | nil =>
    rw [List.map_nil, Store.transcript, Store.transcript, h.solve_encode hkeys hotherKeys]
    rfl
  | cons equation later ih =>
    rw [List.map_cons, Store.transcript, Store.transcript]
    cases hadd : solver.add equation with
    | error error =>
      have hnext := hkeys.insert equation.key
      have hotherNext := hotherKeys.insert (equation.rename f).key
      rw [hkeys.add_encode_of_error hadd, hotherKeys.add_encode_of_error (h.add_of_error hadd)]
      dsimp only
      rw [h.view_encode hnext hotherNext, ih h hnext hotherNext]
      rfl
    | ok next =>
      obtain ⟨partner, haddPartner, hpartner⟩ := h.add_of_ok hadd
      obtain ⟨larger, hstep, hnext⟩ := hkeys.add_encode_of_ok hadd
      obtain ⟨otherLarger, hotherStep, hotherNext⟩ := hotherKeys.add_encode_of_ok haddPartner
      rw [hstep, hotherStep]
      dsimp only
      rw [hpartner.view_encode hnext hotherNext, ih hpartner hnext hotherNext]
      rfl

end Solver

namespace Store

/-- Renaming the keys of all equations renames the transcript: the results of the calls, the views
after them, the log and the solution. The renamed solution is the image of the solution. -/
theorem transcript_rename (f : Renaming) (limit : Nat) (offered : List (Equation D)) :
    (new limit).transcript (offered.map (Equation.rename f)) =
        Transcript.rename f ((new limit).transcript offered) ∧
      ∀ key value, ((new limit).transcript (offered.map (Equation.rename f))).2.solution.get? key =
          some value ↔
        ∃ original, f original = key ∧
          ((new limit).transcript offered).2.solution.get? original = some value := by
  have hnew : Solver.encode .empty (Solver.new limit) = (new limit : Store D) := rfl
  have htranscript := (Solver.renamed_new f limit).transcript_encode (Solver.interned_new (D := D) limit)
    (Solver.interned_new limit) offered
  rw [hnew] at htranscript
  refine ⟨htranscript, fun key value => ?_⟩
  rw [htranscript]
  exact KeyMap.get?_rename

/-- The names `p` and `q` exchanged, of which the second one changes its polarity. -/
def exchange : Renaming := .ofBases (Equiv.swap "p" "q") (Equiv.injective _) (· = "q")

/-- A system that defines both polarities of `p`, and an equation that mentions `p` and `q`. -/
def exchangeSample : List (Equation Ternary) := threeMentionsSample :: bothPolaritiesSample

/-- The sample and the exchanged one have corresponding transcripts, although `p` has the second handle
in the sample, and its new name the third one. -/
theorem transcript_rename_exchange :
    (new 3).transcript (exchangeSample.map (Equation.rename exchange)) =
        Transcript.rename exchange ((new 3).transcript exchangeSample) ∧
      ((new 3).addAll exchangeSample).keys.indexOf ⟨"p", false, false⟩ = 1 ∧
      ((new 3).addAll (exchangeSample.map (Equation.rename exchange))).keys.indexOf
        (exchange ⟨"p", false, false⟩) = 2 := by
  exact ⟨(transcript_rename exchange 3 exchangeSample).1, by cbv, by cbv⟩

end Store

end MonotoneEquations
