import Mathlib
import MonotoneEquations.Domain.Ternary
import MonotoneEquations.Proofs.Quiescence

/-!
# What a key does not depend on cannot change its result

A part of a system is closed under reference if it holds every equation of the system that defines a
key mentioned in the part, in either polarity. The equations outside the part may mention keys of the
part, and their keys are announced in between, but the part hears nothing from them. So a run of the
whole system, seen through the keys of the part, is the run of the part alone: the same keys get the
same values, and the same events are logged in the same order.

Restricting a solver to some keys commutes with passing any value on. A key outside the part is read
by no equation of the part, so announcing it leaves the restriction as it is. Nothing is said about
which values win, so it makes no difference if both polarities of a key are defined.
-/

namespace MonotoneEquations

variable {D : Type}

namespace Event

/-- The key of the equation that an event is about. -/
def target? : Event D → Option Key
  | .pending key _ | .resolved key _ | .substituted _ key _ => some key
  | .registered .. | .finished .. => none

/-- Whether an event is about the equation of a key that passes a test. -/
def concerns (keep : Key → Bool) (event : Event D) : Bool := event.target?.any keep

/-- The resolutions among the events that concern some keys are those of these keys. -/
theorem filterMap_resolution?_filter (keep : Key → Bool) (events : List (Event D)) :
    (events.filter (concerns keep)).filterMap resolution? =
      (events.filterMap resolution?).filter fun pair => keep pair.1 := by
  rw [List.filterMap_filter, List.filter_filterMap]
  congr 1
  funext event
  cases event with
  | resolved key value =>
    cases hkeep : keep key <;> simp [concerns, target?, resolution?, Option.filter, hkeep]
  | pending key products => exact ite_self none
  | substituted source target value => exact ite_self none
  | registered equations waiting => rfl
  | finished solved unresolved => rfl

/-- The event of a stored equation is about its key. -/
theorem target?_event (key : Key) (status : Status D) : (status.event key).target? = some key := by
  cases status <;> rfl

end Event

variable [Domain D] [DecidableEq D]

/-- What an entry logs when it receives a value is about its key. -/
theorem Entry.target?_of_mem_receive {source : Key} {value : D} {entry : Entry D} {event : Event D}
    (h : event ∈ (entry.receive source value).2) : event.target? = some entry.key := by
  unfold receive at h
  split at h
  · cases h
  · split at h
    · split at h
      · obtain rfl := List.mem_singleton.mp h
        rfl
      · rcases List.mem_cons.mp h with rfl | h
        · rfl
        · obtain rfl := List.mem_singleton.mp h
          rfl
    · cases h

namespace Solver

/-- What a solver knows about the keys that pass a test. -/
def restrict (keep : Key → Bool) (solver : Solver D) : Solver D where
  limit := solver.limit
  entries := solver.entries.filter fun entry => keep entry.key
  worklist := solver.worklist.filter fun pair => keep pair.1
  log := solver.log.filter (Event.concerns keep)

variable {solver : Solver D} {system : List (Equation D)} {keep : Key → Bool}

/-! ## Steps -/

/-- The events of the kept entries are the events that concern kept keys. -/
theorem flatMap_receive_filter (source : Key) (value : D) (entries : List (Entry D)) :
    ((entries.filter fun entry => keep entry.key).map (Entry.receive source value)).flatMap Prod.snd =
      ((entries.map (Entry.receive source value)).flatMap Prod.snd).filter (Event.concerns keep) := by
  induction entries with
  | nil => rfl
  | cons entry entries ih =>
    have htarget : ∀ event ∈ (entry.receive source value).2, event.concerns keep = keep entry.key := by
      intro event hevent
      rw [Event.concerns, Entry.target?_of_mem_receive hevent]
      rfl
    rw [List.map_cons, List.flatMap_cons, List.filter_append, ← ih, List.filter_congr htarget]
    by_cases hkeep : keep entry.key
    · simp [hkeep]
    · simp [hkeep]

/-- Passing a value on commutes with a restriction. -/
theorem restrict_propagate (source : Key) (value : D) (solver : Solver D) :
    (solver.propagate source value).restrict keep = (solver.restrict keep).propagate source value := by
  have hentries : ((solver.entries.map (Entry.receive source value)).map Prod.fst).filter
      (fun entry => keep entry.key) =
        ((solver.entries.filter fun entry => keep entry.key).map (Entry.receive source value)).map
          Prod.fst := by
    rw [List.filter_map, List.filter_map]
    simp only [Function.comp_def, Entry.key_receive]
  unfold propagate restrict
  simp only [flatMap_receive_filter, List.filter_append, List.filter_reverse, hentries,
    Event.filterMap_resolution?_filter]

/-- Announcing a key commutes with a restriction. -/
theorem restrict_announce (key : Key) (value : D) (solver : Solver D) :
    (solver.announce key value).restrict keep = (solver.restrict keep).announce key value := by
  unfold announce
  split
  · rw [restrict_propagate, restrict_propagate]
  · rw [restrict_propagate, restrict_propagate]

omit [Domain D] [DecidableEq D] in
/-- Registering an equation registers it in the restriction if its key is kept. -/
theorem restrict_register (key : Key) (status : Status D) (solver : Solver D) :
    (solver.register key status).restrict keep =
      if keep key then (solver.restrict keep).register key status else solver.restrict keep := by
  have hevent : Event.concerns keep (status.event key) = keep key := by
    rw [Event.concerns, Event.target?_event]
    rfl
  have hresolved : (status.event key).resolution?.toList.filter (fun pair => keep pair.1) =
      if keep key then (status.event key).resolution?.toList else [] := by
    cases status <;> cases hkeep : keep key <;> simp [Status.event, Event.resolution?, hkeep]
  unfold register restrict
  simp only [List.filter_append, hresolved]
  by_cases hkeep : keep key
  · simp [hkeep, hevent]
  · simp [hkeep, hevent]

/-! ## Registration -/

omit [Domain D] [DecidableEq D] in
/-- A key that a solver does not define is not defined in a restriction. -/
theorem defines_restrict_eq_false {key : Key} (h : solver.defines key = false) :
    (solver.restrict keep).defines key = false := by
  rw [defines, List.any_eq_false] at h ⊢
  exact fun entry hentry => h entry (List.mem_filter.mp hentry).1

/-- A restriction is the solver that was offered the accepted equations of the kept keys alone. -/
theorem restrict_addAll (solver : Solver D) (offered : List (Equation D)) :
    (solver.addAll offered).restrict keep = (solver.restrict keep).addAll
      ((solver.accepted offered).filter fun equation => keep equation.key) := by
  induction offered generalizing solver with
  | nil => rfl
  | cons equation offered ih =>
    rw [addAll, accepted]
    cases hadd : solver.add equation with
    | error error => exact ih solver
    | ok next =>
      obtain ⟨hnew, hfits, rfl⟩ := add_eq_ok_iff.mp hadd
      dsimp only
      rw [ih, restrict_register]
      by_cases hkeep : keep equation.key
      · have hstep : (solver.restrict keep).add equation =
            .ok ((solver.restrict keep).register equation.key (equation.rhs.statusUnder .nothing)) :=
          add_eq_ok_iff.mpr ⟨defines_restrict_eq_false hnew, hfits, rfl⟩
        rw [if_pos hkeep, List.filter_cons_of_pos (by simpa using hkeep), addAll, hstep]
      · rw [if_neg hkeep, List.filter_cons_of_neg (by simpa using hkeep)]

/-! ## Runs -/

omit [Domain D] [DecidableEq D] in
/-- The kept keys are closed under reference: what an equation of a kept key mentions is kept, in
whichever polarity it is defined. -/
def KeepsReferences (keep : Key → Bool) (system : List (Equation D)) : Prop :=
  ∀ equation ∈ system, keep equation.key → ∀ r ∈ equation.rhs.mentions, ∀ other ∈ system,
    other.key = r ∨ other.key = r.negate → keep other.key

omit [Domain D] [DecidableEq D] in
/-- No kept entry mentioned a defined key that is not kept, nor its negation. -/
theorem Stores.not_mem_mentions_restrict (h : solver.Stores system) (hkeep : KeepsReferences keep system)
    {key : Key} (hdefined : key ∈ system.map Equation.key) (hkey : ¬keep key) :
    ∀ entry ∈ (solver.restrict keep).entries, key ∉ entry.mentions ∧ key.negate ∉ entry.mentions := by
  intro entry hentry
  obtain ⟨hentry, hkept⟩ := List.mem_filter.mp hentry
  obtain ⟨equation, hequation, hstores⟩ := h.stores entry hentry
  obtain ⟨other, hother, rfl⟩ := List.mem_map.mp hdefined
  rw [hstores.key_eq] at hkept
  refine ⟨fun hmem => hkey ?_, fun hmem => hkey ?_⟩
  · exact hkeep equation hequation hkept _ (hstores.mentions_mem _ hmem) other hother (.inl rfl)
  · have hnegate := Key.negate_negate other.key
    exact hkeep equation hequation hkept _ (hstores.mentions_mem _ hmem) other hother (.inr hnegate.symm)

/-- Announcing a defined key that is not kept leaves the restriction as it is. -/
theorem Stores.restrict_announce_of_not_keep (h : solver.Stores system)
    (hkeep : KeepsReferences keep system) {key : Key} (hdefined : key ∈ system.map Equation.key)
    (hkey : ¬keep key) (value : D) :
    (solver.announce key value).restrict keep = solver.restrict keep := by
  have hunread := h.not_mem_mentions_restrict hkeep hdefined hkey
  have hself (value : D) :=
    propagate_of_not_mem_mentions (fun entry hentry => (hunread entry hentry).1) value
  have hnegate (value : D) :=
    propagate_of_not_mem_mentions (fun entry hentry => (hunread entry hentry).2) value
  rw [restrict_announce]
  unfold Solver.announce
  split
  · rw [hself, hnegate]
  · rw [hnegate, hself]

omit [Domain D] [DecidableEq D] in
/-- The keys on the worklist are defined. -/
theorem Heard.defined_of_mem_worklist {told : List (Key × D)} (h : Heard system told solver)
    {pair : Key × D} (hpair : pair ∈ solver.worklist) : pair.1 ∈ system.map Equation.key := by
  have hresolved : pair ∈ solver.resolutions :=
    h.resolutions.mem_iff.mp (List.mem_append_left told hpair)
  obtain ⟨entry, hentry, hresolution⟩ := List.mem_filterMap.mp hresolved
  obtain ⟨_, -, rfl⟩ := Option.map_eq_some_iff.mp hresolution
  rw [← h.keys_eq]
  exact List.mem_map_of_mem hentry

/-- A run of the whole system, restricted to keys that are closed under reference, is a run of the
restriction. -/
theorem Announced.restrict_run (h : Announced system [] solver) (hkeep : KeepsReferences keep system) :
    solver.run.restrict keep = (solver.restrict keep).run := by
  -- Each step of the whole run is a step of the restricted one, or leaves the restriction as it is.
  have hstep : ∀ (next : Solver D) (key : Key) (value : D) (rest : List (Key × D)),
      ((∃ told, Heard system told next) ∧ (next.restrict keep).run = (solver.restrict keep).run) →
      next.worklist = (key, value) :: rest →
      (∃ told, Heard system told ({ next with worklist := rest }.announce key value)) ∧
        (({ next with worklist := rest }.announce key value).restrict keep).run =
          (solver.restrict keep).run := by
    intro next key value rest hnext hwork
    obtain ⟨⟨told, hheard⟩, hrun⟩ := hnext
    refine ⟨⟨_, hheard.announce hwork⟩, Eq.trans ?_ hrun⟩
    have hpop : ({ next with worklist := rest } : Solver D).Stores system :=
      ⟨hheard.keys_eq, hheard.stores⟩
    by_cases hkey : keep key
    · have hrestWork : (next.restrict keep).worklist =
          (key, value) :: rest.filter fun pair => keep pair.1 := by
        rw [restrict, hwork, List.filter_cons_of_pos (by simpa using hkey)]
      rw [restrict_announce, run_of_cons hrestWork]
      rfl
    · have hdefined : key ∈ system.map Equation.key :=
        hheard.defined_of_mem_worklist (hwork ▸ List.mem_cons_self)
      have hsame : ({ next with worklist := rest } : Solver D).restrict keep = next.restrict keep := by
        unfold restrict
        rw [hwork, List.filter_cons_of_neg (by simpa using hkey)]
      rw [hpop.restrict_announce_of_not_keep hkeep hdefined hkey value, hsame]
  obtain ⟨⟨-, hrun⟩, hempty⟩ := run_induction hstep ⟨⟨[], h.heard⟩, rfl⟩
  have hrestEmpty : (solver.run.restrict keep).worklist = [] := by rw [restrict, hempty, List.filter_nil]
  rw [← hrun, run_of_nil hrestEmpty]

omit [Domain D] [DecidableEq D] in
/-- The resolved keys of a restriction are the kept ones. -/
theorem mem_resolutions_restrict {pair : Key × D} :
    pair ∈ (solver.restrict keep).resolutions ↔ pair ∈ solver.resolutions ∧ keep pair.1 := by
  rw [resolutions, resolutions, restrict, List.filterMap_filter, List.mem_filterMap, List.mem_filterMap]
  constructor
  · intro hmem
    obtain ⟨entry, hentry, hresolution⟩ := hmem
    split at hresolution
    next hkeep =>
      refine ⟨⟨entry, hentry, hresolution⟩, ?_⟩
      obtain ⟨_, -, rfl⟩ := Option.map_eq_some_iff.mp hresolution
      exact hkeep
    next => cases hresolution
  · intro hmem
    obtain ⟨⟨entry, hentry, hresolution⟩, hkeep⟩ := hmem
    obtain ⟨value, hvalue, rfl⟩ := Option.map_eq_some_iff.mp hresolution
    exact ⟨entry, hentry, by rw [if_pos hkeep]; exact hresolution⟩

omit [Domain D] [DecidableEq D] in
/-- A kept key has the same value in the restriction. -/
theorem get?_solution_restrict (hnodup : (solver.entries.map Entry.key).Nodup) {key : Key}
    (hkey : keep key) :
    (solver.restrict keep).solution.get? key = solver.solution.get? key := by
  have hrestrict : ((solver.restrict keep).entries.map Entry.key).Nodup :=
    (List.filter_sublist.map _).nodup hnodup
  apply Option.ext
  intro value
  exact (KeyMap.get?_ofList (nodup_resolutions_of_nodup hrestrict)).trans
    ((mem_resolutions_restrict.trans (and_iff_left hkey)).trans
      (KeyMap.get?_ofList (nodup_resolutions_of_nodup hnodup)).symm)

end Solver

/-- A part of a system that holds every equation of the system for a key that it mentions, in either
polarity, in the order of the system. -/
structure ClosedPart (part system : List (Equation D)) : Prop where
  sublist : part.Sublist system
  closed : ∀ equation ∈ part, ∀ r ∈ equation.rhs.mentions, ∀ other ∈ system,
    other.key = r ∨ other.key = r.negate → other ∈ part

instance (part system : List (Equation D)) : Decidable (ClosedPart part system) :=
  decidable_of_iff (part.Sublist system ∧ ∀ equation ∈ part, ∀ r ∈ equation.rhs.mentions,
    ∀ other ∈ system, other.key = r ∨ other.key = r.negate → other ∈ part)
    ⟨fun h => ⟨h.1, h.2⟩, fun h => ⟨h.sublist, h.closed⟩⟩

/-- Whether a key is defined by an equation of a list. -/
def isKeyOf (part : List (Equation D)) (key : Key) : Bool := key ∈ part.map Equation.key

namespace Solver

/-- What a solver finds out about a closed part of its system is what the part alone makes it find. -/
theorem run_restrict_isKeyOf (limit : Nat) {offered part : List (Equation D)}
    (hpart : ClosedPart part ((new limit).accepted offered)) :
    ((new limit).addAll offered).run.restrict (isKeyOf part) = ((new limit).addAll part).run := by
  have hnodup := nodup_accepted limit offered
  have hfilter : ((new limit).accepted offered).filter (fun equation => isKeyOf part equation.key) = part :=
    filter_mem_map_eq_of_sublist hpart.sublist hnodup
  have hkeep : KeepsReferences (isKeyOf part) ((new limit).accepted offered) := by
    intro equation hequation hkept r hr other hother hpolarity
    have hmem : equation ∈ part := hfilter ▸ List.mem_filter.mpr ⟨hequation, hkept⟩
    exact decide_eq_true (List.mem_map_of_mem (hpart.closed equation hmem r hr other hother hpolarity))
  rw [((announced_new limit).addAll offered).restrict_run hkeep, restrict_addAll, hfilter]
  rfl

/-- The keys of a closed part have the same values in the whole system and in the part alone. -/
theorem get?_solution_of_closedPart (limit : Nat) {offered part : List (Equation D)}
    (hpart : ClosedPart part ((new limit).accepted offered)) {equation : Equation D}
    (hequation : equation ∈ part) :
    ((new limit).addAll offered).solve.solution.get? equation.key =
      ((new limit).addAll part).solve.solution.get? equation.key := by
  have hannounced := (announced_new limit).addAll offered
  have hnodup : (((new limit).addAll offered).run.entries.map Entry.key).Nodup :=
    hannounced.stores_run.keys_eq ▸ hannounced.nodup
  have hkey : isKeyOf part equation.key := decide_eq_true (List.mem_map_of_mem hequation)
  rw [solve, solve, ← run_restrict_isKeyOf limit hpart, get?_solution_restrict hnodup hkey]

/-- The log of a closed part holds the events of the whole run that concern the part. -/
theorem log_of_closedPart (limit : Nat) {offered part : List (Equation D)}
    (hpart : ClosedPart part ((new limit).accepted offered)) :
    ((new limit).addAll part).run.log =
      ((new limit).addAll offered).solve.log.filter (Event.concerns (isKeyOf part)) := by
  have hlast (solved unresolved : Nat) :
      [(.finished solved unresolved : Event D)].filter (Event.concerns (isKeyOf part)) = [] := rfl
  rw [← run_restrict_isKeyOf limit hpart, solve, List.filter_append, hlast, List.append_nil]
  rfl

end Solver

namespace Store

/-- A part of the accepted equations that is closed under reference has the same results in the whole
system and alone, whatever else is defined and in whichever polarity. The events of the whole run
that concern its keys are the events of its own run, before the last one. So it makes no difference to
the part if other equations are changed, removed or added. -/
theorem solve_eq_of_closedPart (limit : Nat) {offered part : List (Equation D)}
    (hpart : ClosedPart part ((new limit).accepted offered)) :
    let whole := ((new limit).addAll offered).solve
    let alone := ((new limit).addAll part).solve
    (∀ equation ∈ part, whole.solution.get? equation.key = alone.solution.get? equation.key) ∧
      (∃ solved unresolved, alone.log = whole.log.filter (Event.concerns (isKeyOf part)) ++
        [.finished solved unresolved]) ∧
      ∀ changed, ClosedPart part ((new limit).accepted changed) → ∀ equation ∈ part,
        ((new limit).addAll changed).solve.solution.get? equation.key =
          whole.solution.get? equation.key := by
  simp only [solve_addAll, accepted_new] at hpart ⊢
  have hlog : ((Solver.new limit).addAll part).solve.log = _ ++ [_] :=
    congrArg (· ++ [_]) (Solver.log_of_closedPart limit hpart)
  refine ⟨fun equation hequation => Solver.get?_solution_of_closedPart limit hpart hequation,
    ⟨_, _, hlog⟩, fun changed hchanged equation hequation => ?_⟩
  rw [Solver.get?_solution_of_closedPart limit hchanged hequation,
    Solver.get?_solution_of_closedPart limit hpart hequation]

/-- A system over the chain in which both polarities of an unstable key are defined and read. Two
equations are not read by the others: one of them reads a key of the others, and the other one mentions
a key that is not defined. -/
def interleavedSample : List (Equation Ternary) :=
  let p : Key := ⟨"p", false, false⟩
  let q : Key := ⟨"q", true, false⟩
  let r : Key := ⟨"r", true, false⟩
  let s : Key := ⟨"s", false, true⟩
  [⟨r, .ofProducts [.ofKeys .yes [p], .ofKeys .maybe [q.negate]]⟩,
    ⟨p, .final .maybe⟩,
    ⟨q, .ofProducts [.ofKeys .yes [p, p.negate]]⟩,
    ⟨s, .ofProducts [.ofKeys .no [r.mkUnstable], .ofKeys .yes [r.mkUnstable]]⟩,
    ⟨p.negate, .final .no⟩]

/-- The equations of the sample for `p`, in both polarities, and for `q`. -/
def doublyDefinedPart : List (Equation Ternary) :=
  interleavedSample.filter fun equation => equation.key.base = "p" ∨ equation.key.base = "q"

/-- The part has the same result in the sample and alone. -/
theorem solve_eq_of_closedPart_doublyDefined :
    ClosedPart doublyDefinedPart ((new 2).accepted interleavedSample) ∧
      ((new 2).addAll doublyDefinedPart).solve.solution.get? ⟨"q", true, false⟩ = some .no ∧
      ((new 2).addAll interleavedSample).solve.solution.get? ⟨"q", true, false⟩ = some .no := by
  have hpart : ClosedPart doublyDefinedPart ((new 2).accepted interleavedSample) := by
    rw [accepted_new]
    decide
  have halone : ((new 2).addAll doublyDefinedPart).solve.solution.get? ⟨"q", true, false⟩ = some .no := by
    cbv
  have hmem : (⟨⟨"q", true, false⟩, .ofProducts [.ofKeys .yes [⟨"p", false, false⟩, ⟨"p", false, true⟩]]⟩ :
      Equation Ternary) ∈ doublyDefinedPart := by decide
  exact ⟨hpart, halone, ((solve_eq_of_closedPart 2 hpart).1 _ hmem).trans halone⟩

end Store

end MonotoneEquations
