import Mathlib
import MonotoneEquations.Proofs.Chronicle
import MonotoneEquations.Proofs.Completeness
import MonotoneEquations.Proofs.LeastFixedPoint

/-!
# What the log of a run tells

The log tells the whole outcome of a run: which equations waited when they were registered, which keys
were resolved and with which values, and how many are left. Each event follows from those before it.

A value is put in the place of a key when the key is announced or when its negation is. Each key is
announced once, and each announcement reaches a reader once. So a key is replaced at most twice in the
equation of one reader, and only once unless both of its polarities are defined.
-/

namespace MonotoneEquations

variable {D : Type}

namespace Solver

variable {solver : Solver D} {system : List (Equation D)} {told rest : List (Key × D)}

variable [Domain D] [DecidableEq D]

/-! ## How often a value is passed on -/

/-- An entry lets one event show that a value is put in. -/
theorem countP_passes_receive (source origin target : Key) (value : D) (entry : Entry D) :
    (entry.receive origin value).2.countP (Event.passes source target) ≤
      if source = origin ∧ entry.key = target then 1 else 0 := by
  rcases Entry.receive_cases origin value entry with hstays | ⟨-, ⟨_, hreceive⟩ | ⟨_, hreceive⟩⟩
  · simp [hstays]
  all_goals
    rw [hreceive]
    by_cases hsource : origin = source <;> by_cases hkey : entry.key = target <;>
      simp [Event.passes, hsource, hkey]

/-- Entries of different keys let one event show that a value is put into the equation of a key. -/
theorem countP_passes_propagate (hnodup : (solver.entries.map Entry.key).Nodup)
    (source origin target : Key) (value : D) :
    (solver.propagate origin value).log.countP (Event.passes source target) ≤
      solver.log.countP (Event.passes source target) + if source = origin then 1 else 0 := by
  have hentries : ∀ entries : List (Entry D),
      ((entries.map (Entry.receive origin value)).flatMap Prod.snd).countP
          (Event.passes source target) ≤
        if source = origin then (entries.map Entry.key).count target else 0 := by
    intro entries
    induction entries with
    | nil => simp
    | cons entry entries ih =>
      have hfirst := countP_passes_receive source origin target value entry
      rw [List.map_cons, List.flatMap_cons, List.countP_append, List.map_cons, List.count_cons]
      by_cases hsource : source = origin <;> by_cases hkey : entry.key = target <;>
        simp only [hsource, hkey, beq_self_eq_true, beq_iff_eq, if_true, if_false, and_self,
          and_false, false_and] at hfirst ih ⊢ <;> omega
  have hone := List.nodup_iff_count_le_one.mp hnodup target
  have hall := hentries solver.entries
  rw [Solver.propagate, List.countP_append]
  refine Nat.add_le_add_left (hall.trans ?_) _
  split
  · exact hone
  · exact Nat.le_refl _

/-- Two different keys that are passed on one after the other let one event for each of them show that a
value is put in. -/
theorem countP_passes_propagate_propagate (hnodup : (solver.entries.map Entry.key).Nodup)
    {first second : Key} (hne : first ≠ second) (source target : Key) (value other : D) :
    ((solver.propagate first value).propagate second other).log.countP (Event.passes source target) ≤
      solver.log.countP (Event.passes source target) +
        if source = first ∨ source = second then 1 else 0 := by
  have hkeys : ((solver.propagate first value).entries.map Entry.key).Nodup := by
    rwa [keys_propagate]
  have hfirst := countP_passes_propagate hnodup source first target value
  have hsecond := countP_passes_propagate hkeys source second target other
  by_cases hsource : source = first
  · have hother : source ≠ second := fun hother => hne (hsource.symm.trans hother)
    simp only [hsource, if_true, true_or] at hfirst hsecond ⊢
    simp only [hsource ▸ hother, if_false] at hsecond
    omega
  · simp only [hsource, if_false, false_or] at hfirst ⊢
    omega

/-- Announcing a key lets one event show that a value is put in the place of the key, and one that a
value is put in the place of its negation. -/
theorem countP_passes_announce (hnodup : (solver.entries.map Entry.key).Nodup) (source target key : Key)
    (value : D) :
    (solver.announce key value).log.countP (Event.passes source target) ≤
      solver.log.countP (Event.passes source target) +
        if source = key ∨ source = key.negate then 1 else 0 := by
  unfold Solver.announce
  split
  · exact countP_passes_propagate_propagate hnodup key.negate_ne.symm source target value value
  · have hswap := countP_passes_propagate_propagate hnodup key.negate_ne source target value Domain.top
    simpa only [or_comm] using hswap

/-- Registering equations puts no value in. -/
theorem countP_passes_addAll (source target : Key) (offered : List (Equation D)) (solver : Solver D) :
    (solver.addAll offered).log.countP (Event.passes source target) =
      solver.log.countP (Event.passes source target) := by
  induction offered generalizing solver with
  | nil => rfl
  | cons equation offered ih =>
    rw [Solver.addAll]
    cases hadd : solver.add equation with
    | error _ => exact ih solver
    | ok next =>
      obtain ⟨-, -, rfl⟩ := add_eq_ok_iff.mp hadd
      refine (ih _).trans ?_
      rw [Solver.register, List.countP_append]
      cases equation.rhs.statusUnder .nothing <;> rfl

omit [Domain D] [DecidableEq D] in
/-- How many of the announced keys are the given key or its negation. -/
def announcements (told : List (Key × D)) (source : Key) : Nat :=
  told.countP fun pair => source = pair.1 ∨ source = pair.1.negate

/-- A solver that has announced some keys has a log that agrees with its entries. A value was put in the
place of a key only when the key or its negation was announced. -/
structure Recounts (system : List (Equation D)) (told : List (Key × D)) (solver : Solver D) : Prop where
  heard : Heard system told solver
  logged : Logged system solver
  passes_le : ∀ source target, solver.log.countP (Event.passes source target) ≤ announcements told source

/-- Announcing the next key keeps the log in agreement. -/
theorem Recounts.announce (h : Recounts system told solver) {key : Key} {value : D}
    (hwork : solver.worklist = (key, value) :: rest) :
    Recounts system ((key, value) :: told) ({ solver with worklist := rest }.announce key value) := by
  have hpop : Logged system ({ solver with worklist := rest } : Solver D) :=
    ⟨h.logged.nodup, h.logged.keys_eq, h.logged.chronicle, h.logged.resolved_perm, h.logged.stored_eq,
      h.logged.waiting_mem⟩
  have hnodup : (({ solver with worklist := rest } : Solver D).entries.map Entry.key).Nodup :=
    hpop.keys_eq ▸ hpop.nodup
  have hresolved : (key, value) ∈ resolvedPairs solver.log := by
    rw [h.logged.resolved_perm.mem_iff, ← h.heard.resolutions.mem_iff, hwork]
    simp
  have hcons (source : Key) : announcements ((key, value) :: told) source =
      announcements told source + if source = key ∨ source = key.negate then 1 else 0 := by
    simp only [announcements, List.countP_cons, decide_eq_true_eq]
  refine ⟨h.heard.announce hwork, hpop.announce hresolved, fun source target => ?_⟩
  refine (countP_passes_announce hnodup source target key value).trans ?_
  rw [hcons]
  exact Nat.add_le_add_right (h.passes_le source target) _

/-- When a run over offered equations is over, all resolved keys are announced, and the log agrees with
the entries. -/
theorem exists_recounts_run (limit : Nat) (offered : List (Equation D)) :
    ∃ told : List (Key × D), told.Perm ((new limit).addAll offered).run.resolutions ∧
      Recounts ((new limit).accepted offered) told ((new limit).addAll offered).run := by
  have hannounced := (announced_new limit).addAll offered
  have hlogged := (logged_new limit).addAll offered
  have hstart : Recounts ((new limit).accepted offered) [] ((new limit).addAll offered) :=
    ⟨hannounced.heard, hlogged, fun source target => (countP_passes_addAll source target offered _).le⟩
  have hstep : ∀ (next : Solver D) (key : Key) (value : D) (rest : List (Key × D)),
      (∃ told, Recounts ((new limit).accepted offered) told next) → next.worklist = (key, value) :: rest →
      ∃ told, Recounts ((new limit).accepted offered) told
        ({ next with worklist := rest }.announce key value) :=
    fun next key value rest ⟨told, hnext⟩ hwork => ⟨_, hnext.announce hwork⟩
  obtain ⟨⟨told, hrun⟩, hempty⟩ := run_induction hstep ⟨[], hstart⟩
  exact ⟨told, by simpa [hempty] using hrun.heard.resolutions, hrun⟩

omit [Domain D] [DecidableEq D] in
/-- Different announced keys that are a key or its negation are no more than the list of keys that they
are in. -/
theorem announcements_le (keys : List Key) {told : List (Key × D)} {source : Key}
    (hnodup : (told.map Prod.fst).Nodup)
    (hkeys : ∀ key ∈ told.map Prod.fst, source = key ∨ source = key.negate → key ∈ keys) :
    announcements told source ≤ keys.length := by
  have hcount : announcements told source =
      ((told.map Prod.fst).filter fun key => source = key ∨ source = key.negate).length := by
    rw [← List.countP_eq_length_filter, List.countP_map]
    rfl
  rw [hcount]
  refine (List.subperm_of_subset (hnodup.filter _) fun key hkey => ?_).length_le
  obtain ⟨hmem, hpolarity⟩ := List.mem_filter.mp hkey
  exact hkeys key hmem (of_decide_eq_true hpolarity)

omit [Domain D] [DecidableEq D] in
/-- Of different announced keys, at most two are a key or its negation. -/
theorem announcements_le_two {told : List (Key × D)} (hnodup : (told.map Prod.fst).Nodup)
    (source : Key) : announcements told source ≤ 2 := by
  refine announcements_le [source, source.negate] hnodup fun key _ hpolarity => ?_
  rcases hpolarity with rfl | rfl <;> simp

omit [Domain D] [DecidableEq D] in
/-- If no key is defined in both polarities, at most one of the announced keys is a key or its
negation. -/
theorem announcements_le_one {told : List (Key × D)} (hnodup : (told.map Prod.fst).Nodup)
    (hmem : ∀ key ∈ told.map Prod.fst, key ∈ system.map Equation.key) (hone : OnePolarity system)
    (source : Key) : announcements told source ≤ 1 := by
  have hopposite : source ∈ told.map Prod.fst → source.negate ∉ told.map Prod.fst := by
    intro hpositive hnegative
    obtain ⟨equation, hequation, hkey⟩ := List.mem_map.mp (hmem _ hpositive)
    obtain ⟨other, hother, hotherKey⟩ := List.mem_map.mp (hmem _ hnegative)
    exact hone equation hequation other hother (by rw [hotherKey, hkey])
  by_cases hsource : source ∈ told.map Prod.fst
  · refine announcements_le [source] hnodup fun key hkey hpolarity => ?_
    rcases hpolarity with rfl | rfl
    · exact List.mem_singleton_self _
    · exact absurd (by simpa using hkey) (hopposite hsource)
  · refine announcements_le [source.negate] hnodup fun key hkey hpolarity => ?_
    rcases hpolarity with rfl | rfl
    · exact absurd hkey hsource
    · simp

/-- The last event of a log resolves no key. -/
theorem resolvedPairs_solve (solver : Solver D) :
    resolvedPairs solver.solve.log = resolvedPairs solver.run.log := by
  simp [solve, resolvedPairs, Event.resolution?]

/-- The last event of a log stores no equation. -/
theorem storedKeys_solve (solver : Solver D) : storedKeys solver.solve.log = storedKeys solver.run.log := by
  simp [solve, storedKeys, Event.stored?]

/-- The last event of a log puts no value in. -/
theorem countP_passes_solve (source target : Key) (solver : Solver D) :
    solver.solve.log.countP (Event.passes source target) =
      solver.run.log.countP (Event.passes source target) := by
  simp [solve, Event.passes]

/-- An equation is offered to a solver that was offered the equations before it. -/
theorem accepted_append (solver : Solver D) (before after : List (Equation D)) :
    solver.accepted (before ++ after) = solver.accepted before ++ (solver.addAll before).accepted after := by
  induction before generalizing solver with
  | nil => rfl
  | cons equation before ih =>
    rw [List.cons_append, accepted, accepted, Solver.addAll]
    cases solver.add equation with
    | error _ => exact ih solver
    | ok next => exact congrArg (equation :: ·) (ih next)

omit [Domain D] [DecidableEq D] in
/-- If the equations of a system define different keys, the key of an equation is among those of a part
of the system exactly if the equation is in that part. -/
theorem key_mem_filter_iff (hnodup : (system.map Equation.key).Nodup) {equation : Equation D}
    (hequation : equation ∈ system) (p : Equation D → Bool) :
    equation.key ∈ (system.filter p).map Equation.key ↔ p equation := by
  constructor
  · intro hmem
    obtain ⟨other, hother, hkey⟩ := List.mem_map.mp hmem
    obtain ⟨hsystem, hp⟩ := List.mem_filter.mp hother
    rwa [← List.inj_on_of_nodup_map hnodup hsystem hequation hkey]
  · exact fun hp => List.mem_map_of_mem (List.mem_filter.mpr ⟨hequation, hp⟩)

end Solver

/-! ## The log of a store -/

namespace Store

variable [Domain D] [DecidableEq D]

/-- An equation that a store accepts is among those that are accepted in the end, and it has no value
yet if it waits before anything is known. -/
theorem mem_accepted_of_ok (limit : Nat) {before : List (Equation D)} {equation : Equation D}
    (after : List (Equation D))
    (hok : (((new limit).addAll before).add equation).1 = .ok ()) :
    equation ∈ (Solver.new limit).accepted (before ++ equation :: after) ∧
      ((((new limit).addAll before).add equation).2.value? equation.key = none ↔
        (equation.rhs.statusUnder .nothing).isWaiting) := by
  obtain ⟨keys, hreached, hinterned⟩ := exists_encode limit before
  rw [hreached] at hok ⊢
  cases hadd : ((Solver.new limit).addAll before).add equation with
  | error error =>
    rw [hinterned.add_encode_of_error hadd] at hok
    cases hok
  | ok next =>
    obtain ⟨larger, hstep, hnext⟩ := hinterned.add_encode_of_ok hadd
    obtain ⟨hnew, -, rfl⟩ := Solver.add_eq_ok_iff.mp hadd
    constructor
    · rw [Solver.accepted_append, Solver.accepted, hadd]
      simp
    · rw [hstep, hnext.value?_encode, Solver.value?_register hnew, if_pos rfl]
      cases equation.rhs.statusUnder .nothing <;> simp [Status.value?, Status.isWaiting]

end Store

/-- What the log of a run tells about the run, for equations that were offered in order.

The resolved keys are those of the solution, with their values. The stored keys belong to the accepted
equations that had no value right after their registration, and each is stored once. Every event
follows from the events before it. A value is put in the place of a key at most twice for each reader,
and once if no key is defined in both polarities. -/
structure Findings.IsFaithful [Domain D] [DecidableEq D] (limit : Nat) (offered : List (Equation D))
    (findings : Findings D) : Prop where
  chronicle : IsChronicle findings.log
  resolved_nodup : ((resolvedPairs findings.log).map Prod.fst).Nodup
  resolved_perm : (resolvedPairs findings.log).Perm findings.solution.toList
  stored_nodup : (storedKeys findings.log).Nodup
  stored_accepted : ∀ key ∈ storedKeys findings.log,
    ∃ equation ∈ (Store.new limit).accepted offered, equation.key = key
  stored_iff : ∀ before equation after, offered = before ++ equation :: after →
    (((Store.new limit).addAll before).add equation).1 = .ok () →
      (equation.key ∈ storedKeys findings.log ↔
        (((Store.new limit).addAll before).add equation).2.value? equation.key = none)
  passes_le_two : ∀ source target, findings.log.countP (Event.passes source target) ≤ 2
  passes_le_one : OnePolarity ((Store.new limit).accepted offered) →
    ∀ source target, findings.log.countP (Event.passes source target) ≤ 1
  finished : ∃ solved unresolved, findings.log.getLast? = some (.finished solved unresolved) ∧
    solved + unresolved = ((Store.new limit).addAll offered).size ∧ solved = findings.solution.size

namespace Store

variable [Domain D] [DecidableEq D]

/-- Whatever equations are offered to a store, the log of its run is faithful. -/
theorem isFaithful_solve (limit : Nat) (offered : List (Equation D)) :
    ((new limit).addAll offered).solve.IsFaithful limit offered := by
  have hannounced := (Solver.announced_new limit).addAll offered
  rw [List.nil_append] at hannounced
  obtain ⟨told, htold, hrecounts⟩ := Solver.exists_recounts_run limit offered
  have hrun := hrecounts.logged
  have hnodup := hannounced.nodup_resolutions_run
  have htoldNodup : (told.map Prod.fst).Nodup := (htold.map Prod.fst).nodup_iff.mpr hnodup
  have htoldMem : ∀ key ∈ told.map Prod.fst,
      key ∈ ((Solver.new limit).accepted offered).map Equation.key := by
    intro key hkey
    obtain ⟨pair, hpair, rfl⟩ := List.mem_map.mp hkey
    exact hannounced.mem_keys_of_mem_resolutions_run (htold.mem_iff.mp hpair)
  have hcount (source target : Key) :
      ((Solver.new limit).addAll offered).solve.log.countP (Event.passes source target) ≤
        Solver.announcements told source := by
    rw [Solver.countP_passes_solve]
    exact hrecounts.passes_le source target
  rw [show ((new limit).addAll offered).solve = _ from solve_addAll limit offered]
  refine ⟨hrun.chronicle.concat trivial, ?_, ?_, ?_, ?_, ?_, ?_, ?_, ?_⟩
  · rw [Solver.resolvedPairs_solve]
    exact (hrun.resolved_perm.map Prod.fst).nodup_iff.mpr hnodup
  · rw [Solver.resolvedPairs_solve]
    exact hrun.resolved_perm.trans hannounced.solution_run_perm.symm
  · rw [Solver.storedKeys_solve, hrun.stored_eq]
    exact (List.filter_sublist.map _).nodup hrun.nodup
  · intro key hkey
    rw [Solver.storedKeys_solve, hrun.stored_eq] at hkey
    rw [accepted_new]
    obtain ⟨equation, hequation, hequationKey⟩ := List.mem_map.mp hkey
    exact ⟨equation, (List.mem_filter.mp hequation).1, hequationKey⟩
  · rintro before equation after rfl hok
    obtain ⟨hmem, hvalue⟩ := mem_accepted_of_ok limit after hok
    rw [hvalue, Solver.storedKeys_solve, hrun.stored_eq]
    exact Solver.key_mem_filter_iff hrun.nodup hmem _
  · exact fun source target => (hcount source target).trans
      (Solver.announcements_le_two htoldNodup source)
  · rw [accepted_new]
    exact fun hone source target => (hcount source target).trans
      (Solver.announcements_le_one htoldNodup htoldMem hone source)
  · refine ⟨_, _, List.getLast?_concat, ?_, hannounced.size_solution_run.symm⟩
    obtain ⟨keys, hreached, -⟩ := exists_encode limit offered
    rw [Solver.resolvedCount_add_pendingCount, hannounced.size_run, hreached]
    rfl

end Store

end MonotoneEquations
