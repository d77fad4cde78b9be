import Mathlib.Data.List.Nodup
import MonotoneEquations.Proofs.Registration

/-!
# What a run arrives at

Each step of a run announces one resolved key. The knowledge that follows from the announced keys
determines the entries of the solver at every point of the run, whatever the order of the steps and
whichever keys are defined. So each announced value is a consequence of what was announced before
it, and at the end of the run nothing more follows from all of them.

A `Derivation` lists resolved keys with the last one first, each justified by the earlier ones.
`exists_saturated` is the summary of a whole run that later results start from.
-/

namespace MonotoneEquations

variable {D : Type} [Domain D] [DecidableEq D]

/-- Resolved keys, the last one first, each of which follows from the earlier ones. -/
inductive Derivation (system : List (Equation D)) : List (Key × D) → Prop where
  | nil : Derivation system []
  | cons {equation : Equation D} {value : D} {told : List (Key × D)} (hderived : Derivation system told)
      (hmem : equation ∈ system) (hvalue : equation.rhs.consequence? (.ofResolved told) = some value) :
      Derivation system ((equation.key, value) :: told)

/-- A derivation after which nothing new follows. -/
structure Saturated (system : List (Equation D)) (told : List (Key × D)) : Prop where
  derivation : Derivation system told
  nodup : (told.map Prod.fst).Nodup
  mem_iff : ∀ equation ∈ system, ∀ value,
    (equation.key, value) ∈ told ↔ equation.rhs.consequence? (.ofResolved told) = some value

/-- The keys of a derivation are keys of the system. -/
theorem Derivation.exists_equation {system : List (Equation D)} {told : List (Key × D)}
    (h : Derivation system told) {key : Key} {value : D} (hmem : (key, value) ∈ told) :
    ∃ equation ∈ system, equation.key = key := by
  induction h with
  | nil => cases hmem
  | cons _ hequation _ ih =>
    rcases List.mem_cons.mp hmem with heq | hmem
    · exact ⟨_, hequation, (Prod.ext_iff.mp heq).1.symm⟩
    · exact ih hmem

variable [EquationalDomain D]

/-- An equation that does not wait on a key is not changed by it. -/
theorem Rhs.statusUnder_put_of_not_mem_mentions {known : Knowledge D} {rhs : Rhs D}
    {sum : List (Product D)} (h : rhs.statusUnder known = .waiting sum) {key : Key}
    (hkey : key ∉ (rhs.statusUnder .nothing).mentions) (value : D) :
    rhs.statusUnder (known.put key value) = .waiting sum := by
  rw [← Rhs.substitute_statusUnder h]
  cases rhs with
  | final _ => cases h
  | pending products =>
    refine Status.substitute_of_not_mem_mentions h value fun hmem => hkey ?_
    rw [← h] at hmem
    exact (Rhs.mem_mentions_statusUnder hmem).2

/-- Passing a value on to an entry puts it into what is known, whether or not the entry reads it. -/
theorem Entry.receive_entryUnder (known : Knowledge D) (equation : Equation D) (key : Key) (value : D) :
    (Entry.receive key value (equation.entryUnder known)).1 =
      equation.entryUnder (known.put key value) := by
  cases hs : equation.rhs.statusUnder known with
  | resolved result =>
    have hstays : equation.rhs.statusUnder (known.put key value) = .resolved result :=
      Rhs.statusUnder_orElse_of_resolved hs _
    simp [Entry.receive, Equation.entryUnder, hs, hstays]
  | waiting sum =>
    by_cases hkey : key ∈ (equation.rhs.statusUnder .nothing).mentions
    · have hnext := Rhs.substitute_statusUnder hs key value
      cases hnow : equation.rhs.statusUnder (known.put key value) <;>
        simp [Entry.receive, Equation.entryUnder, hs, hkey, hnext, hnow]
    · have hstays := Rhs.statusUnder_put_of_not_mem_mentions hs hkey value
      simp [Entry.receive, Equation.entryUnder, hs, hkey, hstays]

omit [EquationalDomain D] in
/-- An entry that gets its value while it receives another one announces it. -/
theorem Entry.resolution?_receive (key : Key) (value : D) (entry : Entry D) :
    (entry.receive key value).1.resolution?.toList =
      (entry.receive key value).2.filterMap Event.resolution? ++ entry.resolution?.toList := by
  unfold Entry.receive
  split
  next => rfl
  next sum hs =>
    have hnone : entry.resolution? = none := by rw [Entry.resolution?, hs]; rfl
    rw [hnone]
    split
    · split <;> rfl
    · rw [hnone]
      rfl

namespace Solver

omit [EquationalDomain D] in
/-- The values found while one is passed on enter the worklist. -/
theorem resolutions_propagate (key : Key) (value : D) (solver : Solver D) :
    ∃ found, (solver.propagate key value).worklist = found ++ solver.worklist ∧
      (found ++ solver.resolutions).Perm (solver.propagate key value).resolutions := by
  refine ⟨_, rfl, ?_⟩
  have hentries : ∀ entries : List (Entry D),
      (((entries.map (Entry.receive key value)).flatMap Prod.snd).filterMap Event.resolution? ++
          entries.filterMap Entry.resolution?).Perm
        (((entries.map (Entry.receive key value)).map Prod.fst).filterMap Entry.resolution?) := by
    intro entries
    induction entries with
    | nil => exact .nil
    | cons entry entries ih =>
      have hfirst := Entry.resolution?_receive key value entry
      simp only [List.map_cons, List.flatMap_cons, List.flatMap_append,
        List.filterMap_eq_flatMap_toList] at ih hfirst ⊢
      rw [hfirst, List.append_assoc, List.append_assoc]
      exact ((List.perm_append_comm_assoc _ _ _).trans (ih.append_left _)).append_left _
  exact ((List.reverse_perm _).append_right _).trans (hentries solver.entries)

/-- Passing a value on puts it into what is known. -/
theorem entries_propagate {system : List (Equation D)} {known : Knowledge D} {solver : Solver D}
    (h : solver.entries = system.map (Equation.entryUnder known)) (key : Key) (value : D) :
    (solver.propagate key value).entries = system.map (Equation.entryUnder (known.put key value)) := by
  rw [propagate, h, List.map_map, List.map_map]
  exact List.map_congr_left fun equation _ => Entry.receive_entryUnder known equation key value

omit [EquationalDomain D] in
/-- The values found while a key is announced enter the worklist. -/
theorem resolutions_announce (key : Key) (value : D) (solver : Solver D) :
    ∃ found, (solver.announce key value).worklist = found ++ solver.worklist ∧
      (found ++ solver.resolutions).Perm (solver.announce key value).resolutions := by
  have htwice (k q : Key) (v w : D) :
      ∃ found, ((solver.propagate k v).propagate q w).worklist = found ++ solver.worklist ∧
        (found ++ solver.resolutions).Perm ((solver.propagate k v).propagate q w).resolutions := by
    obtain ⟨found, hfound, hperm⟩ := resolutions_propagate k v solver
    obtain ⟨more, hmore, hmorePerm⟩ := resolutions_propagate q w (solver.propagate k v)
    refine ⟨more ++ found, by rw [hmore, hfound, List.append_assoc], ?_⟩
    rw [List.append_assoc]
    exact (hperm.append_left more).trans hmorePerm
  unfold announce
  split
  · exact htwice _ _ _ _
  · exact htwice _ _ _ _

/-- Announcing a key teaches what its readers and those of its negation read. -/
theorem entries_announce {system : List (Equation D)} {known : Knowledge D} {solver : Solver D}
    (h : solver.entries = system.map (Equation.entryUnder known)) (key : Key) (value : D) :
    (solver.announce key value).entries = system.map (Equation.entryUnder (known.learn key value)) := by
  unfold announce Knowledge.learn
  split
  · exact entries_propagate (entries_propagate h key value) key.negate value
  · rw [Knowledge.put_put_comm known key.negate_ne.symm]
    exact entries_propagate (entries_propagate h key.negate value) key Domain.top

/-- Announcing a resolved key moves it from the worklist to the announced ones. -/
theorem Announced.announce {system : List (Equation D)} {told rest : List (Key × D)}
    {solver : Solver D} (h : Announced system told solver) {key : Key} {value : D}
    (hwork : solver.worklist = (key, value) :: rest) :
    Announced system ((key, value) :: told) ({ solver with worklist := rest }.announce key value) := by
  have hold := h.resolutions
  rw [hwork] at hold
  obtain ⟨found, hfound, hperm⟩ := resolutions_announce key value { solver with worklist := rest }
  have hentries : ({ solver with worklist := rest } : Solver D).entries = _ := h.entries
  refine ⟨h.nodup, entries_announce hentries key value, ?_⟩
  rw [hfound, List.append_assoc]
  exact ((List.perm_middle.trans hold).append_left found).trans hperm

omit [EquationalDomain D] in
/-- A resolved key that is not announced yet follows from the announced ones. -/
theorem Announced.derives {system : List (Equation D)} {told : List (Key × D)} {solver : Solver D}
    (h : Announced system told solver) {key : Key} {value : D} (hmem : (key, value) ∈ solver.resolutions) :
    ∃ equation ∈ system, equation.key = key ∧
      equation.rhs.consequence? (.ofResolved told) = some value := by
  rw [Solver.resolutions, h.entries, List.filterMap_map] at hmem
  obtain ⟨equation, hequation, hsome⟩ := List.mem_filterMap.mp hmem
  obtain ⟨result, hresult, heq⟩ := Option.map_eq_some_iff.mp hsome
  obtain ⟨hkey, rfl⟩ := Prod.mk.inj heq
  exact ⟨equation, hequation, hkey, by rw [← Rhs.value?_statusUnder]; exact hresult⟩

omit [EquationalDomain D] in
/-- A run is over when the worklist is empty. -/
theorem run_of_nil {solver : Solver D} (h : solver.worklist = []) : solver.run = solver := by
  rw [run]
  split
  next => rfl
  next heq => rw [h] at heq; cases heq

omit [EquationalDomain D] in
/-- A run announces the first key of the worklist and goes on. -/
theorem run_of_cons {solver : Solver D} {key : Key} {value : D} {rest : List (Key × D)}
    (h : solver.worklist = (key, value) :: rest) :
    solver.run = ({ solver with worklist := rest }.announce key value).run := by
  rw [run]
  split
  next heq => rw [h] at heq; cases heq
  next heq =>
    rw [h] at heq
    cases heq
    rfl

omit [EquationalDomain D] in
/-- A run ends with an empty worklist, and keeps whatever each announcement keeps. -/
theorem run_induction {P : Solver D → Prop}
    (hstep : ∀ (solver : Solver D) (key : Key) (value : D) (rest : List (Key × D)), P solver →
      solver.worklist = (key, value) :: rest → P ({ solver with worklist := rest }.announce key value))
    {solver : Solver D} (h : P solver) : P solver.run ∧ solver.run.worklist = [] := by
  induction hwork : solver.workLeft using Nat.strongRecOn generalizing solver with
  | ind work ih =>
    cases hlist : solver.worklist with
    | nil =>
      rw [run_of_nil hlist]
      exact ⟨h, hlist⟩
    | cons first rest =>
      obtain ⟨key, value⟩ := first
      rw [run_of_cons hlist]
      refine ih _ ?_ (hstep solver key value rest h hlist) rfl
      rw [← hwork, workLeft_announce]
      simp [workLeft, pendingCount, hlist]

omit [EquationalDomain D] in
/-- A run ends with an empty worklist. -/
theorem run_worklist (solver : Solver D) : solver.run.worklist = [] :=
  (@run_induction D _ _ (fun _ => True) (fun _ _ _ _ _ _ => trivial) solver trivial).2

/-- A run ends with an empty worklist, and has announced a derivation. -/
theorem Announced.run {system : List (Equation D)} {told : List (Key × D)} {solver : Solver D}
    (h : Announced system told solver) (hderived : Derivation system told) :
    ∃ final, Announced system final solver.run ∧ Derivation system final ∧ solver.run.worklist = [] := by
  have hstep : ∀ (solver : Solver D) (key : Key) (value : D) (rest : List (Key × D)),
      (∃ told, Announced system told solver ∧ Derivation system told) →
      solver.worklist = (key, value) :: rest →
      ∃ told, Announced system told ({ solver with worklist := rest }.announce key value) ∧
        Derivation system told := by
    intro solver key value rest hsolver hlist
    obtain ⟨told, h, hderived⟩ := hsolver
    have hmem : (key, value) ∈ solver.resolutions := by
      rw [← h.resolutions.mem_iff, hlist]
      simp
    obtain ⟨equation, hequation, rfl, hvalue⟩ := h.derives hmem
    exact ⟨_, h.announce hlist, .cons hderived hequation hvalue⟩
  obtain ⟨⟨final, hfinal, hderived⟩, hempty⟩ := run_induction hstep ⟨told, h, hderived⟩
  exact ⟨final, hfinal, hderived, hempty⟩

omit [EquationalDomain D] in
/-- Different entries resolve different keys. -/
theorem Announced.nodup_resolutions {system : List (Equation D)} {told : List (Key × D)}
    {solver : Solver D} (h : Announced system told solver) : (solver.resolutions.map Prod.fst).Nodup := by
  have hkeys : solver.entries.map Entry.key = system.map Equation.key := by
    rw [h.entries, List.map_map]
    rfl
  exact nodup_resolutions_of_nodup (hkeys ▸ h.nodup)

omit [EquationalDomain D] in
/-- No key is announced twice. -/
theorem Announced.nodup_told {system : List (Equation D)} {told : List (Key × D)} {solver : Solver D}
    (h : Announced system told solver) : (told.map Prod.fst).Nodup := by
  have hnodup := (h.resolutions.map Prod.fst).nodup_iff.mpr h.nodup_resolutions
  rw [List.map_append] at hnodup
  exact (List.nodup_append.mp hnodup).2.1

omit [EquationalDomain D] in
/-- The resolved keys are those whose equations have a consequence under what was announced. -/
theorem Announced.mem_resolutions_iff {system : List (Equation D)} {told : List (Key × D)}
    {solver : Solver D} (h : Announced system told solver) {equation : Equation D}
    (hequation : equation ∈ system) {value : D} :
    (equation.key, value) ∈ solver.resolutions ↔
      equation.rhs.consequence? (.ofResolved told) = some value := by
  constructor
  · intro hmem
    obtain ⟨other, hother, hkey, hvalue⟩ := h.derives hmem
    rwa [List.inj_on_of_nodup_map h.nodup hother hequation hkey] at hvalue
  · intro hvalue
    rw [Solver.resolutions, h.entries, List.filterMap_map]
    refine List.mem_filterMap.mpr ⟨equation, hequation, ?_⟩
    rw [← Rhs.value?_statusUnder] at hvalue
    simp [Entry.resolution?, Equation.entryUnder, hvalue]

/-- A run finds exactly the keys of a saturated derivation, with their values. -/
theorem exists_saturated (limit : Nat) (offered : List (Equation D)) :
    ∃ told, Saturated ((new limit).accepted offered) told ∧
      ((new limit).addAll offered).solve.solution.get? = fun key => told.lookup key := by
  have hstart := (announced_new limit).addAll offered
  rw [List.nil_append] at hstart
  obtain ⟨told, hfinal, hderived, hempty⟩ := hstart.run .nil
  have hperm : told.Perm ((new limit).addAll offered).run.resolutions := by
    simpa [hempty] using hfinal.resolutions
  have hnodup := hfinal.nodup_told
  refine ⟨told, ⟨hderived, hnodup, fun equation hequation value => ?_⟩, ?_⟩
  · exact hperm.mem_iff.trans (hfinal.mem_resolutions_iff hequation)
  · funext key
    apply Option.ext
    intro value
    rw [lookup_eq_some_iff_mem hnodup, hperm.mem_iff]
    exact KeyMap.get?_ofList hfinal.nodup_resolutions

end Solver

end MonotoneEquations
