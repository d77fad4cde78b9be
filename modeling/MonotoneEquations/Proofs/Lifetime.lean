import MonotoneEquations.Proofs.StoreInvariant

/-!
# The life of a store

A store lives through the equations that are offered to it and then through the pops of its run. A
moment of this life is the store as it is then, together with two lists that the store does not keep:
the handles that were ever pushed and those that were popped. What was pushed in a step is what stands
above the older stack.

Each resolved key of a solver is either on the worklist or was announced, and never both. In a store
this says that the pushed handles are the handles on the stack and the popped ones, each of them once.
So a pop takes a handle that nothing pushes again, and the handles with a value are all that a run
can pop. A value is written only when its handle is pushed, so it is written once and stays.
-/

namespace MonotoneEquations

variable {D : Type} [Domain D] [DecidableEq D]

/-- The handles that stand above an older stack. -/
def above (older stack : List Nat) : List Nat := stack.take (stack.length - older.length)

/-- What stands above a stack is what was pushed on it. -/
theorem above_append (fresh older : List Nat) : above older (fresh ++ older) = fresh := by
  rw [above, List.length_append, Nat.add_sub_cancel, List.take_left]

/-- A moment in the life of a store: the store, every handle that was ever pushed, and every handle that
was popped, the last ones first. -/
structure Moment (D : Type) where
  store : Store D
  pushed : List Nat
  popped : List Nat

namespace Moment

/-- Go on to a later store, above whose older stack stands what was pushed meanwhile. -/
def advance (moment : Moment D) (next : Store D) : Moment D :=
  ⟨next, above moment.store.moving next.moving ++ moment.pushed, moment.popped⟩

/-- Offer an equation. -/
def offer (moment : Moment D) (equation : Equation D) : Moment D :=
  moment.advance (moment.store.add equation).2

/-- Pop the first moving handle and announce it, if there is one. -/
def pop (moment : Moment D) : Moment D :=
  match moment.store.moving with
  | [] => moment
  | handle :: rest =>
    let taken : Moment D := ⟨{ moment.store with moving := rest }, moment.pushed, handle :: moment.popped⟩
    taken.advance (taken.store.announce handle)

/-- When nothing moves, nothing is popped. -/
theorem pop_of_nil {moment : Moment D} (h : moment.store.moving = []) : moment.pop = moment := by
  unfold pop
  rw [h]

/-- A pop takes the first moving handle. -/
theorem pop_of_cons {moment : Moment D} {handle : Nat} {rest : List Nat}
    (h : moment.store.moving = handle :: rest) :
    moment.pop =
      (⟨{ moment.store with moving := rest }, moment.pushed, handle :: moment.popped⟩ : Moment D).advance
        ({ moment.store with moving := rest }.announce handle) := by
  unfold pop
  rw [h]

/-- A pop is a step of the run. -/
theorem store_pop (moment : Moment D) (popped : List (Key × D)) :
    moment.pop.store = (Progress.next ⟨popped, moment.store⟩).store := by
  cases h : moment.store.moving with
  | nil => rw [pop_of_nil h, Progress.next_of_nil h]
  | cons handle rest =>
    rw [pop_of_cons h, Progress.next_of_cons h]
    rfl

/-- Offering equations one after the other leads to the store that was offered all of them. -/
theorem store_foldl_offer (offered : List (Equation D)) (moment : Moment D) :
    (offered.foldl offer moment).store = moment.store.addAll offered := by
  induction offered generalizing moment with
  | nil => rfl
  | cons equation rest ih => exact ih (moment.offer equation)

/-- While equations are offered, nothing is popped. -/
theorem popped_foldl_offer (offered : List (Equation D)) (moment : Moment D) :
    (offered.foldl offer moment).popped = moment.popped := by
  induction offered generalizing moment with
  | nil => rfl
  | cons equation rest ih => exact ih (moment.offer equation)

end Moment

/-- The values of a store are also those of a later one, and belong to the same keys there. -/
def Store.Keeps (earlier later : Store D) : Prop :=
  ∀ handle value, earlier.solved.getD handle none = some value →
    later.solved.getD handle none = some value ∧ later.keyOf handle = earlier.keyOf handle

omit [Domain D] [DecidableEq D] in
/-- A store keeps its own values. -/
theorem Store.Keeps.refl (store : Store D) : store.Keeps store := fun _ _ hvalue => ⟨hvalue, rfl⟩

omit [Domain D] [DecidableEq D] in
/-- A later store keeps what is kept in between. -/
theorem Store.Keeps.trans {first second third : Store D} (h : first.Keeps second)
    (hnext : second.Keeps third) : first.Keeps third := by
  intro handle value hvalue
  obtain ⟨hsecond, hname⟩ := h handle value hvalue
  obtain ⟨hthird, hlater⟩ := hnext handle value hsecond
  exact ⟨hthird, hlater.trans hname⟩

/-! ## What a step keeps -/

namespace Solver

variable {keys : ArrivalSet Key} {solver next : Solver D}

omit [Domain D] [DecidableEq D] in
/-- A value in a table is the value of the key of its handle. -/
theorem exists_key_of_solved {handle : Nat} {value : D}
    (hvalue : (solver.encode keys).solved.getD handle none = some value) :
    ∃ key ∈ keys, keys.indexOf key = handle ∧ solver.value? key = some value := by
  rcases exists_key_or_getD_eq keys handle with ⟨key, hkey, rfl⟩ | hnone
  · exact ⟨key, hkey, rfl, (getD_solved_encode hkey solver).symm.trans hvalue⟩
  · rw [show (solver.encode keys).solved.getD handle none = none from hnone _ _] at hvalue
    cases hvalue

omit [Domain D] [DecidableEq D] in
/-- A solver that resolves at least as much has a store that keeps every value. -/
theorem Interned.keeps_encode (h : Interned keys solver) {more : List Key}
    (hnext : Interned (keys.insertAll more) next)
    (hresolutions : ∀ pair ∈ solver.resolutions, pair ∈ next.resolutions) :
    (solver.encode keys).Keeps (next.encode (keys.insertAll more)) := by
  intro handle value hvalue
  obtain ⟨key, hkey, rfl, hkeyValue⟩ := exists_key_of_solved hvalue
  have hlater : key ∈ keys.insertAll more := ArrivalSet.mem_insertAll.mpr (.inl hkey)
  have hnextValue : next.value? key = some value :=
    hnext.mem_resolutions_iff.mp (hresolutions _ (h.mem_resolutions_iff.mpr hkeyValue))
  have hname : (solver.encode keys).keyOf (keys.indexOf key) = key := keyOf_indexOf hkey
  have hlaterName : (next.encode (keys.insertAll more)).keyOf ((keys.insertAll more).indexOf key) = key :=
    keyOf_indexOf hlater
  rw [hname, ← ArrivalSet.indexOf_insertAll hkey more, getD_solved_encode hlater, hnextValue]
  exact ⟨rfl, hlaterName⟩

omit [Domain D] [DecidableEq D] in
/-- Resolved keys keep their handles when more keys are interned. -/
theorem Interned.map_indexOf_insertAll (h : Interned keys solver) {pairs : List (Key × D)}
    (hresolved : ∀ pair ∈ pairs, pair ∈ solver.resolutions) (more : List Key) :
    (pairs.map fun pair => (keys.insertAll more).indexOf pair.1) =
      pairs.map fun pair => keys.indexOf pair.1 := by
  refine List.map_congr_left fun pair hpair => ?_
  have hvalue := h.mem_resolutions_iff.mp (hresolved pair hpair)
  exact ArrivalSet.indexOf_insertAll (h.mem_of_value? hvalue) more

end Solver

namespace Moment

/-- A moment follows a solver that has announced some of its resolved keys: the other resolved keys are on
the worklist, the popped handles are those of the announced keys, and the pushed handles are those on
the stack and the popped ones. -/
structure Follows (moment : Moment D) (keys : ArrivalSet Key) (solver : Solver D)
    (told : List (Key × D)) : Prop where
  store_eq : moment.store = solver.encode keys
  interned : Solver.Interned keys solver
  resolutions : (solver.worklist ++ told).Perm solver.resolutions
  popped_eq : moment.popped = told.map fun pair => keys.indexOf pair.1
  pushed_perm : moment.pushed.Perm (moment.store.moving ++ moment.popped)

/-- A moment follows some solver. -/
def IsFollowed (moment : Moment D) : Prop := ∃ keys solver told, moment.Follows keys solver told

variable {moment : Moment D} {keys : ArrivalSet Key} {solver next : Solver D} {told : List (Key × D)}

omit [Domain D] [DecidableEq D] in
/-- A step that resolves more keys and puts them on the worklist keeps every value, and pushes each of
these keys. -/
theorem Follows.advance (h : moment.Follows keys solver told) (more : List Key)
    (hnext : Solver.Interned (keys.insertAll more) next) (found : List (Key × D))
    (hworklist : next.worklist = found ++ solver.worklist)
    (hresolutions : (found ++ solver.resolutions).Perm next.resolutions) :
    (moment.advance (next.encode (keys.insertAll more))).Follows (keys.insertAll more) next told ∧
      moment.store.Keeps (next.encode (keys.insertAll more)) := by
  have hmoving : (next.encode (keys.insertAll more)).moving =
      found.map (fun pair => (keys.insertAll more).indexOf pair.1) ++ moment.store.moving := by
    have hold := h.interned.map_indexOf_insertAll
      (fun pair hpair => h.resolutions.mem_iff.mp (List.mem_append_left told hpair)) more
    rw [Solver.encode, hworklist, List.map_append, hold, h.store_eq]
    rfl
  have htold := h.interned.map_indexOf_insertAll
    (fun pair hpair => h.resolutions.mem_iff.mp (List.mem_append_right solver.worklist hpair)) more
  refine ⟨⟨rfl, hnext, ?_, h.popped_eq.trans htold.symm, ?_⟩, ?_⟩
  · rw [hworklist, List.append_assoc]
    exact (h.resolutions.append_left found).trans hresolutions
  · rw [Moment.advance, hmoving, above_append, List.append_assoc]
    exact h.pushed_perm.append_left _
  · rw [h.store_eq]
    exact h.interned.keeps_encode hnext fun pair hpair =>
      hresolutions.mem_iff.mp (List.mem_append_right found hpair)

/-- An offered equation can resolve its own key. -/
theorem IsFollowed.offer (h : moment.IsFollowed) (equation : Equation D) :
    (moment.offer equation).IsFollowed ∧ moment.store.Keeps (moment.offer equation).store := by
  obtain ⟨keys, solver, told, h⟩ := h
  have hstore : (moment.store.add equation).2 = ((solver.encode keys).add equation).2 := by
    rw [h.store_eq]
  rw [Moment.offer, hstore]
  cases hadd : solver.add equation with
  | error error =>
    rw [h.interned.add_encode_of_error hadd]
    obtain ⟨hfollows, hkeeps⟩ := h.advance [equation.key]
      (h.interned.insert equation.key) [] rfl List.Perm.rfl
    exact ⟨⟨_, _, _, hfollows⟩, hkeeps⟩
  | ok next =>
    obtain ⟨more, hstep, hnext⟩ := h.interned.add_encode_of_ok hadd
    obtain ⟨-, -, rfl⟩ := Solver.add_eq_ok_iff.mp hadd
    rw [hstep]
    obtain ⟨hfollows, hkeeps⟩ := h.advance more hnext _ rfl (by
      rw [Solver.resolutions_register]
      exact List.perm_append_comm)
    exact ⟨⟨_, _, _, hfollows⟩, hkeeps⟩

/-- A pop takes a handle that has a value, and can resolve what waited for it. -/
theorem IsFollowed.pop (h : moment.IsFollowed) :
    moment.pop.IsFollowed ∧ moment.store.Keeps moment.pop.store := by
  obtain ⟨keys, solver, told, h⟩ := h
  cases hwork : solver.worklist with
  | nil =>
    have hmoving : moment.store.moving = [] := by rw [h.store_eq, Solver.encode, hwork, List.map_nil]
    rw [pop_of_nil hmoving]
    exact ⟨⟨_, _, _, h⟩, .refl _⟩
  | cons pair rest =>
    obtain ⟨key, value⟩ := pair
    obtain ⟨hmoving, hannounce, hnext⟩ := h.interned.announce_pop_encode hwork
    rw [← h.store_eq] at hmoving hannounce
    have hresolutions := h.resolutions
    rw [hwork] at hresolutions
    have hpushed := h.pushed_perm
    rw [hmoving] at hpushed
    have htaken : (⟨{ moment.store with moving := rest.map fun pair => keys.indexOf pair.1 },
        moment.pushed, keys.indexOf key :: moment.popped⟩ : Moment D).Follows keys
          { solver with worklist := rest } ((key, value) :: told) :=
      { store_eq := by rw [h.store_eq]; rfl
        interned := h.interned.pop hwork
        resolutions := List.perm_middle.trans hresolutions
        popped_eq := by rw [h.popped_eq]; rfl
        pushed_perm := hpushed.trans List.perm_middle.symm }
    obtain ⟨found, hfound, hfoundPerm⟩ :=
      Solver.resolutions_announce key value { solver with worklist := rest }
    rw [pop_of_cons hmoving, hannounce]
    obtain ⟨hfollows, hkeeps⟩ := htaken.advance [] hnext found hfound hfoundPerm
    exact ⟨⟨_, _, _, hfollows⟩, hkeeps⟩

omit [Domain D] [DecidableEq D] in
/-- No handle is pushed twice: the pushed handles are those of different resolved keys. -/
theorem Follows.nodup_pushed (h : moment.Follows keys solver told) : moment.pushed.Nodup := by
  have hhandles : moment.store.moving ++ moment.popped =
      (solver.worklist ++ told).map fun pair => keys.indexOf pair.1 := by
    rw [h.store_eq, h.popped_eq, List.map_append]
    rfl
  rw [h.pushed_perm.nodup_iff, hhandles]
  exact h.interned.nodup_handles h.resolutions

omit [Domain D] [DecidableEq D] in
/-- Every handle on the stack has a value. -/
theorem Follows.solved_of_moving (h : moment.Follows keys solver told) :
    ∀ handle ∈ moment.store.moving, (moment.store.solved.getD handle none).isSome := by
  rw [h.store_eq]
  exact (h.interned.classified_encode h.resolutions).solved_of_moving

end Moment

/-! ## A whole life -/

namespace Store

/-- The life of a store: at each time the next equation is offered to it, and once all were offered, a
handle is popped. -/
def life (limit : Nat) (offered : List (Equation D)) (time : Nat) : Moment D :=
  Moment.pop^[time - offered.length] ((offered.take time).foldl Moment.offer ⟨new limit, [], []⟩)

variable (limit : Nat) (offered : List (Equation D))

/-- As long as equations are left, the next one is offered. -/
theorem life_succ_of_lt {time : Nat} (h : time < offered.length) :
    life limit offered (time + 1) = (life limit offered time).offer offered[time] := by
  rw [life, life, Nat.sub_eq_zero_of_le h, Nat.sub_eq_zero_of_le (Nat.le_of_lt h),
    List.take_succ_eq_append_getElem h, List.foldl_append]
  rfl

/-- Once all equations were offered, a handle is popped. -/
theorem life_succ_of_le {time : Nat} (h : offered.length ≤ time) :
    life limit offered (time + 1) = (life limit offered time).pop := by
  rw [life, life, Nat.succ_sub h, Function.iterate_succ_apply', List.take_of_length_le h,
    List.take_of_length_le (Nat.le_succ_of_le h)]

/-- While equations are offered, the store is the one that was offered them. -/
theorem store_life_of_le {time : Nat} (h : time ≤ offered.length) :
    (life limit offered time).store = (new limit).addAll (offered.take time) := by
  rw [life, Nat.sub_eq_zero_of_le h]
  exact Moment.store_foldl_offer _ _

/-- Then the store goes through the points of its run. -/
theorem store_life_add (steps : Nat) :
    (life limit offered (offered.length + steps)).store =
      (((new limit).addAll offered).progress steps).store := by
  induction steps with
  | zero =>
    rw [Nat.add_zero, store_life_of_le limit offered (Nat.le_refl _), List.take_length]
    rfl
  | succ steps ih =>
    rw [← Nat.add_assoc, life_succ_of_le limit offered (Nat.le_add_right _ _),
      Moment.store_pop _ (((new limit).addAll offered).progress steps).popped, ih, progress_succ]

/-- The step to the next time follows a solver again, and keeps every value. -/
theorem isFollowed_life_succ {time : Nat} (h : (life limit offered time).IsFollowed) :
    (life limit offered (time + 1)).IsFollowed ∧
      (life limit offered time).store.Keeps (life limit offered (time + 1)).store := by
  by_cases htime : time < offered.length
  · rw [life_succ_of_lt limit offered htime]
    exact h.offer _
  · rw [life_succ_of_le limit offered (Nat.not_lt.mp htime)]
    exact h.pop

/-- At every time a solver is followed. -/
theorem isFollowed_life (time : Nat) : (life limit offered time).IsFollowed := by
  induction time with
  | zero =>
    exact ⟨.empty, Solver.new limit, [],
      { store_eq := store_life_of_le limit offered (Nat.zero_le _)
        interned := Solver.interned_new limit
        resolutions := List.Perm.nil
        popped_eq := by rw [life, Nat.zero_sub]; rfl
        pushed_perm := by rw [life, Nat.zero_sub]; exact List.Perm.nil }⟩
  | succ time ih => exact (isFollowed_life_succ limit offered ih).1

/-- A value is kept from any time to any later one. -/
theorem keeps_life {earlier later : Nat} (h : earlier ≤ later) :
    (life limit offered earlier).store.Keeps (life limit offered later).store := by
  induction later, h using Nat.le_induction with
  | base => exact .refl _
  | succ later _ ih =>
    exact ih.trans (isFollowed_life_succ limit offered (isFollowed_life limit offered later)).2

/-! ## The pops of a run -/

/-- The pops of a run go on until nothing moves. -/
theorem run_progress (start : Store D) (steps : Nat) : (start.progress steps).store.run = start.run := by
  induction steps with
  | zero => rfl
  | succ steps ih => rw [progress_succ, Progress.run_next, ih]

section Over

variable {limit offered} {steps : Nat}
  (hover : (life limit offered (offered.length + steps)).store.moving = [])
include hover

/-- Once nothing moves, the store is the one at the end of the run. -/
theorem store_life_of_over :
    (life limit offered (offered.length + steps)).store = ((new limit).addAll offered).run := by
  rw [← run_of_nil hover, store_life_add, run_progress]

/-- Once nothing moves, the solution of the followed solver is the one that is returned. -/
theorem solution_eq_of_over {keys : ArrivalSet Key} {solver : Solver D} {told : List (Key × D)}
    (hfollows : (life limit offered (offered.length + steps)).Follows keys solver told) :
    ((new limit).addAll offered).solve.solution = solver.solution := by
  rw [solve, ← store_life_of_over hover, hfollows.store_eq, hfollows.interned.solution_encode]

/-- Once nothing moves, as many handles were popped as there are keys in the solution. -/
theorem length_popped_of_over : (life limit offered (offered.length + steps)).popped.length =
    ((new limit).addAll offered).solve.solution.size := by
  obtain ⟨keys, solver, told, hfollows⟩ := isFollowed_life limit offered (offered.length + steps)
  have hworklist : solver.worklist = [] := by
    rw [hfollows.store_eq] at hover
    exact List.map_eq_nil_iff.mp hover
  have hsolution : solver.solution.toList.Perm solver.resolutions :=
    KeyMap.toList_ofList_perm (Solver.nodup_resolutions_of_nodup hfollows.interned.nodup)
  have htold := hfollows.resolutions
  rw [hworklist, List.nil_append] at htold
  rw [hfollows.popped_eq, List.length_map, solution_eq_of_over hover hfollows]
  exact htold.length_eq.trans hsolution.length_eq.symm

/-- Once nothing moves, nothing changes any more. -/
theorem life_succ_of_over :
    life limit offered (offered.length + (steps + 1)) = life limit offered (offered.length + steps) := by
  rw [← Nat.add_assoc, life_succ_of_le limit offered (Nat.le_add_right _ _), Moment.pop_of_nil hover]

end Over

/-- At some later time nothing moves, since the work left at the start of the run is enough pops. -/
theorem exists_over (steps : Nat) :
    ∃ later, steps ≤ later ∧ (life limit offered (offered.length + later)).store.moving = [] := by
  have hwork : (⟨[], (new limit).addAll offered⟩ : Progress D).store.workLeft ≤
      max steps ((new limit).addAll offered).workLeft := Nat.le_max_right _ _
  refine ⟨_, Nat.le_max_left steps ((new limit).addAll offered).workLeft, ?_⟩
  rw [store_life_add]
  exact (Progress.iterate_next_of_workLeft_le hwork).2

/-- As long as something moves, a step of the run pops one handle. -/
theorem length_popped_succ {steps : Nat}
    (h : (life limit offered (offered.length + steps)).store.moving ≠ []) :
    (life limit offered (offered.length + (steps + 1))).popped.length =
      (life limit offered (offered.length + steps)).popped.length + 1 := by
  obtain ⟨handle, rest, hmoving⟩ := List.exists_cons_of_ne_nil h
  rw [← Nat.add_assoc, life_succ_of_le limit offered (Nat.le_add_right _ _), Moment.pop_of_cons hmoving]
  rfl

/-- No more handles are popped than there are keys in the solution. -/
theorem length_popped_le (steps : Nat) :
    (life limit offered (offered.length + steps)).popped.length ≤
      ((new limit).addAll offered).solve.solution.size := by
  have hmono : ∀ later, steps ≤ later → (life limit offered (offered.length + steps)).popped.length ≤
      (life limit offered (offered.length + later)).popped.length := by
    intro later hlater
    induction later, hlater using Nat.le_induction with
    | base => exact Nat.le_refl _
    | succ later _ ih =>
      by_cases hover : (life limit offered (offered.length + later)).store.moving = []
      · rwa [life_succ_of_over hover]
      · rw [length_popped_succ limit offered hover]
        exact Nat.le_succ_of_le ih
  obtain ⟨later, hlater, hover⟩ := exists_over limit offered steps
  rw [← length_popped_of_over hover]
  exact hmono later hlater

/-- Each step of the run pops one handle, until as many were popped as there are keys in the solution. -/
theorem length_popped (steps : Nat) :
    (life limit offered (offered.length + steps)).popped.length =
      min steps ((new limit).addAll offered).solve.solution.size := by
  induction steps with
  | zero =>
    rw [Nat.add_zero, Nat.zero_min, life, Nat.sub_self]
    exact congrArg List.length (Moment.popped_foldl_offer _ _)
  | succ steps ih =>
    by_cases hover : (life limit offered (offered.length + steps)).store.moving = []
    · have hpops := length_popped_of_over hover
      rw [life_succ_of_over hover, hpops]
      omega
    · have hpops := length_popped_le limit offered (steps + 1)
      rw [length_popped_succ limit offered hover] at hpops ⊢
      omega

/-- The run is over as soon as as many handles were popped as there are keys in the solution. -/
theorem moving_life_eq_nil_iff (steps : Nat) :
    (life limit offered (offered.length + steps)).store.moving = [] ↔
      ((new limit).addAll offered).solve.solution.size ≤ steps := by
  have hpopped := length_popped limit offered steps
  constructor
  · intro hover
    rw [length_popped_of_over hover] at hpopped
    omega
  · intro hpops
    by_contra hmoves
    have hnext := length_popped limit offered (steps + 1)
    rw [length_popped_succ limit offered hmoves] at hnext
    omega

/-- A value that is written at any time is in the solution, under the key of its handle. -/
theorem get?_solution_of_solved {time handle : Nat} {value : D}
    (hvalue : (life limit offered time).store.solved.getD handle none = some value) :
    ((new limit).addAll offered).solve.solution.get? ((life limit offered time).store.keyOf handle) =
      some value := by
  obtain ⟨steps, hsteps, hover⟩ := exists_over limit offered time
  obtain ⟨hkept, hname⟩ := keeps_life limit offered (Nat.le_add_left_of_le hsteps) handle value hvalue
  obtain ⟨keys, solver, told, hfollows⟩ := isFollowed_life limit offered (offered.length + steps)
  have hsolution := solution_eq_of_over hover hfollows
  rw [hfollows.store_eq] at hkept hname
  obtain ⟨key, hkey, rfl, hkeyValue⟩ := Solver.exists_key_of_solved hkept
  have hkeyName : (solver.encode keys).keyOf (keys.indexOf key) = key := Solver.keyOf_indexOf hkey
  rw [← hname, hkeyName, hsolution, hfollows.interned.get?_solution, hkeyValue]

/-- An accepted equation that is settled when it is registered has its value in the solution. -/
theorem get?_solution_of_registered {equation : Equation D}
    (hequation : equation ∈ (new limit).accepted offered) {value : D}
    (hsettled : equation.rhs.statusUnder .nothing = .resolved value) :
    ((new limit).addAll offered).solve.solution.get? equation.key = some value := by
  obtain ⟨keys, hreached, hinterned⟩ := exists_encode limit offered
  have hannounced := (Solver.announced_new limit).addAll offered
  rw [accepted_new] at hequation
  have hentry : equation.entryUnder .nothing ∈ ((Solver.new limit).addAll offered).entries := by
    rw [hannounced.entries]
    exact List.mem_map_of_mem hequation
  have hvalue : ((Solver.new limit).addAll offered).value? equation.key = some value :=
    hinterned.value?_eq_some_iff.mpr ⟨_, hentry, rfl, hsettled⟩
  have hkey := hinterned.mem_of_value? hvalue
  have hstart : (life limit offered offered.length).store =
      ((Solver.new limit).addAll offered).encode keys := by
    rw [store_life_of_le limit offered (Nat.le_refl _), List.take_length, hreached]
  have hsolved := (Solver.getD_solved_encode hkey _).trans hvalue
  have hname : (((Solver.new limit).addAll offered).encode keys).keyOf (keys.indexOf equation.key) =
      equation.key := Solver.keyOf_indexOf hkey
  rw [← hstart] at hsolved hname
  rw [← hname]
  exact get?_solution_of_solved limit offered hsolved

/-- What the life of a store comes to that is offered some equations and then runs. The run is over after
as many pops as there are keys in the solution, and these are at most as many as there are accepted
equations. Each handle is pushed at most once and popped at most once, and has a value when it is
popped. Every value that is written at any time is kept and is in the solution, among them the values
of the equations that are settled when they are registered. -/
structure ResolvesOnce (limit : Nat) (offered : List (Equation D)) : Prop where
  store_offered : ∀ time ≤ offered.length,
    (life limit offered time).store = (new limit).addAll (offered.take time)
  store_running : ∀ steps, (life limit offered (offered.length + steps)).store =
    (((new limit).addAll offered).progress steps).store
  over_iff : ∀ steps, (life limit offered (offered.length + steps)).store.moving = [] ↔
    ((new limit).addAll offered).solve.solution.size ≤ steps
  store_over : ∀ steps, ((new limit).addAll offered).solve.solution.size ≤ steps →
    (life limit offered (offered.length + steps)).store = ((new limit).addAll offered).run
  length_popped : ∀ steps, (life limit offered (offered.length + steps)).popped.length =
    min steps ((new limit).addAll offered).solve.solution.size
  pops_le_size : ((new limit).addAll offered).solve.solution.size ≤ ((new limit).addAll offered).size
  nodup_pushed : ∀ time, (life limit offered time).pushed.Nodup
  pushed_perm : ∀ time, (life limit offered time).pushed.Perm
    ((life limit offered time).store.moving ++ (life limit offered time).popped)
  solved_of_top : ∀ time handle rest, (life limit offered time).store.moving = handle :: rest →
    ((life limit offered time).store.solved.getD handle none).isSome
  keeps : ∀ earlier later, earlier ≤ later →
    (life limit offered earlier).store.Keeps (life limit offered later).store
  get?_of_solved : ∀ time handle value,
    (life limit offered time).store.solved.getD handle none = some value →
    ((new limit).addAll offered).solve.solution.get? ((life limit offered time).store.keyOf handle) =
      some value
  get?_of_final : ∀ equation ∈ (new limit).accepted offered, ∀ value, equation.rhs = .final value →
    ((new limit).addAll offered).solve.solution.get? equation.key = some value
  get?_of_normalize : ∀ equation ∈ (new limit).accepted offered, ∀ products value,
    equation.rhs = .pending products → Status.normalize products.toList = .resolved value →
    ((new limit).addAll offered).solve.solution.get? equation.key = some value

/-- A run ends, and it resolves each key at most once. -/
theorem resolvesOnce_of_offered : ResolvesOnce limit offered where
  store_offered := fun _ htime => store_life_of_le limit offered htime
  store_running := store_life_add limit offered
  over_iff := moving_life_eq_nil_iff limit offered
  store_over := fun steps hpops =>
    store_life_of_over ((moving_life_eq_nil_iff limit offered steps).mpr hpops)
  length_popped := length_popped limit offered
  pops_le_size := by
    have hannounced := (Solver.announced_new limit).addAll offered
    obtain ⟨keys, hreached, -⟩ := exists_encode limit offered
    have hsize : ((new limit).addAll offered).size = ((Solver.new limit).addAll offered).size :=
      congrArg size hreached
    rw [solve_addAll, Solver.solve, hannounced.size_solution_run, hsize, ← hannounced.size_run,
      ← Solver.resolvedCount_add_pendingCount]
    exact Nat.le_add_right _ _
  nodup_pushed := by
    intro time
    obtain ⟨keys, solver, told, hfollows⟩ := isFollowed_life limit offered time
    exact hfollows.nodup_pushed
  pushed_perm := by
    intro time
    obtain ⟨keys, solver, told, hfollows⟩ := isFollowed_life limit offered time
    exact hfollows.pushed_perm
  solved_of_top := by
    intro time handle rest hmoving
    obtain ⟨keys, solver, told, hfollows⟩ := isFollowed_life limit offered time
    exact hfollows.solved_of_moving handle (hmoving ▸ List.mem_cons_self)
  keeps := fun _ _ h => keeps_life limit offered h
  get?_of_solved := fun _ _ _ hvalue => get?_solution_of_solved limit offered hvalue
  get?_of_final := fun equation hequation value hrhs =>
    get?_solution_of_registered limit offered hequation (by rw [hrhs]; rfl)
  get?_of_normalize := fun equation hequation products value hrhs hnormal =>
    get?_solution_of_registered limit offered hequation (by rw [hrhs, Rhs.statusUnder_nothing, hnormal])

end Store

end MonotoneEquations
