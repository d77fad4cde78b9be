import MonotoneEquations.Proofs.StoreRun

/-!
# What still waits when a run is over

A run ends when no handle is moving. An equation that has no value then still waits on a key, and
none of the keys that it waits on has a value, nor has the negation of one. So an equation is left
without a value because of what it waits on, and never because a value was not passed on.

Only two facts carry this. An equation hears of every key that it waits on, and putting a value in
for a key removes the key from the sum. The laws of the domain have no part in it: they decide which
value an equation gets, but not which keys it waits on until then.
-/

namespace MonotoneEquations

variable {D : Type}

/-- The keys that a right hand side mentions. -/
def Rhs.mentions : Rhs D → List Key
  | .final _ => []
  | .pending products => products.toList.flatMap fun product => product.ids.toList

variable [Domain D] [DecidableEq D]

/-! ## What an equation waits on -/

namespace Status

/-- A normal form that waits mentions a key. -/
theorem mentions_normalize_ne_nil {sum : List (Product D)} (h : (normalize sum).isWaiting) :
    (normalize sum).mentions ≠ [] := by
  cases hstatus : normalize sum with
  | resolved value => simp [hstatus, isWaiting] at h
  | waiting rest =>
    obtain ⟨hwaits, rfl⟩ := normalize_eq_waiting_iff.mp hstatus
    obtain ⟨product, hproduct⟩ := List.exists_mem_of_ne_nil _ fun hnil => hwaits (.inl hnil)
    have hopen : product.isKnown = false := by simpa using (List.mem_filter.mp hproduct).2
    rw [Product.isKnown, Bool.or_eq_false_iff, Ascending.isEmpty, List.isEmpty_eq_false_iff] at hopen
    obtain ⟨r, hr⟩ := List.exists_mem_of_ne_nil _ hopen.1
    exact List.ne_nil_of_mem
      (List.mem_flatMap.mpr ⟨product, List.mem_append_left _ hproduct, hr⟩)

/-- A key is not waited on any more once a value is put in for it. -/
theorem not_mem_mentions_substitute (source : Key) (value : D) (sum : List (Product D)) :
    source ∉ (substitute source value sum).mentions := by
  intro hmem
  obtain ⟨other, hother, hids⟩ := List.mem_flatMap.mp (mem_of_mem_mentions_normalize hmem)
  obtain ⟨product, hproduct, rfl⟩ := List.mem_map.mp hother
  unfold Product.substitute at hids
  split at hids
  next => exact (Ascending.mem_erase.mp hids).2 rfl
  next habsent => exact habsent hids

end Status

/-- Before anything is known, an equation waits only on keys that it mentions. -/
theorem Rhs.mem_mentions_of_mem_statusUnder {rhs : Rhs D} {r : Key}
    (h : r ∈ (rhs.statusUnder .nothing).mentions) : r ∈ rhs.mentions := by
  cases rhs with
  | final value => exact h
  | pending products =>
    rw [statusUnder_nothing] at h
    exact Status.mem_of_mem_mentions_normalize h

/-- What a received value makes of the status of an entry. -/
theorem Entry.status_receive (source : Key) (value : D) (entry : Entry D) :
    (entry.receive source value).1.status =
      match entry.status with
      | .resolved result => .resolved result
      | .waiting sum =>
        if source ∈ entry.mentions then Status.substitute source value sum else .waiting sum := by
  cases hstatus : entry.status with
  | resolved result => rw [receive_of_resolved hstatus, hstatus]
  | waiting sum =>
    by_cases hsource : source ∈ entry.mentions
    · rw [receive_of_waiting hstatus hsource]
      cases hnext : Status.substitute source value sum <;> simp [hsource, hnext]
    · rw [receive_of_not_mem hsource, hstatus]
      simp [hsource]

/-- An entry stores an equation: it hears of every key that it waits on, these are keys of the
equation, and as long as it waits there is one. -/
structure Entry.Stores (entry : Entry D) (equation : Equation D) : Prop where
  key_eq : entry.key = equation.key
  mentions_mem : ∀ r ∈ entry.mentions, r ∈ equation.rhs.mentions
  waits_mem : ∀ r ∈ entry.status.mentions, r ∈ entry.mentions
  waits_ne_nil : entry.status.isWaiting → entry.status.mentions ≠ []

/-- Before anything is known, the entry of an equation stores it. -/
theorem Equation.stores_entryUnder (equation : Equation D) :
    (equation.entryUnder .nothing).Stores equation where
  key_eq := rfl
  mentions_mem := fun _ hr => Rhs.mem_mentions_of_mem_statusUnder hr
  waits_mem := fun _ hr => hr
  waits_ne_nil := by
    cases hrhs : equation.rhs with
    | final value => simp [entryUnder, hrhs, Rhs.statusUnder, Status.isWaiting]
    | pending products =>
      rw [entryUnder, hrhs, Rhs.statusUnder_nothing]
      exact Status.mentions_normalize_ne_nil

namespace Entry.Stores

variable {entry : Entry D} {equation : Equation D}

/-- An entry that receives a value still stores its equation. -/
theorem receive (h : entry.Stores equation) (source : Key) (value : D) :
    (entry.receive source value).1.Stores equation where
  key_eq := by rw [key_receive, h.key_eq]
  mentions_mem := by
    rw [mentions_receive]
    exact h.mentions_mem
  waits_mem := by
    rw [mentions_receive]
    exact fun r hr => h.waits_mem r (mem_of_mem_mentions_receive hr)
  waits_ne_nil := by
    rw [status_receive]
    cases hstatus : entry.status with
    | resolved result => simp [Status.isWaiting]
    | waiting sum =>
      by_cases hsource : source ∈ entry.mentions
      · simp only [hsource, if_true]
        exact Status.mentions_normalize_ne_nil
      · simp only [hsource, if_false]
        rw [← hstatus]
        exact h.waits_ne_nil

/-- An entry that has received the value of a key does not wait on the key. -/
theorem not_mem_mentions_receive (h : entry.Stores equation) (source : Key) (value : D) :
    source ∉ (entry.receive source value).1.status.mentions := by
  rw [status_receive]
  cases hstatus : entry.status with
  | resolved result => exact List.not_mem_nil
  | waiting sum =>
    by_cases hsource : source ∈ entry.mentions
    · simp only [hsource, if_true]
      exact Status.not_mem_mentions_substitute source value sum
    · simp only [hsource, if_false]
      exact fun hmem => hsource (h.waits_mem source (hstatus ▸ hmem))

end Entry.Stores

/-! ## What a solver has passed on -/

namespace Solver

/-- The entries of a solver store the equations of a system. -/
structure Stores (solver : Solver D) (system : List (Equation D)) : Prop where
  keys_eq : solver.entries.map Entry.key = system.map Equation.key
  stores : ∀ entry ∈ solver.entries, ∃ equation ∈ system, entry.Stores equation

/-- No entry waits on a key. -/
def Unawaited (solver : Solver D) (key : Key) : Prop :=
  ∀ entry ∈ solver.entries, key ∉ entry.status.mentions

variable {solver : Solver D} {system : List (Equation D)} {told rest : List (Key × D)}

/-- Before a value is passed on, the accepted equations are stored. -/
theorem Announced.stores (h : Announced system [] solver) : solver.Stores system where
  keys_eq := by
    rw [h.entries, List.map_map]
    rfl
  stores := by
    intro entry hentry
    rw [h.entries] at hentry
    obtain ⟨equation, hequation, rfl⟩ := List.mem_map.mp hentry
    exact ⟨equation, hequation, equation.stores_entryUnder⟩

/-- The entries of a solver that has passed a value on are those that have received it. -/
theorem mem_entries_propagate {source : Key} {value : D} {next : Entry D} :
    next ∈ (solver.propagate source value).entries ↔
      ∃ entry ∈ solver.entries, (entry.receive source value).1 = next := by
  rw [propagate, List.map_map]
  exact List.mem_map

/-- Entries that receive a value keep their keys. -/
theorem keys_propagate (solver : Solver D) (source : Key) (value : D) :
    (solver.propagate source value).entries.map Entry.key = solver.entries.map Entry.key := by
  rw [propagate, List.map_map, List.map_map]
  exact List.map_congr_left fun entry _ => entry.key_receive source value

omit [Domain D] [DecidableEq D] in
/-- If the equations of a stored system define different keys, each of them has an entry. -/
theorem Stores.exists_entry (h : solver.Stores system) (hnodup : (system.map Equation.key).Nodup)
    {equation : Equation D} (hequation : equation ∈ system) :
    ∃ entry ∈ solver.entries, entry.Stores equation := by
  have hkey : equation.key ∈ solver.entries.map Entry.key := by
    rw [h.keys_eq]
    exact List.mem_map_of_mem hequation
  obtain ⟨entry, hentry, hkey⟩ := List.mem_map.mp hkey
  obtain ⟨other, hother, hstores⟩ := h.stores entry hentry
  have hsame : other.key = equation.key := hstores.key_eq.symm.trans hkey
  rw [← List.inj_on_of_nodup_map hnodup hother hequation hsame]
  exact ⟨entry, hentry, hstores⟩

/-- Passing a value on keeps the system stored. -/
theorem Stores.propagate (h : solver.Stores system) (source : Key) (value : D) :
    (solver.propagate source value).Stores system where
  keys_eq := (keys_propagate solver source value).trans h.keys_eq
  stores := by
    intro next hnext
    obtain ⟨entry, hentry, rfl⟩ := mem_entries_propagate.mp hnext
    obtain ⟨equation, hequation, hstores⟩ := h.stores entry hentry
    exact ⟨equation, hequation, hstores.receive source value⟩

/-- Announcing a key keeps the system stored. -/
theorem Stores.announce (h : solver.Stores system) (key : Key) (value : D) :
    (solver.announce key value).Stores system := by
  unfold Solver.announce
  split
  · exact (h.propagate _ _).propagate _ _
  · exact (h.propagate _ _).propagate _ _

/-- Once the value of a key is passed on, no entry waits on the key. -/
theorem Stores.unawaited_propagate (h : solver.Stores system) (source : Key) (value : D) :
    (solver.propagate source value).Unawaited source := by
  intro next hnext
  obtain ⟨entry, hentry, rfl⟩ := mem_entries_propagate.mp hnext
  obtain ⟨_, -, hstores⟩ := h.stores entry hentry
  exact hstores.not_mem_mentions_receive source value

/-- No entry begins to wait on a key when a value is passed on. -/
theorem Unawaited.propagate {key : Key} (h : solver.Unawaited key) (source : Key) (value : D) :
    (solver.propagate source value).Unawaited key := by
  intro next hnext hkey
  obtain ⟨entry, hentry, rfl⟩ := mem_entries_propagate.mp hnext
  exact h entry hentry (Entry.mem_of_mem_mentions_receive hkey)

/-- No entry begins to wait on a key when another one is announced. -/
theorem Unawaited.announce {r : Key} (h : solver.Unawaited r) (key : Key) (value : D) :
    (solver.announce key value).Unawaited r := by
  unfold Solver.announce
  split
  · exact (h.propagate _ _).propagate _ _
  · exact (h.propagate _ _).propagate _ _

/-- Once a key is announced, no entry waits on the key or on its negation. -/
theorem Stores.unawaited_announce (h : solver.Stores system) (key : Key) (value : D) :
    (solver.announce key value).Unawaited key ∧ (solver.announce key value).Unawaited key.negate := by
  unfold Solver.announce
  split
  · exact ⟨(h.unawaited_propagate _ _).propagate _ _, (h.propagate _ _).unawaited_propagate _ _⟩
  · exact ⟨(h.propagate _ _).unawaited_propagate _ _, (h.unawaited_propagate _ _).propagate _ _⟩

/-- A solver that stores a system and has announced some of the resolved keys, while the others are on
the worklist. No entry waits on an announced key or on its negation. -/
structure Heard (system : List (Equation D)) (told : List (Key × D)) (solver : Solver D) : Prop extends
    solver.Stores system where
  resolutions : (solver.worklist ++ told).Perm solver.resolutions
  unawaited : ∀ pair ∈ told, solver.Unawaited pair.1 ∧ solver.Unawaited pair.1.negate

/-- Before a key is announced, all resolved keys are on the worklist. -/
theorem Announced.heard (h : Announced system [] solver) : Heard system [] solver :=
  { h.stores with
    resolutions := h.resolutions
    unawaited := fun _ hpair => nomatch hpair }

/-- All entries hear of the key that leaves the worklist. -/
theorem Heard.announce (h : Heard system told solver) {key : Key} {value : D}
    (hwork : solver.worklist = (key, value) :: rest) :
    Heard system ((key, value) :: told) ({ solver with worklist := rest }.announce key value) := by
  have hpop : ({ solver with worklist := rest } : Solver D).Stores system := ⟨h.keys_eq, h.stores⟩
  refine { hpop.announce key value with resolutions := ?_, unawaited := fun pair hpair => ?_ }
  · obtain ⟨found, hfound, hperm⟩ := resolutions_announce key value { solver with worklist := rest }
    have hold := h.resolutions
    rw [hwork] at hold
    rw [hfound, List.append_assoc]
    exact ((List.perm_middle.trans hold).append_left found).trans hperm
  · rcases List.mem_cons.mp hpair with rfl | hpair
    · exact hpop.unawaited_announce key value
    · obtain ⟨hpositive, hnegative⟩ := h.unawaited pair hpair
      have hpositive : ({ solver with worklist := rest } : Solver D).Unawaited pair.1 := hpositive
      have hnegative : ({ solver with worklist := rest } : Solver D).Unawaited pair.1.negate := hnegative
      exact ⟨hpositive.announce key value, hnegative.announce key value⟩

/-- When a run is over, every resolved key was announced. -/
theorem Announced.exists_heard_run (h : Announced system [] solver) :
    ∃ told, Heard system told solver.run ∧ told.Perm solver.run.resolutions := by
  have hstep : ∀ (next : Solver D) (key : Key) (value : D) (rest : List (Key × D)),
      (∃ told, Heard system told next) → next.worklist = (key, value) :: rest →
      ∃ told, Heard system told ({ next with worklist := rest }.announce key value) := by
    intro next key value rest hnext hwork
    obtain ⟨told, hheard⟩ := hnext
    exact ⟨_, hheard.announce hwork⟩
  obtain ⟨⟨told, hheard⟩, hempty⟩ := run_induction hstep ⟨[], h.heard⟩
  exact ⟨told, hheard, by simpa [hempty] using hheard.resolutions⟩

/-- When a run is over, the system is still stored. -/
theorem Announced.stores_run (h : Announced system [] solver) : solver.run.Stores system := by
  obtain ⟨_, hheard, -⟩ := h.exists_heard_run
  exact hheard.toStores

/-- When a run is over, no entry waits on a key of which either polarity is resolved. -/
theorem Announced.not_mem_resolutions_run (h : Announced system [] solver) {entry : Entry D}
    (hentry : entry ∈ solver.run.entries) {r : Key} (hr : r ∈ entry.status.mentions) (value : D) :
    (r, value) ∉ solver.run.resolutions ∧ (r.negate, value) ∉ solver.run.resolutions := by
  obtain ⟨told, hheard, htold⟩ := h.exists_heard_run
  refine ⟨fun hmem => ?_, fun hmem => ?_⟩
  · exact (hheard.unawaited _ (htold.mem_iff.mpr hmem)).1 entry hentry hr
  · have hunawaited := (hheard.unawaited _ (htold.mem_iff.mpr hmem)).2 entry hentry
    rw [Key.negate_negate] at hunawaited
    exact hunawaited hr

end Solver

/-! ## What a store has left -/

/-- A store at rest: nothing moves, every stored sum mentions a handle, and each handle that a stored
sum mentions belongs to a key that has no value and whose negation has none. -/
structure Store.Quiescent (store : Store D) : Prop where
  moving_eq : store.moving = []
  exists_mention : ∀ handle sum, store.pending.getD handle none = some sum →
    ∃ component ∈ sum, component.ids ≠ []
  unresolved : ∀ handle sum, store.pending.getD handle none = some sum →
    ∀ component ∈ sum, ∀ id ∈ component.ids, id < store.keys.toList.length ∧
      store.value? (store.keyOf id) = none ∧ store.value? (store.keyOf id).negate = none

namespace Solver

variable {keys : ArrivalSet Key} {solver : Solver D} {system : List (Equation D)}

/-- The store of a solver is at rest when the run of the solver is over. -/
theorem Announced.quiescent_encode (h : Announced system [] solver) (hinterned : Interned keys solver.run) :
    (solver.run.encode keys).Quiescent := by
  have hstores := h.stores_run
  refine ⟨by rw [encode, run_worklist, List.map_nil], ?_, ?_⟩
  · intro handle sum hpending
    obtain ⟨entry, hentry, products, -, hstatus, hwithin, rfl⟩ :=
      hinterned.exists_entry_of_pending hpending
    obtain ⟨_, -, hentryStores⟩ := hstores.stores entry hentry
    have hmentions := hentryStores.waits_ne_nil (by rw [hstatus]; rfl)
    obtain ⟨r, hr⟩ := List.exists_mem_of_ne_nil _ hmentions
    rw [hstatus] at hr
    obtain ⟨product, hproduct, hids⟩ := List.mem_flatMap.mp hr
    refine ⟨product.encode keys, List.mem_map_of_mem hproduct, ?_⟩
    exact List.ne_nil_of_mem (Product.mem_ids_encode.mpr ⟨r, hids, rfl⟩)
  · intro handle sum hpending component hcomponent id hid
    obtain ⟨entry, hentry, products, -, hstatus, hwithin, rfl⟩ :=
      hinterned.exists_entry_of_pending hpending
    obtain ⟨r, hr, hrange, hname⟩ := exists_key_of_mem_ids solver.run hwithin hcomponent hid
    rw [← hstatus] at hr
    have hnone := h.not_mem_resolutions_run hentry hr
    rw [hname, hinterned.value?_encode, hinterned.value?_encode]
    refine ⟨hrange, Option.eq_none_iff_forall_ne_some.mpr fun value hvalue => ?_,
      Option.eq_none_iff_forall_ne_some.mpr fun value hvalue => ?_⟩
    · exact (hnone value).1 (hinterned.mem_resolutions_iff.mpr hvalue)
    · exact (hnone value).2 (hinterned.mem_resolutions_iff.mpr hvalue)

/-- When a run is over, an equation without a value has a sum in the store, which mentions only
handles of keys of the equation. -/
theorem Announced.exists_sum_of_unresolved (h : Announced system [] solver)
    (hinterned : Interned keys solver.run) {equation : Equation D} (hequation : equation ∈ system)
    (hnone : solver.run.value? equation.key = none) :
    ∃ sum, (solver.run.encode keys).pending.getD (keys.indexOf equation.key) none = some sum ∧
      ∀ component ∈ sum, ∀ id ∈ component.ids,
        (solver.run.encode keys).keyOf id ∈ equation.rhs.mentions := by
  have hstores := h.stores_run
  obtain ⟨entry, hentry, hentryStores⟩ := hstores.exists_entry h.nodup hequation
  cases hstatus : entry.status with
  | resolved value =>
    have hvalue := hinterned.value?_eq_some_iff.mpr ⟨entry, hentry, hentryStores.key_eq, hstatus⟩
    rw [hnone] at hvalue
    cases hvalue
  | waiting products =>
    have hsum := hinterned.sum?_eq_some_iff.mpr ⟨entry, hentry, hentryStores.key_eq, hstatus⟩
    have hkey : equation.key ∈ keys := hentryStores.key_eq ▸ (hinterned.entries entry hentry).key_mem
    refine ⟨products.map (Product.encode keys), by rw [getD_pending_encode hkey, hsum]; rfl, ?_⟩
    intro component hcomponent id hid
    obtain ⟨r, hr, -, hname⟩ :=
      exists_key_of_mem_ids solver.run (hinterned.within hsum) hcomponent hid
    rw [hname]
    exact hentryStores.mentions_mem r (hentryStores.waits_mem r (hstatus ▸ hr))

end Solver

namespace Store

/-- When a run is over, the store is at rest: no value is left that some equation has not heard of. An
accepted equation that is missing from the solution waits on a sum of keys that it mentions. -/
theorem quiescent_run (limit : Nat) (offered : List (Equation D)) :
    let start := (new limit).addAll offered
    start.run.Quiescent ∧
      ∀ equation ∈ (new limit).accepted offered, start.solve.solution.get? equation.key = none →
        ∃ sum, start.run.pending.getD (start.run.keys.indexOf equation.key) none = some sum ∧
          ∀ component ∈ sum, ∀ id ∈ component.ids, start.run.keyOf id ∈ equation.rhs.mentions := by
  intro start
  obtain ⟨keys, hreached, hstart⟩ := exists_encode limit offered
  have hannounced := (Solver.announced_new limit).addAll offered
  obtain ⟨hrun, hfinal⟩ := hstart.run_encode
  have hstartRun : start.run = ((Solver.new limit).addAll offered).run.encode keys :=
    (congrArg run hreached).trans hrun
  rw [accepted_new, hstartRun, show start.solve = _ from solve_addAll limit offered]
  refine ⟨hannounced.quiescent_encode hfinal, fun equation hequation hnone => ?_⟩
  rw [Solver.solve, hfinal.get?_solution] at hnone
  exact hannounced.exists_sum_of_unresolved hfinal hequation hnone

end Store

end MonotoneEquations
