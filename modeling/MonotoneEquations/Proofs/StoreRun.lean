import MonotoneEquations.Proofs.StorePropagation

/-!
# A run of the store

A whole run of the store of a solver is a run of the solver. The counts, the solution and the log
read from a store are those of the solver, so they do not depend on the order in which the keys were
interned, nor on keys that refused equations have left behind.
-/

namespace MonotoneEquations

variable {D : Type} [Domain D] [DecidableEq D]

namespace Store

omit [Domain D] [DecidableEq D] in
/-- The value of a key, if the key has a handle that has one. -/
def value? (store : Store D) (key : Key) : Option D :=
  (store.keys.indexOf? key).bind fun handle => store.solved.getD handle none

omit [Domain D] [DecidableEq D] in
/-- The value of a handle, or the sum that it waits on. -/
def term? (store : Store D) (handle : Nat) : Option (Term D) :=
  match store.solved.getD handle none with
  | some value => some (.final value)
  | none => (store.pending.getD handle none).map .pending

/-- A run is over when no handle is moving. -/
theorem run_of_nil {store : Store D} (h : store.moving = []) : store.run = store := by
  rw [run]
  split
  next => rfl
  next heq => rw [h] at heq; cases heq

/-- A run announces the first moving handle and goes on. -/
theorem run_of_cons {store : Store D} {handle : Nat} {rest : List Nat}
    (h : store.moving = handle :: rest) :
    store.run = ({ store with moving := rest }.announce handle).run := by
  rw [run]
  split
  next heq => rw [h] at heq; cases heq
  next heq =>
    rw [h] at heq
    cases heq
    rfl

end Store

namespace Solver

variable {keys : ArrivalSet Key} {solver : Solver D}

/-! ## Steps -/

/-- Passing on the value of a key, interned or not. -/
theorem Interned.propagateAll_encode (h : Interned keys solver) (source : Key) (value : D)
    (rest : List (Option Nat × D)) :
    (solver.encode keys).propagateAll ((keys.indexOf? source, value) :: rest) =
      ((solver.propagate source value).encode keys).propagateAll rest ∧
    Interned keys (solver.propagate source value) := by
  by_cases hsource : source ∈ keys
  · obtain ⟨hstep, hnext⟩ := h.propagate_encode hsource value
    have hindex : keys.indexOf? source = some (keys.indexOf source) := if_pos hsource
    rw [hindex, Store.propagateAll, hstep]
    exact ⟨rfl, hnext⟩
  · have hindex : keys.indexOf? source = none := if_neg hsource
    rw [hindex, h.propagate_of_not_mem hsource]
    exact ⟨rfl, h⟩

/-- Announcing a resolved key. -/
theorem Interned.announce_encode (h : Interned keys solver) {key : Key} {value : D}
    (hvalue : solver.value? key = some value) :
    (solver.encode keys).announce (keys.indexOf key) = (solver.announce key value).encode keys ∧
      Interned keys (solver.announce key value) := by
  have hkey : key ∈ keys := h.mem_of_value? hvalue
  have hsolved := (getD_solved_encode hkey solver).trans hvalue
  have hname : (solver.encode keys).keyOf (keys.indexOf key) = key := keyOf_indexOf hkey
  have hself : some (keys.indexOf key) = keys.indexOf? key := (if_pos hkey).symm
  have hnegated : (solver.encode keys).keys.indexOf? key.negate = keys.indexOf? key.negate := rfl
  rw [Store.announce, hsolved]
  dsimp only
  rw [hname, hnegated, hself]
  unfold announce
  by_cases hstable : key.stable
  · rw [if_pos hstable, if_pos hstable]
    obtain ⟨hfirst, hinterned⟩ := h.propagateAll_encode key value [(keys.indexOf? key.negate, value)]
    obtain ⟨hsecond, hnext⟩ := hinterned.propagateAll_encode key.negate value []
    exact ⟨hfirst.trans hsecond, hnext⟩
  · rw [if_neg hstable, if_neg hstable]
    obtain ⟨hfirst, hinterned⟩ :=
      h.propagateAll_encode key.negate value [(keys.indexOf? key, Domain.top)]
    obtain ⟨hsecond, hnext⟩ := hinterned.propagateAll_encode key Domain.top []
    exact ⟨hfirst.trans hsecond, hnext⟩

omit [Domain D] [DecidableEq D] in
/-- The first key of the worklist has its value. -/
theorem Interned.value?_of_worklist (h : Interned keys solver) {key : Key} {value : D}
    {rest : List (Key × D)} (hwork : solver.worklist = (key, value) :: rest) :
    solver.value? key = some value :=
  h.resolved (key, value) (hwork ▸ List.mem_cons_self)

omit [Domain D] [DecidableEq D] in
/-- A key leaves the worklist. -/
theorem Interned.pop (h : Interned keys solver) {pair : Key × D} {rest : List (Key × D)}
    (hwork : solver.worklist = pair :: rest) : Interned keys { solver with worklist := rest } where
  nodup := h.nodup
  entries := h.entries
  resolved := fun other hother => h.resolved other (hwork ▸ List.mem_cons_of_mem _ hother)

/-- The store announces its first moving handle as the solver announces the key of that handle. -/
theorem Interned.announce_pop_encode (h : Interned keys solver) {key : Key} {value : D}
    {rest : List (Key × D)} (hwork : solver.worklist = (key, value) :: rest) :
    (solver.encode keys).moving = keys.indexOf key :: rest.map (fun pair => keys.indexOf pair.1) ∧
      ({ solver.encode keys with moving := rest.map fun pair => keys.indexOf pair.1 } : Store D).announce
          (keys.indexOf key) =
        ({ solver with worklist := rest }.announce key value).encode keys ∧
      Interned keys ({ solver with worklist := rest }.announce key value) := by
  refine ⟨?_, (h.pop hwork).announce_encode (h.value?_of_worklist hwork)⟩
  rw [encode, hwork, List.map_cons]

/-- A run of the store is a run of the solver. -/
theorem Interned.run_encode (h : Interned keys solver) :
    (solver.encode keys).run = solver.run.encode keys ∧ Interned keys solver.run := by
  have hstep : ∀ (next : Solver D) (key : Key) (value : D) (rest : List (Key × D)),
      (solver.encode keys).run = (next.encode keys).run ∧ Interned keys next →
      next.worklist = (key, value) :: rest →
      (solver.encode keys).run = (({ next with worklist := rest }.announce key value).encode keys).run ∧
        Interned keys ({ next with worklist := rest }.announce key value) := by
    intro next key value rest hnext hwork
    obtain ⟨hmoving, hannounce, hinterned⟩ := hnext.2.announce_pop_encode hwork
    exact ⟨hnext.1.trans ((Store.run_of_cons hmoving).trans (congrArg Store.run hannounce)), hinterned⟩
  obtain ⟨⟨hrun, hfinal⟩, hempty⟩ := run_induction hstep ⟨rfl, h⟩
  have hmoving : (solver.run.encode keys).moving = [] := by rw [encode, hempty, List.map_nil]
  exact ⟨hrun.trans (Store.run_of_nil hmoving), hfinal⟩

/-! ## Observations -/

omit [Domain D] [DecidableEq D] in
/-- Counting interned keys by their entries counts the entries. -/
theorem Interned.countP_entryOf? (h : Interned keys solver) (p : Entry D → Bool) :
    (keys.toList.countP fun key => (solver.entryOf? key).any p) = solver.entries.countP p := by
  have hperm : (keys.toList.filter fun key => (solver.entryOf? key).any p).Perm
      ((solver.entries.filter p).map Entry.key) := by
    refine (List.perm_ext_iff_of_nodup (keys.nodup.filter _)
      ((List.filter_sublist.map _).nodup h.nodup)).mpr fun key => ?_
    rw [List.mem_filter, List.mem_map, Option.any_eq_true]
    constructor
    · intro hkey
      obtain ⟨-, entry, hentry, hp⟩ := hkey
      obtain ⟨hmem, hkey⟩ := h.entryOf?_eq_some_iff.mp hentry
      exact ⟨entry, List.mem_filter.mpr ⟨hmem, hp⟩, hkey⟩
    · intro hentries
      obtain ⟨entry, hentry, rfl⟩ := hentries
      obtain ⟨hmem, hp⟩ := List.mem_filter.mp hentry
      exact ⟨(h.entries entry hmem).key_mem, entry, h.entryOf?_eq_some_iff.mpr ⟨hmem, rfl⟩, hp⟩
  rw [List.countP_eq_length_filter, List.countP_eq_length_filter, hperm.length_eq, List.length_map]

omit [Domain D] [DecidableEq D] in
/-- The store counts the waiting equations of the solver. -/
theorem Interned.pendingCount_encode (h : Interned keys solver) :
    (solver.encode keys).pendingCount = solver.pendingCount := by
  have hplace (key : Key) : ((solver.sum? key).map (List.map (Product.encode keys))).isSome =
      (solver.entryOf? key).any fun entry => entry.status.isWaiting := by
    rw [Option.isSome_map, sum?]
    cases solver.entryOf? key with
    | none => rfl
    | some entry => cases hstatus : entry.status <;> simp [hstatus, Status.sum?, Status.isWaiting]
  rw [Store.pendingCount, encode, List.countP_map, pendingCount, ← h.countP_entryOf?]
  exact List.countP_congr fun key _ => by rw [Function.comp, hplace]

omit [Domain D] [DecidableEq D] in
/-- The store counts the resolved equations of the solver. -/
theorem Interned.resolvedCount_encode (h : Interned keys solver) :
    (solver.encode keys).resolvedCount = solver.resolvedCount := by
  have hplace (key : Key) : (solver.value? key).isSome =
      (solver.entryOf? key).any fun entry => !entry.status.isWaiting := by
    rw [value?]
    cases solver.entryOf? key with
    | none => rfl
    | some entry => cases hstatus : entry.status <;> simp [hstatus, Status.value?, Status.isWaiting]
  rw [Store.resolvedCount, encode, List.countP_map, resolvedCount, ← h.countP_entryOf?]
  exact List.countP_congr fun key _ => by rw [Function.comp, hplace]

omit [Domain D] [DecidableEq D] in
/-- The resolved keys are those that have a value. -/
theorem Interned.mem_resolutions_iff (h : Interned keys solver) {key : Key} {value : D} :
    (key, value) ∈ solver.resolutions ↔ solver.value? key = some value := by
  rw [resolutions, List.mem_filterMap, value?, Option.bind_eq_some_iff]
  constructor
  · intro hlisted
    obtain ⟨entry, hentry, hresolution⟩ := hlisted
    obtain ⟨result, hresult, heq⟩ := Option.map_eq_some_iff.mp hresolution
    cases heq
    exact ⟨entry, h.entryOf?_eq_some_iff.mpr ⟨hentry, rfl⟩, hresult⟩
  · intro hvalue
    obtain ⟨entry, hentry, hresult⟩ := hvalue
    obtain ⟨hmem, rfl⟩ := h.entryOf?_eq_some_iff.mp hentry
    exact ⟨entry, hmem, by rw [Entry.resolution?, hresult]; rfl⟩

omit [Domain D] [DecidableEq D] in
/-- The solution assigns to each key its value. -/
theorem Interned.get?_solution (h : Interned keys solver) (key : Key) :
    solver.solution.get? key = solver.value? key := by
  apply Option.ext
  intro value
  rw [← h.mem_resolutions_iff]
  exact KeyMap.get?_ofList (nodup_resolutions_of_nodup h.nodup)

omit [Domain D] [DecidableEq D] in
/-- The value of a key stands at its handle. -/
theorem Interned.value?_encode (h : Interned keys solver) (key : Key) :
    (solver.encode keys).value? key = solver.value? key := by
  by_cases hkey : key ∈ keys
  · have hindex : keys.indexOf? key = some (keys.indexOf key) := if_pos hkey
    exact (congrArg (Option.bind · _) hindex).trans (getD_solved_encode hkey solver)
  · have hindex : keys.indexOf? key = none := if_neg hkey
    rw [value?, h.entryOf?_eq_none hkey]
    exact congrArg (Option.bind · _) hindex

omit [Domain D] [DecidableEq D] in
/-- The term of an equation stands at the handle of its key. -/
theorem Interned.term?_encode (h : Interned keys solver) {entry : Entry D}
    (hentry : entry ∈ solver.entries) :
    (solver.encode keys).term? (keys.indexOf entry.key) = some (entry.status.encode keys) := by
  have hkey : entry.key ∈ keys := (h.entries entry hentry).key_mem
  have hfound : solver.entryOf? entry.key = some entry := h.entryOf?_eq_some_iff.mpr ⟨hentry, rfl⟩
  rw [Store.term?, getD_solved_encode hkey, getD_pending_encode hkey, value?, sum?, hfound]
  cases hstatus : entry.status <;> simp [hstatus, Status.value?, Status.sum?, Status.encode]

omit [Domain D] [DecidableEq D] in
/-- A sum in the store of a solver is the sum of an entry, which stands at its handle. -/
theorem Interned.exists_entry_of_pending (h : Interned keys solver) {handle : Nat}
    {sum : List (Component D)} (hpending : (solver.encode keys).pending.getD handle none = some sum) :
    ∃ entry ∈ solver.entries, ∃ products, keys.indexOf entry.key = handle ∧
      entry.status = .waiting products ∧ (∀ product ∈ products, product.Within keys) ∧
      products.map (Product.encode keys) = sum := by
  rw [encode, List.getD_eq_getElem?_getD, List.getElem?_map] at hpending
  cases hkey : keys.toList[handle]? with
  | none => simp [hkey] at hpending
  | some key =>
    rw [hkey] at hpending
    obtain ⟨products, hproducts, rfl⟩ := Option.map_eq_some_iff.mp hpending
    obtain ⟨entry, hentry, rfl, hstatus⟩ := h.sum?_eq_some_iff.mp hproducts
    exact ⟨entry, hentry, products, ArrivalSet.indexOf_eq_of_getElem? hkey, hstatus,
      h.within hproducts, rfl⟩

omit [Domain D] [DecidableEq D] in
/-- The handles in an encoded sum are those of the keys that the sum mentions. -/
theorem exists_key_of_mem_ids (solver : Solver D) {products : List (Product D)}
    (hwithin : ∀ product ∈ products, product.Within keys) {component : Component D}
    (hcomponent : component ∈ products.map (Product.encode keys)) {id : Nat}
    (hid : id ∈ component.ids) :
    ∃ r ∈ (Status.waiting products).mentions, id < keys.toList.length ∧
      (solver.encode keys).keyOf id = r := by
  obtain ⟨product, hproduct, rfl⟩ := List.mem_map.mp hcomponent
  obtain ⟨r, hr, rfl⟩ := Product.mem_ids_encode.mp hid
  have hmem : r ∈ keys := hwithin product hproduct r hr
  exact ⟨r, List.mem_flatMap.mpr ⟨product, hproduct, hr⟩, List.idxOf_lt_length_of_mem hmem,
    keyOf_indexOf hmem⟩

omit [Domain D] [DecidableEq D] in
/-- The store holds the values of the solver. -/
theorem Interned.solution_encode (h : Interned keys solver) :
    (solver.encode keys).solution = solver.solution := by
  have hlist : (solver.encode keys).solution = .ofList (keys.toList.filterMap fun key =>
      (solver.value? key).map fun value => (key, value)) := by
    rw [Store.solution, encode, ← List.map_prod_left_eq_zip, List.filterMap_map]
    rfl
  have hkeys : ((keys.toList.filterMap fun key =>
      (solver.value? key).map fun value => (key, value)).map Prod.fst).Nodup := by
    refine (map_filterMap_sublist (k := id) (fun key pair hpair => ?_) keys.toList).nodup
      (by rw [List.map_id]; exact keys.nodup)
    obtain ⟨value, -, rfl⟩ := Option.map_eq_some_iff.mp hpair
    rfl
  have hsolution : solver.solution = .ofList solver.resolutions := rfl
  apply KeyMap.ext_of_get?
  intro key
  apply Option.ext
  intro value
  rw [hlist, hsolution, KeyMap.get?_ofList hkeys,
    KeyMap.get?_ofList (nodup_resolutions_of_nodup h.nodup), h.mem_resolutions_iff, List.mem_filterMap]
  constructor
  · intro hlisted
    obtain ⟨q, -, hq⟩ := hlisted
    obtain ⟨result, hresult, heq⟩ := Option.map_eq_some_iff.mp hq
    cases heq
    exact hresult
  · exact fun hvalue => ⟨key, h.mem_of_value? hvalue, by rw [hvalue]; rfl⟩

/-- Solving the system of a store solves the system of the solver. -/
theorem Interned.solve_encode (h : Interned keys solver) : (solver.encode keys).solve = solver.solve := by
  obtain ⟨hrun, hfinal⟩ := h.run_encode
  rw [Store.solve, hrun, hfinal.solution_encode, hfinal.resolvedCount_encode,
    hfinal.pendingCount_encode]
  rfl

end Solver

namespace Store

/-- A store finds what the solver finds that was offered the same equations. -/
theorem solve_addAll (limit : Nat) (offered : List (Equation D)) :
    ((new limit).addAll offered).solve = ((Solver.new limit).addAll offered).solve := by
  obtain ⟨keys, hreached, h⟩ := exists_encode limit offered
  rw [hreached, h.solve_encode]

/-- A store counts the equations that it has accepted. -/
theorem size_addAll (limit : Nat) (offered : List (Equation D)) :
    ((new limit).addAll offered).size = ((new limit).accepted offered).length := by
  obtain ⟨keys, hreached, -⟩ := exists_encode limit offered
  rw [hreached, accepted_new]
  exact Solver.size_addAll limit offered

/-- A store counts the waiting equations of the solver that was offered the same equations. -/
theorem pendingCount_addAll (limit : Nat) (offered : List (Equation D)) :
    ((new limit).addAll offered).pendingCount = ((Solver.new limit).addAll offered).pendingCount := by
  obtain ⟨keys, hreached, h⟩ := exists_encode limit offered
  rw [hreached, h.pendingCount_encode]

end Store

end MonotoneEquations
