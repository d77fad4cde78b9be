import MonotoneEquations.Proofs.Saturation
import MonotoneEquations.Proofs.StoreRegistration

/-!
# Passing a value on in the store

Passing a value on in the store of a solver gives the store of the solver that has passed it on. The
store goes through the dependents of one handle, while the solver goes through all its entries; the
entries in between do not react. Between two entries the store stands for a solver of which only the
first entries have received the value.

A key that is not interned has no readers, so that the solver does nothing where the store finds no
handle.
-/

namespace MonotoneEquations

variable {D : Type} [Domain D] [DecidableEq D]

/-! ## One entry -/

/-- An entry that receives a value keeps its key. -/
@[simp] theorem Entry.key_receive (source : Key) (value : D) (entry : Entry D) :
    (entry.receive source value).1.key = entry.key := by
  unfold Entry.receive
  split
  · rfl
  · split
    · split <;> rfl
    · rfl

/-- An entry that receives a value keeps the keys that it mentioned. -/
@[simp] theorem Entry.mentions_receive (source : Key) (value : D) (entry : Entry D) :
    (entry.receive source value).1.mentions = entry.mentions := by
  unfold Entry.receive
  split
  · rfl
  · split
    · split <;> rfl
    · rfl

/-- An entry that did not mention a key does not react to it. -/
theorem Entry.receive_of_not_mem {source : Key} {entry : Entry D} (h : source ∉ entry.mentions)
    (value : D) : entry.receive source value = (entry, []) := by
  unfold Entry.receive
  split
  · rfl
  · exact if_neg h

/-- A resolved entry does not react. -/
theorem Entry.receive_of_resolved {entry : Entry D} {result : D} (h : entry.status = .resolved result)
    (source : Key) (value : D) : entry.receive source value = (entry, []) := by
  unfold Entry.receive
  rw [h]

/-- An entry that receives a value waits on no new key. -/
theorem Entry.mem_of_mem_mentions_receive {source r : Key} {value : D} {entry : Entry D}
    (hr : r ∈ (entry.receive source value).1.status.mentions) : r ∈ entry.status.mentions := by
  unfold Entry.receive at hr
  split at hr
  · exact hr
  next sum hsum =>
    rw [hsum]
    split at hr
    · split at hr
      next rest hrest => exact Status.mem_of_mem_mentions_substitute (hrest ▸ hr)
      next => cases hr
    · rwa [hsum] at hr

/-- What a waiting entry does with the value of a key that it mentioned. -/
theorem Entry.receive_of_waiting {source : Key} {entry : Entry D} {sum : List (Product D)}
    (h : entry.status = .waiting sum) (hsource : source ∈ entry.mentions) (value : D) :
    entry.receive source value =
      match Status.substitute source value sum with
      | .waiting rest =>
        ({ entry with status := .waiting rest }, [.substituted source entry.key value])
      | .resolved result =>
        ({ entry with status := .resolved result },
          [.substituted source entry.key value, .resolved entry.key result]) := by
  unfold Entry.receive
  rw [h]
  exact if_pos hsource

/-- An interned entry stays interned when it receives a value. -/
theorem Entry.Interned.receive {keys : ArrivalSet Key} {entry : Entry D} (h : entry.Interned keys)
    (source : Key) (value : D) : (entry.receive source value).1.Interned keys where
  key_mem := by
    rw [Entry.key_receive]
    exact h.key_mem
  mentions_mem := by
    rw [Entry.mentions_receive]
    exact h.mentions_mem
  waits_mem := by
    rw [Entry.mentions_receive]
    exact fun r hr => h.waits_mem r (Entry.mem_of_mem_mentions_receive hr)

namespace Solver

variable {keys : ArrivalSet Key} {solver : Solver D} {before after : List (Entry D)} {entry : Entry D}

/-- The solver after one of its entries has received a value. -/
def receiveOne (source : Key) (value : D) (before : List (Entry D)) (entry : Entry D)
    (after : List (Entry D)) (solver : Solver D) : Solver D :=
  let (received, events) := entry.receive source value
  { solver with
    entries := before ++ received :: after
    worklist := (events.filterMap Event.resolution?).reverse ++ solver.worklist
    log := solver.log ++ events }

/-- An entry that does not react changes nothing. -/
theorem receiveOne_eq_self (hentries : solver.entries = before ++ entry :: after) {source : Key}
    {value : D} (hstays : entry.receive source value = (entry, [])) :
    solver.receiveOne source value before entry after = solver := by
  rw [receiveOne, hstays]
  dsimp only
  rw [← hentries, List.append_nil]
  rfl

/-- Only the entry that received a value changes. -/
theorem Interned.entryOf?_receiveOne (h : Interned keys solver)
    (hentries : solver.entries = before ++ entry :: after) (source : Key) (value : D) (q : Key) :
    (solver.receiveOne source value before entry after).entryOf? q =
      if q = entry.key then some (entry.receive source value).1 else solver.entryOf? q := by
  rw [entryOf?, entryOf?, hentries, receiveOne]
  dsimp only
  rw [List.find?_append, List.find?_append]
  by_cases hq : q = entry.key
  · have hnodup := h.nodup
    rw [hentries, List.map_append, List.map_cons] at hnodup
    have hbefore : before.find? (fun other => other.key = q) = none := by
      apply List.find?_eq_none.mpr
      intro other hother heq
      exact (List.nodup_append.mp hnodup).2.2 _ (List.mem_map_of_mem hother) _ List.mem_cons_self
        ((of_decide_eq_true heq).trans hq)
    rw [if_pos hq, hbefore, Option.none_or, List.find?_cons_of_pos (by simp [hq])]
  · rw [if_neg hq, List.find?_cons_of_neg (by simpa using Ne.symm hq),
      List.find?_cons_of_neg (by simpa using Ne.symm hq)]

/-- Receiving a value does not change which keys have entries. -/
theorem keys_receiveOne (hentries : solver.entries = before ++ entry :: after)
    (source : Key) (value : D) :
    (solver.receiveOne source value before entry after).entries.map Entry.key =
      solver.entries.map Entry.key := by
  rw [hentries, receiveOne]
  simp

/-- Receiving a value does not change the number of equations. -/
theorem size_receiveOne (hentries : solver.entries = before ++ entry :: after)
    (source : Key) (value : D) :
    (solver.receiveOne source value before entry after).size = solver.size := by
  rw [size, size, ← List.length_map Entry.key, keys_receiveOne hentries, List.length_map]

/-- Receiving a value does not change which keys are defined. -/
theorem defines_receiveOne (hentries : solver.entries = before ++ entry :: after)
    (source : Key) (value : D) :
    (solver.receiveOne source value before entry after).defines = solver.defines := by
  funext q
  have hany (entries : List (Entry D)) :
      (entries.any fun entry => entry.key = q) = (entries.map Entry.key).any (· = q) := by
    rw [List.any_map]
    rfl
  rw [defines, defines, hany, hany, keys_receiveOne hentries]

/-- Receiving a value does not change which keys read which. -/
theorem readers_receiveOne (hentries : solver.entries = before ++ entry :: after)
    (source : Key) (value : D) :
    (solver.receiveOne source value before entry after).readers = solver.readers := by
  funext q
  rw [readers, readers, hentries, receiveOne]
  by_cases hq : q ∈ entry.mentions
  · simp [hq]
  · simp [hq]

/-- An entry that receives a value has the value of its new status. -/
theorem Interned.value?_receiveOne (h : Interned keys solver)
    (hentries : solver.entries = before ++ entry :: after) (source : Key) (value : D) (q : Key) :
    (solver.receiveOne source value before entry after).value? q =
      if q = entry.key then (entry.receive source value).1.status.value? else solver.value? q := by
  rw [value?, h.entryOf?_receiveOne hentries]
  split <;> rfl

/-- An entry that receives a value waits on the sum of its new status. -/
theorem Interned.sum?_receiveOne (h : Interned keys solver)
    (hentries : solver.entries = before ++ entry :: after) (source : Key) (value : D) (q : Key) :
    (solver.receiveOne source value before entry after).sum? q =
      if q = entry.key then (entry.receive source value).1.status.sum? else solver.sum? q := by
  rw [sum?, h.entryOf?_receiveOne hentries]
  split <;> rfl

/-- The table of values, after an entry has received a value. -/
theorem Interned.set_solved_receiveOne (h : Interned keys solver)
    (hentries : solver.entries = before ++ entry :: after) (hkey : entry.key ∈ keys)
    (source : Key) (value : D) :
    (keys.toList.map solver.value?).set (keys.indexOf entry.key)
        (entry.receive source value).1.status.value? =
      keys.toList.map (solver.receiveOne source value before entry after).value? := by
  have hself := h.value?_receiveOne hentries source value entry.key
  rw [if_pos rfl] at hself
  rw [← hself]
  exact set_indexOf_map hkey fun q hq => by rw [h.value?_receiveOne hentries, if_neg hq]

/-- The table of sums, after an entry has received a value. -/
theorem Interned.set_pending_receiveOne (h : Interned keys solver)
    (hentries : solver.entries = before ++ entry :: after) (hkey : entry.key ∈ keys)
    (source : Key) (value : D) :
    (keys.toList.map fun q => (solver.sum? q).map (List.map (Product.encode keys))).set
        (keys.indexOf entry.key)
        ((entry.receive source value).1.status.sum?.map (List.map (Product.encode keys))) =
      keys.toList.map fun q =>
        ((solver.receiveOne source value before entry after).sum? q).map
          (List.map (Product.encode keys)) := by
  have hself := h.sum?_receiveOne hentries source value entry.key
  rw [if_pos rfl] at hself
  rw [← hself]
  refine set_indexOf_map hkey (f := fun q => (solver.sum? q).map (List.map (Product.encode keys)))
    (g := fun q => Option.map (List.map (Product.encode keys)) _) fun q hq => ?_
  rw [h.sum?_receiveOne hentries, if_neg hq]

/-- The store after an entry has received a value: what the entry has become is written to its
handle, and what it announces is logged and starts to move. -/
theorem Interned.encode_receiveOne (h : Interned keys solver)
    (hentries : solver.entries = before ++ entry :: after) (hkey : entry.key ∈ keys)
    (source : Key) (value : D) :
    (solver.receiveOne source value before entry after).encode keys =
      { solver.encode keys with
        solved := (solver.encode keys).solved.set (keys.indexOf entry.key)
          (entry.receive source value).1.status.value?
        pending := (solver.encode keys).pending.set (keys.indexOf entry.key)
          ((entry.receive source value).1.status.sum?.map (List.map (Product.encode keys)))
        moving := (((entry.receive source value).2.filterMap Event.resolution?).reverse ++
          solver.worklist).map fun pair => keys.indexOf pair.1
        log := solver.log ++ (entry.receive source value).2 } := by
  unfold encode
  dsimp only
  rw [h.set_solved_receiveOne hentries hkey, h.set_pending_receiveOne hentries hkey,
    defines_receiveOne hentries, readers_receiveOne hentries, size_receiveOne hentries]
  rfl

/-- Notifying a dependent lets its entry receive the value. -/
theorem Interned.notify_encode (h : Interned keys solver)
    (hentries : solver.entries = before ++ entry :: after) {source : Key}
    (hsource : source ∈ entry.mentions) (value : D) :
    (solver.encode keys).notify (keys.indexOf source) value (keys.indexOf entry.key) =
      (solver.receiveOne source value before entry after).encode keys := by
  have hmem : entry ∈ solver.entries := by rw [hentries]; simp
  have hentry : solver.entryOf? entry.key = some entry := h.entryOf?_eq_some_iff.mpr ⟨hmem, rfl⟩
  have hkey : entry.key ∈ keys := (h.entries entry hmem).key_mem
  have hsum : solver.sum? entry.key = entry.status.sum? := by rw [sum?, hentry]; rfl
  have hpending := getD_pending_encode hkey solver
  have hsourceName : (solver.encode keys).keyOf (keys.indexOf source) = source :=
    keyOf_indexOf ((h.entries entry hmem).mentions_mem source hsource)
  have hname : (solver.encode keys).keyOf (keys.indexOf entry.key) = entry.key := keyOf_indexOf hkey
  cases hstatus : entry.status with
  | resolved result =>
    rw [receiveOne_eq_self hentries (Entry.receive_of_resolved hstatus source value), Store.notify,
      hpending, hsum, hstatus]
    rfl
  | waiting sum =>
    rw [hstatus] at hsum
    have hreceive := Entry.receive_of_waiting hstatus hsource value
    have hunsolved : (solver.encode keys).solved.set (keys.indexOf entry.key) none =
        (solver.encode keys).solved := by
      have hnone : solver.value? entry.key = none := by rw [value?, hentry, Option.bind_some, hstatus]; rfl
      rw [← hnone]
      exact set_indexOf_map hkey fun _ _ => rfl
    rw [h.encode_receiveOne hentries hkey, Store.notify, hpending, hsum]
    simp only [Status.sum?, Option.map_some, hsourceName, hname]
    rw [Status.substitute_encode (h.within hsum)]
    cases hsubstitute : Status.substitute source value sum with
    | waiting rest =>
      rw [hsubstitute] at hreceive
      rw [hreceive]
      dsimp only [Status.encode, Status.value?, Status.sum?, Option.map_some, Store.record]
      rw [hunsolved, List.set_set]
      rfl
    | resolved result =>
      rw [hsubstitute] at hreceive
      have htaken : (Store.record { solver.encode keys with
          pending := (solver.encode keys).pending.set (keys.indexOf entry.key) none }
            (.substituted source entry.key value)).keyOf (keys.indexOf entry.key) = entry.key := hname
      rw [hreceive]
      dsimp only [Status.encode]
      rw [Store.resolve, htaken]
      dsimp only [Store.record]
      rw [List.append_assoc]
      rfl

/-- A value that an entry finds is the one that it announces. -/
theorem value?_of_mem_events {source : Key} {value : D} {pair : Key × D}
    (hpair : pair ∈ (entry.receive source value).2.filterMap Event.resolution?) :
    pair.1 = entry.key ∧ (entry.receive source value).1.status.value? = some pair.2 := by
  have hresolution : pair ∈ (entry.receive source value).1.resolution?.toList := by
    rw [Entry.resolution?_receive]
    exact List.mem_append_left _ hpair
  obtain ⟨result, hresult, rfl⟩ := Option.map_eq_some_iff.mp (Option.mem_toList.mp hresolution)
  exact ⟨Entry.key_receive source value entry, hresult⟩

/-- A solver stays interned when one of its entries receives a value. -/
theorem Interned.receiveOne (h : Interned keys solver)
    (hentries : solver.entries = before ++ entry :: after) (source : Key) (value : D) :
    Interned keys (solver.receiveOne source value before entry after) := by
  have hmem : entry ∈ solver.entries := by rw [hentries]; simp
  have hcases : ∀ other ∈ (solver.receiveOne source value before entry after).entries,
      other ∈ solver.entries ∨ other = (entry.receive source value).1 := by
    intro other hother
    rw [hentries]
    have hother : other ∈ before ++ (entry.receive source value).1 :: after := hother
    simp only [List.mem_append, List.mem_cons] at hother ⊢
    tauto
  refine ⟨by rw [keys_receiveOne hentries]; exact h.nodup, ?_, ?_⟩
  · intro other hother
    rcases hcases other hother with hother | rfl
    · exact h.entries other hother
    · exact (h.entries entry hmem).receive source value
  · intro pair hpair
    rw [h.value?_receiveOne hentries]
    rcases List.mem_append.mp hpair with hpair | hpair
    · obtain ⟨hkey, hvalue⟩ := value?_of_mem_events (List.mem_reverse.mp hpair)
      rw [if_pos hkey, hvalue]
    · have hvalue := h.resolved pair hpair
      split
      next hkey =>
        have hentry : solver.entryOf? pair.1 = some entry :=
          h.entryOf?_eq_some_iff.mpr ⟨hmem, hkey.symm⟩
        rw [value?, hentry, Option.bind_some] at hvalue
        cases hstatus : entry.status with
        | waiting sum => rw [hstatus] at hvalue; cases hvalue
        | resolved result => rw [Entry.receive_of_resolved hstatus, hvalue]
      next => exact hvalue

/-! ## All entries -/

/-- The solver after its last entries have received a value, in order. -/
def receiveAll (source : Key) (value : D) (before after : List (Entry D)) (solver : Solver D) :
    Solver D :=
  let received := after.map (Entry.receive source value)
  let events := received.flatMap Prod.snd
  { solver with
    entries := before ++ received.map Prod.fst
    worklist := (events.filterMap Event.resolution?).reverse ++ solver.worklist
    log := solver.log ++ events }

/-- The entries receive a value one after the other. -/
theorem receiveAll_cons (source : Key) (value : D) (before after : List (Entry D)) (entry : Entry D)
    (solver : Solver D) :
    solver.receiveAll source value before (entry :: after) =
      (solver.receiveOne source value before entry after).receiveAll source value
        (before ++ [(entry.receive source value).1]) after := by
  simp [receiveAll, receiveOne]

/-- Notifying the dependents of a handle lets all entries receive the value of its key. -/
theorem Interned.foldl_notify_encode (h : Interned keys solver)
    (hentries : solver.entries = before ++ after) (source : Key) (value : D) :
    ((after.filter fun entry => source ∈ entry.mentions).map fun entry => keys.indexOf entry.key).foldl
        (Store.notify (keys.indexOf source) value) (solver.encode keys) =
      (solver.receiveAll source value before after).encode keys ∧
    Interned keys (solver.receiveAll source value before after) := by
  induction after generalizing solver before with
  | nil =>
    have hself : solver.receiveAll source value before [] = solver := by
      rw [List.append_nil] at hentries
      simp [receiveAll, ← hentries]
    rw [hself]
    exact ⟨rfl, h⟩
  | cons entry after ih =>
    rw [receiveAll_cons]
    have hnext := @ih _ (before ++ [(entry.receive source value).1])
      (h.receiveOne hentries source value) (by rw [List.append_assoc, List.singleton_append]; rfl)
    refine ⟨?_, hnext.2⟩
    rw [← hnext.1]
    by_cases hsource : source ∈ entry.mentions
    · rw [List.filter_cons_of_pos (by simpa using hsource), List.map_cons, List.foldl_cons,
        h.notify_encode hentries hsource]
    · rw [List.filter_cons_of_neg (by simpa using hsource),
        receiveOne_eq_self hentries (Entry.receive_of_not_mem hsource value)]

/-- The list of dependents that is taken out and put back makes no difference. -/
theorem propagate_eq_foldl (store : Store D) (trigger : Nat) (value : D) :
    store.propagate trigger value =
      (store.dependencies.getD trigger []).foldl (Store.notify trigger value) store := by
  have hone (store : Store D) (lists : List (List Nat)) (dependent : Nat) :
      Store.notify trigger value { store with dependencies := lists } dependent =
        { Store.notify trigger value store dependent with dependencies := lists } := by
    unfold Store.notify
    dsimp only
    split
    · rfl
    · split <;> rfl
  have hall (dependents : List Nat) (store : Store D) (lists : List (List Nat)) :
      dependents.foldl (Store.notify trigger value) { store with dependencies := lists } =
        { dependents.foldl (Store.notify trigger value) store with dependencies := lists } := by
    induction dependents generalizing store with
    | nil => rfl
    | cons dependent rest ih => rw [List.foldl_cons, List.foldl_cons, hone, ih]
  have hback : (store.dependencies.set trigger []).set trigger (store.dependencies.getD trigger []) =
      store.dependencies := by
    rw [List.set_set]
    by_cases hrange : trigger < store.dependencies.length
    · rw [List.getD_eq_getElem?_getD, List.getElem?_eq_getElem hrange]
      exact List.set_getElem_self hrange
    · exact List.set_eq_of_length_le (Nat.le_of_not_lt hrange)
  rw [Store.propagate, hall, hback, ← hall]

/-- Passing on the value of an interned key. -/
theorem Interned.propagate_encode (h : Interned keys solver) {source : Key} (hsource : source ∈ keys)
    (value : D) :
    (solver.encode keys).propagate (keys.indexOf source) value =
      (solver.propagate source value).encode keys ∧ Interned keys (solver.propagate source value) := by
  have hdependents : (solver.encode keys).dependencies.getD (keys.indexOf source) [] =
      (solver.entries.filter fun entry => source ∈ entry.mentions).map fun entry =>
        keys.indexOf entry.key := by
    refine (getD_idxOf_map hsource _ []).trans ?_
    rw [readers, List.map_map]
    rfl
  rw [propagate_eq_foldl, hdependents]
  exact h.foldl_notify_encode (List.nil_append _).symm source value

/-- Passing on the value of a key that no entry mentioned changes nothing. -/
theorem propagate_of_not_mem_mentions {source : Key}
    (hsource : ∀ entry ∈ solver.entries, source ∉ entry.mentions) (value : D) :
    solver.propagate source value = solver := by
  have hstays : solver.entries.map (Entry.receive source value) =
      solver.entries.map fun entry => (entry, []) :=
    List.map_congr_left fun entry hentry => Entry.receive_of_not_mem (hsource entry hentry) value
  have hentries : (solver.entries.map fun entry => (entry, ([] : List (Event D)))).map Prod.fst =
      solver.entries := by rw [List.map_map]; exact List.map_id _
  have hevents : (solver.entries.map fun entry => (entry, ([] : List (Event D)))).flatMap Prod.snd =
      [] := by simp [List.flatMap_eq_nil_iff]
  rw [propagate, hstays, hentries, hevents, List.append_nil]
  rfl

/-- Passing on the value of a key that is not interned changes nothing. -/
theorem Interned.propagate_of_not_mem (h : Interned keys solver) {source : Key} (hsource : source ∉ keys)
    (value : D) : solver.propagate source value = solver :=
  propagate_of_not_mem_mentions
    (fun entry hentry hmem => hsource ((h.entries entry hentry).mentions_mem source hmem)) value

end Solver

end MonotoneEquations
