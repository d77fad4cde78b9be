import MonotoneEquations.Proofs.ComponentEncoding
import MonotoneEquations.Solver.Store

/-!
# The store of a solver

A solver together with the order in which its keys were interned determines the store: each table
lists, in that order, what the solver knows about a key. The order may hold keys that the solver
knows nothing about, left behind by refused equations. `Interned` says that no key of the solver is
missing, and what else the tables rely on.

Interning a key leaves the solver alone and only lets the order grow.
-/

namespace MonotoneEquations

variable {D : Type}

/-- The sum that an equation waits on, if it waits. -/
def Status.sum? : Status D → Option (List (Product D))
  | .waiting sum => some sum
  | .resolved _ => none

namespace Solver

/-- The entry of a key, if the key has an accepted equation. -/
def entryOf? (solver : Solver D) (key : Key) : Option (Entry D) :=
  solver.entries.find? fun entry => entry.key = key

/-- The value of a key, if it has one. -/
def value? (solver : Solver D) (key : Key) : Option D :=
  (solver.entryOf? key).bind fun entry => entry.status.value?

/-- The sum that a key waits on, if it waits. -/
def sum? (solver : Solver D) (key : Key) : Option (List (Product D)) :=
  (solver.entryOf? key).bind fun entry => entry.status.sum?

/-- The keys whose equations mentioned a key when they were stored. -/
def readers (solver : Solver D) (key : Key) : List Key :=
  (solver.entries.filter fun entry => key ∈ entry.mentions).map Entry.key

/-- The store of a solver whose keys were interned in the given order. -/
def encode (keys : ArrivalSet Key) (solver : Solver D) : Store D where
  limit := solver.limit
  keys := keys
  defined := keys.toList.map solver.defines
  solved := keys.toList.map solver.value?
  pending := keys.toList.map fun key => (solver.sum? key).map (List.map (Product.encode keys))
  dependencies := keys.toList.map fun key => (solver.readers key).map keys.indexOf
  moving := solver.worklist.map fun pair => keys.indexOf pair.1
  size := solver.size
  log := solver.log

end Solver

/-- Every key of an entry is interned, and the entry waits only on keys that it mentioned. -/
structure Entry.Interned (keys : ArrivalSet Key) (entry : Entry D) : Prop where
  key_mem : entry.key ∈ keys
  mentions_mem : ∀ key ∈ entry.mentions, key ∈ keys
  waits_mem : ∀ key ∈ entry.status.mentions, key ∈ entry.mentions

namespace Solver

/-- Every key of the solver is interned, each equation has a key of its own, and the worklist holds
resolved keys with their values. -/
structure Interned (keys : ArrivalSet Key) (solver : Solver D) : Prop where
  nodup : (solver.entries.map Entry.key).Nodup
  entries : ∀ entry ∈ solver.entries, entry.Interned keys
  resolved : ∀ pair ∈ solver.worklist, solver.value? pair.1 = some pair.2

/-- A new solver has no keys to intern. -/
theorem interned_new (limit : Nat) : Interned .empty (new limit : Solver D) :=
  ⟨List.nodup_nil, fun _ h => (nomatch h), fun _ h => (nomatch h)⟩

/-- A key has an entry exactly if it is defined. -/
theorem entryOf?_eq_none_iff {solver : Solver D} {key : Key} :
    solver.entryOf? key = none ↔ solver.defines key = false := by
  rw [entryOf?, defines, List.find?_eq_none, List.any_eq_false]

variable {keys : ArrivalSet Key} {solver : Solver D}

/-- An entry is the one of its key. -/
theorem Interned.entryOf?_eq_some_iff (h : Interned keys solver) {key : Key} {entry : Entry D} :
    solver.entryOf? key = some entry ↔ entry ∈ solver.entries ∧ entry.key = key :=
  find?_eq_some_iff_mem h.nodup

/-- A key that is not interned has no entry. -/
theorem Interned.entryOf?_eq_none (h : Interned keys solver) {key : Key} (hkey : key ∉ keys) :
    solver.entryOf? key = none := by
  refine Option.eq_none_iff_forall_ne_some.mpr fun entry hentry => hkey ?_
  obtain ⟨hmem, rfl⟩ := h.entryOf?_eq_some_iff.mp hentry
  exact (h.entries entry hmem).key_mem

/-- A key that is not interned has no readers. -/
theorem Interned.readers_eq_nil (h : Interned keys solver) {key : Key} (hkey : key ∉ keys) :
    solver.readers key = [] := by
  rw [readers, List.map_eq_nil_iff, List.filter_eq_nil_iff]
  exact fun entry hentry hmem =>
    hkey ((h.entries entry hentry).mentions_mem key (of_decide_eq_true hmem))

/-- The readers of a key are interned. -/
theorem Interned.reader_mem (h : Interned keys solver) {key reader : Key}
    (hreader : reader ∈ solver.readers key) : reader ∈ keys := by
  obtain ⟨entry, hentry, rfl⟩ := List.mem_map.mp hreader
  exact (h.entries entry (List.mem_filter.mp hentry).1).key_mem

/-- A key with a value is interned. -/
theorem Interned.mem_of_value? (h : Interned keys solver) {key : Key} {value : D}
    (hvalue : solver.value? key = some value) : key ∈ keys := by
  by_contra hkey
  rw [value?, h.entryOf?_eq_none hkey] at hvalue
  cases hvalue

/-- A key has a value if its entry is resolved. -/
theorem Interned.value?_eq_some_iff (h : Interned keys solver) {key : Key} {value : D} :
    solver.value? key = some value ↔
      ∃ entry ∈ solver.entries, entry.key = key ∧ entry.status = .resolved value := by
  rw [value?, Option.bind_eq_some_iff]
  refine exists_congr fun entry => ?_
  rw [h.entryOf?_eq_some_iff, and_assoc]
  cases entry.status <;> simp [Status.value?]

/-- A key waits on a sum if its entry does. -/
theorem Interned.sum?_eq_some_iff (h : Interned keys solver) {key : Key} {sum : List (Product D)} :
    solver.sum? key = some sum ↔
      ∃ entry ∈ solver.entries, entry.key = key ∧ entry.status = .waiting sum := by
  rw [sum?, Option.bind_eq_some_iff]
  refine exists_congr fun entry => ?_
  rw [h.entryOf?_eq_some_iff, and_assoc]
  cases entry.status <;> simp [Status.sum?]

/-- The products that an equation waits on have handles. -/
theorem Interned.within (h : Interned keys solver) {key : Key} {sum : List (Product D)}
    (hsum : solver.sum? key = some sum) : ∀ product ∈ sum, product.Within keys := by
  obtain ⟨entry, hmem, -, hstatus⟩ := h.sum?_eq_some_iff.mp hsum
  have hentry := h.entries entry hmem
  intro product hproduct r hr
  apply hentry.mentions_mem
  apply hentry.waits_mem
  rw [hstatus]
  exact List.mem_flatMap.mpr ⟨product, hproduct, hr⟩

/-- More keys can be interned. -/
theorem Interned.insert (h : Interned keys solver) (key : Key) : Interned (keys.insert key) solver where
  nodup := h.nodup
  entries := fun entry hentry =>
    { key_mem := ArrivalSet.mem_insert.mpr (.inr (h.entries entry hentry).key_mem)
      mentions_mem := fun r hr =>
        ArrivalSet.mem_insert.mpr (.inr ((h.entries entry hentry).mentions_mem r hr))
      waits_mem := (h.entries entry hentry).waits_mem }
  resolved := h.resolved

/-- A list of more keys can be interned. -/
theorem Interned.insertAll (h : Interned keys solver) (more : List Key) :
    Interned (keys.insertAll more) solver := by
  induction more generalizing keys with
  | nil => exact h
  | cons key more ih => exact ih (h.insert key)

/-- Interning a key only adds it to the order. -/
theorem Interned.intern_encode (h : Interned keys solver) (key : Key) :
    (solver.encode keys).intern key =
      ((keys.insert key).indexOf key, solver.encode (keys.insert key)) := by
  by_cases hkey : key ∈ keys
  · rw [Store.intern, if_pos (show key ∈ (solver.encode keys).keys from hkey),
      ArrivalSet.insert_of_mem hkey]
    rfl
  · have hlist := ArrivalSet.toList_insert_of_not_mem hkey
    have hnone := h.entryOf?_eq_none hkey
    have hend : keys.indexOf key = keys.toList.length := List.idxOf_of_notMem hkey
    have hindex : (keys.insert key).indexOf key = keys.indexOf key := by
      rw [ArrivalSet.indexOf, hlist, List.idxOf_append_of_notMem hkey, hend]
      simp
    have hsame : ∀ q ∈ keys, (keys.insert key).indexOf q = keys.indexOf q := fun q hq =>
      ArrivalSet.indexOf_insert hq key
    have hvalue : solver.value? key = none := by rw [value?, hnone]; rfl
    have hsum : solver.sum? key = none := by rw [sum?, hnone]; rfl
    rw [Store.intern, if_neg (show key ∉ (solver.encode keys).keys from hkey), hindex]
    refine congrArg (Prod.mk _) ?_
    unfold encode
    dsimp only
    rw [hlist, List.map_append, List.map_append, List.map_append, List.map_append]
    congr 1
    · rw [hend, List.length_map, Nat.add_sub_cancel_left, List.map_singleton,
        entryOf?_eq_none_iff.mp hnone]
      rfl
    · rw [List.map_singleton, hvalue]
    · rw [List.map_singleton, hsum]
      refine congrArg (· ++ _) (List.map_congr_left fun q hq => Option.map_congr fun sum hq => ?_)
      exact List.map_congr_left fun product hproduct =>
        ((h.within hq product hproduct).encode_insertAll [key]).symm
    · rw [List.map_singleton, h.readers_eq_nil hkey]
      refine congrArg (· ++ _) (List.map_congr_left fun q hq => List.map_congr_left fun r hr => ?_)
      exact (hsame r (h.reader_mem hr)).symm
    · exact List.map_congr_left fun pair hpair =>
        (hsame pair.1 (h.mem_of_value? (h.resolved pair hpair))).symm

/-! ## Interning while an equation is stored -/

/-- Marking a handle as defined does not disturb the interning of a key. -/
theorem intern_register {store : Store D} {handle : Nat} (hhandle : handle < store.defined.length)
    (key : Key) : (store.register handle).intern key =
      ((store.intern key).1, (store.intern key).2.register handle) := by
  by_cases hkey : key ∈ store.keys
  · rw [Store.intern, Store.intern, if_pos hkey, if_pos (show key ∈ (store.register handle).keys from hkey)]
    rfl
  · rw [Store.intern, Store.intern, if_neg hkey,
      if_neg (show key ∉ (store.register handle).keys from hkey)]
    unfold Store.register
    dsimp only
    rw [List.length_set, List.set_append_left _ _ hhandle]

/-- While an equation is stored, interning a key only adds it to the order. -/
theorem Interned.intern_encode_register (h : Interned keys solver) {handle : Nat}
    (hhandle : handle < keys.toList.length) (key : Key) :
    ((solver.encode keys).register handle).intern key =
      ((keys.insert key).indexOf key, (solver.encode (keys.insert key)).register handle) := by
  have hdefined : handle < (solver.encode keys).defined.length := by
    rwa [encode, List.length_map]
  rw [intern_register hdefined, h.intern_encode]

/-- While an equation is stored, interning a list of keys adds them to the order. -/
theorem Interned.internAll_encode (h : Interned keys solver) {handle : Nat}
    (hhandle : handle < keys.toList.length) (more : List Key) :
    ((solver.encode keys).register handle).internAll more =
      (more.map (keys.insertAll more).indexOf,
        (solver.encode (keys.insertAll more)).register handle) := by
  induction more generalizing keys with
  | nil => rfl
  | cons key more ih =>
    have hkey : key ∈ keys.insert key := ArrivalSet.mem_insert.mpr (.inl rfl)
    have hlength := hhandle.trans_le (ArrivalSet.length_le_insert keys key)
    rw [Store.internAll, h.intern_encode_register hhandle]
    dsimp only
    rw [ih (h.insert key) hlength, List.map_cons, ← ArrivalSet.indexOf_insertAll hkey more]
    rfl

/-- While an equation is stored, interning the keys of its products encodes the products. -/
theorem Interned.internProducts_encode (h : Interned keys solver) {handle : Nat}
    (hhandle : handle < keys.toList.length) (products : List (Product D)) :
    ((solver.encode keys).register handle).internProducts products =
      (products.map (Product.encode (keys.insertAll (products.flatMap fun product => product.ids.toList))),
        (solver.encode (keys.insertAll (products.flatMap fun product => product.ids.toList))).register
          handle) := by
  induction products generalizing keys with
  | nil => rfl
  | cons product rest ih =>
    have hlength := hhandle.trans_le (ArrivalSet.length_le_insertAll keys product.ids.toList)
    have hwithin : product.Within (keys.insertAll product.ids.toList) := fun key hkey =>
      ArrivalSet.mem_insertAll.mpr (.inr hkey)
    rw [Store.internProducts, h.internAll_encode hhandle]
    dsimp only
    rw [ih (h.insertAll _) hlength, List.flatMap_cons, ArrivalSet.insertAll_append, List.map_cons,
      hwithin.encode_insertAll]
    rfl

end Solver

end MonotoneEquations
