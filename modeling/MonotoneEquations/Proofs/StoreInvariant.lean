import MonotoneEquations.Proofs.Completeness
import MonotoneEquations.Proofs.FoldedSum
import MonotoneEquations.Proofs.Progress

/-!
# The invariant of a store

The tables of a store are kept in step by functions that each write to some of them. What the tables
agree on holds after every registration and every refusal, and before each handle that a run pops.

The agreement of the tables is the agreement of the lists from which they are encoded. One part is
not: a stored sum was folded when it was stored. Folding leaves at most one constant, which neither is
bottom nor settles the sum, and some component that is still open. This is shown where sums are
folded, for sums over handles, and every waiting entry of a solver is a sum that was folded.
-/

namespace MonotoneEquations

variable {D : Type} [Domain D] [DecidableEq D]

namespace Solver

variable {keys : ArrivalSet Key} {solver : Solver D} {system : List (Equation D)}
  {told rest : List (Key × D)}

/-- Every sum that an entry waits on was folded. -/
def Folded (solver : Solver D) : Prop :=
  ∀ entry ∈ solver.entries, ∀ rest, entry.status = .waiting rest →
    ∃ sum, Status.normalize sum = .waiting rest

/-- An accepted equation is folded when it is stored. -/
theorem Announced.folded (h : Announced system [] solver) : solver.Folded := by
  intro entry hentry rest hstatus
  rw [h.entries] at hentry
  obtain ⟨equation, -, rfl⟩ := List.mem_map.mp hentry
  have hstatus : equation.rhs.statusUnder .nothing = .waiting rest := hstatus
  cases hrhs : equation.rhs with
  | final value => simp [hrhs, Rhs.statusUnder] at hstatus
  | pending products =>
    rw [hrhs, Rhs.statusUnder_nothing] at hstatus
    exact ⟨products.toList, hstatus⟩

/-- A sum is folded anew whenever a value is put into it. -/
theorem Folded.propagate (h : solver.Folded) (source : Key) (value : D) :
    (solver.propagate source value).Folded := by
  intro next hnext rest hstatus
  obtain ⟨entry, hentry, rfl⟩ := mem_entries_propagate.mp hnext
  rw [Entry.status_receive] at hstatus
  cases hbefore : entry.status with
  | resolved result => simp [hbefore] at hstatus
  | waiting sum =>
    by_cases hsource : source ∈ entry.mentions
    · simp only [hbefore, hsource, if_true] at hstatus
      exact ⟨_, hstatus⟩
    · simp only [hbefore, hsource, if_false] at hstatus
      exact h entry hentry rest (hbefore.trans hstatus)

/-- Announcing a key leaves every sum folded. -/
theorem Folded.announce (h : solver.Folded) (key : Key) (value : D) :
    (solver.announce key value).Folded := by
  unfold Solver.announce
  split
  · exact (h.propagate _ _).propagate _ _
  · exact (h.propagate _ _).propagate _ _

end Solver

/-! ## The tables of a store -/

/-- Every handle that is written down somewhere in a store. -/
def Store.handles (store : Store D) : List Nat :=
  store.moving ++ store.dependencies.flatten ++
    (store.pending.filterMap id).flatten.flatMap Component.ids

/-- The tables of a store have a place for every key and for every handle that is written down. -/
structure Store.Aligned (store : Store D) : Prop where
  length_solved : store.solved.length = store.keys.toList.length
  length_pending : store.pending.length = store.keys.toList.length
  length_dependencies : store.dependencies.length = store.keys.toList.length
  length_le_defined : store.keys.toList.length ≤ store.defined.length
  handles_lt : ∀ handle ∈ store.handles, handle < store.keys.toList.length
  defined_lt : ∀ handle, store.defined.getD handle false = true → handle < store.keys.toList.length

/-- A handle is defined if it has either a value or a sum to wait on, and no handle has both. The counts
count these handles. The moving handles are different, and each has a value. -/
structure Store.Classified (store : Store D) : Prop where
  defined_eq_xor : ∀ handle, store.defined.getD handle false =
    ((store.solved.getD handle none).isSome ^^ (store.pending.getD handle none).isSome)
  solved_or_pending_eq_none : ∀ handle,
    store.solved.getD handle none = none ∨ store.pending.getD handle none = none
  size_eq_countP : store.size = store.defined.countP id
  size_eq_add : store.size = store.resolvedCount + store.pendingCount
  nodup_moving : store.moving.Nodup
  solved_of_moving : ∀ handle ∈ store.moving, (store.solved.getD handle none).isSome

/-- A stored sum is folded, the handles in each of its components ascend, and each of them lists the
handle of the sum as a dependent. Dependents are listed once, and they are defined. -/
structure Store.Linked (store : Store D) : Prop where
  isFolded : ∀ handle sum, store.pending.getD handle none = some sum → Term.IsFolded sum
  ascending : ∀ handle sum, store.pending.getD handle none = some sum →
    ∀ component ∈ sum, component.ids.Pairwise (· < ·)
  subscribed : ∀ handle sum, store.pending.getD handle none = some sum →
    ∀ component ∈ sum, ∀ id ∈ component.ids, handle ∈ store.dependencies.getD id []
  nodup_dependents : ∀ handle, (store.dependencies.getD handle []).Nodup
  defined_of_dependent : ∀ handle, ∀ dependent ∈ store.dependencies.getD handle [],
    store.defined.getD dependent false

/-- What the tables of a store agree on. -/
structure Store.WellFormed (store : Store D) : Prop extends
  store.Aligned, store.Classified, store.Linked

namespace Solver

variable {keys : ArrivalSet Key} {solver : Solver D} {system : List (Equation D)}
  {told rest : List (Key × D)}

omit [Domain D] [DecidableEq D] in
/-- A number is the handle of a key, or no table has a place for it. -/
theorem exists_key_or_getD_eq (keys : ArrivalSet Key) (handle : Nat) :
    (∃ key ∈ keys, keys.indexOf key = handle) ∨
      ∀ {V : Type} (f : Key → V) (default : V), (keys.toList.map f).getD handle default = default := by
  cases hkey : keys.toList[handle]? with
  | none => exact .inr fun f default => by simp [List.getD_eq_getElem?_getD, hkey]
  | some key => exact .inl ⟨key, List.mem_of_getElem? hkey, ArrivalSet.indexOf_eq_of_getElem? hkey⟩

omit [Domain D] [DecidableEq D] in
/-- The store knows the dependents of interned keys. -/
theorem getD_dependencies_encode {key : Key} (hkey : key ∈ keys) (solver : Solver D) :
    (solver.encode keys).dependencies.getD (keys.indexOf key) [] =
      (solver.readers key).map keys.indexOf :=
  getD_idxOf_map hkey _ []

omit [Domain D] [DecidableEq D] in
/-- The tables of an encoded store have a place for every handle that is written down. -/
theorem Interned.aligned_encode (h : Interned keys solver) : (solver.encode keys).Aligned where
  length_solved := List.length_map _
  length_pending := List.length_map _
  length_dependencies := List.length_map _
  length_le_defined := (List.length_map _).ge
  handles_lt := by
    intro handle hhandle
    have hkey : ∃ key ∈ keys, keys.indexOf key = handle := by
      rcases List.mem_append.mp hhandle with hhandle | hpending
      · rcases List.mem_append.mp hhandle with hmoving | hdependent
        · obtain ⟨pair, hpair, hindex⟩ := List.mem_map.mp hmoving
          exact ⟨pair.1, h.mem_of_value? (h.resolved pair hpair), hindex⟩
        · obtain ⟨dependents, hdependents, hmem⟩ := List.mem_flatten.mp hdependent
          obtain ⟨key, -, rfl⟩ := List.mem_map.mp hdependents
          obtain ⟨reader, hreader, hindex⟩ := List.mem_map.mp hmem
          exact ⟨reader, h.reader_mem hreader, hindex⟩
      · obtain ⟨component, hcomponent, hid⟩ := List.mem_flatMap.mp hpending
        obtain ⟨sum, hsum, hcomponent⟩ := List.mem_flatten.mp hcomponent
        obtain ⟨place, hplace, rfl⟩ := List.mem_filterMap.mp hsum
        obtain ⟨key, -, hkey⟩ := List.mem_map.mp hplace
        obtain ⟨products, hproducts, rfl⟩ := Option.map_eq_some_iff.mp hkey
        obtain ⟨product, hproduct, rfl⟩ := List.mem_map.mp hcomponent
        obtain ⟨r, hr, hindex⟩ := Product.mem_ids_encode.mp hid
        exact ⟨r, h.within hproducts product hproduct r hr, hindex⟩
    obtain ⟨key, hkey, rfl⟩ := hkey
    exact List.idxOf_lt_length_of_mem hkey
  defined_lt := by
    intro handle hdefined
    rcases exists_key_or_getD_eq keys handle with ⟨key, hkey, rfl⟩ | hnone
    · exact List.idxOf_lt_length_of_mem hkey
    · exact absurd ((hnone solver.defines false).symm.trans hdefined) Bool.false_ne_true

omit [Domain D] [DecidableEq D] in
/-- A key is defined if it has a value or a sum, and it does not have both. -/
theorem defines_eq_xor (solver : Solver D) (key : Key) :
    solver.defines key = ((solver.value? key).isSome ^^ (solver.sum? key).isSome) ∧
      (solver.value? key = none ∨ solver.sum? key = none) := by
  rw [value?, sum?]
  cases hentry : solver.entryOf? key with
  | none => exact ⟨entryOf?_eq_none_iff.mp hentry, .inl rfl⟩
  | some entry =>
    have hdefines : solver.defines key = true := by
      rw [← Bool.not_eq_false, ← entryOf?_eq_none_iff, hentry]
      exact Option.some_ne_none entry
    rw [hdefines]
    cases hstatus : entry.status <;> simp [hstatus, Status.value?, Status.sum?]

omit [Domain D] [DecidableEq D] in
/-- Counting the defined handles counts the entries. -/
theorem Interned.countP_defined_encode (h : Interned keys solver) :
    (solver.encode keys).defined.countP id = solver.size := by
  have hdefines (key : Key) : solver.defines key = (solver.entryOf? key).any fun _ => true := by
    rw [Bool.eq_iff_iff, ← Bool.not_eq_false, ← entryOf?_eq_none_iff]
    cases solver.entryOf? key <;> simp
  rw [encode, List.countP_map, size, ← List.countP_true, ← h.countP_entryOf?]
  exact List.countP_congr fun key _ => by rw [← hdefines]; rfl

omit [Domain D] [DecidableEq D] in
/-- Different interned keys have different handles. -/
theorem nodup_map_indexOf {list : List Key} (hnodup : list.Nodup) (hmem : ∀ key ∈ list, key ∈ keys) :
    (list.map keys.indexOf).Nodup :=
  hnodup.map_on fun key hkey _ _ heq => (ArrivalSet.indexOf_inj (hmem key hkey)).mp heq

omit [Domain D] [DecidableEq D] in
/-- The resolved keys have different handles, whether they are on the worklist or were announced. -/
theorem Interned.nodup_handles (h : Interned keys solver)
    (hresolutions : (solver.worklist ++ told).Perm solver.resolutions) :
    ((solver.worklist ++ told).map fun pair => keys.indexOf pair.1).Nodup := by
  have hhandles : ((solver.worklist ++ told).map fun pair => keys.indexOf pair.1) =
      ((solver.worklist ++ told).map Prod.fst).map keys.indexOf := by
    rw [List.map_map]
    rfl
  rw [hhandles]
  refine nodup_map_indexOf ?_ fun key hkey => ?_
  · exact (hresolutions.map Prod.fst).nodup_iff.mpr (nodup_resolutions_of_nodup h.nodup)
  · obtain ⟨pair, hpair, rfl⟩ := List.mem_map.mp hkey
    exact h.mem_of_value? (h.mem_resolutions_iff.mp (hresolutions.mem_iff.mp hpair))

omit [Domain D] [DecidableEq D] in
/-- The tables of an encoded store tell values from sums. -/
theorem Interned.classified_encode (h : Interned keys solver)
    (hresolutions : (solver.worklist ++ told).Perm solver.resolutions) :
    (solver.encode keys).Classified where
  defined_eq_xor := by
    intro handle
    rcases exists_key_or_getD_eq keys handle with ⟨key, hkey, rfl⟩ | hnone
    · rw [getD_defined_encode hkey, getD_solved_encode hkey, getD_pending_encode hkey, Option.isSome_map]
      exact (defines_eq_xor solver key).1
    · simp only [encode, hnone]
      rfl
  solved_or_pending_eq_none := by
    intro handle
    rcases exists_key_or_getD_eq keys handle with ⟨key, hkey, rfl⟩ | hnone
    · rw [getD_solved_encode hkey, getD_pending_encode hkey, Option.map_eq_none_iff]
      exact (defines_eq_xor solver key).2
    · exact .inl (hnone _ _)
  size_eq_countP := h.countP_defined_encode.symm
  size_eq_add := by
    rw [h.resolvedCount_encode, h.pendingCount_encode, resolvedCount_add_pendingCount]
    rfl
  nodup_moving := by
    have hall := h.nodup_handles hresolutions
    rw [List.map_append] at hall
    exact hall.of_append_left
  solved_of_moving := by
    intro handle hmoving
    obtain ⟨pair, hpair, rfl⟩ := List.mem_map.mp hmoving
    have hvalue := h.resolved pair hpair
    rw [getD_solved_encode (h.mem_of_value? hvalue), hvalue]
    rfl

omit [Domain D] [DecidableEq D] in
/-- A key is listed once as a reader of another, and it is defined. -/
theorem Interned.readers_spec (h : Interned keys solver) (key : Key) :
    (solver.readers key).Nodup ∧ ∀ reader ∈ solver.readers key, solver.defines reader = true := by
  refine ⟨(List.filter_sublist.map _).nodup h.nodup, fun reader hreader => ?_⟩
  obtain ⟨entry, hentry, rfl⟩ := List.mem_map.mp hreader
  exact List.any_eq_true.mpr ⟨entry, (List.mem_filter.mp hentry).1, decide_eq_true rfl⟩

/-- The sums of an encoded store are folded, and each of their handles lists them as dependents. -/
theorem Interned.linked_encode (h : Interned keys solver) (hfolded : solver.Folded) :
    (solver.encode keys).Linked where
  isFolded := by
    intro handle sum hpending
    obtain ⟨entry, hentry, products, -, hstatus, -, rfl⟩ := h.exists_entry_of_pending hpending
    obtain ⟨unfolded, hsum⟩ := hfolded entry hentry products hstatus
    have hnormal : Term.normalize (unfolded.map (Product.encode keys)) =
        .pending (products.map (Product.encode keys)) := by
      rw [Status.normalize_encode, hsum]
      rfl
    exact Term.isFolded_of_normalize hnormal
  ascending := by
    intro handle sum hpending component hcomponent
    obtain ⟨-, -, products, -, -, hwithin, rfl⟩ := h.exists_entry_of_pending hpending
    obtain ⟨product, hproduct, rfl⟩ := List.mem_map.mp hcomponent
    exact (hwithin product hproduct).pairwise_ids_encode
  subscribed := by
    intro handle sum hpending component hcomponent id hid
    obtain ⟨entry, hentry, products, rfl, hstatus, hwithin, rfl⟩ := h.exists_entry_of_pending hpending
    obtain ⟨product, hproduct, rfl⟩ := List.mem_map.mp hcomponent
    obtain ⟨r, hr, rfl⟩ := Product.mem_ids_encode.mp hid
    have hwaits : r ∈ entry.status.mentions := by
      rw [hstatus]
      exact List.mem_flatMap.mpr ⟨product, hproduct, hr⟩
    have hmentions := (h.entries entry hentry).waits_mem r hwaits
    rw [getD_dependencies_encode (hwithin product hproduct r hr)]
    exact List.mem_map_of_mem
      (List.mem_map_of_mem (List.mem_filter.mpr ⟨hentry, decide_eq_true hmentions⟩))
  nodup_dependents := by
    intro handle
    rcases exists_key_or_getD_eq keys handle with ⟨key, hkey, rfl⟩ | hnone
    · rw [getD_dependencies_encode hkey]
      exact nodup_map_indexOf (h.readers_spec key).1 fun reader => h.reader_mem
    · exact (hnone (fun key => (solver.readers key).map keys.indexOf) []).symm ▸ List.nodup_nil
  defined_of_dependent := by
    intro handle dependent hdependent
    rcases exists_key_or_getD_eq keys handle with ⟨key, hkey, rfl⟩ | hnone
    · rw [getD_dependencies_encode hkey] at hdependent
      obtain ⟨reader, hreader, rfl⟩ := List.mem_map.mp hdependent
      rw [getD_defined_encode (h.reader_mem hreader)]
      exact (h.readers_spec key).2 reader hreader
    · rw [show (solver.encode keys).dependencies.getD handle [] = [] from hnone _ _] at hdependent
      cases hdependent

end Solver

namespace Store

/-- The tables of a store agree after every list of equations that was offered, whether they were
accepted or refused, and at every point of the run that follows. The store always counts the equations
that were accepted. -/
theorem wellFormed_progress (limit : Nat) (offered : List (Equation D)) (steps : Nat) :
    (((new limit).addAll offered).progress steps).store.WellFormed ∧
      (((new limit).addAll offered).progress steps).store.size =
        ((new limit).accepted offered).length := by
  obtain ⟨keys, hreached, hstart⟩ := exists_encode limit offered
  have hannounced := (Solver.announced_new limit).addAll offered
  rw [accepted_new, hreached]
  obtain ⟨told, reached, hpoint, hinterned, hheard, hfolded⟩ :=
    hstart.exists_progress (P := fun told solver =>
        Solver.Heard ([] ++ (Solver.new limit).accepted offered) told solver ∧ solver.Folded)
      (fun told solver key value rest h hwork =>
        have hpop : ({ solver with worklist := rest } : Solver D).Folded := h.2
        ⟨h.1.announce hwork, hpop.announce key value⟩)
      ⟨hannounced.heard, hannounced.folded⟩ steps
  rw [hpoint]
  refine ⟨{ hinterned.aligned_encode, hinterned.classified_encode hheard.resolutions,
    hinterned.linked_encode hfolded with }, ?_⟩
  have hsize : reached.size = ((Solver.new limit).accepted offered).length := by
    rw [Solver.size, ← List.length_map Entry.key, hheard.keys_eq, List.length_map, List.nil_append]
  exact hsize

end Store

end MonotoneEquations
