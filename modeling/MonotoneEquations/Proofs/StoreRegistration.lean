import MonotoneEquations.Proofs.Registration
import MonotoneEquations.Proofs.StoreEncoding

/-!
# Registration in the store

Accepting an equation in the store of a solver gives the store of the solver that has accepted it.
Refusing one gives the store of the same solver, with the key of the equation interned: this is the
one trace that a refusal leaves, and it shows only in the order of the keys.
-/

namespace MonotoneEquations

variable {D : Type}

namespace Solver

variable {keys : ArrivalSet Key} {solver : Solver D} {key : Key}

/-- The handle of an interned key stands for the key. -/
theorem keyOf_indexOf {store : Store D} (hkey : key ∈ store.keys) :
    store.keyOf (store.keys.indexOf key) = key := by
  rw [Store.keyOf, List.getD_eq_getElem?_getD]
  exact congrArg (Option.getD · default) (ArrivalSet.getElem?_indexOf hkey)

/-- Writing to the handle of a key changes a table at that key. -/
theorem set_indexOf_map {V : Type} (hkey : key ∈ keys) {f g : Key → V}
    (hsame : ∀ q, q ≠ key → g q = f q) :
    (keys.toList.map f).set (keys.indexOf key) (g key) = keys.toList.map g :=
  set_idxOf_map keys.nodup hkey fun q _ => hsame q

/-! ## What a registration changes -/

/-- A registered equation is the entry of its key. -/
theorem entryOf?_register (hnew : solver.defines key = false) (status : Status D) (q : Key) :
    (solver.register key status).entryOf? q =
      if q = key then some ⟨key, status.mentions, status⟩ else solver.entryOf? q := by
  rw [entryOf?, register, List.find?_append, ← entryOf?]
  by_cases hq : q = key
  · subst q
    rw [if_pos rfl, entryOf?_eq_none_iff.mpr hnew]
    simp
  · rw [if_neg hq, List.find?_cons_of_neg (by simpa using Ne.symm hq), List.find?_nil, Option.or_none]

/-- A registered equation defines its key. -/
theorem defines_register (solver : Solver D) (key : Key) (status : Status D) (q : Key) :
    (solver.register key status).defines q = if q = key then true else solver.defines q := by
  rw [defines, register, List.any_append, ← defines]
  by_cases hq : q = key
  · simp [hq]
  · simp [hq, Ne.symm hq]

/-- A registered equation has the value of its status. -/
theorem value?_register (hnew : solver.defines key = false) (status : Status D) (q : Key) :
    (solver.register key status).value? q = if q = key then status.value? else solver.value? q := by
  rw [value?, entryOf?_register hnew]
  split <;> rfl

/-- A registered equation waits on the sum of its status. -/
theorem sum?_register (hnew : solver.defines key = false) (status : Status D) (q : Key) :
    (solver.register key status).sum? q = if q = key then status.sum? else solver.sum? q := by
  rw [sum?, entryOf?_register hnew]
  split <;> rfl

/-- A registered equation reads the keys that its status mentions. -/
theorem readers_register (solver : Solver D) (key : Key) (status : Status D) (q : Key) :
    (solver.register key status).readers q =
      if q ∈ status.mentions then solver.readers q ++ [key] else solver.readers q := by
  rw [readers, register, List.filter_append, List.map_append, ← readers]
  by_cases hq : q ∈ status.mentions
  · simp [hq]
  · simp [hq]

/-- An undefined key has no value. -/
theorem value?_eq_none (hnew : solver.defines key = false) : solver.value? key = none := by
  rw [value?, entryOf?_eq_none_iff.mpr hnew]
  rfl

/-- An undefined key waits on no sum. -/
theorem sum?_eq_none (hnew : solver.defines key = false) : solver.sum? key = none := by
  rw [sum?, entryOf?_eq_none_iff.mpr hnew]
  rfl

/-- A solver stays interned if it registers interned keys. -/
theorem Interned.register (h : Interned keys solver) (hkey : key ∈ keys)
    (hnew : solver.defines key = false) {status : Status D} (hmentions : ∀ r ∈ status.mentions, r ∈ keys) :
    Interned keys (solver.register key status) where
  nodup := by
    rw [Solver.register, List.map_append, List.map_singleton]
    refine (List.perm_append_singleton _ _).nodup_iff.mpr (List.nodup_cons.mpr ⟨fun hmem => ?_, h.nodup⟩)
    obtain ⟨entry, hentry, hentryKey⟩ := List.mem_map.mp hmem
    rw [defines, List.any_eq_false] at hnew
    exact hnew entry hentry (decide_eq_true hentryKey)
  entries := by
    intro entry hentry
    rcases List.mem_append.mp hentry with hentry | hentry
    · exact h.entries entry hentry
    · obtain rfl := List.mem_singleton.mp hentry
      exact ⟨hkey, hmentions, fun _ hr => hr⟩
  resolved := by
    intro pair hpair
    rw [value?_register hnew]
    rcases List.mem_append.mp hpair with hpair | hpair
    · cases status with
      | waiting sum => cases hpair
      | resolved value =>
        obtain rfl := List.mem_singleton.mp hpair
        exact if_pos rfl
    · have hvalue := h.resolved pair hpair
      have hne : pair.1 ≠ key := by
        intro heq
        rw [heq, value?_eq_none hnew] at hvalue
        cases hvalue
      rw [if_neg hne, hvalue]

/-! ## Storing an equation -/

/-- Marking the handle of a stored equation as defined. -/
theorem set_defined_register (hkey : key ∈ keys) (solver : Solver D) (status : Status D) :
    (keys.toList.map solver.defines).set (keys.indexOf key) true =
      keys.toList.map (solver.register key status).defines := by
  have htrue : (solver.register key status).defines key = true := by
    rw [defines_register, if_pos rfl]
  rw [← htrue]
  exact set_indexOf_map hkey fun q hq => by rw [defines_register, if_neg hq]

/-- A resolved equation gets its value in the store. -/
theorem resolve_encode (hkey : key ∈ keys) (hnew : solver.defines key = false) (value : D) :
    ((solver.encode keys).register (keys.indexOf key)).resolve (keys.indexOf key) value =
      (solver.register key (.resolved value)).encode keys := by
  have hname : ((solver.encode keys).register (keys.indexOf key)).keyOf (keys.indexOf key) = key :=
    keyOf_indexOf hkey
  have hvalue : (solver.register key (.resolved value)).value? key = some value := by
    rw [value?_register hnew, if_pos rfl]
    rfl
  have hsum (q : Key) : (solver.register key (.resolved value)).sum? q = solver.sum? q := by
    rw [sum?_register hnew]
    split
    next heq => rw [heq, sum?_eq_none hnew]; rfl
    next => rfl
  have hreaders (q : Key) : (solver.register key (.resolved value)).readers q = solver.readers q := by
    rw [readers_register]
    exact if_neg List.not_mem_nil
  rw [Store.resolve, hname]
  unfold encode Store.register Store.record
  simp only [hsum, hreaders]
  congr 1
  · exact set_defined_register hkey solver _
  · rw [← hvalue]
    exact set_indexOf_map hkey fun q hq => by rw [value?_register hnew, if_neg hq]
  · rw [size, size, Solver.register, List.length_append, List.length_singleton]

/-- A sum over handles mentions the handles of the keys that the sum mentions. -/
theorem indexOf_mem_triggers_iff {sum : List (Product D)} (hwithin : ∀ product ∈ sum, product.Within keys)
    {q : Key} : keys.indexOf q ∈ ((sum.map (Product.encode keys)).flatMap Component.ids).mergeSort.eraseReps ↔
      q ∈ (Status.waiting sum).mentions := by
  rw [mem_eraseReps, List.mem_mergeSort, Status.mentions, List.flatMap_map, List.mem_flatMap,
    List.mem_flatMap]
  exact exists_congr fun product => and_congr_right fun hproduct =>
    (hwithin product hproduct).indexOf_mem_ids_encode

/-- A waiting equation gets its sum in the store, and subscribes to the keys that the sum mentions. -/
theorem wait_encode (hkey : key ∈ keys) (hnew : solver.defines key = false)
    {sum : List (Product D)} (hwithin : ∀ product ∈ sum, product.Within keys) :
    ((solver.encode keys).register (keys.indexOf key)).wait (keys.indexOf key)
        (sum.map (Product.encode keys)) =
      (solver.register key (.waiting sum)).encode keys := by
  have hname : ((solver.encode keys).register (keys.indexOf key)).keyOf (keys.indexOf key) = key :=
    keyOf_indexOf hkey
  have hsum : (solver.register key (.waiting sum)).sum? key = some sum := by
    rw [sum?_register hnew, if_pos rfl]
    rfl
  have hvalue : (solver.register key (.waiting sum)).value? = solver.value? := by
    funext q
    rw [value?_register hnew]
    split
    next heq => rw [heq, value?_eq_none hnew]; rfl
    next => rfl
  rw [Store.wait, hname]
  unfold encode Store.subscribe Store.register Store.record
  simp only [hvalue]
  congr 1
  · exact set_defined_register hkey solver _
  · rw [← Option.map_some (f := List.map (Product.encode keys)), ← hsum]
    refine set_indexOf_map hkey (f := fun q => (solver.sum? q).map (List.map (Product.encode keys)))
      (g := fun q => Option.map (List.map (Product.encode keys)) _) fun q hq => ?_
    rw [sum?_register hnew, if_neg hq]
  · rw [foldl_modify_map keys.nodup (nodup_eraseReps (List.pairwise_mergeSort' (· ≤ ·) _))]
    apply List.map_congr_left
    intro q _
    rw [readers_register, apply_ite (List.map keys.indexOf), List.map_append, List.map_singleton]
    exact if_congr (indexOf_mem_triggers_iff hwithin) rfl rfl
  · rw [size, size, Solver.register, List.length_append, List.length_singleton]
  · rw [List.length_map]
    rfl

/-- An accepted equation is stored as its status says. -/
theorem settle_encode (hkey : key ∈ keys) (hnew : solver.defines key = false) {status : Status D}
    (hmentions : ∀ r ∈ status.mentions, r ∈ keys) :
    ((solver.encode keys).register (keys.indexOf key)).settle (keys.indexOf key) (status.encode keys) =
      (solver.register key status).encode keys := by
  cases status with
  | resolved value => exact resolve_encode hkey hnew value
  | waiting sum =>
    exact wait_encode hkey hnew fun product hproduct r hr =>
      hmentions r (List.mem_flatMap.mpr ⟨product, hproduct, hr⟩)

/-- The store knows which interned keys are defined. -/
theorem getD_defined_encode (hkey : key ∈ keys) (solver : Solver D) :
    (solver.encode keys).defined.getD (keys.indexOf key) false = solver.defines key :=
  getD_idxOf_map hkey solver.defines false

/-- The store knows the values of interned keys. -/
theorem getD_solved_encode (hkey : key ∈ keys) (solver : Solver D) :
    (solver.encode keys).solved.getD (keys.indexOf key) none = solver.value? key :=
  getD_idxOf_map hkey solver.value? none

/-- The store knows the sums that interned keys wait on. -/
theorem getD_pending_encode (hkey : key ∈ keys) (solver : Solver D) :
    (solver.encode keys).pending.getD (keys.indexOf key) none =
      (solver.sum? key).map (List.map (Product.encode keys)) :=
  getD_idxOf_map hkey _ none

variable [Domain D] [DecidableEq D]

/-- A refusal leaves the key of the equation behind, and nothing else. -/
theorem Interned.add_encode_of_error (h : Interned keys solver) {equation : Equation D}
    {error : EquationError} (hadd : solver.add equation = .error error) :
    (solver.encode keys).add equation = (.error error, solver.encode (keys.insert equation.key)) := by
  have hkey : equation.key ∈ keys.insert equation.key := ArrivalSet.mem_insert.mpr (.inl rfl)
  have hname : (solver.encode (keys.insert equation.key)).keyOf
      ((keys.insert equation.key).indexOf equation.key) = equation.key := keyOf_indexOf hkey
  rw [Store.add, h.intern_encode]
  dsimp only
  rw [getD_defined_encode hkey, hname]
  rcases add_eq_error_iff.mp hadd with ⟨hdefined, rfl⟩ | ⟨hnew, hlarge, rfl⟩
  · rw [if_pos hdefined]
  · rw [hnew, if_neg Bool.false_ne_true]
    cases hrhs : equation.rhs with
    | final value => simp [hrhs, Rhs.size] at hlarge
    | pending products =>
      rw [hrhs] at hlarge
      exact if_pos hlarge

/-- An accepted equation is stored, and the keys that it mentions are interned. -/
theorem Interned.add_encode_of_ok (h : Interned keys solver) {equation : Equation D}
    {next : Solver D} (hadd : solver.add equation = .ok next) :
    ∃ more, (solver.encode keys).add equation = (.ok (), next.encode (keys.insertAll more)) ∧
      Interned (keys.insertAll more) next := by
  obtain ⟨hnew, hfits, rfl⟩ := add_eq_ok_iff.mp hadd
  have hkey : equation.key ∈ keys.insert equation.key := ArrivalSet.mem_insert.mpr (.inl rfl)
  have hinsert := h.insert equation.key
  rw [Store.add, h.intern_encode]
  dsimp only
  rw [getD_defined_encode hkey, hnew, if_neg Bool.false_ne_true]
  cases hrhs : equation.rhs with
  | final value =>
    have hmentions : ∀ r ∈ (Status.resolved value).mentions, r ∈ keys.insert equation.key :=
      fun r hr => nomatch hr
    exact ⟨[equation.key], congrArg (Prod.mk _) (settle_encode hkey hnew hmentions),
      hinsert.register hkey hnew hmentions⟩
  | pending products =>
    have hfits : ¬(solver.encode (keys.insert equation.key)).limit <
        Product.occurrences products.toList := by
      rw [hrhs] at hfits
      exact Nat.not_lt.mpr hfits
    let mentioned := products.toList.flatMap fun product => product.ids.toList
    let larger := (keys.insert equation.key).insertAll mentioned
    have hlength : (keys.insert equation.key).indexOf equation.key <
        (keys.insert equation.key).toList.length := List.idxOf_lt_length_of_mem hkey
    have hmem : equation.key ∈ larger := ArrivalSet.mem_insertAll.mpr (.inl hkey)
    have hindex : (keys.insert equation.key).indexOf equation.key = larger.indexOf equation.key :=
      (ArrivalSet.indexOf_insertAll hkey mentioned).symm
    have hmentions : ∀ r ∈ (Status.normalize products.toList).mentions, r ∈ larger := fun r hr =>
      ArrivalSet.mem_insertAll.mpr (.inr (Status.mem_of_mem_mentions_normalize hr))
    rw [Rhs.statusUnder_nothing]
    refine ⟨equation.key :: mentioned, ?_, (hinsert.insertAll mentioned).register hmem hnew hmentions⟩
    dsimp only
    rw [if_neg hfits, hinsert.internProducts_encode hlength, hindex,
      Status.normalize_encode]
    exact congrArg (Prod.mk _) (settle_encode hmem hnew hmentions)

end Solver

/-! ## Storing a list of equations -/

variable [Domain D] [DecidableEq D]

/-- Offer equations in order, and go on after those that are refused. -/
def Store.addAll (store : Store D) : List (Equation D) → Store D
  | [] => store
  | equation :: rest => (store.add equation).2.addAll rest

/-- Of the equations offered in order, those that are accepted. -/
def Store.accepted (store : Store D) : List (Equation D) → List (Equation D)
  | [] => []
  | equation :: rest =>
    match store.add equation with
    | (.ok (), next) => equation :: next.accepted rest
    | (.error _, next) => next.accepted rest

/-- The store of a solver accepts what the solver accepts. -/
theorem Solver.Interned.accepted_encode {keys : ArrivalSet Key} {solver : Solver D}
    (h : Solver.Interned keys solver) (offered : List (Equation D)) :
    (solver.encode keys).accepted offered = solver.accepted offered := by
  induction offered generalizing keys solver with
  | nil => rfl
  | cons equation offered ih =>
    rw [Store.accepted, Solver.accepted]
    cases hadd : solver.add equation with
    | error error =>
      rw [h.add_encode_of_error hadd]
      exact ih (h.insert equation.key)
    | ok next =>
      obtain ⟨more, hstep, hnext⟩ := h.add_encode_of_ok hadd
      rw [hstep]
      exact congrArg _ (ih hnext)

/-- A store accepts what a solver accepts that is offered the same equations. -/
theorem Store.accepted_new (limit : Nat) (offered : List (Equation D)) :
    (Store.new limit).accepted offered = (Solver.new limit).accepted offered :=
  (Solver.interned_new limit).accepted_encode offered

/-- Offering equations to the store of a solver gives a store of the solver that was offered them. -/
theorem Solver.Interned.exists_addAll_encode {keys : ArrivalSet Key} {solver : Solver D}
    (h : Solver.Interned keys solver) (offered : List (Equation D)) :
    ∃ larger, (solver.encode keys).addAll offered = (solver.addAll offered).encode larger ∧
      Solver.Interned larger (solver.addAll offered) := by
  induction offered generalizing keys solver with
  | nil => exact ⟨keys, rfl, h⟩
  | cons equation offered ih =>
    rw [Store.addAll, Solver.addAll]
    cases hadd : solver.add equation with
    | error error =>
      rw [h.add_encode_of_error hadd]
      exact ih (h.insert equation.key)
    | ok next =>
      obtain ⟨more, hstep, hnext⟩ := h.add_encode_of_ok hadd
      rw [hstep]
      exact ih hnext

/-- Every store that is reached by offering equations is a store of the solver that is reached by
offering them. -/
theorem Store.exists_encode (limit : Nat) (offered : List (Equation D)) :
    ∃ keys, (Store.new limit).addAll offered = ((Solver.new limit).addAll offered).encode keys ∧
      Solver.Interned keys ((Solver.new limit).addAll offered) :=
  (Solver.interned_new limit).exists_addAll_encode offered

end MonotoneEquations
