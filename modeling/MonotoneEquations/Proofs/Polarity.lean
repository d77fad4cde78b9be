import Mathlib
import MonotoneEquations.Domain.Ternary
import MonotoneEquations.Proofs.Progress

/-!
# The winner of a pair of opposite keys

Both polarities of a key may be defined, and a run may resolve both. The one that is popped first
wins: from then on its value is what the pair reads as, and where an equation waited on one of the two
keys, the value is put in at once. So the second one finds no occurrence when it is popped, and no two
equations read different values for one reference.

Which polarity wins depends on the order of registration and on what resolves during the run. Once the
winners are known, an equation is resolved exactly if they decide its value.
-/

namespace MonotoneEquations

variable {D : Type}

/-! ## Winners -/

/-- Of a key and its negation, the one that was popped first, with its value. Popped keys are listed
with the last one first. -/
def winner? (popped : List (Key × D)) (r : Key) : Option (Key × D) :=
  popped.reverse.find? fun pair => pair.1 = r ∨ pair.1 = r.negate

/-- What references read from the winners: the value of the winner, but an unstable winner itself reads
as top. -/
def readWinner [Domain D] (popped : List (Key × D)) : Knowledge D := fun r =>
  (winner? popped r).map fun winner =>
    if winner.1 = r ∧ ¬r.stable then Domain.top else winner.2

/-- An earlier winner stays. -/
theorem winner?_append (later earlier : List (Key × D)) (r : Key) :
    winner? (later ++ earlier) r = (winner? earlier r).or (winner? later r) := by
  rw [winner?, List.reverse_append, List.find?_append]
  rfl

/-- A pair has no winner as long as none of its keys was popped. -/
theorem winner?_eq_none_iff {popped : List (Key × D)} {r : Key} :
    winner? popped r = none ↔ r ∉ popped.map Prod.fst ∧ r.negate ∉ popped.map Prod.fst := by
  rw [winner?, List.find?_eq_none]
  simp only [List.mem_reverse, decide_eq_true_eq, not_or, List.mem_map, not_exists, not_and]
  exact ⟨fun h => ⟨fun pair hpair => (h pair hpair).1, fun pair hpair => (h pair hpair).2⟩,
    fun h pair hpair => ⟨h.1 pair hpair, h.2 pair hpair⟩⟩

section Reading

variable [Domain D]

/-- What is read from earlier winners stays. -/
theorem readWinner_append (later earlier : List (Key × D)) :
    readWinner (later ++ earlier) = (readWinner earlier).orElse (readWinner later) := by
  funext r
  rw [readWinner, winner?_append, Knowledge.orElse, readWinner, readWinner]
  cases winner? earlier r <;> rfl

/-- A single popped key is read by itself and by its negation. -/
theorem readWinner_singleton (key : Key) (value : D) :
    readWinner [(key, value)] = Knowledge.nothing.learn key value := by
  funext r
  rw [Knowledge.learn_apply, Knowledge.nothing, Option.none_or, readWinner, winner?]
  by_cases hr : r = key
  · subst r
    by_cases hstable : key.stable <;> simp [hstable]
  · have hnegate : key = r.negate ↔ r = key.negate := by
      constructor
      · intro hkey
        rw [hkey, Key.negate_negate]
      · intro hr
        rw [hr, Key.negate_negate]
    by_cases hr' : r = key.negate
    · subst r
      simp [key.negate_ne.symm, key.negate_ne]
    · simp [hr, Ne.symm hr, hnegate, hr']

/-- The knowledge that follows from popped keys is what the winners say. -/
theorem Knowledge.ofResolved_eq_readWinner (popped : List (Key × D)) :
    ofResolved popped = readWinner popped := by
  induction popped with
  | nil => rfl
  | cons pair earlier ih =>
    obtain ⟨key, value⟩ := pair
    rw [ofResolved, learn_eq_orElse, ih, ← readWinner_singleton, ← readWinner_append]
    rfl

/-- The second key of a pair has no say. -/
theorem readWinner_cons_of_negate_mem {popped : List (Key × D)} {key : Key}
    (h : key.negate ∈ popped.map Prod.fst) (value : D) :
    readWinner ((key, value) :: popped) = readWinner popped := by
  have happend : (key, value) :: popped = [(key, value)] ++ popped := rfl
  rw [happend, readWinner_append]
  funext r
  cases hr : readWinner popped r with
  | some v => simp [Knowledge.orElse, hr]
  | none =>
    have hfree := winner?_eq_none_iff.mp (Option.map_eq_none_iff.mp hr)
    have hkey : r ≠ key := fun heq => hfree.2 (heq ▸ h)
    have hnegate : r.negate ≠ key := by
      intro heq
      rw [← heq, Key.negate_negate] at h
      exact hfree.1 h
    have hother : winner? [(key, value)] r = none := winner?_eq_none_iff.mpr (by simp [hkey, hnegate])
    have hunread : readWinner [(key, value)] r = none := Option.map_eq_none_iff.mpr hother
    rw [Knowledge.orElse, hr, hunread]
    rfl

/-- What is read from popped keys is read in the same way later. -/
theorem readWinner_le_of_suffix {earlier popped : List (Key × D)} (h : earlier <:+ popped) :
    (readWinner earlier).Le (readWinner popped) := by
  obtain ⟨later, rfl⟩ := h
  intro r v hv
  rw [readWinner_append, Knowledge.orElse, hv]
  rfl

end Reading

/-! ## When an equation is resolved -/

section Criterion

variable [Domain D]

/-- A product is read if all its references are known. -/
def Product.isRead (known : Knowledge D) (product : Product D) : Bool :=
  product.ids.toList.all fun r => (known r).isSome

/-- The join of the products that are read. -/
def readJoin (known : Knowledge D) (products : List (Product D)) : D :=
  Domain.joinAll ((products.filter (Product.isRead known)).map (Product.knownMeet known))

variable [DecidableEq D]

/-- A product that is read is settled. -/
theorem Product.isSettled_of_isRead {known : Knowledge D} {product : Product D}
    (h : product.isRead known) : product.isSettled known := by
  rw [isSettled, Bool.or_eq_true]
  exact .inl h

/-- A settled product that is not read has a known part that is bottom. -/
theorem Product.isSettled_iff {known : Knowledge D} {product : Product D} :
    product.isSettled known ↔ product.isRead known ∨ product.knownMeet known = Domain.bottom := by
  rw [isSettled, Bool.or_eq_true, decide_eq_true_eq]
  rfl

variable [EquationalDomain D]

/-- Settled products that are not read add nothing to a join. -/
theorem settledJoin_eq_readJoin (known : Knowledge D) (products : List (Product D)) :
    Rhs.settledJoin known products = readJoin known products := by
  induction products with
  | nil => rfl
  | cons product products ih =>
    rw [Rhs.settledJoin, readJoin] at ih ⊢
    by_cases hread : product.isRead known
    · rw [List.filter_cons_of_pos (Product.isSettled_of_isRead hread), List.filter_cons_of_pos hread,
        List.map_cons, List.map_cons, Domain.joinAll_cons, Domain.joinAll_cons, ih]
    · rw [List.filter_cons_of_neg hread]
      by_cases hsettled : product.isSettled known
      · have hbottom := (Product.isSettled_iff.mp hsettled).resolve_left hread
        rw [List.filter_cons_of_pos hsettled, List.map_cons, Domain.joinAll_cons, hbottom,
          Domain.bottom_join, ih]
      · rw [List.filter_cons_of_neg hsettled, ih]

/-- An equation is resolved as soon as each product is read or has a known part that is bottom, or the
products that are read join to top. Its value is their join. -/
theorem consequence?_pending_eq_some_iff {known : Knowledge D} {products : ArrivalSet (Product D)}
    {value : D} :
    (Rhs.pending products).consequence? known = some value ↔
      ((∀ product ∈ products.toList, product.isRead known ∨ product.knownMeet known = Domain.bottom) ∨
          readJoin known products.toList = Domain.top) ∧
        readJoin known products.toList = value := by
  rw [Rhs.consequence?, settledJoin_eq_readJoin]
  simp only [List.all_eq_true, Product.isSettled_iff]
  split
  next hall => rw [and_iff_right (.inl hall), Option.some_inj]
  next hall =>
    split
    next htop => rw [and_iff_right (.inr htop), Option.some_inj, htop]
    next htop => simp [hall, htop]

end Criterion

/-! ## Popping a key -/

variable [Domain D] [DecidableEq D]

/-- What happens between two points of a run when a key is popped. What the key and its negation read
as is put into every sum, and no occurrence of them is left. If the negation was popped before, then
nothing is left to do. -/
structure Pops (before after : Progress D) (key : Key) (value : D) : Prop where
  popped_eq : after.popped = (key, value) :: before.popped
  reads : ∀ dependent sum, before.store.pending.getD dependent none = some sum →
    after.store.term? dependent = some (.normalize (sum.map (.reduce fun id =>
      readWinner [(key, value)] (before.store.keyOf id))))
  removed : ∀ dependent sum, after.store.pending.getD dependent none = some sum →
    ∀ component ∈ sum, ∀ id ∈ component.ids,
      after.store.keyOf id ≠ key ∧ after.store.keyOf id ≠ key.negate
  unchanged : key.negate ∈ before.popped.map Prod.fst →
    after.store =
      { before.store with moving := before.store.moving.tail, log := after.store.log }

namespace Solver

variable [EquationalDomain D] {keys : ArrivalSet Key} {solver : Solver D} {system : List (Equation D)}
  {told rest : List (Key × D)} {key : Key} {value : D}

omit [EquationalDomain D] in
/-- An equation is stored as far as the winners decide it. -/
theorem Announced.term?_encode (h : Announced system told solver) (hinterned : Interned keys solver)
    {equation : Equation D} (hequation : equation ∈ system) :
    (solver.encode keys).term? (keys.indexOf equation.key) =
      some ((equation.rhs.statusUnder (readWinner told)).encode keys) := by
  have hentry : equation.entryUnder (.ofResolved told) ∈ solver.entries := by
    rw [h.entries]
    exact List.mem_map_of_mem hequation
  rw [← Knowledge.ofResolved_eq_readWinner]
  exact hinterned.term?_encode hentry

/-- A stored sum mentions only keys of pairs that have no winner. -/
theorem Announced.winner?_eq_none (h : Announced system told solver) (hinterned : Interned keys solver)
    {dependent : Nat} {sum : List (Component D)}
    (hsum : (solver.encode keys).pending.getD dependent none = some sum) {component : Component D}
    (hcomponent : component ∈ sum) {id : Nat} (hid : id ∈ component.ids) :
    winner? told ((solver.encode keys).keyOf id) = none := by
  obtain ⟨entry, hentry, products, -, hstatus, hwithin, rfl⟩ := hinterned.exists_entry_of_pending hsum
  obtain ⟨r, hr, -, rfl⟩ := exists_key_of_mem_ids solver hwithin hcomponent hid
  rw [h.entries] at hentry
  obtain ⟨equation, -, rfl⟩ := List.mem_map.mp hentry
  rw [← hstatus] at hr
  have hunknown := (Rhs.mem_mentions_statusUnder hr).1
  rw [Knowledge.ofResolved_eq_readWinner] at hunknown
  exact Option.map_eq_none_iff.mp hunknown

/-- Popping a key puts what the key and its negation read as into every sum. -/
theorem Announced.term?_announce_encode (h : Announced system told solver)
    (hinterned : Interned keys solver) (hwork : solver.worklist = (key, value) :: rest)
    {dependent : Nat} {sum : List (Component D)}
    (hsum : (solver.encode keys).pending.getD dependent none = some sum) :
    (({ solver with worklist := rest }.announce key value).encode keys).term? dependent =
      some (.normalize (sum.map (.reduce fun id =>
        readWinner [(key, value)] ((solver.encode keys).keyOf id)))) := by
  obtain ⟨entry, hentry, products, rfl, hstatus, hwithin, rfl⟩ := hinterned.exists_entry_of_pending hsum
  rw [h.entries] at hentry
  obtain ⟨equation, hequation, rfl⟩ := List.mem_map.mp hentry
  have hstored := (h.announce hwork).term?_encode (hinterned.announce_pop_encode hwork).2.2 hequation
  have hnext : equation.rhs.statusUnder (readWinner ((key, value) :: told)) =
      .normalize (products.map (Product.reduce (readWinner [(key, value)]))) := by
    have hstatus : equation.rhs.statusUnder (readWinner told) = .waiting products := by
      rw [← Knowledge.ofResolved_eq_readWinner]
      exact hstatus
    rw [Rhs.normalize_map_reduce_of_statusUnder hstatus, ← readWinner_append]
    rfl
  have hcomponents : (products.map (Product.reduce (readWinner [(key, value)]))).map
        (Product.encode keys) =
      (products.map (Product.encode keys)).map (.reduce fun id =>
        readWinner [(key, value)] ((solver.encode keys).keyOf id)) := by
    rw [List.map_map, List.map_map]
    refine List.map_congr_left fun product hproduct => ?_
    exact ((hwithin product hproduct).reduce_encode fun r hr =>
      congrArg (readWinner _) (keyOf_indexOf hr)).symm
  rw [hnext, ← Status.normalize_encode, hcomponents] at hstored
  exact hstored

/-- The second key of a pair changes nothing but the log when it is popped. -/
theorem Announced.announce_of_negate_mem (h : Announced system told solver)
    (hwork : solver.worklist = (key, value) :: rest) (hnegate : key.negate ∈ told.map Prod.fst) :
    ∃ log, { solver with worklist := rest }.announce key value =
      { solver with worklist := rest, log := log } := by
  have hlimit : ({ solver with worklist := rest }.announce key value).limit = solver.limit := by
    unfold Solver.announce
    split <;> rfl
  have hentries : ({ solver with worklist := rest }.announce key value).entries = solver.entries := by
    rw [(h.announce hwork).entries, h.entries, Knowledge.ofResolved_eq_readWinner,
      Knowledge.ofResolved_eq_readWinner, readWinner_cons_of_negate_mem hnegate]
  obtain ⟨found, hfound, hperm⟩ := resolutions_announce key value { solver with worklist := rest }
  have hresolutions : ({ solver with worklist := rest }.announce key value).resolutions =
      ({ solver with worklist := rest } : Solver D).resolutions :=
    congrArg (List.filterMap Entry.resolution?) hentries
  have hnothing : found = [] := by
    have hlength := hperm.length_eq
    rw [hresolutions, List.length_append] at hlength
    exact List.eq_nil_of_length_eq_zero (by omega)
  rw [hnothing, List.nil_append] at hfound
  cases hnext : { solver with worklist := rest }.announce key value with
  | mk limit entries worklist log =>
    rw [hnext] at hlimit hentries hfound
    dsimp only at hlimit hentries hfound
    exact ⟨log, by rw [hlimit, hentries, hfound]⟩

/-- What popping a key does to the store. -/
theorem Announced.pops (h : Announced system told solver) (hinterned : Interned keys solver)
    (hwork : solver.worklist = (key, value) :: rest) :
    Pops ⟨told, solver.encode keys⟩
      ⟨(key, value) :: told, ({ solver with worklist := rest }.announce key value).encode keys⟩
      key value where
  popped_eq := rfl
  reads := fun dependent sum hsum => h.term?_announce_encode hinterned hwork hsum
  removed := by
    intro dependent sum hsum component hcomponent id hid
    have hnone := (h.announce hwork).winner?_eq_none (hinterned.announce_pop_encode hwork).2.2 hsum
      hcomponent hid
    rw [winner?_eq_none_iff, List.map_cons, List.mem_cons, List.mem_cons, not_or, not_or] at hnone
    refine ⟨hnone.1.1, fun hkey => hnone.2.1 ?_⟩
    rw [hkey, Key.negate_negate]
  unchanged := by
    intro hnegate
    obtain ⟨log, hlog⟩ := h.announce_of_negate_mem hwork hnegate
    have hmoving : (solver.encode keys).moving.tail = rest.map fun pair => keys.indexOf pair.1 := by
      rw [encode, hwork]
      rfl
    rw [hlog, hmoving]
    rfl

end Solver

/-! ## A whole run -/

/-- The run of a store that has accepted a system, as the winners of the pairs determine it. -/
structure Store.ReadsWinners (start : Store D) (system : List (Equation D)) : Prop where
  /-- The run is over when its work is done. -/
  run_eq : (start.progress start.workLeft).store = start.run
  moving_eq : start.run.moving = []
  /-- The keys of the solution are popped, and no others. -/
  mem_popped_iff : ∀ key value, (key, value) ∈ (start.progress start.workLeft).popped ↔
    start.solve.solution.get? key = some value
  nodup_popped : ∀ steps, ((start.progress steps).popped.map Prod.fst).Nodup
  /-- Each step of the run pops a key with its value. -/
  pops : ∀ steps handle rest, (start.progress steps).store.moving = handle :: rest →
    ∃ value, (start.progress steps).store.solved.getD handle none = some value ∧
      Pops (start.progress steps) (start.progress (steps + 1))
        ((start.progress steps).store.keyOf handle) value
  /-- What the winners say once, they say at every later point. -/
  readWinner_le : ∀ earlier later, earlier ≤ later →
    (readWinner (start.progress earlier).popped).Le (readWinner (start.progress later).popped)
  /-- At each point, all equations are stored as they read from the winners. -/
  term?_eq : ∀ steps, ∀ equation ∈ system, ∀ products, equation.rhs = .pending products →
    (start.progress steps).store.term? (start.keys.indexOf equation.key) =
      some (.normalize (products.toList.map fun product =>
        (product.reduce (readWinner (start.progress steps).popped)).encode start.keys))
  /-- An equation is resolved exactly if the winners decide its value. -/
  solution_iff : ∀ equation ∈ system, ∀ products, equation.rhs = .pending products → ∀ value,
    start.solve.solution.get? equation.key = some value ↔
      let known := readWinner (start.progress start.workLeft).popped
      ((∀ product ∈ products.toList,
            product.isRead known ∨ product.knownMeet known = Domain.bottom) ∨
          readJoin known products.toList = Domain.top) ∧
        readJoin known products.toList = value

namespace Solver

variable [EquationalDomain D] {keys : ArrivalSet Key} {solver : Solver D} {system : List (Equation D)}

/-- Each step of the run of a store pops a key. -/
theorem Announced.exists_pops (h : Announced system [] solver) (hinterned : Interned keys solver)
    {steps handle : Nat} {rest : List Nat}
    (hmoving : ((solver.encode keys).progress steps).store.moving = handle :: rest) :
    ∃ value, ((solver.encode keys).progress steps).store.solved.getD handle none = some value ∧
      Pops ((solver.encode keys).progress steps) ((solver.encode keys).progress (steps + 1))
        (((solver.encode keys).progress steps).store.keyOf handle) value := by
  obtain ⟨told, reached, hpoint, hreachedInterned, hreached⟩ :=
    hinterned.exists_progress (fun _ _ _ _ _ h hwork => h.announce hwork) h steps
  rw [Store.progress_succ, hpoint]
  rw [hpoint] at hmoving
  cases hwork : reached.worklist with
  | nil =>
    rw [encode, hwork] at hmoving
    cases hmoving
  | cons pair pairs =>
    obtain ⟨key, value⟩ := pair
    have hvalue := hreachedInterned.value?_of_worklist hwork
    have hkey : key ∈ keys := hreachedInterned.mem_of_value? hvalue
    obtain ⟨rfl, -⟩ := List.cons.inj
      (hmoving.symm.trans (hreachedInterned.announce_pop_encode hwork).1)
    have hname : (reached.encode keys).keyOf (keys.indexOf key) = key := keyOf_indexOf hkey
    rw [hreachedInterned.next_encode told hwork]
    refine ⟨value, (getD_solved_encode hkey reached).trans hvalue, ?_⟩
    rw [hname]
    exact hreached.pops hreachedInterned hwork

/-- The store of a solver reads the winners. -/
theorem Announced.readsWinners_encode (h : Announced system [] solver) (hinterned : Interned keys solver) :
    (solver.encode keys).ReadsWinners system := by
  have hpoints := hinterned.exists_progress (P := Announced system)
    (fun _ _ _ _ _ h hwork => h.announce hwork) h
  obtain ⟨hrun, hmoving⟩ := (solver.encode keys).progress_workLeft
  obtain ⟨told, final, hpoint, hfinalInterned, hfinal⟩ := hpoints (solver.encode keys).workLeft
  rw [hpoint] at hrun
  have hperm : told.Perm final.resolutions := by
    have hempty : final.worklist = [] := by
      rw [← hrun] at hmoving
      exact List.map_eq_nil_iff.mp hmoving
    simpa [hempty] using hfinal.resolutions
  have hsolution (key : Key) (value : D) :
      (solver.encode keys).solve.solution.get? key = some value ↔ (key, value) ∈ final.resolutions := by
    have hsame : (solver.encode keys).solve.solution = final.solution := by
      rw [Store.solve, ← hrun]
      exact hfinalInterned.solution_encode
    rw [hsame, hfinalInterned.get?_solution, hfinalInterned.mem_resolutions_iff]
  exact
    { run_eq := by rw [hpoint, hrun]
      moving_eq := hmoving
      mem_popped_iff := fun key value => by rw [hsolution, hpoint, hperm.mem_iff]
      nodup_popped := by
        intro steps
        obtain ⟨told, reached, hpoint, -, hreached⟩ := hpoints steps
        rw [hpoint]
        exact hreached.nodup_told
      pops := fun steps handle rest hmoving => h.exists_pops hinterned hmoving
      readWinner_le := fun earlier later hle =>
        readWinner_le_of_suffix ((solver.encode keys).suffix_popped_progress hle)
      term?_eq := by
        intro steps equation hequation products hproducts
        obtain ⟨told, reached, hpoint, hreachedInterned, hreached⟩ := hpoints steps
        rw [hpoint]
        refine (hreached.term?_encode hreachedInterned hequation).trans ?_
        rw [hproducts, Rhs.statusUnder, ← Status.normalize_encode, List.map_map]
        rfl
      solution_iff := by
        intro equation hequation products hproducts value
        rw [hsolution, hpoint, hfinal.mem_resolutions_iff hequation, hproducts,
          Knowledge.ofResolved_eq_readWinner]
        exact consequence?_pending_eq_some_iff }

end Solver

namespace Store

/-- In a run on accepted equations, which may define both polarities of a key, each pair of opposite
keys is read from the one that is popped first. -/
theorem readsWinners [EquationalDomain D] (limit : Nat) (offered : List (Equation D)) :
    ((new limit).addAll offered).ReadsWinners ((new limit).accepted offered) := by
  obtain ⟨keys, hreached, hinterned⟩ := exists_encode limit offered
  rw [hreached, accepted_new]
  exact ((Solver.announced_new limit).addAll offered).readsWinners_encode hinterned

/-- A system over the chain in which both polarities of an unstable key are defined and read. The key
itself has its value at the start; its negation gets another value during the run. -/
def opposedSample : List (Equation Ternary) :=
  let p : Key := ⟨"p", false, false⟩
  let q : Key := ⟨"q", true, false⟩
  let r : Key := ⟨"r", true, false⟩
  let s : Key := ⟨"s", true, false⟩
  [⟨q, .ofProducts [.ofKeys .yes [p]]⟩,
    ⟨r, .ofProducts [.ofKeys .yes [p.negate, s]]⟩,
    ⟨p.negate, .ofProducts [.ofKeys .yes [q], .ofKeys .yes [r]]⟩,
    ⟨p, .final .maybe⟩]

/-- The key of the sample wins although the value of its negation is larger, and the equation that still
waits keeps what it has read. -/
theorem readsWinners_opposed :
    ((new 2).addAll opposedSample).ReadsWinners ((new 2).accepted opposedSample) ∧
      ((new 2).addAll opposedSample).solve.solution.get? ⟨"p", false, true⟩ = some .yes ∧
      readWinner (((new 2).addAll opposedSample).progress 3).popped ⟨"p", false, true⟩ = some .maybe ∧
      (((new 2).addAll opposedSample).progress 3).store.term? 2 = some (.pending [⟨.maybe, [4]⟩]) :=
  ⟨readsWinners 2 opposedSample, by cbv, by cbv, by cbv⟩

end Store

end MonotoneEquations
