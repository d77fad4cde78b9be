import Mathlib
import MonotoneEquations.Proofs.Evaluation
import MonotoneEquations.Source.Definition

/-!
# What a list of alternatives says

Alternatives are joined from left to right, and the result depends on how they are written: a constant
is joined with the constants before it as long as no key has come up, and stays a product of its own
afterwards; top absorbs all alternatives but the ones that were joined before it; and of equal products
only the first one is kept. So the same alternatives in another order can give another right hand side,
even a value in the place of products.

What is left once known products are folded does not depend on any of this. Two sums say the same if
their known products join to the same value and, unless that value is top, the same products are open.
A join says what its two sides say together, and fails only if they mention too many keys in different
products.
-/

namespace MonotoneEquations

variable {D : Type} [Domain D]

/-! ## Joins of the same values -/

namespace Domain

variable [EquationalDomain D]

/-- A value is absorbed by a join of which it is a part. -/
theorem join_joinAll_of_mem {a : D} {values : List D} (h : a ∈ values) :
    join a (joinAll values) = joinAll values := by
  induction values with
  | nil => cases h
  | cons b values ih =>
    rw [joinAll_cons]
    rcases List.mem_cons.mp h with rfl | h
    · rw [← EquationalDomain.join_assoc, EquationalDomain.join_self]
    · rw [← EquationalDomain.join_assoc, EquationalDomain.join_comm a b, EquationalDomain.join_assoc, ih h]

/-- The join of some values is absorbed by the join of more. -/
theorem join_joinAll_of_subset {values more : List D} (h : values ⊆ more) :
    join (joinAll values) (joinAll more) = joinAll more := by
  induction values with
  | nil => rw [joinAll_nil, bottom_join]
  | cons a values ih =>
    obtain ⟨ha, hvalues⟩ := List.cons_subset.mp h
    rw [joinAll_cons, EquationalDomain.join_assoc, ih hvalues, join_joinAll_of_mem ha]

/-- A join depends on the set of its values alone. -/
theorem joinAll_eq_of_subset {left right : List D} (h : left ⊆ right) (h' : right ⊆ left) :
    joinAll left = joinAll right := by
  rw [← join_joinAll_of_subset h, EquationalDomain.join_comm, join_joinAll_of_subset h']

end Domain

/-! ## Sums that say the same -/

variable [DecidableEq D]

/-- The known products of two sums join to the same value, and unless that is top, the same products
are open in both. -/
structure SaysSame (sum other : List (Product D)) : Prop where
  known_eq : Status.knownPart sum = Status.knownPart other
  mem_openPart_iff : Status.knownPart sum ≠ Domain.top →
    ∀ product, product ∈ Status.openPart sum ↔ product ∈ Status.openPart other

namespace SaysSame

variable {sum other third : List (Product D)}

/-- A sum says the same as itself. -/
theorem refl (sum : List (Product D)) : SaysSame sum sum := ⟨rfl, fun _ _ => Iff.rfl⟩

/-- Saying the same is mutual. -/
theorem symm (h : SaysSame sum other) : SaysSame other sum :=
  ⟨h.known_eq.symm, fun htop product => (h.mem_openPart_iff (h.known_eq ▸ htop) product).symm⟩

/-- Sums that say the same as one sum say the same. -/
theorem trans (h : SaysSame sum other) (h' : SaysSame other third) : SaysSame sum third :=
  ⟨h.known_eq.trans h'.known_eq, fun htop product =>
    (h.mem_openPart_iff htop product).trans (h'.mem_openPart_iff (h.known_eq ▸ htop) product)⟩

/-- Sums whose known products join to top say the same, whatever else is in them. -/
theorem of_top (h : Status.knownPart sum = Domain.top) (h' : Status.knownPart other = Domain.top) :
    SaysSame sum other := ⟨h.trans h'.symm, fun htop => absurd h htop⟩

variable [EquationalDomain D]

/-- Sums of the same products say the same. -/
theorem of_mem_iff (h : ∀ product, product ∈ sum ↔ product ∈ other) : SaysSame sum other where
  known_eq := by
    have hvalue {left right : List (Product D)} (hmem : left ⊆ right) :
        (left.filter Product.isKnown).map Product.value ⊆
          (right.filter Product.isKnown).map Product.value :=
      List.map_subset _ (List.filter_subset _ hmem)
    exact Domain.joinAll_eq_of_subset (hvalue fun product => (h product).mp)
      (hvalue fun product => (h product).mpr)
  mem_openPart_iff _ product := by rw [Status.openPart, Status.openPart, List.mem_filter, List.mem_filter, h]

/-- More products can be added to sums that say the same. -/
theorem append_right (h : SaysSame sum other) (more : List (Product D)) :
    SaysSame (sum ++ more) (other ++ more) where
  known_eq := by rw [Status.knownPart_append, Status.knownPart_append, h.known_eq]
  mem_openPart_iff htop product := by
    have hsum : Status.knownPart sum ≠ Domain.top := fun heq =>
      htop (by rw [Status.knownPart_append, heq, Domain.top_join])
    have hopen := h.mem_openPart_iff hsum product
    simp only [Status.openPart, List.filter_append, List.mem_append] at hopen ⊢
    rw [hopen]

end SaysSame

/-! ## Values -/

/-- The value of a known product is its constant, whatever its references read. -/
theorem Product.eval_of_isKnown [EquationalDomain D] {product : Product D} (h : product.isKnown)
    (reads : Key → D) : product.eval reads = product.value := by
  rw [← knownMeet_total]
  exact (reduce_of_isKnown (.total reads) h).2

/-- The value of a sum is the join of its known part with the values of its open products. -/
theorem joinAll_map_eval [EquationalDomain D] (reads : Key → D) (sum : List (Product D)) :
    Domain.joinAll (sum.map (Product.eval reads)) = Domain.join (Status.knownPart sum)
      (Domain.joinAll ((Status.openPart sum).map (Product.eval reads))) := by
  have hknown : (sum.filter Product.isKnown).map (Product.eval reads) =
      (sum.filter Product.isKnown).map Product.value :=
    List.map_congr_left fun product hproduct =>
      Product.eval_of_isKnown (List.mem_filter.mp hproduct).2 reads
  rw [Domain.joinAll_map_eq_join Product.isKnown, hknown, Status.knownPart, Status.openPart]

/-- Sums that say the same have the same value, whatever the references read. -/
theorem SaysSame.joinAll_map_eval_eq [EquationalDomain D] {sum other : List (Product D)}
    (h : SaysSame sum other) (reads : Key → D) :
    Domain.joinAll (sum.map (Product.eval reads)) = Domain.joinAll (other.map (Product.eval reads)) := by
  rw [joinAll_map_eval, joinAll_map_eval reads other, ← h.known_eq]
  by_cases htop : Status.knownPart sum = Domain.top
  · rw [htop, Domain.top_join, Domain.top_join]
  · have hopen := h.mem_openPart_iff htop
    rw [Domain.joinAll_eq_of_subset (List.map_subset _ fun product => (hopen product).mp)
      (List.map_subset _ fun product => (hopen product).mpr)]

/-! ## Statuses up to the order of products -/

namespace Status

/-- The same value, or sums of the same products in whatever order. -/
inductive Alike : Status D → Status D → Prop
  | resolved (value : D) : Alike (.resolved value) (.resolved value)
  | waiting {sum other : List (Product D)} (hperm : sum.Perm other) : Alike (.waiting sum) (.waiting other)

/-- Normal forms are alike if the known parts agree and, unless they are top, the open parts do. -/
theorem normalize_alike {sum other : List (Product D)} (hknown : knownPart sum = knownPart other)
    (hopen : knownPart sum ≠ Domain.top → (openPart sum).Perm (openPart other)) :
    (normalize sum).Alike (normalize other) := by
  rw [normalize_eq, normalize_eq, ← hknown]
  by_cases htop : knownPart sum = Domain.top
  · rw [if_pos (.inr htop), if_pos (.inr htop)]
    exact .resolved _
  · have hperm := hopen htop
    have hnil : openPart sum = [] ↔ openPart other = [] :=
      ⟨fun h => (h ▸ hperm).nil_eq.symm, fun h => (h ▸ hperm).eq_nil⟩
    by_cases hempty : openPart sum = []
    · rw [if_pos (.inl hempty), if_pos (.inl (hnil.mp hempty))]
      exact .resolved _
    · rw [if_neg (not_or.mpr ⟨hempty, htop⟩), if_neg (not_or.mpr ⟨mt hnil.mpr hempty, htop⟩)]
      exact .waiting (hperm.append_right _)

end Status

/-- Sums without repetition that say the same have the same normal form up to the order of products. -/
theorem SaysSame.normalize_alike {sum other : List (Product D)} (h : SaysSame sum other)
    (hsum : sum.Nodup) (hother : other.Nodup) : (Status.normalize sum).Alike (Status.normalize other) :=
  Status.normalize_alike h.known_eq fun htop =>
    (List.perm_ext_iff_of_nodup (hsum.filter _) (hother.filter _)).mpr (h.mem_openPart_iff htop)

/-! ## Joining right hand sides -/

namespace Product

omit [Domain D] [DecidableEq D] in
/-- The key occurrences of a list of products are those of its products together. -/
theorem occurrences_eq_sum (sum : List (Product D)) :
    occurrences sum = (sum.map fun product => product.ids.size).sum := by
  induction sum with
  | nil => rfl
  | cons product sum ih => rw [occurrences, ih, List.map_cons, List.sum_cons]

omit [Domain D] [DecidableEq D] in
/-- Different products have no more key occurrences than a list that holds all of them but constants. -/
theorem occurrences_le {sum all : List (Product D)} (hnodup : sum.Nodup)
    (h : ∀ product ∈ sum, product.ids.isEmpty ∨ product ∈ all) : occurrences sum ≤ occurrences all := by
  have hkeyed : occurrences sum = occurrences (sum.filter fun product => !product.ids.isEmpty) := by
    clear hnodup h
    induction sum with
    | nil => rfl
    | cons product sum ih =>
      cases hempty : product.ids.isEmpty with
      | true =>
        have hsize : product.ids.size = 0 := by
          rw [Ascending.size, List.isEmpty_iff.mp hempty, List.length_nil]
        rw [List.filter_cons_of_neg (by simp [hempty]), occurrences, ih, hsize, Nat.zero_add]
      | false => rw [List.filter_cons_of_pos (by simp [hempty]), occurrences, occurrences, ih]
  have hsubset : (sum.filter fun product => !product.ids.isEmpty) ⊆ all := fun product hproduct => by
    obtain ⟨hmem, hkeys⟩ := List.mem_filter.mp hproduct
    exact (h product hmem).resolve_left (by simpa using hkeys)
  obtain ⟨part, hperm, hsublist⟩ := (hnodup.filter _).subperm hsubset
  rw [hkeyed, occurrences_eq_sum, occurrences_eq_sum, ← (hperm.map _).sum_eq]
  exact (hsublist.map _).sum_le_sum fun _ _ => Nat.zero_le _

end Product

namespace Rhs

omit [Domain D] [DecidableEq D] in
/-- The products of a right hand side, where a value is a product without keys. -/
def sum : Rhs D → List (Product D)
  | .final value => [.constant value]
  | .pending products => products.toList

omit [Domain D] [DecidableEq D] in
/-- No product of a right hand side is repeated. -/
theorem nodup_sum (rhs : Rhs D) : rhs.sum.Nodup := by
  cases rhs with
  | final value => exact List.nodup_singleton _
  | pending products => exact products.nodup

omit [Domain D] [DecidableEq D] in
/-- The size of a right hand side is that of its sum. -/
theorem occurrences_sum (rhs : Rhs D) : Product.occurrences rhs.sum = rhs.size := by
  cases rhs <;> rfl

variable [EquationalDomain D]

/-- The status of a right hand side of which no reference is known is the normal form of its sum. -/
theorem normalize_sum (rhs : Rhs D) : Status.normalize rhs.sum = rhs.statusUnder .nothing := by
  cases rhs with
  | final value => simp [sum, Status.normalize_eq, Status.openPart, Status.knownPart, Product.isKnown,
      Product.constant, Ascending.isEmpty, Ascending.empty, statusUnder]
  | pending products => exact (statusUnder_nothing products).symm

omit [DecidableEq D] in
/-- The value of a right hand side is that of its sum. -/
theorem eval_eq_joinAll_sum (reads : Key → D) (rhs : Rhs D) :
    rhs.eval reads = Domain.joinAll (rhs.sum.map (Product.eval reads)) := by
  cases rhs with
  | final value => exact (Domain.bottom_join value).symm
  | pending products => rfl

/-- A sum of one value has that value as its known part. -/
theorem knownPart_constant (value : D) : Status.knownPart [Product.constant value] = value := by
  simp [Status.knownPart, Product.isKnown, Product.constant, Ascending.isEmpty, Ascending.empty]

/-- A join says what both sides say together. -/
theorem saysSame_of_join {limit : Nat} {r s t : Rhs D} (h : r.join limit s = .ok t) :
    SaysSame t.sum (r.sum ++ s.sum) := by
  unfold join at h
  split at h
  next hr =>
    cases h
    subst hr
    refine .of_top (knownPart_constant _) ?_
    rw [Status.knownPart_append, top, sum, knownPart_constant, Domain.top_join]
  next =>
    split at h
    next hs =>
      cases h
      subst hs
      refine .of_top (knownPart_constant _) ?_
      rw [Status.knownPart_append, top, sum, knownPart_constant, Domain.join_top]
    next =>
      split at h
      next a b =>
        cases h
        refine ⟨?_, fun _ => ?_⟩
        · simp only [sum, Status.knownPart_append, knownPart_constant]
        · simp [sum, Status.openPart, Product.isKnown, Product.constant, Ascending.isEmpty, Ascending.empty]
      next a products =>
        cases h
        exact .of_mem_iff fun product => ArrivalSet.mem_insert.trans (by simp [sum]; rfl)
      next products a =>
        cases h
        exact .of_mem_iff fun product => ArrivalSet.mem_insert.trans (by simp [sum, or_comm]; rfl)
      next products others =>
        unfold pendingWithin at h
        simp only at h
        split at h
        next => cases h
        next =>
          cases h
          exact .of_mem_iff fun product => ArrivalSet.mem_insertAll.trans (by simp [sum]; rfl)

omit [EquationalDomain D] in
/-- Right hand sides of which every product with keys is among some others can be joined, if these do
not mention too many keys, and the join is such a right hand side again. -/
theorem exists_join {limit : Nat} {all : List (Product D)} (hfits : Product.occurrences all ≤ limit)
    {r s : Rhs D} (hr : ∀ product ∈ r.sum, product.ids.isEmpty ∨ product ∈ all)
    (hs : ∀ product ∈ s.sum, product.ids.isEmpty ∨ product ∈ all) :
    ∃ t, r.join limit s = .ok t ∧ ∀ product ∈ t.sum, product.ids.isEmpty ∨ product ∈ all := by
  have hconstant (value : D) : ∀ product ∈ [Product.constant value], product.ids.isEmpty ∨ product ∈ all :=
    List.forall_mem_singleton.mpr (.inl rfl)
  have hinsert (products : ArrivalSet (Product D)) (value : D)
      (hproducts : ∀ product ∈ products.toList, product.ids.isEmpty ∨ product ∈ all) :
      ∀ product ∈ (products.insert (.constant value)).toList, product.ids.isEmpty ∨ product ∈ all := by
    intro product hproduct
    rcases ArrivalSet.mem_insert.mp hproduct with rfl | hmem
    · exact .inl rfl
    · exact hproducts product hmem
  unfold join
  by_cases hrtop : r = top
  · exact ⟨r, if_pos hrtop, hr⟩
  rw [if_neg hrtop]
  by_cases hstop : s = top
  · exact ⟨s, if_pos hstop, hs⟩
  rw [if_neg hstop]
  match r, s with
  | .final a, .final b => exact ⟨_, rfl, hconstant _⟩
  | .final a, .pending products => exact ⟨_, rfl, hinsert products a hs⟩
  | .pending products, .final a => exact ⟨_, rfl, hinsert products a hr⟩
  | .pending products, .pending others =>
    have hunion : ∀ product ∈ (products.insertAll others.toList).toList,
        product.ids.isEmpty ∨ product ∈ all := fun product hproduct =>
      (ArrivalSet.mem_insertAll.mp hproduct).elim (hr product) (hs product)
    refine ⟨_, if_neg (Nat.not_lt.mpr ?_), hunion⟩
    exact (Product.occurrences_le (ArrivalSet.nodup _) hunion).trans hfits

end Rhs

/-! ## Reading alternatives -/

section Read

variable [Spelling D]

/-- What an alternative says: the meet of its values, and the set of its keys. -/
def Product.ofAlternative (atoms : List Key) : Product D :=
  .ofKeys (Domain.meetAll (atoms.filterMap Key.constant?))
    (atoms.filter fun atom => (atom.constant? : Option D).isNone)

/-- The different alternatives of a list. -/
def Product.ofAlternatives (alternatives : List (List Key)) : ArrivalSet (Product D) :=
  .ofList (alternatives.map Product.ofAlternative)

namespace Rhs

/-- An alternative is read as what it says. -/
theorem sum_ofAlternative (atoms : List Key) :
    (ofAlternative atoms : Rhs D).sum = [Product.ofAlternative atoms] := by
  simp only [ofAlternative, Product.ofAlternative]
  split
  next hempty => rw [List.isEmpty_iff.mp hempty]; rfl
  next => rfl

variable [EquationalDomain D]

/-- Reading on after some alternatives says what they and the others say together. -/
theorem saysSame_of_foldlM {limit : Nat} {start rhs : Rhs D} {others : List (List Key)}
    (h : others.foldlM (fun rhs atoms => rhs.join limit (.ofAlternative atoms)) start = .ok rhs) :
    SaysSame rhs.sum (start.sum ++ others.map Product.ofAlternative) := by
  induction others generalizing start with
  | nil =>
    cases h
    rw [List.map_nil, List.append_nil]
    exact .refl _
  | cons atoms others ih =>
    rw [List.foldlM_cons] at h
    match hjoin : start.join limit (.ofAlternative atoms) with
    | .error excess => rw [hjoin] at h; cases h
    | .ok next =>
      rw [hjoin] at h
      have hnext := (saysSame_of_join hjoin).append_right (others.map Product.ofAlternative)
      rw [sum_ofAlternative, List.append_assoc] at hnext
      exact (ih h).trans hnext

/-- Alternatives are read as what they say together. -/
theorem saysSame_of_ofAlternatives {limit : Nat} {alternatives : List (List Key)} {rhs : Rhs D}
    (h : ofAlternatives limit alternatives = .ok rhs) :
    SaysSame rhs.sum (alternatives.map Product.ofAlternative) := by
  cases alternatives with
  | nil =>
    cases h
    refine ⟨knownPart_constant _, fun _ => ?_⟩
    simp [sum, Status.openPart, Product.isKnown, Product.constant]
  | cons first others =>
    have hfold := saysSame_of_foldlM h
    rwa [sum_ofAlternative] at hfold

omit [EquationalDomain D] in
/-- Alternatives are read if the different ones do not mention too many keys. -/
theorem exists_ofAlternatives {limit : Nat} {alternatives : List (List Key)}
    (hfits : Product.occurrences
      (Product.ofAlternatives alternatives : ArrivalSet (Product D)).toList ≤ limit) :
    ∃ rhs : Rhs D, ofAlternatives limit alternatives = .ok rhs ∧ rhs.size ≤ limit := by
  have hread (atoms : List Key) (hatoms : atoms ∈ alternatives) :
      ∀ product ∈ (ofAlternative atoms : Rhs D).sum,
        product.ids.isEmpty ∨ product ∈ (Product.ofAlternatives alternatives).toList := by
    rw [sum_ofAlternative]
    exact List.forall_mem_singleton.mpr
      (.inr (ArrivalSet.mem_ofList.mpr (List.mem_map_of_mem hatoms)))
  have hfold (others : List (List Key)) (hothers : others ⊆ alternatives) (start : Rhs D)
      (hstart : ∀ product ∈ start.sum,
        product.ids.isEmpty ∨ product ∈ (Product.ofAlternatives alternatives).toList) :
      ∃ rhs, others.foldlM (fun rhs atoms => rhs.join limit (.ofAlternative atoms)) start = .ok rhs ∧
        ∀ product ∈ rhs.sum,
          product.ids.isEmpty ∨ product ∈ (Product.ofAlternatives alternatives).toList := by
    induction others generalizing start with
    | nil => exact ⟨start, rfl, hstart⟩
    | cons atoms others ih =>
      obtain ⟨hatoms, hothers⟩ := List.cons_subset.mp hothers
      obtain ⟨next, hjoin, hnext⟩ := exists_join hfits hstart (hread atoms hatoms)
      rw [List.foldlM_cons, hjoin]
      exact ih hothers next hnext
  cases alternatives with
  | nil => exact ⟨_, rfl, Nat.zero_le _⟩
  | cons first others =>
    obtain ⟨rhs, hrhs, hproducts⟩ :=
      hfold others (List.subset_cons_self _ _) (.ofAlternative first) (hread first List.mem_cons_self)
    refine ⟨rhs, hrhs, ?_⟩
    rw [← occurrences_sum]
    exact (Product.occurrences_le rhs.nodup_sum hproducts).trans hfits

end Rhs

end Read

end MonotoneEquations
