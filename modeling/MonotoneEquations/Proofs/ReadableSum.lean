import Mathlib
import MonotoneEquations.Proofs.FiniteMap
import MonotoneEquations.Proofs.Handles
import MonotoneEquations.Proofs.Legible
import MonotoneEquations.Source.Definition

/-!
# Right hand sides that can be read again

The alternatives of a right hand side are what it is printed as: a constant is an atom that spells
its value, and a product is its constant, unless that is top, with its keys. Reading the alternatives
joins them one by one, and so it gives the right hand side back only if every join on the way does
what is expected of it.

Four conditions make sure of that. The values are legible; no key is taken for a value; constants are
not top, which would absorb the others; and the first product has keys, since a leading constant would
move behind the next product. A sum of several products with keys has also passed the limit, so its
parts do. Right hand sides of single alternatives meet these conditions, and joins keep them.
-/

namespace MonotoneEquations

variable {D : Type} [Domain D] [DecidableEq D] [Spelling D]

/-- The atom that spells a value. -/
def constantAtom (value : D) : Key := ⟨Spelling.write value, true, false⟩

/-- The atoms of a product: its constant, unless that is top and there are keys, and its keys. -/
def Product.atoms (product : Product D) : List Key :=
  (if product.value ≠ Domain.top ∨ product.ids.isEmpty then [constantAtom product.value] else []) ++
    product.ids.toList

/-- The alternatives of a right hand side. -/
def Rhs.alternatives : Rhs D → List (List Key)
  | .final value => [[constantAtom value]]
  | .pending products => products.toList.map Product.atoms

/-- Whether a product has a legible constant and valid keys that are not taken for values. -/
structure Product.IsReadable (product : Product D) : Prop where
  value : IsLegible product.value
  isName : ∀ key ∈ product.ids, IsName key.base.toList
  isKey : ∀ key ∈ product.ids, (key.constant? : Option D) = none

/-- Whether a list of products is what reading its alternatives leads to. -/
structure ReadableSum (limit : Nat) (sum : List (Product D)) : Prop where
  products : ∀ product ∈ sum, product.IsReadable
  constants : ∀ product ∈ sum, product.ids.isEmpty → product.value ≠ Domain.top
  start : ∃ first rest, sum = first :: rest ∧ first.ids.isEmpty = false ∧
    ((∀ product ∈ rest, product.ids.isEmpty) ∨ Product.occurrences sum ≤ limit)

/-- Whether a right hand side is what reading its alternatives leads to. -/
def Rhs.IsReadable (limit : Nat) : Rhs D → Prop
  | .final value => IsLegible value
  | .pending products => ReadableSum limit products.toList

/-! ## Reading alternatives -/

omit [Domain D] [DecidableEq D] in
/-- The atom of a legible value is that value. -/
theorem constant?_constantAtom {value : D} (h : IsLegible value) :
    (constantAtom value).constant? = some value := h.read

namespace Product

omit [Domain D] [DecidableEq D] [Spelling D] in
/-- The occurrences of keys in two lists of products add up. -/
theorem occurrences_append (sum other : List (Product D)) :
    occurrences (sum ++ other) = occurrences sum + occurrences other := by
  induction sum with
  | nil => simp [occurrences]
  | cons product sum ih => rw [List.cons_append, occurrences, occurrences, ih, Nat.add_assoc]

omit [Domain D] [DecidableEq D] [Spelling D] in
/-- The set of a set's keys is the set. -/
theorem ofKeys_toList (product : Product D) : ofKeys product.value product.ids.toList = product := by
  have hids : KeySet.ofList product.ids.toList = product.ids :=
    Ascending.ext_of_mem fun key => by rw [Ascending.mem_ofList]; rfl
  rw [ofKeys, hids]

omit [Domain D] [DecidableEq D] [Spelling D] in
/-- A product without keys is its constant. -/
theorem eq_constant {product : Product D} (h : product.ids.isEmpty) :
    product = .constant product.value := by
  have hids : product.ids = .empty := Ascending.ext (List.isEmpty_iff.mp h)
  rw [constant, ← hids]

/-- The constants among the atoms of a readable product are its own, if it is written. -/
theorem IsReadable.filterMap_atoms {product : Product D} (h : product.IsReadable) :
    product.atoms.filterMap (Key.constant? : Key → Option D) =
      if product.value ≠ Domain.top ∨ product.ids.isEmpty then [product.value] else [] := by
  have hkeys : product.ids.toList.filterMap (Key.constant? : Key → Option D) = [] :=
    List.filterMap_eq_nil_iff.mpr h.isKey
  rw [atoms, List.filterMap_append, hkeys, List.append_nil]
  split
  · simp [constant?_constantAtom h.value]
  · rfl

/-- The other atoms of a readable product are its keys. -/
theorem IsReadable.filter_atoms {product : Product D} (h : product.IsReadable) :
    (product.atoms.filter fun atom => (atom.constant? : Option D).isNone) = product.ids.toList := by
  have hkeys : (product.ids.toList.filter fun atom => (atom.constant? : Option D).isNone) =
      product.ids.toList :=
    List.filter_eq_self.mpr fun key hkey => by rw [h.isKey key hkey]; rfl
  rw [atoms, List.filter_append, hkeys]
  split
  · simp [constant?_constantAtom h.value]
  · rfl

/-- The meet of the constants among the atoms of a readable product is its own. -/
theorem IsReadable.meetAll_atoms [EquationalDomain D] {product : Product D} (h : product.IsReadable) :
    Domain.meetAll (product.atoms.filterMap Key.constant?) = product.value := by
  rw [h.filterMap_atoms]
  split
  next => exact EquationalDomain.top_meet product.value
  next hleft =>
    have htop : product.value = Domain.top := by
      simpa using (not_or.mp hleft).1
    exact htop.symm

end Product

namespace Rhs

/-- The atoms of a readable product are read as the product. -/
theorem ofAlternative_atoms [EquationalDomain D] {product : Product D} (h : product.IsReadable) :
    (Rhs.ofAlternative product.atoms : Rhs D) =
      if product.ids.isEmpty then .final product.value else .ofProducts [product] := by
  simp only [ofAlternative, h.meetAll_atoms, h.filter_atoms, Product.ofKeys_toList]
  rfl

omit [Spelling D] in
/-- A constant that is not top is added to a set of products. -/
theorem join_final_of_ne_top (limit : Nat) (products : ArrivalSet (Product D)) {value : D}
    (hvalue : value ≠ Domain.top) :
    (Rhs.pending products).join limit (.final value) =
      .ok (.pending (products.insert (.constant value))) := by
  simp [join, top, hvalue]

omit [Spelling D] in
/-- Products are added to a set of products, within the limit. -/
theorem join_pending (limit : Nat) (products others : ArrivalSet (Product D)) :
    (Rhs.pending products).join limit (.pending others) =
      pendingWithin limit (products.insertAll others.toList) := by
  simp [join, top]

/-- Reading on behind the first products of a readable sum adds the other ones. -/
theorem foldlM_join_atoms [EquationalDomain D] {limit : Nat} {rest : List (Product D)}
    {front all : ArrivalSet (Product D)} (hsplit : all.toList = front.toList ++ rest)
    (hreadable : ∀ product ∈ rest, product.IsReadable)
    (hconstants : ∀ product ∈ rest, product.ids.isEmpty → product.value ≠ Domain.top)
    (hsize : (∀ product ∈ rest, product.ids.isEmpty) ∨ Product.occurrences all.toList ≤ limit) :
    (rest.map Product.atoms).foldlM (fun rhs atoms => Rhs.join limit rhs (.ofAlternative atoms))
      (Rhs.pending front) = .ok (.pending all) := by
  induction rest generalizing front with
  | nil =>
    rw [List.append_nil] at hsplit
    rw [ArrivalSet.ext hsplit]
    rfl
  | cons product rest ih =>
    rw [List.forall_mem_cons] at hreadable hconstants
    have hnew : product ∉ front := fun hmem => by
      have hnodup := all.nodup
      rw [hsplit] at hnodup
      exact (List.disjoint_of_nodup_append hnodup) hmem List.mem_cons_self
    have hfront : (front.insert product).toList = front.toList ++ [product] :=
      ArrivalSet.toList_insert_of_not_mem hnew
    have hnext : all.toList = (front.insert product).toList ++ rest := by
      rw [hfront, hsplit, List.append_assoc, List.singleton_append]
    have hjoin : (Rhs.pending front).join limit (.ofAlternative product.atoms) =
        .ok (.pending (front.insert product)) := by
      rw [ofAlternative_atoms hreadable.1]
      split
      next hempty =>
        rw [join_final_of_ne_top limit front (hconstants.1 hempty), ← Product.eq_constant hempty]
      next hkeys =>
        have hfits : ¬ limit < Product.occurrences (front.insert product).toList := by
          have hall := hsize.resolve_left fun h => hkeys (h product List.mem_cons_self)
          rw [hnext, Product.occurrences_append] at hall
          omega
        rw [ofProducts, join_pending]
        exact if_neg hfits
    rw [List.map_cons, List.foldlM_cons, hjoin]
    refine ih hnext hreadable.2 hconstants.2 (hsize.imp_left fun h => ?_)
    exact (List.forall_mem_cons.mp h).2

/-- The alternatives of a readable right hand side are read as that right hand side. -/
theorem ofAlternatives_alternatives [EquationalDomain D] {limit : Nat} {rhs : Rhs D}
    (h : rhs.IsReadable limit) : Rhs.ofAlternatives limit rhs.alternatives = .ok rhs := by
  cases rhs with
  | final value =>
    have hproduct : (Product.constant value).IsReadable :=
      ⟨h, fun _ hmem => (nomatch hmem), fun _ hmem => nomatch hmem⟩
    have hatoms : (Product.constant value).atoms = [constantAtom value] := by
      simp [Product.atoms, Product.constant, Ascending.isEmpty, Ascending.empty]
    have hfirst := ofAlternative_atoms hproduct
    rw [hatoms] at hfirst
    rw [alternatives, ofAlternatives, hfirst]
    rfl
  | pending products =>
    obtain ⟨hproducts, hconstants, first, rest, hsplit, hfirst, hsize⟩ := h
    rw [hsplit, List.forall_mem_cons] at hproducts hconstants
    have hset : (Rhs.ofProducts [first]) = .pending (.singleton first) := rfl
    have hsingle : Rhs.ofAlternative first.atoms = .pending (ArrivalSet.singleton first) := by
      rw [ofAlternative_atoms hproducts.1, hfirst, ← hset]
      rfl
    rw [alternatives, hsplit, List.map_cons, ofAlternatives, hsingle]
    exact foldlM_join_atoms hsplit hproducts.2 hconstants.2 hsize

end Rhs

/-! ## Joining alternatives -/

namespace ReadableSum

variable {limit : Nat}

/-- A readable sum stays readable with another constant. -/
theorem insert_constant {products : ArrivalSet (Product D)} (h : ReadableSum limit products.toList)
    {value : D} (hlegible : IsLegible value) (hvalue : value ≠ Domain.top) :
    ReadableSum limit (products.insert (.constant value)).toList := by
  by_cases hmem : Product.constant value ∈ products
  · rwa [ArrivalSet.insert_of_mem hmem]
  · obtain ⟨hproducts, hconstants, first, rest, hsplit, hfirst, hsize⟩ := h
    rw [ArrivalSet.toList_insert_of_not_mem hmem]
    refine ⟨?_, ?_, first, rest ++ [.constant value], by rw [hsplit]; rfl, hfirst, ?_⟩
    · rw [List.forall_mem_append]
      refine ⟨hproducts, List.forall_mem_singleton.mpr ⟨hlegible, ?_, ?_⟩⟩ <;>
        exact fun _ hmem => nomatch hmem
    · rw [List.forall_mem_append]
      exact ⟨hconstants, List.forall_mem_singleton.mpr fun _ => hvalue⟩
    · rw [List.forall_mem_append, Product.occurrences_append]
      exact hsize.imp (fun h => ⟨h, List.forall_mem_singleton.mpr rfl⟩) id

/-- Two readable sums are readable together, within the limit. -/
theorem insertAll {products others : ArrivalSet (Product D)} (h : ReadableSum limit products.toList)
    (hothers : ReadableSum limit others.toList)
    (hsize : Product.occurrences (products.insertAll others.toList).toList ≤ limit) :
    ReadableSum limit (products.insertAll others.toList).toList := by
  have hmem : ∀ product ∈ (products.insertAll others.toList).toList,
      product ∈ products.toList ∨ product ∈ others.toList := fun product hproduct =>
    ArrivalSet.mem_insertAll.mp hproduct
  obtain ⟨first, rest, hsplit, hfirst, -⟩ := h.start
  obtain ⟨more, hmore⟩ : products.toList <+: (products.insertAll others.toList).toList :=
    ArrivalSet.toList_insertAll products others.toList ▸ List.prefix_append ..
  refine ⟨fun product hproduct => ?_, fun product hproduct => ?_, first, rest ++ more, ?_, hfirst,
    .inr hsize⟩
  · exact (hmem product hproduct).elim (h.products product) (hothers.products product)
  · exact (hmem product hproduct).elim (h.constants product) (hothers.constants product)
  · rw [← hmore, hsplit, List.cons_append]

end ReadableSum

namespace Rhs

variable [LegibleDomain D] {limit : Nat}

/-- The join of readable right hand sides is readable. -/
theorem IsReadable.join {r s t : Rhs D} (hr : r.IsReadable limit) (hs : s.IsReadable limit)
    (h : r.join limit s = .ok t) : t.IsReadable limit := by
  unfold Rhs.join at h
  split at h
  next => cases h; exact hr
  next hrtop =>
    split at h
    next => cases h; exact hs
    next hstop =>
      split at h
      next a b => cases h; exact LegibleDomain.join hr hs
      next a products =>
        cases h
        exact hs.insert_constant hr fun heq => hrtop (congrArg Rhs.final heq)
      next products a =>
        cases h
        exact hr.insert_constant hs fun heq => hstop (congrArg Rhs.final heq)
      next products others =>
        unfold pendingWithin at h
        simp only at h
        split at h
        next => cases h
        next hfits =>
          cases h
          exact hr.insertAll hs (Nat.le_of_not_lt hfits)

omit [DecidableEq D] in
/-- The meet of legible values is legible. -/
theorem isLegible_meetAll {values : List D} (h : ∀ value ∈ values, IsLegible value) :
    IsLegible (Domain.meetAll values) := by
  have hfold (values : List D) (h : ∀ value ∈ values, IsLegible value) (start : D)
      (hstart : IsLegible start) : IsLegible (values.foldl Domain.meet start) := by
    induction values generalizing start with
    | nil => exact hstart
    | cons value values ih =>
      rw [List.forall_mem_cons] at h
      exact ih h.2 _ (LegibleDomain.meet hstart h.1)
  exact hfold values h _ LegibleDomain.top

/-- An alternative with valid names is readable. -/
theorem isReadable_ofAlternative {atoms : List Key}
    (hnames : ∀ atom ∈ atoms, IsName atom.base.toList) :
    (Rhs.ofAlternative atoms : Rhs D).IsReadable limit := by
  have hvalue : IsLegible (Domain.meetAll (atoms.filterMap Key.constant?) : D) := by
    refine isLegible_meetAll fun value hvalue => ?_
    obtain ⟨atom, hatom, hconstant⟩ := List.mem_filterMap.mp hvalue
    unfold Key.constant? at hconstant
    split at hconstant
    next => exact LegibleDomain.of_read (hnames atom hatom) hconstant
    next => cases hconstant
  simp only [ofAlternative]
  split
  next => exact hvalue
  next hkeys =>
    -- The keys of the product are the atoms that are no values, and there is one.
    have hmem (key : Key) : key ∈ KeySet.ofList (atoms.filter fun atom => (atom.constant? : Option D).isNone) ↔
        key ∈ atoms ∧ (key.constant? : Option D) = none := by
      rw [Ascending.mem_ofList, List.mem_filter, Option.isNone_iff_eq_none]
    have hnonempty : (KeySet.ofList (atoms.filter fun atom =>
        (atom.constant? : Option D).isNone)).isEmpty = false := by
      obtain ⟨key, hkey⟩ : ∃ key, key ∈ atoms ∧ (key.constant? : Option D) = none := by
        simpa using hkeys
      exact List.isEmpty_eq_false_iff.mpr (List.ne_nil_of_mem ((hmem key).mpr hkey))
    refine ⟨List.forall_mem_singleton.mpr ⟨hvalue, fun key hkey => ?_, fun key hkey => ?_⟩,
      List.forall_mem_singleton.mpr fun hempty => ?_, _, [], rfl, hnonempty, .inl fun _ h => nomatch h⟩
    · exact hnames key ((hmem key).mp hkey).1
    · exact ((hmem key).mp hkey).2
    · exact absurd hempty (by rw [Product.ofKeys, hnonempty]; exact Bool.false_ne_true)

/-- What complete alternatives with valid names are read as is readable. -/
theorem isReadable_of_ofAlternatives {alternatives : List (List Key)} (hne : alternatives ≠ [])
    (hnames : ∀ atoms ∈ alternatives, ∀ atom ∈ atoms, IsName atom.base.toList) {rhs : Rhs D}
    (h : Rhs.ofAlternatives limit alternatives = .ok rhs) : rhs.IsReadable limit := by
  obtain ⟨first, others, rfl⟩ := List.exists_cons_of_ne_nil hne
  rw [List.forall_mem_cons] at hnames
  have hfold (others : List (List Key)) (hothers : ∀ atoms ∈ others, ∀ atom ∈ atoms, IsName atom.base.toList)
      (start : Rhs D) (hstart : start.IsReadable limit)
      (h : others.foldlM (fun rhs atoms => Rhs.join limit rhs (.ofAlternative atoms)) start = .ok rhs) :
      rhs.IsReadable limit := by
    induction others generalizing start with
    | nil => cases h; exact hstart
    | cons atoms others ih =>
      rw [List.forall_mem_cons] at hothers
      rw [List.foldlM_cons] at h
      match hjoin : start.join limit (.ofAlternative atoms) with
      | .error excess => rw [hjoin] at h; cases h
      | .ok next =>
        rw [hjoin] at h
        exact ih hothers.2 next (hstart.join (isReadable_ofAlternative hothers.1) hjoin) h
  exact hfold others hnames.2 _ (isReadable_ofAlternative hnames.1) h

end Rhs

end MonotoneEquations
