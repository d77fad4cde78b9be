import Mathlib.Data.List.Perm.Basic
import MonotoneEquations.Proofs.FiniteMap
import MonotoneEquations.Proofs.Handles
import MonotoneEquations.Proofs.Knowledge
import MonotoneEquations.Sum

/-!
# Sums by key and sums by handle

A product over keys is encoded by the ascending list of the handles of its keys. Substituting and
normalizing commute with the encoding, as long as every key involved has a handle, and so does putting
in the values of several keys at once. So a component says the same as the product that it encodes,
whichever handles the keys got.
-/

namespace MonotoneEquations

variable {D : Type}

namespace Product

/-- The component of a product, once its keys have handles. -/
def encode (keys : ArrivalSet Key) (product : Product D) : Component D :=
  ⟨product.value, (product.ids.toList.map keys.indexOf).mergeSort⟩

/-- The keys of a product have handles. -/
def Within (keys : ArrivalSet Key) (product : Product D) : Prop := ∀ key ∈ product.ids.toList, key ∈ keys

variable {keys : ArrivalSet Key} {product : Product D}

/-- A component mentions the handles of the keys of its product. -/
theorem mem_ids_encode {handle : Nat} :
    handle ∈ (product.encode keys).ids ↔ ∃ key ∈ product.ids, keys.indexOf key = handle := by
  rw [encode, List.mem_mergeSort, List.mem_map]
  rfl

/-- The handle of a key is mentioned by the component exactly if the product mentions the key. -/
theorem Within.indexOf_mem_ids_encode (h : product.Within keys) {key : Key} :
    keys.indexOf key ∈ (product.encode keys).ids ↔ key ∈ product.ids := by
  rw [mem_ids_encode]
  constructor
  · intro hmem
    obtain ⟨r, hr, heq⟩ := hmem
    rwa [← (ArrivalSet.indexOf_inj (h r hr)).mp heq]
  · exact fun hkey => ⟨key, hkey, rfl⟩

/-- The handles of a component ascend. -/
theorem Within.pairwise_ids_encode (h : product.Within keys) :
    (product.encode keys).ids.Pairwise (· < ·) :=
  pairwise_lt_mergeSort
    (product.ids.nodup.map_on fun r hr _ _ heq => (ArrivalSet.indexOf_inj (h r hr)).mp heq)

/-- Keys that arrive later do not change a component. -/
theorem Within.encode_insertAll (h : product.Within keys) (more : List Key) :
    product.encode (keys.insertAll more) = product.encode keys := by
  rw [encode, encode, List.map_congr_left fun r hr => ArrivalSet.indexOf_insertAll (h r hr) more]

/-- A product whose keys have handles keeps them when a key is removed. -/
theorem Within.substitute [Domain D] (h : product.Within keys) (key : Key) (value : D) :
    (product.substitute key value).Within keys := by
  rw [Product.substitute]
  split
  · exact fun r hr => h r (Ascending.mem_erase.mp hr).1
  · exact h

/-- Substituting for a handle is substituting for its key. -/
theorem Within.substitute_encode [Domain D] (h : product.Within keys) (key : Key) (value : D) :
    (product.encode keys).substitute (keys.indexOf key) value =
      (product.substitute key value).encode keys := by
  have hrest := h.substitute key value
  rw [Component.substitute_eq h.pairwise_ids_encode]
  unfold Product.substitute at hrest ⊢
  by_cases hkey : key ∈ product.ids
  · rw [if_pos hkey] at hrest ⊢
    rw [if_pos (h.indexOf_mem_ids_encode.mpr hkey)]
    have hnodup : (product.encode keys).ids.Nodup := h.pairwise_ids_encode.imp Nat.ne_of_lt
    have hids : (product.encode keys).ids.erase (keys.indexOf key) =
        (Product.encode keys ⟨Domain.meet product.value value, product.ids.erase key⟩).ids := by
      refine eq_of_ascending_of_mem_iff (h.pairwise_ids_encode.erase _) hrest.pairwise_ids_encode
        fun handle => ?_
      rw [hnodup.mem_erase_iff, mem_ids_encode, mem_ids_encode]
      constructor
      · intro hmem
        obtain ⟨hne, r, hr, rfl⟩ := hmem
        exact ⟨r, Ascending.mem_erase.mpr ⟨hr, fun heq => hne (heq ▸ rfl)⟩, rfl⟩
      · intro hmem
        obtain ⟨r, hr, rfl⟩ := hmem
        obtain ⟨hr, hne⟩ := Ascending.mem_erase.mp hr
        exact ⟨fun heq => hne ((ArrivalSet.indexOf_inj (h r hr)).mp heq), r, hr, rfl⟩
    exact congrArg (Component.mk _) hids
  · rw [if_neg hkey, if_neg (h.indexOf_mem_ids_encode.not.mpr hkey)]

/-- A component is known exactly if its product is. -/
theorem isKnown_encode [Domain D] [DecidableEq D] (product : Product D)
    (keys : ArrivalSet Key) : (product.encode keys).isKnown = product.isKnown := by
  have hempty : (product.encode keys).ids.isEmpty = product.ids.isEmpty := by
    rw [Bool.eq_iff_iff, Ascending.isEmpty, List.isEmpty_iff_length_eq_zero,
      List.isEmpty_iff_length_eq_zero, encode, List.length_mergeSort, List.length_map]
  rw [Component.isKnown, hempty]
  rfl

end Product

namespace Status

variable [Domain D] [DecidableEq D]

/-- The term of a status, once its keys have handles. -/
def encode (keys : ArrivalSet Key) : Status D → Term D
  | .waiting sum => .pending (sum.map (Product.encode keys))
  | .resolved value => .final value

/-- Normalizing a sum over handles is normalizing the sum over keys. -/
theorem normalize_encode (keys : ArrivalSet Key) (sum : List (Product D)) :
    Term.normalize (sum.map (Product.encode keys)) = (normalize sum).encode keys := by
  have hsame : Component.isKnown ∘ Product.encode keys = Product.isKnown (D := D) :=
    funext fun product => product.isKnown_encode keys
  have hknown : Domain.joinAll (((sum.map (Product.encode keys)).filter Component.isKnown).map
      Component.value) = knownPart sum := by
    rw [List.filter_map, List.map_map, hsame]
    rfl
  have hopen : (sum.map (Product.encode keys)).filter (fun component => !component.isKnown) =
      (openPart sum).map (Product.encode keys) := by
    rw [List.filter_map, openPart]
    simp only [Function.comp_def, Product.isKnown_encode]
  have hcarry (value : D) : (⟨value, []⟩ : Component D) = (Product.constant value).encode keys := by
    rw [Product.encode]
    exact congrArg (Component.mk value) List.mergeSort_nil.symm
  simp only [Term.normalize, hknown, hopen, normalize, List.isEmpty_map, hcarry]
  by_cases hdone : (openPart sum).isEmpty || decide (knownPart sum = Domain.top)
  · rw [if_pos hdone, if_pos hdone, encode]
  · rw [if_neg hdone, if_neg hdone]
    by_cases hbottom : knownPart sum = Domain.bottom
    · rw [if_pos hbottom, if_pos hbottom, encode]
    · rw [if_neg hbottom, if_neg hbottom, encode, List.map_append, List.map_singleton]

/-- Substituting for a handle throughout a sum is substituting for its key. -/
theorem substitute_encode {keys : ArrivalSet Key} {sum : List (Product D)}
    (h : ∀ product ∈ sum, product.Within keys) (key : Key) (value : D) :
    Term.substitute (keys.indexOf key) value (sum.map (Product.encode keys)) =
      (substitute key value sum).encode keys := by
  rw [Term.substitute, substitute, ← normalize_encode, List.map_map, List.map_map]
  exact congrArg _ (List.map_congr_left fun product hproduct =>
    (h product hproduct).substitute_encode key value)

end Status

/-! ## Putting in several values -/

/-- Put the known values of handles into a component. -/
def Component.reduce [Domain D] (known : Nat → Option D) (component : Component D) : Component D :=
  ⟨(component.ids.filterMap known).foldl Domain.meet component.value,
    component.ids.filter fun id => (known id).isNone⟩

/-- Putting the values of handles into a component is putting the values of their keys into its
product. -/
theorem Product.Within.reduce_encode [Domain D] [EquationalDomain D] {keys : ArrivalSet Key}
    {product : Product D} (h : product.Within keys) {known : Knowledge D} {places : Nat → Option D}
    (hplaces : ∀ r ∈ keys, places (keys.indexOf r) = known r) :
    (product.encode keys).reduce places = (product.reduce known).encode keys := by
  have hvalue : ((product.encode keys).ids.filterMap places).foldl Domain.meet product.value =
      product.knownMeet known := by
    have hperm : ((product.encode keys).ids.filterMap places).Perm
        ((product.ids.toList.map keys.indexOf).filterMap places) := (List.mergeSort_perm _ _).filterMap _
    have hnames : (product.ids.toList.map keys.indexOf).filterMap places =
        product.ids.toList.filterMap known := by
      rw [List.filterMap_map]
      exact List.filterMap_congr fun r hr => hplaces r (h r hr)
    rw [hperm.foldl_eq, hnames]
    rfl
  have hrest : (product.reduce known).Within keys := fun r hr => h r (List.mem_filter.mp hr).1
  have hids : ((product.encode keys).ids.filter fun id => (places id).isNone) =
      ((product.reduce known).encode keys).ids := by
    refine eq_of_ascending_of_mem_iff (h.pairwise_ids_encode.filter _) hrest.pairwise_ids_encode
      fun handle => ?_
    rw [List.mem_filter, mem_ids_encode, mem_ids_encode]
    constructor
    · intro hmem
      obtain ⟨⟨r, hr, rfl⟩, hnone⟩ := hmem
      rw [hplaces r (h r hr)] at hnone
      exact ⟨r, List.mem_filter.mpr ⟨hr, hnone⟩, rfl⟩
    · intro hmem
      obtain ⟨r, hr, rfl⟩ := hmem
      obtain ⟨hr, hnone⟩ := List.mem_filter.mp hr
      exact ⟨⟨r, hr, rfl⟩, by rwa [hplaces r (h r hr)]⟩
  exact congrArg₂ Component.mk hvalue hids

end MonotoneEquations
