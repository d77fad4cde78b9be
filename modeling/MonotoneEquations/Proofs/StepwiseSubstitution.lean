import Mathlib
import MonotoneEquations.Domain.Contract
import MonotoneEquations.Proofs.ComponentEncoding
import MonotoneEquations.Proofs.Normalization

/-!
# Substituting step by step and all at once

Values can be put into a sum one after the other, with a normalization after each of them and an end as
soon as the sum is settled, or all at once with one normalization. Both lead to the same: the same value,
or the same open summands in the same order with the same constant. What normalizing gives up on the way
is settled for good: a known summand keeps its value, a folded constant is joined again later, and top
stays top.

For sums over keys this is what normalization is known to keep. A sum over handles is the encoding of a
sum over keys, once every handle stands for a key, and substituting and normalizing commute with the
encoding.
-/

namespace MonotoneEquations

variable {D : Type}

/-! ## Sums over keys -/

/-- What the first of some pairs says about its key comes before what the others say. -/
theorem Knowledge.single_orElse_lookup (key : Key) (value : D) (pairs : List (Key × D)) :
    ((single key value).orElse fun r => pairs.lookup r) = fun r => ((key, value) :: pairs).lookup r := by
  funext r
  by_cases hr : r = key
  · simp [orElse, single, hr]
  · have hne : (r == key) = false := beq_false_of_ne hr
    simp [orElse, single, hr, List.lookup_cons, hne]

namespace Status

variable [Domain D] [DecidableEq D]

/-- Substitute values one after the other, until the status is resolved. -/
def substituteAll : Status D → List (Key × D) → Status D
  | .resolved value, _ => .resolved value
  | .waiting sum, [] => .waiting sum
  | .waiting sum, (key, value) :: rest => (substitute key value sum).substituteAll rest

/-- Substituting step by step into a normal form is reducing all products at once. -/
theorem substituteAll_normalize [EquationalDomain D] (sum : List (Product D)) (pairs : List (Key × D)) :
    (normalize sum).substituteAll pairs =
      normalize (sum.map (Product.reduce fun r => pairs.lookup r)) := by
  induction pairs generalizing sum with
  | nil =>
    have hnothing : sum.map (Product.reduce fun r => ([] : List (Key × D)).lookup r) = sum :=
      Product.map_reduce_nothing sum
    rw [hnothing]
    cases normalize sum <;> rfl
  | cons pair pairs ih =>
    obtain ⟨key, value⟩ := pair
    cases hsum : normalize sum with
    | resolved result =>
      rw [normalize_map_reduce_of_resolved _ hsum, substituteAll]
    | waiting rest =>
      have hsubst : Product.substitute key value = Product.reduce (D := D) (.single key value) :=
        funext fun product => product.substitute_eq_reduce key value
      rw [substituteAll, substitute, hsubst, normalize_map_reduce_of_waiting _ hsum, ih,
        Product.map_reduce_map_reduce, Knowledge.single_orElse_lookup]

end Status

/-! ## Sums over handles -/

namespace Component

variable [Domain D]

/-- Whether the handles of a component ascend. -/
def Ascends (component : Component D) : Prop := component.ids.Pairwise (· < ·)

instance (component : Component D) : Decidable component.Ascends :=
  inferInstanceAs (Decidable (List.Pairwise _ _))

end Component

namespace Term

variable [Domain D] [DecidableEq D]

/-- Substitute values one after the other, until the term is settled. -/
def substituteAll : Term D → List (Nat × D) → Term D
  | .final value, _ => .final value
  | .pending sum, [] => .pending sum
  | .pending sum, (id, value) :: rest => (substitute id value sum).substituteAll rest

/-- Substituting some values and then others is substituting them in a row. -/
theorem substituteAll_append (term : Term D) (done later : List (Nat × D)) :
    term.substituteAll (done ++ later) = (term.substituteAll done).substituteAll later := by
  induction done generalizing term with
  | nil => cases term <;> rfl
  | cons pair done ih =>
    cases term with
    | final value => cases later <;> rfl
    | pending sum => exact ih _

end Term

/-! ## Keys for handles -/

/-- A key for each handle. -/
def Key.ofHandle (handle : Nat) : Key := ⟨String.ofList (List.replicate handle 'k'), true, false⟩

/-- Different handles get different keys. -/
theorem Key.ofHandle_injective : Function.Injective Key.ofHandle := by
  intro handle other h
  have hbase : (Key.ofHandle handle).base.toList = (Key.ofHandle other).base.toList := by rw [h]
  simpa [Key.ofHandle] using congrArg List.length hbase

/-- The keys of the handles below a bound, in the order of their handles. -/
def handleKeys (bound : Nat) : ArrivalSet Key :=
  ⟨(List.range bound).map Key.ofHandle, List.nodup_range.map Key.ofHandle_injective⟩

section HandleKeys

variable {bound handle : Nat}

/-- The key of a handle below the bound is interned. -/
theorem ofHandle_mem_handleKeys (h : handle < bound) : Key.ofHandle handle ∈ handleKeys bound :=
  List.mem_map_of_mem (List.mem_range.mpr h)

/-- The handle of a key of a handle is that handle. -/
theorem indexOf_handleKeys (h : handle < bound) :
    (handleKeys bound).indexOf (Key.ofHandle handle) = handle := by
  apply ArrivalSet.indexOf_eq_of_getElem?
  rw [handleKeys, List.getElem?_map, List.getElem?_range h]
  rfl

end HandleKeys

namespace Component

variable [Domain D] {bound : Nat} {component : Component D}

/-- The product over keys of handles that says the same as a component. -/
def decode (component : Component D) : Product D :=
  .ofKeys component.value (component.ids.map Key.ofHandle)

omit [Domain D] in
/-- The product of a component mentions the keys of its handles. -/
theorem mem_ids_decode {key : Key} : key ∈ component.decode.ids ↔
    ∃ id ∈ component.ids, Key.ofHandle id = key := by
  rw [decode, Product.ofKeys, KeySet.ofList, Ascending.mem_ofList, List.mem_map]

omit [Domain D] in
/-- The keys of the handles below a bound are interned. -/
theorem within_decode (hbound : ∀ id ∈ component.ids, id < bound) :
    component.decode.Within (handleKeys bound) := by
  intro key hkey
  obtain ⟨id, hid, rfl⟩ := mem_ids_decode.mp hkey
  exact ofHandle_mem_handleKeys (hbound id hid)

omit [Domain D] in
/-- A component with ascending handles is encoded from its product. -/
theorem encode_decode (hascends : component.Ascends) (hbound : ∀ id ∈ component.ids, id < bound) :
    component.decode.encode (handleKeys bound) = component := by
  have hids : (component.decode.encode (handleKeys bound)).ids = component.ids := by
    refine eq_of_ascending_of_mem_iff (within_decode hbound).pairwise_ids_encode hascends fun handle => ?_
    rw [Product.mem_ids_encode]
    constructor
    · rintro ⟨key, hkey, rfl⟩
      obtain ⟨id, hid, rfl⟩ := mem_ids_decode.mp hkey
      rwa [indexOf_handleKeys (hbound id hid)]
    · intro hmem
      exact ⟨_, mem_ids_decode.mpr ⟨handle, hmem, rfl⟩, indexOf_handleKeys (hbound handle hmem)⟩
  obtain ⟨value, ids⟩ := component
  exact congrArg (Component.mk value) hids

end Component

/-! ## Encoding substitutions -/

/-- Values for handles as values for their keys. -/
def keyPairs (pairs : List (Nat × D)) : List (Key × D) :=
  pairs.map fun pair => (Key.ofHandle pair.1, pair.2)

/-- The key of a handle has the value of the handle. -/
theorem lookup_keyPairs (pairs : List (Nat × D)) (id : Nat) :
    (keyPairs pairs).lookup (Key.ofHandle id) = pairs.lookup id := by
  induction pairs with
  | nil => rfl
  | cons pair pairs ih =>
    have hkey : (Key.ofHandle id == Key.ofHandle pair.1) = (id == pair.1) := by
      rw [Bool.eq_iff_iff, beq_iff_eq, beq_iff_eq, Key.ofHandle_injective.eq_iff]
    rw [keyPairs, List.map_cons, List.lookup_cons, List.lookup_cons, hkey, ← ih]
    rfl

/-- The handle of a key has the value of the key. -/
theorem lookup_indexOf_handleKeys (pairs : List (Nat × D)) {bound : Nat} {key : Key}
    (hkey : key ∈ handleKeys bound) :
    pairs.lookup ((handleKeys bound).indexOf key) = (keyPairs pairs).lookup key := by
  obtain ⟨id, hid, rfl⟩ := List.mem_map.mp hkey
  rw [indexOf_handleKeys (List.mem_range.mp hid), lookup_keyPairs]

section Encoded

variable [Domain D] [DecidableEq D] {bound : Nat}

/-- Substituting for handles step by step is substituting for their keys. -/
theorem Status.substituteAll_encode {status : Status D}
    (hwithin : ∀ key ∈ status.mentions, key ∈ handleKeys bound) {pairs : List (Nat × D)}
    (hpairs : ∀ pair ∈ pairs, pair.1 < bound) :
    (status.encode (handleKeys bound)).substituteAll pairs =
      (status.substituteAll (keyPairs pairs)).encode (handleKeys bound) := by
  induction pairs generalizing status with
  | nil => cases status <;> rfl
  | cons pair pairs ih =>
    cases status with
    | resolved value => rfl
    | waiting sum =>
      obtain ⟨id, value⟩ := pair
      rw [List.forall_mem_cons] at hpairs
      have hsum : ∀ product ∈ sum, product.Within (handleKeys bound) := fun product hproduct key hkey =>
        hwithin key (List.mem_flatMap.mpr ⟨product, hproduct, hkey⟩)
      have hstep : Term.substitute id value (sum.map (Product.encode (handleKeys bound))) =
          (substitute (Key.ofHandle id) value sum).encode (handleKeys bound) := by
        rw [← Status.substitute_encode hsum, indexOf_handleKeys hpairs.1]
      rw [encode, Term.substituteAll, hstep, keyPairs, List.map_cons, substituteAll]
      exact ih (fun key hkey => hwithin key (mem_of_mem_mentions_substitute hkey)) hpairs.2

end Encoded

/-! ## Step by step and all at once -/

namespace Term

variable [Domain D] [DecidableEq D]

omit [Domain D] [DecidableEq D] in
/-- The handles of a sum and of some pairs are below a bound. -/
theorem exists_bound (sum : List (Component D)) (pairs : List (Nat × D)) :
    ∃ bound, (∀ component ∈ sum, ∀ id ∈ component.ids, id < bound) ∧ ∀ pair ∈ pairs, pair.1 < bound := by
  obtain ⟨bound, hbound⟩ :=
    (sum.flatMap Component.ids ++ pairs.map Prod.fst).toFinset.exists_nat_subset_range
  have hbelow {id : Nat} (hid : id ∈ sum.flatMap Component.ids ++ pairs.map Prod.fst) : id < bound :=
    Finset.mem_range.mp (hbound (List.mem_toFinset.mpr hid))
  refine ⟨bound, fun component hcomponent id hid => hbelow ?_, fun pair hpair => hbelow ?_⟩
  · exact List.mem_append_left _ (List.mem_flatMap.mpr ⟨component, hcomponent, hid⟩)
  · exact List.mem_append_right _ (List.mem_map_of_mem hpair)

variable {sum : List (Component D)}

omit [Domain D] [DecidableEq D] in
/-- A sum with ascending handles is encoded from the sum of its products. -/
theorem map_encode_map_decode {bound : Nat} (hsum : ∀ component ∈ sum, component.Ascends)
    (hbound : ∀ component ∈ sum, ∀ id ∈ component.ids, id < bound) :
    (sum.map Component.decode).map (Product.encode (handleKeys bound)) = sum := by
  rw [List.map_map]
  exact (List.map_congr_left fun component hcomponent =>
    Component.encode_decode (hsum component hcomponent) (hbound component hcomponent)).trans
      (List.map_id _)

/-- Substituting step by step into a normal form is putting all values in at once. -/
theorem substituteAll_normalize [EquationalDomain D] (hsum : ∀ component ∈ sum, component.Ascends)
    (pairs : List (Nat × D)) :
    (normalize sum).substituteAll pairs =
      normalize (sum.map (Component.reduce fun id => pairs.lookup id)) := by
  obtain ⟨bound, hbound, hpairs⟩ := exists_bound sum pairs
  have hdecode := map_encode_map_decode hsum hbound
  have hwithin : ∀ key ∈ (Status.normalize (sum.map Component.decode)).mentions,
      key ∈ handleKeys bound := by
    intro key hkey
    obtain ⟨_, hproduct, hkey⟩ := List.mem_flatMap.mp (Status.mem_of_mem_mentions_normalize hkey)
    obtain ⟨component, hcomponent, rfl⟩ := List.mem_map.mp hproduct
    exact Component.within_decode (hbound component hcomponent) key hkey
  have hreduce : ((sum.map Component.decode).map
      (Product.reduce fun key => (keyPairs pairs).lookup key)).map (Product.encode (handleKeys bound)) =
        sum.map (Component.reduce fun id => pairs.lookup id) := by
    rw [List.map_map, List.map_map]
    refine List.map_congr_left fun component hcomponent => ?_
    have hids := hbound component hcomponent
    have hencode : (component.decode.encode (handleKeys bound)).reduce (fun id => pairs.lookup id) = _ :=
      (Component.within_decode hids).reduce_encode fun key => lookup_indexOf_handleKeys pairs
    rw [Component.encode_decode (hsum component hcomponent) hids] at hencode
    exact hencode.symm
  calc (normalize sum).substituteAll pairs
      = ((Status.normalize (sum.map Component.decode)).encode (handleKeys bound)).substituteAll pairs := by
        rw [← Status.normalize_encode, hdecode]
    _ = (Status.normalize ((sum.map Component.decode).map
          (Product.reduce fun key => (keyPairs pairs).lookup key))).encode (handleKeys bound) := by
        rw [Status.substituteAll_encode hwithin hpairs, Status.substituteAll_normalize]
    _ = normalize (sum.map (Component.reduce fun id => pairs.lookup id)) := by
        rw [← Status.normalize_encode, hreduce]

/-- A normal form is its own normal form. -/
theorem normalize_of_pending [EquationalDomain D] (hsum : ∀ component ∈ sum, component.Ascends)
    {rest : List (Component D)} (h : normalize sum = .pending rest) : normalize rest = .pending rest := by
  obtain ⟨bound, hbound, -⟩ := exists_bound sum []
  rw [← map_encode_map_decode hsum hbound, Status.normalize_encode] at h
  cases hstatus : Status.normalize (sum.map Component.decode) with
  | resolved value =>
    rw [hstatus] at h
    cases h
  | waiting products =>
    rw [hstatus] at h
    cases h
    rw [Status.normalize_encode, Status.normalize_of_waiting hstatus, Status.encode]

omit [Domain D] [DecidableEq D] in
/-- Pairs for different handles assign the same values in any order. -/
theorem lookup_eq_of_perm {pairs order : List (Nat × D)} (hpairs : (pairs.map Prod.fst).Nodup)
    (horder : order.Perm pairs) : (fun id => order.lookup id) = fun id => pairs.lookup id := by
  funext id
  apply Option.ext
  intro value
  rw [lookup_eq_some_iff_mem ((horder.map Prod.fst).nodup_iff.mpr hpairs), lookup_eq_some_iff_mem hpairs,
    horder.mem_iff]

/-- Normalizing a sum and then substituting for different handles step by step, in any order and only
until the sum is settled, leads to the same as putting all values in at once and normalizing once. So a
value that is reached early is the value in the end, and a normal form is its own normal form. -/
theorem substituteAll_eq_of_perm [EquationalDomain D] (hsum : ∀ component ∈ sum, component.Ascends)
    {pairs : List (Nat × D)} (hpairs : (pairs.map Prod.fst).Nodup) :
    (∀ order, order.Perm pairs → (normalize sum).substituteAll order =
      normalize (sum.map (Component.reduce fun id => pairs.lookup id))) ∧
    (∀ done later value, (done ++ later).Perm pairs →
      (normalize sum).substituteAll done = .final value →
        normalize (sum.map (Component.reduce fun id => pairs.lookup id)) = .final value) ∧
    ∀ rest, normalize sum = .pending rest → normalize rest = .pending rest := by
  have hall (order : List (Nat × D)) (horder : order.Perm pairs) : (normalize sum).substituteAll order =
      normalize (sum.map (Component.reduce fun id => pairs.lookup id)) := by
    rw [substituteAll_normalize hsum, lookup_eq_of_perm hpairs horder]
  refine ⟨hall, fun done later value horder hdone => ?_, fun _ => normalize_of_pending hsum⟩
  rw [← hall _ horder, substituteAll_append, hdone]
  cases later <;> rfl

/-- A sum over contracts with a summand that is known from the start. -/
def earlySum : List (Component (Flat Contract)) :=
  [⟨.elem .notNull, [0, 2]⟩, ⟨.top, [1]⟩, ⟨.bottom, [0, 3]⟩, ⟨.elem .pure, [3]⟩]

/-- Values for all handles of the sum, of which the last one is not needed. -/
def earlyPairs : List (Nat × Flat Contract) :=
  [(2, .elem .notNull), (1, .elem .null), (0, .top), (3, .bottom)]

/-- The sum is open at first. Two different contracts make it top before the last value is put in, and
the values lead to top in the opposite order and all at once as well. -/
theorem substituteAll_eq_of_perm_early :
    (∀ component ∈ earlySum, component.Ascends) ∧ (earlyPairs.map Prod.fst).Nodup ∧
      normalize earlySum = .pending [⟨.elem .notNull, [0, 2]⟩, ⟨.top, [1]⟩, ⟨.elem .pure, [3]⟩] ∧
      (normalize earlySum).substituteAll (earlyPairs.take 3) = .final .top ∧
      (normalize earlySum).substituteAll earlyPairs.reverse = .final .top ∧
      normalize (earlySum.map (Component.reduce fun id => earlyPairs.lookup id)) = .final .top := by
  have hsum : ∀ component ∈ earlySum, component.Ascends := by decide
  have hpairs : (earlyPairs.map Prod.fst).Nodup := by decide
  have hearly : (normalize earlySum).substituteAll (earlyPairs.take 3) = .final .top := by cbv
  obtain ⟨hall, hdone, -⟩ := substituteAll_eq_of_perm hsum hpairs
  have hbatch := hdone (earlyPairs.take 3) [(3, .bottom)] .top (.refl _) hearly
  exact ⟨hsum, hpairs, rfl, hearly, (hall _ (List.reverse_perm _)).trans hbatch, hbatch⟩

end Term

end MonotoneEquations
