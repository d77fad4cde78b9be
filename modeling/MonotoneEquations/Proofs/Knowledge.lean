import MonotoneEquations.Proofs.FiniteMap
import MonotoneEquations.Proofs.Lattice
import MonotoneEquations.Rhs

/-!
# Partial knowledge of references

While a system is being solved, some references are known to read as a value and the others are
not known at all. Knowledge only grows, and what is known first about a reference stays: a later
word about it is ignored.

A product reads its known references as factors of its constant and keeps the unknown ones. Reading
in several steps is the same as reading everything at once, because the order of meets does not
matter. An equation has a consequence as soon as every product is settled, or as soon as the settled
ones join to top.
-/

namespace MonotoneEquations

variable {D : Type}

/-- The value that each known reference reads as. -/
abbrev Knowledge (D : Type) : Type := Key → Option D

namespace Knowledge

/-- Nothing is known. -/
def nothing : Knowledge D := fun _ => none

/-- Only one reference is known. -/
def single (key : Key) (value : D) : Knowledge D := fun r => if r = key then some value else none

/-- What is known from the first source, and otherwise from the second. -/
def orElse (known other : Knowledge D) : Knowledge D := fun r => (known r).or (other r)

/-- Learn what a reference reads as, unless that is known. -/
def put (known : Knowledge D) (key : Key) (value : D) : Knowledge D := known.orElse (single key value)

/-- Everything known on the left is known, and the same, on the right. -/
def Le (known later : Knowledge D) : Prop := ∀ r v, known r = some v → later r = some v

/-- Knowledge of one key finds it among different keys at most once. -/
theorem filterMap_single (key : Key) (value : D) {keys : List Key} (hnodup : keys.Nodup) :
    keys.filterMap (single key value) = if key ∈ keys then [value] else [] := by
  induction keys with
  | nil => rfl
  | cons r keys ih =>
    rw [List.nodup_cons] at hnodup
    by_cases hr : r = key
    · subst r
      rw [List.filterMap_cons_some (b := value) (by simp [single]), ih hnodup.2]
      simp [hnodup.1]
    · rw [List.filterMap_cons_none (by simp [single, hr]), ih hnodup.2]
      simp [Ne.symm hr]

/-- Larger knowledge has the last word. -/
theorem orElse_eq_of_le {known later : Knowledge D} (h : known.Le later) :
    known.orElse later = later := by
  funext r
  cases hr : known r with
  | none => simp [orElse, hr]
  | some v => simp [orElse, hr, h r v hr]

/-- Learning about two different references can be done in either order. -/
theorem put_put_comm (known : Knowledge D) {key other : Key} (h : key ≠ other) (v w : D) :
    (known.put key v).put other w = (known.put other w).put key v := by
  funext r
  by_cases hk : r = key
  · subst r
    simp [put, orElse, single, h]
  · simp [put, orElse, single, hk]

variable [Domain D]

/-- Learn the value of a resolved key, which its negation reads and which the key reads if stable. -/
def learn (known : Knowledge D) (key : Key) (value : D) : Knowledge D :=
  (known.put key (if key.stable then value else Domain.top)).put key.negate value

/-- Only the key and its negation are learned about, and only as far as they are unknown. -/
theorem learn_apply (known : Knowledge D) (key : Key) (value : D) (r : Key) :
    known.learn key value r = (known r).or (if r = key then
      some (if key.stable then value else Domain.top) else if r = key.negate then some value else none) := by
  have hne : key ≠ key.negate := key.negate_ne.symm
  cases hr : known r with
  | some v => simp [learn, put, orElse, hr]
  | none =>
    by_cases hkey : r = key
    · subst r
      simp [learn, put, orElse, single, hr, hne]
    · simp [learn, put, orElse, single, hr, hkey]

/-- Learning about a key reads what is known first, and the key after that. -/
theorem learn_eq_orElse (known : Knowledge D) (key : Key) (value : D) :
    known.learn key value = known.orElse (nothing.learn key value) := by
  funext r
  rw [orElse, learn_apply, learn_apply, nothing, Option.none_or]

/-- What follows from resolved keys, the last one first. -/
def ofResolved : List (Key × D) → Knowledge D
  | [] => nothing
  | (key, value) :: earlier => (ofResolved earlier).learn key value

end Knowledge

/-- The members of a collection that pass a test. -/
def Ascending.filter {α : Type} {cmp : α → α → Ordering} (s : Ascending cmp) (p : α → Bool) :
    Ascending cmp := ⟨s.toList.filter p, s.ascending.filter p⟩

/-- The members that pass a test are listed as before. -/
@[simp] theorem Ascending.toList_filter {α : Type} {cmp : α → α → Ordering} (s : Ascending cmp)
    (p : α → Bool) : (s.filter p).toList = s.toList.filter p := rfl

namespace Product

variable [Domain D]

/-- The meet of the constant of a product and its known references. -/
def knownMeet (known : Knowledge D) (product : Product D) : D :=
  (product.ids.toList.filterMap known).foldl Domain.meet product.value

/-- Put everything known into a product. -/
def reduce (known : Knowledge D) (product : Product D) : Product D :=
  ⟨product.knownMeet known, product.ids.filter fun r => (known r).isNone⟩

/-- A product is settled if all its references are known, or if the known ones make it bottom. -/
def isSettled [DecidableEq D] (known : Knowledge D) (product : Product D) : Bool :=
  product.ids.toList.all (fun r => (known r).isSome) || product.knownMeet known = Domain.bottom

/-- Without any knowledge a product stays as it is. -/
@[simp] theorem reduce_nothing (product : Product D) : product.reduce .nothing = product := by
  have hmeet : product.knownMeet .nothing = product.value := by
    have hnone : product.ids.toList.filterMap (.nothing : Knowledge D) = [] :=
      List.filterMap_eq_nil_iff.mpr fun _ _ => rfl
    rw [knownMeet, hnone, List.foldl_nil]
  rw [reduce, hmeet]
  congr 1
  exact Ascending.ext (List.filter_eq_self.mpr fun _ _ => rfl)

/-- Knowing nothing reduces no product of a sum. -/
@[simp] theorem map_reduce_nothing (sum : List (Product D)) :
    sum.map (Product.reduce .nothing) = sum := by
  rw [List.map_congr_left fun product _ => product.reduce_nothing, List.map_id']

/-- Substituting one key is putting in the knowledge of that key alone. -/
theorem substitute_eq_reduce (key : Key) (value : D) (product : Product D) :
    product.substitute key value = product.reduce (.single key value) := by
  have hlist := Knowledge.filterMap_single key value product.ids.nodup
  have herase : (product.ids.filter fun r => (Knowledge.single key value r).isNone) =
      product.ids.erase key := by
    refine Ascending.ext (List.filter_congr fun r _ => ?_)
    by_cases hr : r = key
    · subst r
      simp [Knowledge.single]
    · have hne : compare key r ≠ .eq := fun heq => hr (Std.LawfulEqOrd.eq_of_compare heq).symm
      simp [Knowledge.single, hr, hne]
  by_cases h : key ∈ product.ids.toList
  · rw [if_pos h] at hlist
    rw [substitute, if_pos (show key ∈ product.ids from h), reduce, knownMeet, hlist, herase]
    rfl
  · have hsame : product.ids.erase key = product.ids := by
      refine Ascending.ext (List.filter_eq_self.mpr fun r hr => ?_)
      have hne : compare key r ≠ .eq := fun heq => h (Std.LawfulEqOrd.eq_of_compare heq ▸ hr)
      simp [hne]
    rw [if_neg h] at hlist
    rw [substitute, if_neg (show key ∉ product.ids from h), reduce, knownMeet, hlist, herase, hsame]
    rfl

/-- A product is known after a reduction exactly when it is settled. -/
theorem isKnown_reduce [DecidableEq D] (known : Knowledge D) (product : Product D) :
    (product.reduce known).isKnown = product.isSettled known := by
  have hempty : (product.ids.filter fun r => (known r).isNone).isEmpty =
      product.ids.toList.all fun r => (known r).isSome := by
    rw [Ascending.isEmpty, Ascending.toList_filter, Bool.eq_iff_iff, List.isEmpty_iff,
      List.filter_eq_nil_iff, List.all_eq_true]
    simp [Option.isSome_iff_ne_none]
  rw [isKnown, isSettled, reduce, hempty]

variable [EquationalDomain D]

/-- Reading in two steps meets the same values as reading at once. -/
theorem foldl_meet_orElse (known later : Knowledge D) (keys : List Key) (a : D) :
    ((keys.filter fun r => (known r).isNone).filterMap later).foldl Domain.meet
        ((keys.filterMap known).foldl Domain.meet a) =
      (keys.filterMap (known.orElse later)).foldl Domain.meet a := by
  induction keys generalizing a with
  | nil => rfl
  | cons r keys ih =>
    cases hr : known r with
    | some v =>
      have hor : known.orElse later r = some v := by simp [Knowledge.orElse, hr]
      rw [List.filter_cons_of_neg (by simp [hr]), List.filterMap_cons_some hr,
        List.filterMap_cons_some hor, List.foldl_cons, List.foldl_cons]
      exact ih (Domain.meet a v)
    | none =>
      have hor : known.orElse later r = later r := by simp [Knowledge.orElse, hr]
      rw [List.filter_cons_of_pos (by simp [hr]), List.filterMap_cons_none hr]
      cases hl : later r with
      | none =>
        rw [List.filterMap_cons_none hl, List.filterMap_cons_none (hor.trans hl)]
        exact ih a
      | some w =>
        rw [List.filterMap_cons_some hl, List.filterMap_cons_some (hor.trans hl), List.foldl_cons,
          List.foldl_cons, ← Domain.foldl_meet_meet]
        exact ih (Domain.meet a w)

/-- Reducing in two steps is reducing at once. -/
theorem reduce_reduce (known later : Knowledge D) (product : Product D) :
    (product.reduce known).reduce later = product.reduce (known.orElse later) := by
  have hids : ((product.ids.filter fun r => (known r).isNone).filter fun r => (later r).isNone) =
      product.ids.filter fun r => (known.orElse later r).isNone := by
    apply Ascending.ext
    rw [Ascending.toList_filter, Ascending.toList_filter, Ascending.toList_filter,
      List.filter_filter]
    apply List.filter_congr
    intro r _
    cases hr : known r <;> simp [Knowledge.orElse, hr]
  have hmeet : (product.reduce known).knownMeet later = product.knownMeet (known.orElse later) :=
    foldl_meet_orElse known later product.ids.toList product.value
  rw [reduce, hmeet, reduce, hids, reduce]

/-- Reducing the products of a sum in two steps is reducing them at once. -/
theorem map_reduce_map_reduce (known later : Knowledge D) (sum : List (Product D)) :
    (sum.map (Product.reduce known)).map (Product.reduce later) =
      sum.map (Product.reduce (known.orElse later)) := by
  rw [List.map_map]
  exact List.map_congr_left fun product _ => product.reduce_reduce known later

/-- A reduction changes neither the value of a known product nor that it is known. -/
theorem reduce_of_isKnown [DecidableEq D] (known : Knowledge D) {product : Product D}
    (h : product.isKnown) :
    (product.reduce known).isKnown ∧ (product.reduce known).value = product.value := by
  rw [isKnown, Bool.or_eq_true, decide_eq_true_eq, Ascending.isEmpty, List.isEmpty_iff] at h
  rcases h with hids | hvalue
  · have hmeet : product.knownMeet known = product.value := by
      rw [knownMeet, hids, List.filterMap_nil, List.foldl_nil]
    exact ⟨by simp [isKnown_reduce, isSettled, hids], hmeet⟩
  · have hmeet : product.knownMeet known = product.value := by
      rw [knownMeet, hvalue, Domain.foldl_meet_bottom]
    exact ⟨by simp [isKnown_reduce, isSettled, hmeet, hvalue], hmeet⟩

end Product

namespace Rhs

variable [Domain D] [DecidableEq D]

/-- The join of the products that are settled. -/
def settledJoin (known : Knowledge D) (products : List (Product D)) : D :=
  Domain.joinAll ((products.filter (Product.isSettled known)).map (Product.knownMeet known))

/-- The value that a right hand side has because of what is known: its own if it is known, the join
of its products if all of them are settled, and top if the settled ones join to top. -/
def consequence? (known : Knowledge D) : Rhs D → Option D
  | .final value => some value
  | .pending products =>
    if products.toList.all (Product.isSettled known) then some (settledJoin known products.toList)
    else if settledJoin known products.toList = Domain.top then some Domain.top
    else none

end Rhs

end MonotoneEquations
