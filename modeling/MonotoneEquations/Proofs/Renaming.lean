import MonotoneEquations.Equation
import MonotoneEquations.Event
import MonotoneEquations.Proofs.Normalization

/-!
# Renaming keys

A renaming gives every key another name. It tells different keys apart, it keeps them stable or
unstable, and it takes the negation of a key to the negation of its new name. It need not respect the
order of keys, so the keys of a renamed product can stand in another order.

Renaming commutes with putting a value in the place of a key and with normalizing a sum: which
products are known, which value they have and in which order the others stand does not depend on the
names of the keys.
-/

namespace MonotoneEquations

/-- A change of names that tells keys apart, keeps stability and respects negation. -/
structure Renaming where
  toFun : Key → Key
  injective : Function.Injective toFun
  stable_apply (key : Key) : (toFun key).stable = key.stable
  negate_apply (key : Key) : toFun key.negate = (toFun key).negate

namespace Renaming

instance : CoeFun Renaming fun _ => Key → Key := ⟨toFun⟩

/-- Give each base another one, and swap the polarities of some bases. -/
def ofBases (base : String → String) (hbase : Function.Injective base) (swapped : String → Bool) :
    Renaming where
  toFun key := ⟨base key.base, key.stable, key.negated ^^ swapped key.base⟩
  injective := by
    rintro ⟨b, stable, negated⟩ ⟨c, stable', negated'⟩ heq
    obtain ⟨hb, rfl, hnegated⟩ := Key.mk.inj heq
    obtain rfl := hbase hb
    have hnegated : negated = negated' := by simpa using hnegated
    rw [hnegated]
  stable_apply _ := rfl
  negate_apply key := by simp [Key.negate]

/-- An assignment to a key, as one to its new name. -/
def assignment {D : Type} (f : Renaming) (pair : Key × D) : Key × D := (f pair.1, pair.2)

end Renaming

variable {D : Type} {f : Renaming}

/-! ## Sets of keys -/

namespace KeySet

/-- The set of the new names. -/
def rename (f : Renaming) (keys : KeySet) : KeySet := .ofList (keys.toList.map f)

variable {keys : KeySet}

/-- The members of a renamed set are the new names. -/
theorem mem_rename {q : Key} : q ∈ keys.rename f ↔ ∃ r ∈ keys, f r = q := by
  rw [rename, Ascending.mem_ofList, List.mem_map]
  rfl

/-- A new name is in the renamed set exactly if the key is in the set. -/
@[simp] theorem apply_mem_rename {r : Key} : f r ∈ keys.rename f ↔ r ∈ keys := by
  rw [mem_rename]
  constructor
  · intro hmem
    obtain ⟨q, hq, heq⟩ := hmem
    exact f.injective heq ▸ hq
  · exact fun hr => ⟨r, hr, rfl⟩

/-- A renamed set lists the new names, in an order of its own. -/
theorem toList_rename_perm (f : Renaming) (keys : KeySet) :
    (keys.rename f).toList.Perm (keys.toList.map f) := by
  refine (List.perm_ext_iff_of_nodup (keys.rename f).nodup (keys.nodup.map f.injective)).mpr fun q => ?_
  rw [List.mem_map]
  exact mem_rename

/-- A renamed set has as many members. -/
@[simp] theorem size_rename (f : Renaming) (keys : KeySet) : (keys.rename f).size = keys.size := by
  rw [Ascending.size, (toList_rename_perm f keys).length_eq, List.length_map, Ascending.size]

/-- A renamed set is empty exactly if the set is. -/
@[simp] theorem isEmpty_rename (f : Renaming) (keys : KeySet) :
    (keys.rename f).isEmpty = keys.isEmpty := by
  rw [Ascending.isEmpty, Ascending.isEmpty, Bool.eq_iff_iff, List.isEmpty_iff_length_eq_zero,
    List.isEmpty_iff_length_eq_zero, (toList_rename_perm f keys).length_eq, List.length_map]

/-- Removing a key and renaming the others is removing its new name. -/
theorem rename_erase (f : Renaming) (keys : KeySet) (key : Key) :
    KeySet.rename f (keys.erase key) = (keys.rename f).erase (f key) := by
  apply Ascending.ext_of_mem
  intro q
  rw [mem_rename, Ascending.mem_erase, mem_rename]
  constructor
  · intro hmem
    obtain ⟨r, hr, rfl⟩ := hmem
    obtain ⟨hr, hne⟩ := Ascending.mem_erase.mp hr
    exact ⟨⟨r, hr, rfl⟩, fun heq => hne (f.injective heq)⟩
  · intro hmem
    obtain ⟨⟨r, hr, rfl⟩, hne⟩ := hmem
    exact ⟨r, Ascending.mem_erase.mpr ⟨hr, fun heq => hne (heq ▸ rfl)⟩, rfl⟩

/-- Different sets have different new names. -/
theorem rename_injective (f : Renaming) : Function.Injective (KeySet.rename f) := by
  intro keys other heq
  apply Ascending.ext_of_mem
  intro r
  rw [← apply_mem_rename (f := f), heq, apply_mem_rename]

end KeySet

/-! ## Products and sums -/

namespace Product

/-- The product of the same constant and the new names. -/
def rename (f : Renaming) (product : Product D) : Product D := ⟨product.value, product.ids.rename f⟩

/-- Different products stay different. -/
theorem rename_injective (f : Renaming) : Function.Injective (Product.rename (D := D) f) := by
  intro product other heq
  obtain ⟨hvalue, hids⟩ := Product.mk.inj heq
  cases product
  cases other
  exact congrArg₂ Product.mk hvalue (KeySet.rename_injective f hids)

/-- Renamed products mention as many keys. -/
@[simp] theorem occurrences_map_rename (f : Renaming) (products : List (Product D)) :
    occurrences (products.map (Product.rename f)) = occurrences products := by
  induction products with
  | nil => rfl
  | cons product rest ih =>
    rw [List.map_cons, occurrences, ih, occurrences]
    exact congrArg (· + _) (KeySet.size_rename f product.ids)

variable [Domain D]

/-- A renamed product is known exactly if the product is. -/
@[simp] theorem isKnown_rename [DecidableEq D] (f : Renaming) (product : Product D) :
    (product.rename f).isKnown = product.isKnown := by
  rw [isKnown, rename, KeySet.isEmpty_rename, isKnown]

/-- Putting a value in the place of a new name is putting it in the place of the key. -/
theorem substitute_rename (f : Renaming) (key : Key) (value : D) (product : Product D) :
    (product.rename f).substitute (f key) value = (product.substitute key value).rename f := by
  have hmem : f key ∈ (product.rename f).ids ↔ key ∈ product.ids := KeySet.apply_mem_rename
  unfold substitute
  by_cases hkey : key ∈ product.ids
  · rw [if_pos hkey, if_pos (hmem.mpr hkey)]
    exact congrArg (Product.mk _) (KeySet.rename_erase f product.ids key).symm
  · rw [if_neg hkey, if_neg (hmem.not.mpr hkey)]

end Product

namespace Status

/-- How far the equation of a new name is known. -/
def rename (f : Renaming) : Status D → Status D
  | .waiting sum => .waiting (sum.map (Product.rename f))
  | .resolved value => .resolved value

/-- A renamed equation waits exactly if the equation does. -/
@[simp] theorem isWaiting_rename (f : Renaming) (status : Status D) :
    (status.rename f).isWaiting = status.isWaiting := by
  cases status <;> rfl

/-- A renamed equation has the same value. -/
@[simp] theorem value?_rename (f : Renaming) (status : Status D) :
    (status.rename f).value? = status.value? := by
  cases status <;> rfl

/-- A renamed equation waits on the new names of the keys that the equation waits on. -/
theorem apply_mem_mentions_rename {status : Status D} {r : Key} :
    f r ∈ (status.rename f).mentions ↔ r ∈ status.mentions := by
  cases status with
  | resolved value => exact iff_of_false List.not_mem_nil List.not_mem_nil
  | waiting sum =>
    rw [rename, mentions, mentions, List.flatMap_map, List.mem_flatMap, List.mem_flatMap]
    exact exists_congr fun product => and_congr_right fun _ => KeySet.apply_mem_rename

variable [Domain D] [DecidableEq D]

/-- Renaming does not change the known part of a sum. -/
theorem knownPart_map_rename (f : Renaming) (sum : List (Product D)) :
    knownPart (sum.map (Product.rename f)) = knownPart sum := by
  rw [knownPart, List.filter_map, List.map_map, knownPart]
  simp only [Function.comp_def, Product.isKnown_rename]
  rfl

/-- Renaming keeps the order of the open products. -/
theorem openPart_map_rename (f : Renaming) (sum : List (Product D)) :
    openPart (sum.map (Product.rename f)) = (openPart sum).map (Product.rename f) := by
  rw [openPart, List.filter_map, openPart]
  simp only [Function.comp_def, Product.isKnown_rename]

/-- Normalizing commutes with renaming. -/
theorem normalize_map_rename (f : Renaming) (sum : List (Product D)) :
    normalize (sum.map (Product.rename f)) = (normalize sum).rename f := by
  rw [normalize_eq, normalize_eq, knownPart_map_rename, openPart_map_rename]
  simp only [List.map_eq_nil_iff]
  split
  · rfl
  · rw [rename, List.map_append]
    split <;> rfl

/-- Putting a value in the place of a key commutes with renaming. -/
theorem substitute_map_rename (f : Renaming) (key : Key) (value : D) (sum : List (Product D)) :
    substitute (f key) value (sum.map (Product.rename f)) = (substitute key value sum).rename f := by
  rw [substitute, substitute, ← normalize_map_rename, List.map_map, List.map_map]
  exact congrArg normalize
    (List.map_congr_left fun product _ => product.substitute_rename f key value)

end Status

/-! ## Equations -/

/-- The images of the members, in the order of the members. -/
def ArrivalSet.map {α β : Type} (g : α → β) (hg : Function.Injective g) (s : ArrivalSet α) :
    ArrivalSet β := ⟨s.toList.map g, s.nodup.map hg⟩

namespace Rhs

/-- The same value, or the renamed products in the same order. -/
def rename (f : Renaming) : Rhs D → Rhs D
  | .final value => .final value
  | .pending products => .pending (products.map (Product.rename f) (Product.rename_injective f))

/-- A renamed right hand side mentions as many keys. -/
@[simp] theorem size_rename (f : Renaming) (rhs : Rhs D) : (rhs.rename f).size = rhs.size := by
  cases rhs with
  | final value => rfl
  | pending products => exact Product.occurrences_map_rename f products.toList

/-- Before anything is known, a renamed equation is as far known as the equation. -/
theorem statusUnder_nothing_rename [Domain D] [DecidableEq D] (f : Renaming) (rhs : Rhs D) :
    (rhs.rename f).statusUnder .nothing = (rhs.statusUnder .nothing).rename f := by
  cases rhs with
  | final value => rfl
  | pending products =>
    rw [rename, statusUnder_nothing, statusUnder_nothing]
    exact Status.normalize_map_rename f products.toList

end Rhs

/-- The equation with its key and all its references renamed. -/
def Equation.rename (f : Renaming) (equation : Equation D) : Equation D :=
  ⟨f equation.key, equation.rhs.rename f⟩

/-- The refusal of a renamed equation. -/
def EquationError.rename (f : Renaming) : EquationError → EquationError
  | .tooLarge excess => .tooLarge excess
  | .duplicate key => .duplicate (f key)

/-- The event about the new names. -/
def Event.rename (f : Renaming) : Event D → Event D
  | .pending key products => .pending (f key) products
  | .resolved key value => .resolved (f key) value
  | .substituted source target value => .substituted (f source) (f target) value
  | .registered equations waiting => .registered equations waiting
  | .finished solved unresolved => .finished solved unresolved

namespace Event

/-- The keys that renamed events resolve are the new names. -/
theorem filterMap_resolution?_rename (f : Renaming) (events : List (Event D)) :
    (events.map (Event.rename f)).filterMap resolution? =
      (events.filterMap resolution?).map f.assignment := by
  rw [List.filterMap_map, List.map_filterMap]
  congr 1
  funext event
  cases event <;> rfl

end Event

/-! ## Maps -/

namespace KeyMap

/-- The map that assigns to each new name what the map assigns to the key. -/
def rename (f : Renaming) (map : KeyMap D) : KeyMap D := .ofList (map.toList.map f.assignment)

/-- Renaming assignments to different keys leaves the keys different. -/
theorem nodup_map_assignment (f : Renaming) {l : List (Key × D)} (hkeys : (l.map Prod.fst).Nodup) :
    ((l.map f.assignment).map Prod.fst).Nodup := by
  have hmap : (l.map f.assignment).map Prod.fst = (l.map Prod.fst).map f := by
    rw [List.map_map, List.map_map]
    rfl
  exact hmap ▸ hkeys.map f.injective

/-- A renamed map is the image of the map. -/
theorem get?_rename {map : KeyMap D} {q : Key} {value : D} :
    (map.rename f).get? q = some value ↔ ∃ r, f r = q ∧ map.get? r = some value := by
  rw [rename, get?_ofList (nodup_map_assignment f map.keys_nodup), List.mem_map]
  constructor
  · intro hmem
    obtain ⟨⟨r, v⟩, hmem, heq⟩ := hmem
    obtain ⟨hr, rfl⟩ := Prod.mk.inj heq
    exact ⟨r, hr, get?_eq_some_iff.mpr hmem⟩
  · intro hmem
    obtain ⟨r, rfl, hr⟩ := hmem
    exact ⟨(r, value), get?_eq_some_iff.mp hr, rfl⟩

/-- Collecting renamed assignments to different keys is renaming the map of the assignments. -/
theorem ofList_map_assignment (f : Renaming) {l : List (Key × D)} (hkeys : (l.map Prod.fst).Nodup) :
    KeyMap.ofList (l.map f.assignment) = (KeyMap.ofList l).rename f := by
  apply ext_of_get?
  intro q
  apply Option.ext
  intro value
  rw [get?_ofList (nodup_map_assignment f hkeys), rename,
    get?_ofList (nodup_map_assignment f (KeyMap.ofList l).keys_nodup)]
  exact ((toList_ofList_perm hkeys).map f.assignment).symm.mem_iff

end KeyMap

end MonotoneEquations
