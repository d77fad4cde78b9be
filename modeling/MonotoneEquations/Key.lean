import MonotoneEquations.Ascending
import MonotoneEquations.Text.Quoted

/-!
# Keys

The identifiers of equations. A key names a fact by a base text. A stable key names an exact fact;
an unstable one names a fact that need not hold everywhere, so its value is only trusted for its
negation. Every key has a negation, which differs from it in polarity alone.

Stability and polarity are part of the identity: all four keys of one base are different. Keys are
ordered by base, by code points, then by stability, then by polarity, with `false` before `true`.
-/

namespace MonotoneEquations

/-- An identifier with its stability and its polarity. -/
structure Key where
  base : String
  stable : Bool
  negated : Bool
  deriving DecidableEq, Repr, Inhabited

namespace Key

/-- The key of the same base and stability and the opposite polarity. -/
def negate (key : Key) : Key := { key with negated := !key.negated }

/-- The stable key of the same base and polarity. -/
def mkStable (key : Key) : Key := { key with stable := true }

/-- The unstable key of the same base and polarity. -/
def mkUnstable (key : Key) : Key := { key with stable := false }

/-- Negating twice gives back the key. -/
@[simp] theorem negate_negate (key : Key) : key.negate.negate = key := by
  simp [negate]

/-- A key differs from its negation. -/
theorem negate_ne (key : Key) : key.negate ≠ key := by
  intro h
  simpa [negate] using congrArg Key.negated h

/-- A key and its negation are stable together. -/
@[simp] theorem stable_negate (key : Key) : key.negate.stable = key.stable := rfl

instance : Ord Key where
  compare :=
    compareLex (compareOn base) (compareLex (compareOn stable) (compareOn negated))

instance : Std.TransOrd Key :=
  inferInstanceAs (Std.TransCmp
    (compareLex (compareOn base) (compareLex (compareOn stable) (compareOn negated))))

instance : Std.LawfulEqOrd Key where
  eq_of_compare {a b} h := by
    obtain ⟨hbase, hrest⟩ := compareLex_eq_eq.mp h
    obtain ⟨hstable, hnegated⟩ := compareLex_eq_eq.mp hrest
    have hbase : a.base = b.base := Std.LawfulEqOrd.eq_of_compare hbase
    have hstable : a.stable = b.stable := Std.LawfulEqOrd.eq_of_compare hstable
    have hnegated : a.negated = b.negated := Std.LawfulEqOrd.eq_of_compare hnegated
    cases a
    simp_all

/-- The written form: an exclamation mark if negated, the base, a question mark if unstable. -/
def write (key : Key) : String :=
  (if key.negated then "!" else "") ++ key.base ++ (if key.stable then "" else "?")

/-- The description in the log, which shows the three parts. -/
def describe (key : Key) : String :=
  "Key \x7b base: " ++ Text.quote key.base ++ ", stable: " ++ toString key.stable ++
    ", negated: " ++ toString key.negated ++ " \x7d"

end Key

/-- A finite set of keys, listed in the order of keys. -/
abbrev KeySet : Type := Ascending (compare : Key → Key → Ordering)

/-- The set of the keys of a list. -/
abbrev KeySet.ofList (keys : List Key) : KeySet := Ascending.ofList keys

/-- A finite map from keys, listed in the order of keys. -/
abbrev KeyMap (D : Type) : Type := Ascending (compareOn Prod.fst : Key × D → Key × D → Ordering)

/-- The map of a list of assignments, of which the last one for a key stays. -/
abbrev KeyMap.ofList {D : Type} (assignments : List (Key × D)) : KeyMap D :=
  Ascending.ofList assignments

/-- The value that a map assigns to a key. -/
def KeyMap.get? {D : Type} (map : KeyMap D) (key : Key) : Option D := map.toList.lookup key

end MonotoneEquations
