/-!
# Domains

A domain is a bounded lattice whose order may be partial. Greater values are safer and say less:
`top` holds whatever is true, `bottom` is the value of the unreachable. Alternatives are combined
by `join`, simultaneous facts by `meet`.

`LawfulDomain` collects the laws that make the operations fit the order. They are kept apart from
the operations so that the solver runs without them; each instance proves them where it is defined.
-/

namespace MonotoneEquations

/-- A bounded lattice with a comparison that is `none` on incomparable values. -/
class Domain (D : Type) where
  /-- The least value, the unit of `join`. -/
  bottom : D
  /-- The greatest value, the unit of `meet`. -/
  top : D
  /-- The least upper bound of two values. -/
  join : D → D → D
  /-- The greatest lower bound of two values. -/
  meet : D → D → D
  /-- How the first value stands to the second, if they are comparable. -/
  cmp? : D → D → Option Ordering

namespace Domain

variable {D : Type} [Domain D]

/-- The first value is below the second or equal to it. -/
def Le (a b : D) : Prop := cmp? a b = some .lt ∨ cmp? a b = some .eq

instance (a b : D) : Decidable (Le a b) := inferInstanceAs (Decidable (_ ∨ _))

/-- The join of a list, folded from the left; nothing joins to bottom. -/
def joinAll (values : List D) : D := values.foldl join bottom

/-- The meet of a list, folded from the left; nothing meets to top. -/
def meetAll (values : List D) : D := values.foldl meet top

end Domain

open Domain in
/-- The laws of a domain: a partial order with bounds, least upper and greatest lower bounds. -/
class LawfulDomain (D : Type) [Domain D] : Prop where
  cmp?_eq_iff (a b : D) : cmp? a b = some .eq ↔ a = b
  cmp?_gt_iff (a b : D) : cmp? a b = some .gt ↔ cmp? b a = some .lt
  le_trans (a b c : D) : Le a b → Le b c → Le a c
  bottom_le (a : D) : Le bottom a
  le_top (a : D) : Le a top
  le_join_left (a b : D) : Le a (join a b)
  le_join_right (a b : D) : Le b (join a b)
  join_le (a b c : D) : Le a c → Le b c → Le (join a b) c
  meet_le_left (a b : D) : Le (meet a b) a
  meet_le_right (a b : D) : Le (meet a b) b
  le_meet (a b c : D) : Le c a → Le c b → Le c (meet a b)

end MonotoneEquations
