import MonotoneEquations.Domain.Basic
import MonotoneEquations.Spelling

/-!
# Truth values as a domain

The two truth values form the smallest domain with distinct bounds: `false` is bottom, `true` is
top, join is disjunction and meet is conjunction. They are spelled in lower case.
-/

namespace MonotoneEquations

instance : Domain Bool where
  bottom := false
  top := true
  join := or
  meet := and
  cmp? a b := some (compare a b)

instance : LawfulDomain Bool where
  cmp?_eq_iff := by decide
  cmp?_gt_iff := by decide
  le_trans := by decide
  bottom_le := by decide
  le_top := by decide
  le_join_left := by decide
  le_join_right := by decide
  join_le := by decide
  meet_le_left := by decide
  meet_le_right := by decide
  le_meet := by decide

instance : Spelling Bool where
  read
    | "true" => .ok true
    | "false" => .ok false
    | _ => .error .notBoolean
  write value := if value then "true" else "false"
  describe value := if value then "true" else "false"

end MonotoneEquations
