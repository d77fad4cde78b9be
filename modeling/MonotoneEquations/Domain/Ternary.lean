import MonotoneEquations.Domain.Basic
import MonotoneEquations.Spelling

/-!
# A chain of three values

The domain of properties that can be ruled out, established, or neither. The values form the
chain no, maybe, yes; join is the greater of two values and meet is the smaller.
-/

namespace MonotoneEquations

/-- An answer to a question that may stay open, in ascending order. -/
inductive Ternary where
  | no
  | maybe
  | yes
  deriving DecidableEq, Ord, Repr

namespace Ternary

/-- The name by which a value is read, written and described. -/
def name : Ternary → String
  | .no => "No"
  | .maybe => "Maybe"
  | .yes => "Yes"

instance : Spelling Ternary where
  read := readName [("No", .no), ("Maybe", .maybe), ("Yes", .yes)]
  write := name
  describe := name

instance : Domain Ternary where
  bottom := .no
  top := .yes
  join
    | .yes, _ | _, .yes => .yes
    | .maybe, _ | _, .maybe => .maybe
    | .no, .no => .no
  meet
    | .no, _ | _, .no => .no
    | .maybe, _ | _, .maybe => .maybe
    | .yes, .yes => .yes
  cmp? a b := some (compare a b)

instance : LawfulDomain Ternary where
  cmp?_eq_iff a b := by cases a <;> cases b <;> decide
  cmp?_gt_iff a b := by cases a <;> cases b <;> decide
  le_trans a b c := by cases a <;> cases b <;> cases c <;> decide
  bottom_le a := by cases a <;> decide
  le_top a := by cases a <;> decide
  le_join_left a b := by cases a <;> cases b <;> decide
  le_join_right a b := by cases a <;> cases b <;> decide
  join_le a b c := by cases a <;> cases b <;> cases c <;> decide
  meet_le_left a b := by cases a <;> cases b <;> decide
  meet_le_right a b := by cases a <;> cases b <;> decide
  le_meet a b c := by cases a <;> cases b <;> cases c <;> decide

end Ternary

end MonotoneEquations
