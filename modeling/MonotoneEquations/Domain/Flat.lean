import MonotoneEquations.Domain.Basic
import MonotoneEquations.Spelling

/-!
# Flat domains

A flat domain adds a bottom and a top to any set of elements, which stay incomparable to each
other. Two different elements join to top and meet to bottom, so a flat domain with three or more
elements does not distribute meet over join.

The bounds are spelled `Bot` and `Top`, and those two texts are read as the bounds before any
element is tried. Every text that no element answers to is reported as an unknown value.
-/

namespace MonotoneEquations

/-- A set of incomparable elements between a bottom and a top. -/
inductive Flat (T : Type) where
  | bottom
  | elem (value : T)
  | top
  deriving DecidableEq, Repr

namespace Flat

variable {T : Type}

instance [Spelling T] : Spelling (Flat T) where
  read
    | "Bot" => .ok .bottom
    | "Top" => .ok .top
    | text =>
      match Spelling.read text with
      | .ok value => .ok (.elem value)
      | .error _ => .error (.unknownValue text)
  write
    | .bottom => "Bot"
    | .elem value => Spelling.write value
    | .top => "Top"
  describe
    | .bottom => "Bottom"
    | .elem value => "Elem(" ++ Spelling.describe value ++ ")"
    | .top => "Top"

variable [DecidableEq T]

/-- Bottom is below everything and top above; elements compare only with themselves. -/
def cmp? (a b : Flat T) : Option Ordering :=
  if a = b then some .eq
  else
    match a, b with
    | .bottom, _ | _, .top => some .lt
    | .top, _ | _, .bottom => some .gt
    | .elem _, .elem _ => none

/-- Bottom yields to the other value, and different elements leave only top. -/
def join : Flat T → Flat T → Flat T
  | .bottom, b => b
  | a, .bottom => a
  | a, b => if a = b then a else .top

/-- Top yields to the other value, and different elements leave only bottom. -/
def meet : Flat T → Flat T → Flat T
  | .top, b => b
  | a, .top => a
  | a, b => if a = b then a else .bottom

instance : Domain (Flat T) where
  bottom := .bottom
  top := .top
  join := join
  meet := meet
  cmp? := cmp?

/-- The order of a flat domain: below is bottom, above is top, between is equality. -/
theorem le_iff {a b : Flat T} : Domain.Le a b ↔ a = .bottom ∨ b = .top ∨ a = b := by
  show cmp? a b = some .lt ∨ cmp? a b = some .eq ↔ _
  unfold cmp?
  split
  next h => simp [h]
  next h => cases a <;> cases b <;> simp_all

instance : LawfulDomain (Flat T) where
  cmp?_eq_iff a b := by
    show cmp? a b = some .eq ↔ a = b
    unfold cmp?
    cases a <;> cases b <;> grind
  cmp?_gt_iff a b := by
    show cmp? a b = some .gt ↔ cmp? b a = some .lt
    unfold cmp?
    cases a <;> cases b <;> grind
  le_trans a b c := by grind [le_iff]
  bottom_le a := le_iff.mpr (.inl rfl)
  le_top a := le_iff.mpr (.inr (.inl rfl))
  le_join_left a b := by
    rw [le_iff]
    cases a <;> cases b <;> simp only [Domain.join, join] <;> grind
  le_join_right a b := by
    rw [le_iff]
    cases a <;> cases b <;> simp only [Domain.join, join] <;> grind
  join_le a b c := by
    simp only [le_iff]
    cases a <;> cases b <;> simp only [Domain.join, join] <;> grind
  meet_le_left a b := by
    rw [le_iff]
    cases a <;> cases b <;> simp only [Domain.meet, meet] <;> grind
  meet_le_right a b := by
    rw [le_iff]
    cases a <;> cases b <;> simp only [Domain.meet, meet] <;> grind
  le_meet a b c := by
    simp only [le_iff]
    cases a <;> cases b <;> simp only [Domain.meet, meet] <;> grind

end Flat

end MonotoneEquations
