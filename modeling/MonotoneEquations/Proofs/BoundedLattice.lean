import MonotoneEquations.Domain.Flat
import MonotoneEquations.Proofs.Lattice

/-!
# Lawful domains as bounded lattices

The laws of a domain are stated about its comparison. They make the values a bounded lattice: the
comparison tells how two values stand to each other in a partial order, join and meet are the least
upper and the greatest lower bound in it, and the order can be read off either of the two operations.

In a flat domain the comparison, the join and the meet are three tables of their own, over any set of
elements. They agree because each of them only asks whether an argument is a bound and whether the two
arguments are equal. Nothing here uses that meet distributes over join, which fails as soon as there are
three elements.
-/

namespace MonotoneEquations

namespace Domain

variable {D : Type} [Domain D]

/-- Whether a value is the least one above two others. -/
def IsLeastAbove (a b c : D) : Prop := (Le a c ∧ Le b c) ∧ ∀ d, Le a d → Le b d → Le c d

/-- Whether a value is the greatest one below two others. -/
def IsGreatestBelow (a b c : D) : Prop := (Le c a ∧ Le c b) ∧ ∀ d, Le d a → Le d b → Le d c

variable (D) in
/-- Whether the comparison of a domain is that of a partial order, in which join and meet are bounds of
two values and `bottom` and `top` are bounds of all of them. -/
structure IsBoundedLattice : Prop where
  le_refl (a : D) : Le a a
  le_antisymm (a b : D) : Le a b → Le b a → a = b
  le_trans (a b c : D) : Le a b → Le b c → Le a c
  cmp?_eq (a b : D) : cmp? a b =
    if Le a b then if Le b a then some .eq else some .lt else if Le b a then some .gt else none
  bottom_le (a : D) : Le bottom a
  le_top (a : D) : Le a top
  join_isLeastAbove (a b : D) : IsLeastAbove a b (join a b)
  meet_isGreatestBelow (a b : D) : IsGreatestBelow a b (meet a b)
  join_comm (a b : D) : join a b = join b a
  meet_comm (a b : D) : meet a b = meet b a
  join_assoc (a b c : D) : join (join a b) c = join a (join b c)
  meet_assoc (a b c : D) : meet (meet a b) c = meet a (meet b c)
  join_self (a : D) : join a a = a
  meet_self (a : D) : meet a a = a
  join_meet_self (a b : D) : join a (meet a b) = a
  meet_join_self (a b : D) : meet a (join a b) = a
  join_bottom (a : D) : join a bottom = a
  meet_top (a : D) : meet a top = a
  join_top (a : D) : join a top = top
  meet_bottom (a : D) : meet a bottom = bottom
  le_iff_join_eq (a b : D) : Le a b ↔ join a b = b
  le_iff_meet_eq (a b : D) : Le a b ↔ meet a b = a

variable [LawfulDomain D]

/-- A value is below another one exactly if the join of both is the other one. -/
theorem le_iff_join_eq {a b : D} : Le a b ↔ join a b = b := by
  constructor
  · intro h
    exact le_antisymm (LawfulDomain.join_le a b b h (le_refl b)) (LawfulDomain.le_join_right a b)
  · intro h
    rw [← h]
    exact LawfulDomain.le_join_left a b

/-- A value is below another one exactly if it is the meet of both. -/
theorem le_iff_meet_eq {a b : D} : Le a b ↔ meet a b = a := by
  constructor
  · intro h
    exact le_antisymm (LawfulDomain.meet_le_left a b) (LawfulDomain.le_meet a b a (le_refl a) h)
  · intro h
    rw [← h]
    exact LawfulDomain.meet_le_right a b

/-- The comparison of two values says no more than which of them is below the other one. -/
theorem cmp?_eq_of_le (a b : D) : cmp? a b =
    if Le a b then if Le b a then some .eq else some .lt else if Le b a then some .gt else none := by
  by_cases hab : Le a b
  · by_cases hba : Le b a
    · rw [if_pos hab, if_pos hba, LawfulDomain.cmp?_eq_iff]
      exact le_antisymm hab hba
    · rw [if_pos hab, if_neg hba]
      have hne : cmp? a b ≠ some .eq := fun heq =>
        hba ((LawfulDomain.cmp?_eq_iff a b).mp heq ▸ le_refl a)
      exact hab.resolve_right hne
  · rw [if_neg hab]
    by_cases hba : Le b a
    · rw [if_pos hba, LawfulDomain.cmp?_gt_iff]
      have hne : cmp? b a ≠ some .eq := fun heq =>
        hab ((LawfulDomain.cmp?_eq_iff b a).mp heq ▸ le_refl b)
      exact hba.resolve_right hne
    · rw [if_neg hba]
      -- Each answer would put one of the two values below the other.
      cases hcmp : cmp? a b with
      | none => rfl
      | some answer =>
        cases answer with
        | lt => exact absurd (.inl hcmp) hab
        | eq => exact absurd (.inr hcmp) hab
        | gt => exact absurd (.inl ((LawfulDomain.cmp?_gt_iff a b).mp hcmp)) hba

variable (D) in
/-- A lawful domain is a bounded lattice. -/
theorem isBoundedLattice_of_lawful : IsBoundedLattice D where
  le_refl := le_refl
  le_antisymm _ _ := le_antisymm
  le_trans := LawfulDomain.le_trans
  cmp?_eq := cmp?_eq_of_le
  bottom_le := LawfulDomain.bottom_le
  le_top := LawfulDomain.le_top
  join_isLeastAbove a b :=
    ⟨join_le_iff.mp (le_refl _), fun d ha hb => join_le_iff.mpr ⟨ha, hb⟩⟩
  meet_isGreatestBelow a b :=
    ⟨le_meet_iff.mp (le_refl _), fun d ha hb => le_meet_iff.mpr ⟨ha, hb⟩⟩
  join_comm := EquationalDomain.join_comm
  meet_comm := EquationalDomain.meet_comm
  join_assoc := EquationalDomain.join_assoc
  meet_assoc := EquationalDomain.meet_assoc
  join_self := EquationalDomain.join_self
  meet_self := EquationalDomain.meet_self
  join_meet_self a b := by
    rw [EquationalDomain.join_comm]
    exact le_iff_join_eq.mp (LawfulDomain.meet_le_left a b)
  meet_join_self a b := le_iff_meet_eq.mp (LawfulDomain.le_join_left a b)
  join_bottom := join_bottom
  meet_top a := le_iff_meet_eq.mp (LawfulDomain.le_top a)
  join_top := join_top
  meet_bottom a := by rw [EquationalDomain.meet_comm, bottom_meet]
  le_iff_join_eq _ _ := le_iff_join_eq
  le_iff_meet_eq _ _ := le_iff_meet_eq

end Domain

namespace Flat

/-- Whatever its elements are, a flat domain is a bounded lattice. Below every value is bottom, above
every value is top, and other values are below each other only if they are equal. -/
theorem isBoundedLattice (T : Type) [DecidableEq T] :
    Domain.IsBoundedLattice (Flat T) ∧
      ∀ a b : Flat T, Domain.Le a b ↔ a = .bottom ∨ b = .top ∨ a = b :=
  ⟨Domain.isBoundedLattice_of_lawful (Flat T), fun _ _ => le_iff⟩

/-- Of two different elements the join is top and the meet is bottom, and neither is below the other. -/
example : Domain.join (elem "a") (elem "b") = .top ∧ Domain.meet (elem "a") (elem "b") = .bottom ∧
    Domain.cmp? (elem "a") (elem "b") = none := by decide

end Flat

end MonotoneEquations
