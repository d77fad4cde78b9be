import MonotoneEquations.Domain.Basic

/-!
# The equational laws of a domain

Join and meet are commutative, associative and idempotent, and the two bounds are units and zeros.
Solving a system needs no more than these equations: neither the order nor the absorption laws are
used, so a comparison that does not fit the operations could not change a result.

A lawful domain satisfies all of them. The folds of a list by join or meet then depend on the
values alone, and not on the order in which they are folded.
-/

namespace MonotoneEquations

open Domain in
/-- A domain whose operations satisfy the equations of a bounded lattice. -/
class EquationalDomain (D : Type) [Domain D] : Prop where
  join_comm (a b : D) : join a b = join b a
  join_assoc (a b c : D) : join (join a b) c = join a (join b c)
  join_self (a : D) : join a a = a
  meet_comm (a b : D) : meet a b = meet b a
  meet_assoc (a b c : D) : meet (meet a b) c = meet a (meet b c)
  meet_self (a : D) : meet a a = a
  bottom_join (a : D) : join bottom a = a
  top_join (a : D) : join top a = top
  top_meet (a : D) : meet top a = a
  bottom_meet (a : D) : meet bottom a = bottom

namespace Domain

variable {D : Type} [Domain D]

section Order

variable [LawfulDomain D]

/-- Every value is below itself. -/
theorem le_refl (a : D) : Le a a := Or.inr ((LawfulDomain.cmp?_eq_iff a a).mpr rfl)

/-- Values that are below each other are equal. -/
theorem le_antisymm {a b : D} (hab : Le a b) (hba : Le b a) : a = b := by
  rcases hab with hlt | heq
  · have hgt : cmp? b a = some .gt := (LawfulDomain.cmp?_gt_iff b a).mpr hlt
    rcases hba with hlt' | heq'
    · rw [hgt] at hlt'
      cases hlt'
    · exact ((LawfulDomain.cmp?_eq_iff b a).mp heq').symm
  · exact (LawfulDomain.cmp?_eq_iff a b).mp heq

/-- A join is below exactly the common upper bounds of its arguments. -/
theorem join_le_iff {a b c : D} : Le (join a b) c ↔ Le a c ∧ Le b c := by
  constructor
  · intro h
    exact ⟨LawfulDomain.le_trans _ _ _ (LawfulDomain.le_join_left a b) h,
      LawfulDomain.le_trans _ _ _ (LawfulDomain.le_join_right a b) h⟩
  · exact fun h => LawfulDomain.join_le a b c h.1 h.2

/-- A meet is above exactly the common lower bounds of its arguments. -/
theorem le_meet_iff {a b c : D} : Le c (meet a b) ↔ Le c a ∧ Le c b := by
  constructor
  · intro h
    exact ⟨LawfulDomain.le_trans _ _ _ h (LawfulDomain.meet_le_left a b),
      LawfulDomain.le_trans _ _ _ h (LawfulDomain.meet_le_right a b)⟩
  · exact fun h => LawfulDomain.le_meet a b c h.1 h.2

/-- Values with the same upper bounds are equal. -/
theorem eq_of_upper_bounds {a b : D} (h : ∀ c, Le a c ↔ Le b c) : a = b :=
  le_antisymm ((h b).mpr (le_refl b)) ((h a).mp (le_refl a))

/-- Values with the same lower bounds are equal. -/
theorem eq_of_lower_bounds {a b : D} (h : ∀ c, Le c a ↔ Le c b) : a = b :=
  le_antisymm ((h a).mp (le_refl a)) ((h b).mpr (le_refl b))

instance : EquationalDomain D where
  join_comm a b := eq_of_upper_bounds fun c => by rw [join_le_iff, join_le_iff, and_comm]
  join_assoc a b c := eq_of_upper_bounds fun d => by simp only [join_le_iff, and_assoc]
  join_self a := eq_of_upper_bounds fun c => by rw [join_le_iff, and_self_iff]
  meet_comm a b := eq_of_lower_bounds fun c => by rw [le_meet_iff, le_meet_iff, and_comm]
  meet_assoc a b c := eq_of_lower_bounds fun d => by simp only [le_meet_iff, and_assoc]
  meet_self a := eq_of_lower_bounds fun c => by rw [le_meet_iff, and_self_iff]
  bottom_join a := eq_of_upper_bounds fun c => by
    rw [join_le_iff, and_iff_right_of_imp fun _ => LawfulDomain.bottom_le c]
  top_join a := le_antisymm (LawfulDomain.le_top _) (LawfulDomain.le_join_left top a)
  top_meet a := eq_of_lower_bounds fun c => by
    rw [le_meet_iff, and_iff_right_of_imp fun _ => LawfulDomain.le_top c]
  bottom_meet a := le_antisymm (LawfulDomain.meet_le_left bottom a) (LawfulDomain.bottom_le _)

end Order

section Equations

variable [EquationalDomain D]

instance : Std.Commutative (join : D → D → D) := ⟨EquationalDomain.join_comm⟩

instance : Std.Associative (join : D → D → D) := ⟨EquationalDomain.join_assoc⟩

instance : Std.Commutative (meet : D → D → D) := ⟨EquationalDomain.meet_comm⟩

instance : Std.Associative (meet : D → D → D) := ⟨EquationalDomain.meet_assoc⟩

/-- Bottom adds nothing to a join. -/
@[simp] theorem bottom_join (a : D) : join bottom a = a := EquationalDomain.bottom_join a

/-- Bottom adds nothing to a join. -/
@[simp] theorem join_bottom (a : D) : join a bottom = a := by
  rw [EquationalDomain.join_comm, bottom_join]

/-- Top absorbs what it is joined with. -/
@[simp] theorem top_join (a : D) : join top a = top := EquationalDomain.top_join a

/-- Top absorbs what it is joined with. -/
@[simp] theorem join_top (a : D) : join a top = top := by
  rw [EquationalDomain.join_comm, top_join]

/-- Bottom absorbs what it is met with. -/
@[simp] theorem bottom_meet (a : D) : meet bottom a = bottom := EquationalDomain.bottom_meet a

omit [EquationalDomain D] in
/-- Nothing joins to bottom. -/
@[simp] theorem joinAll_nil : joinAll ([] : List D) = bottom := rfl

/-- The first value of a join can be taken out. -/
@[simp] theorem joinAll_cons (a : D) (values : List D) :
    joinAll (a :: values) = join a (joinAll values) := by
  have hfold : values.foldl join (join a bottom) = join a (values.foldl join bottom) :=
    List.foldl_assoc
  rw [joinAll, List.foldl_cons, bottom_join, joinAll, ← hfold, join_bottom]

/-- A join of two lists is the join of their joins. -/
theorem joinAll_append (left right : List D) :
    joinAll (left ++ right) = join (joinAll left) (joinAll right) := by
  induction left with
  | nil => simp
  | cons a left ih =>
    rw [List.cons_append, joinAll_cons, ih, joinAll_cons, EquationalDomain.join_assoc]

/-- A join can be split by a test on what its values come from. -/
theorem joinAll_map_eq_join {α : Type} (test : α → Bool) (value : α → D) (l : List α) :
    joinAll (l.map value) =
      join (joinAll ((l.filter test).map value)) (joinAll ((l.filter fun a => !test a).map value)) := by
  induction l with
  | nil => exact (bottom_join _).symm
  | cons a l ih =>
    rw [List.map_cons, joinAll_cons, ih]
    cases htest : test a with
    | true =>
      rw [List.filter_cons_of_pos htest, List.filter_cons_of_neg (by simp [htest]), List.map_cons,
        joinAll_cons, EquationalDomain.join_assoc]
    | false =>
      rw [List.filter_cons_of_neg (by simp [htest]), List.filter_cons_of_pos (by simp [htest]),
        List.map_cons, joinAll_cons]
      ac_rfl

/-- A value that is met first can as well be met last. -/
theorem foldl_meet_meet (a b : D) (values : List D) :
    values.foldl meet (meet a b) = meet (values.foldl meet a) b := by
  induction values generalizing a with
  | nil => rfl
  | cons c values ih =>
    have hswap : meet (meet a b) c = meet (meet a c) b := by
      rw [EquationalDomain.meet_assoc, EquationalDomain.meet_comm b, ← EquationalDomain.meet_assoc]
    rw [List.foldl_cons, List.foldl_cons, hswap, ih]

/-- A fold of meets that starts at bottom stays there. -/
@[simp] theorem foldl_meet_bottom (values : List D) : values.foldl meet bottom = bottom := by
  induction values with
  | nil => rfl
  | cons a values ih => rw [List.foldl_cons, bottom_meet, ih]

end Equations

section Bounds

variable [LawfulDomain D]

/-- The join of a list is below exactly the common upper bounds of its values. -/
theorem joinAll_le_iff {values : List D} {c : D} : Le (joinAll values) c ↔ ∀ a ∈ values, Le a c := by
  induction values with
  | nil => simp [LawfulDomain.bottom_le]
  | cons a values ih => rw [joinAll_cons, join_le_iff, ih, List.forall_mem_cons]

/-- The join of a list is below another one if each of its values is below one of the other list. -/
theorem joinAll_le_joinAll {left right : List D} (h : ∀ a ∈ left, ∃ b ∈ right, Le a b) :
    Le (joinAll left) (joinAll right) := by
  refine joinAll_le_iff.mpr fun a ha => ?_
  obtain ⟨b, hb, hab⟩ := h a ha
  exact LawfulDomain.le_trans _ _ _ hab (joinAll_le_iff.mp (le_refl _) b hb)

/-- A fold of meets is above exactly the common lower bounds of its start and its values. -/
theorem le_foldl_meet_iff {a c : D} {values : List D} :
    Le c (values.foldl meet a) ↔ Le c a ∧ ∀ b ∈ values, Le c b := by
  induction values generalizing a with
  | nil => simp
  | cons b values ih => rw [List.foldl_cons, ih, le_meet_iff, List.forall_mem_cons, and_assoc]

/-- The meet of a list is above exactly the common lower bounds of its values. -/
theorem le_meetAll_iff {values : List D} {c : D} : Le c (meetAll values) ↔ ∀ a ∈ values, Le c a := by
  rw [meetAll, le_foldl_meet_iff, and_iff_right (LawfulDomain.le_top c)]

end Bounds

end Domain

end MonotoneEquations
