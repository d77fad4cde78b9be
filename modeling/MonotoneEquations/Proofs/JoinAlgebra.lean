import MonotoneEquations.Domain.Ternary
import MonotoneEquations.Proofs.Alternatives
import MonotoneEquations.Proofs.Handles
import MonotoneEquations.Proofs.ReadableSum

/-!
# The algebra of joining right hand sides

Joining two right hand sides is commutative and idempotent up to the order of products, and its result
does not depend on the limit. It is not associative: a value that is joined with a value becomes another
value, while a value that is joined with products stays a product of its own. What a join means is
associative, though, so right hand sides that are joined in any order and with any brackets mean the
same, as far as the joins succeed.

A join fails only if both sides are sets of products. The size that is reported then is that of the
union, in which equal products count once.
-/

namespace MonotoneEquations

/-! ## Unions of sets in order of arrival -/

namespace ArrivalSet

variable {α : Type} [DecidableEq α]

omit [DecidableEq α] in
/-- Two sets have the same members if each member of one is a member of the other. -/
theorem sameMembers_of_mem_iff {s t : ArrivalSet α} (h : ∀ a, a ∈ s ↔ a ∈ t) : s.SameMembers t :=
  ⟨((List.perm_ext_iff_of_nodup s.nodup t.nodup).mpr h).length_eq, fun a => (h a).mp⟩

/-- Members that are there already do not arrive again. -/
theorem insertAll_of_subset {s : ArrivalSet α} {l : List α} (h : ∀ a ∈ l, a ∈ s) : s.insertAll l = s := by
  induction l with
  | nil => rfl
  | cons a l ih =>
    rw [List.forall_mem_cons] at h
    rw [insertAll, List.foldl_cons, insert_of_mem h.1]
    exact ih h.2

end ArrivalSet

variable {D : Type} [DecidableEq D]

namespace Rhs

/-- The key occurrences in the union of two sets of products. -/
def unionSize (products others : ArrivalSet (Product D)) : Nat :=
  ∑ product ∈ products.toList.toFinset ∪ others.toList.toFinset, product.ids.size

/-- The union does not depend on which set is named first. -/
theorem unionSize_comm (products others : ArrivalSet (Product D)) :
    unionSize products others = unionSize others products := by
  rw [unionSize, Finset.union_comm, unionSize]

/-- Adding one set of products to another gives their union. -/
theorem occurrences_insertAll (products others : ArrivalSet (Product D)) :
    Product.occurrences (products.insertAll others.toList).toList = unionSize products others := by
  have hunion : (products.insertAll others.toList).toList.toFinset =
      products.toList.toFinset ∪ others.toList.toFinset := by
    ext product
    rw [Finset.mem_union, List.mem_toFinset, List.mem_toFinset, List.mem_toFinset]
    exact ArrivalSet.mem_insertAll
  rw [Product.occurrences_eq_sum, unionSize, ← hunion, List.sum_toFinset _ (ArrivalSet.nodup _)]

omit [DecidableEq D] in
/-- A right hand side has the same products as itself. -/
theorem same_refl (rhs : Rhs D) : rhs.Same rhs := by
  cases rhs with
  | final value => exact rfl
  | pending products => exact ⟨rfl, fun _ => id⟩

/-- Whether two joins end alike: in right hand sides with the same products, or in the same error. -/
def SameResult : Except TooLarge (Rhs D) → Except TooLarge (Rhs D) → Prop
  | .ok r, .ok s => r.Same s
  | .error excess, .error other => excess = other
  | _, _ => False

omit [DecidableEq D] in
/-- Joins that are equal end alike. -/
theorem sameResult_refl (result : Except TooLarge (Rhs D)) : SameResult result result := by
  cases result with
  | ok rhs => exact rhs.same_refl
  | error => exact rfl

/-! ## Single joins -/

section Join

variable [Domain D] {limit : Nat} {r s t : Rhs D}

/-- Top on the left absorbs the other side. -/
theorem top_join (limit : Nat) (s : Rhs D) : top.join limit s = .ok top := if_pos rfl

/-- Top on the right absorbs the other side. -/
theorem join_top (limit : Nat) (r : Rhs D) : r.join limit top = .ok top := by
  unfold join
  split
  next hr => rw [hr]
  next => exact if_pos rfl

/-- Two sets of products are joined to their union, if that is within the limit. -/
theorem join_pending_pending (limit : Nat) (products others : ArrivalSet (Product D)) :
    (pending products).join limit (pending others) =
      if limit < unionSize products others then .error ⟨unionSize products others, limit⟩
      else .ok (pending (products.insertAll others.toList)) := by
  rw [join_pending, pendingWithin, occurrences_insertAll]

/-- Joining in the other order ends alike. -/
theorem sameResult_join_comm [EquationalDomain D] (limit : Nat) (r s : Rhs D) :
    SameResult (r.join limit s) (s.join limit r) := by
  by_cases hr : r = top
  · rw [hr, top_join, join_top]
    exact sameResult_refl _
  by_cases hs : s = top
  · rw [hs, top_join, join_top]
    exact sameResult_refl _
  match r, s with
  | .final a, .final b =>
    simp only [join, hr, hs, if_false]
    exact EquationalDomain.join_comm a b
  | .final a, .pending products =>
    simp only [join, hr, hs, if_false]
    exact sameResult_refl _
  | .pending products, .final b =>
    simp only [join, hr, hs, if_false]
    exact sameResult_refl _
  | .pending products, .pending others =>
    rw [join_pending_pending, join_pending_pending, unionSize_comm others]
    split
    · exact rfl
    · refine ArrivalSet.sameMembers_of_mem_iff fun product => ?_
      rw [ArrivalSet.mem_insertAll, ArrivalSet.mem_insertAll]
      exact or_comm

/-- A right hand side joined with itself stays as it is, unless it is a sum above the limit. -/
theorem join_self [EquationalDomain D] (h : r.size ≤ limit ∨ ∃ value, r = final value) :
    r.join limit r = .ok r := by
  by_cases hr : r = top
  · exact if_pos hr
  cases r with
  | final value =>
    simp only [join, hr, if_false, EquationalDomain.join_self]
  | pending products =>
    have hsame : products.insertAll products.toList = products :=
      ArrivalSet.insertAll_of_subset fun _ hproduct => hproduct
    have hfits : ¬limit < unionSize products products := by
      rw [← occurrences_insertAll, hsame]
      exact Nat.not_lt.mpr (h.resolve_right (by simp))
    rw [join_pending_pending, if_neg hfits, hsame]

/-- A join fails exactly if both sides are sets of products with too many keys in their union. -/
theorem join_eq_error_iff {excess : TooLarge} :
    r.join limit s = .error excess ↔ ∃ products others, r = pending products ∧ s = pending others ∧
      limit < unionSize products others ∧ excess = ⟨unionSize products others, limit⟩ := by
  constructor
  · intro h
    by_cases hr : r = top
    · rw [hr, top_join] at h
      cases h
    by_cases hs : s = top
    · rw [hs, join_top] at h
      cases h
    match r, s with
    | .final _, .final _ | .final _, .pending _ | .pending _, .final _ =>
      simp only [join, hr, hs, if_false] at h
      cases h
    | .pending products, .pending others =>
      rw [join_pending_pending] at h
      split at h
      next hlarge =>
        cases h
        exact ⟨products, others, rfl, rfl, hlarge, rfl⟩
      next => cases h
  · rintro ⟨products, others, rfl, rfl, hlarge, rfl⟩
    rw [join_pending_pending, if_pos hlarge]

/-- The limit decides only whether a join succeeds. -/
theorem eq_of_join {other : Nat} {u : Rhs D} (ht : r.join limit s = .ok t)
    (hu : r.join other s = .ok u) : u = t := by
  match r, s with
  | .pending products, .pending others =>
    rw [join_pending_pending] at ht hu
    split at ht
    · cases ht
    · split at hu
      · cases hu
      · exact (Except.ok.inj hu).symm.trans (Except.ok.inj ht)
  | .final _, .final _ | .final _, .pending _ | .pending _, .final _ =>
    -- The limit has no part in these joins.
    exact Except.ok.inj (hu.symm.trans ht)

/-- Joining two sets of products keeps to the limit. -/
theorem size_le_of_join_pending {products others : ArrivalSet (Product D)}
    (h : (pending products).join limit (pending others) = .ok t) : t.size ≤ limit := by
  rw [join_pending_pending] at h
  split at h
  next => cases h
  next hfits =>
    cases h
    rw [size, occurrences_insertAll]
    exact Nat.not_lt.mp hfits

/-- A join means the join of what its two sides mean. -/
theorem eval_join [EquationalDomain D] (h : r.join limit s = .ok t) (reads : Key → D) :
    t.eval reads = Domain.join (r.eval reads) (s.eval reads) := by
  rw [eval_eq_joinAll_sum, eval_eq_joinAll_sum, eval_eq_joinAll_sum,
    (saysSame_of_join h).joinAll_map_eval_eq reads, List.map_append, Domain.joinAll_append]

end Join

end Rhs

/-! ## Joins of several right hand sides -/

/-- Right hand sides with the brackets in which they are joined. -/
inductive Bracketing (D : Type) where
  | single (rhs : Rhs D)
  | pair (left right : Bracketing D)

namespace Bracketing

omit [DecidableEq D] in
/-- The right hand sides in their order. -/
def members : Bracketing D → List (Rhs D)
  | .single rhs => [rhs]
  | .pair left right => left.members ++ right.members

variable [Domain D]

/-- Join from the innermost brackets to the outermost ones. -/
def join (limit : Nat) : Bracketing D → Except TooLarge (Rhs D)
  | .single rhs => .ok rhs
  | .pair left right => do
    let r ← left.join limit
    let s ← right.join limit
    r.join limit s

/-- Right hand sides that are joined mean the join of what they mean, whatever the brackets. -/
theorem eval_join [EquationalDomain D] {limit : Nat} {brackets : Bracketing D} {t : Rhs D}
    (h : brackets.join limit = .ok t) (reads : Key → D) :
    t.eval reads = Domain.joinAll (brackets.members.map (Rhs.eval reads)) := by
  induction brackets generalizing t with
  | single rhs =>
    cases h
    rw [members, List.map_singleton, Domain.joinAll_cons, Domain.joinAll_nil, Domain.join_bottom]
  | pair left right ihleft ihright =>
    rw [join] at h
    cases hleft : left.join limit with
    | error => rw [hleft] at h; cases h
    | ok r =>
      cases hright : right.join limit with
      | error => rw [hleft, hright] at h; cases h
      | ok s =>
        rw [hleft, hright] at h
        rw [Rhs.eval_join h, ihleft hleft, ihright hright, members, List.map_append,
          Domain.joinAll_append]

/-- Neither the order nor the brackets change what right hand sides mean together. -/
theorem eval_eq_of_perm [EquationalDomain D] {limit other : Nat} {first second : Bracketing D}
    {t u : Rhs D} (hperm : first.members.Perm second.members) (ht : first.join limit = .ok t)
    (hu : second.join other = .ok u) (reads : Key → D) : t.eval reads = u.eval reads := by
  have hmap := hperm.map (Rhs.eval reads)
  rw [eval_join ht, eval_join hu]
  exact Domain.joinAll_eq_of_subset hmap.subset hmap.symm.subset

end Bracketing

namespace Rhs

variable [Domain D]

/-- Joins are commutative and idempotent up to the order of products, and what they mean is the join of
what their sides mean, in any order and with any brackets. The limit decides only whether a join
succeeds: it fails exactly if both sides are sets of products with too many keys in their union, and
reports the size of the union. -/
theorem join_laws [EquationalDomain D] (limit : Nat) (r s : Rhs D) :
    SameResult (r.join limit s) (s.join limit r) ∧
    (r.size ≤ limit ∨ (∃ value, r = final value) → r.join limit r = .ok r) ∧
    (∀ t, r.join limit s = .ok t →
      (∀ other u, r.join other s = .ok u → u = t) ∧
      ∀ reads, t.eval reads = Domain.join (r.eval reads) (s.eval reads)) ∧
    (∀ (first second : Bracketing D) (other : Nat) (t u : Rhs D),
      first.members.Perm second.members → first.join limit = .ok t → second.join other = .ok u →
        ∀ reads, t.eval reads = u.eval reads) ∧
    (∀ excess, r.join limit s = .error excess ↔ ∃ products others, r = pending products ∧
      s = pending others ∧ limit < unionSize products others ∧
      excess = ⟨unionSize products others, limit⟩) ∧
    (∀ products others t, r = pending products → s = pending others → r.join limit s = .ok t →
      t.size ≤ limit) := by
  refine ⟨sameResult_join_comm limit r s, join_self, fun t ht => ?_, ?_, fun _ => join_eq_error_iff, ?_⟩
  · exact ⟨fun _ _ => eq_of_join ht, eval_join ht⟩
  · exact fun _ _ _ _ _ => Bracketing.eval_eq_of_perm
  · rintro products others t rfl rfl
    exact size_le_of_join_pending

/-- Two sums over the chain that share a product. -/
def overlapping : Rhs Ternary × Rhs Ternary :=
  let a : Key := ⟨"a", true, false⟩
  let b : Key := ⟨"b", false, true⟩
  (.ofProducts [.ofKeys .maybe [a, b], .ofKeys .yes [b]],
    .ofProducts [.constant .maybe, .ofKeys .maybe [a, b]])

/-- The sums and a value, joined with the value in the middle or at the front. -/
def overlappingBrackets : Bracketing Ternary × Bracketing Ternary :=
  (.pair (.single overlapping.1) (.pair (.single (.final .maybe)) (.single overlapping.2)),
    .pair (.pair (.single (.final .maybe)) (.single overlapping.1)) (.single overlapping.2))

/-- The shared product counts once: the union has three key occurrences, so the sums are joined under a
limit of three, in either order and also within other brackets, and refused under a limit of two. -/
theorem join_laws_overlapping :
    SameResult (overlapping.1.join 3 overlapping.2) (overlapping.2.join 3 overlapping.1) ∧
      overlapping.1.join 3 overlapping.1 = .ok overlapping.1 ∧
      overlapping.1.join 2 overlapping.2 = .error ⟨3, 2⟩ ∧
      ∃ t u, overlappingBrackets.1.join 3 = .ok t ∧ overlappingBrackets.2.join 9 = .ok u ∧
        ∀ reads, t.eval reads = u.eval reads := by
  obtain ⟨hcomm, hself, -, hbrackets, -⟩ := join_laws 3 overlapping.1 overlapping.2
  have herror := (join_laws 2 overlapping.1 overlapping.2).2.2.2.2.1 ⟨3, 2⟩
  have hperm : overlappingBrackets.1.members.Perm overlappingBrackets.2.members := .swap _ _ _
  refine ⟨hcomm, hself (.inl (by decide)), ?_, _, _, rfl, rfl, hbrackets _ _ 9 _ _ hperm rfl rfl⟩
  exact herror.mpr ⟨_, _, rfl, rfl, by decide, by decide⟩

end Rhs

end MonotoneEquations
