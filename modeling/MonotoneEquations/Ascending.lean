/-!
# Ascending collections

A finite collection lists its members in strictly ascending order under a comparison, so the
list depends on the members alone and not on the order in which they arrived. Compared whole,
the members form a set; compared by the first component of a pair, they form a map.

Placing a member keeps the order and replaces the member that compares equal to it, if there is
one. The order is a field of the type; nothing here assumes that equal comparison means equality.
-/

namespace MonotoneEquations

/-- A finite collection listed in strictly ascending order. -/
structure Ascending {α : Type} (cmp : α → α → Ordering) where
  toList : List α
  ascending : toList.Pairwise (fun a b => cmp a b = .lt)

namespace Ascending

variable {α : Type} {cmp : α → α → Ordering}

/-- Two collections are equal as soon as their lists are. -/
@[ext] theorem ext {s t : Ascending cmp} (h : s.toList = t.toList) : s = t := by
  cases s; cases t; cases h; rfl

instance [DecidableEq α] : DecidableEq (Ascending cmp) := fun s t =>
  decidable_of_iff (s.toList = t.toList) ⟨ext, congrArg toList⟩

instance : Membership α (Ascending cmp) := ⟨fun s a => a ∈ s.toList⟩

instance [DecidableEq α] (a : α) (s : Ascending cmp) : Decidable (a ∈ s) :=
  inferInstanceAs (Decidable (a ∈ s.toList))

/-- The collection without members. -/
def empty : Ascending cmp := ⟨[], .nil⟩

/-- Whether there is no member. -/
def isEmpty (s : Ascending cmp) : Bool := s.toList.isEmpty

/-- The number of members. -/
def size (s : Ascending cmp) : Nat := s.toList.length

/-- Put a member into an ascending list, replacing the one that compares equal. -/
def place (cmp : α → α → Ordering) (a : α) : List α → List α
  | [] => [a]
  | b :: rest =>
    match cmp a b with
    | .lt => a :: b :: rest
    | .eq => a :: rest
    | .gt => b :: place cmp a rest

/-- A placed list holds the new member and otherwise only old ones. -/
theorem mem_of_mem_place {a b : α} {l : List α} (h : b ∈ place cmp a l) : b = a ∨ b ∈ l := by
  induction l with
  | nil => simpa [place] using h
  | cons c rest ih =>
    unfold place at h
    split at h
    · simpa using h
    · rcases List.mem_cons.mp h with h | h
      · exact .inl h
      · exact .inr (List.mem_cons_of_mem _ h)
    · rcases List.mem_cons.mp h with h | h
      · exact .inr (h ▸ List.mem_cons_self)
      · exact (ih h).imp id (List.mem_cons_of_mem _)

/-- Placing keeps a list ascending. -/
theorem pairwise_place [Std.TransCmp cmp] (a : α) {l : List α}
    (h : l.Pairwise (fun a b => cmp a b = .lt)) :
    (place cmp a l).Pairwise (fun a b => cmp a b = .lt) := by
  induction l with
  | nil => simp [place]
  | cons b rest ih =>
    obtain ⟨hb, hrest⟩ := List.pairwise_cons.mp h
    unfold place
    split
    next hab =>
      refine List.pairwise_cons.mpr ⟨fun c hc => ?_, h⟩
      rcases List.mem_cons.mp hc with rfl | hc
      · exact hab
      · exact Std.TransCmp.lt_trans hab (hb c hc)
    next hab =>
      exact List.pairwise_cons.mpr
        ⟨fun c hc => Std.TransCmp.lt_of_eq_of_lt hab (hb c hc), hrest⟩
    next hab =>
      refine List.pairwise_cons.mpr ⟨fun c hc => ?_, ih hrest⟩
      rcases mem_of_mem_place hc with rfl | hc
      · exact Std.OrientedCmp.lt_of_gt hab
      · exact hb c hc

/-- Add a member, replacing the one that compares equal to it. -/
def insert [Std.TransCmp cmp] (s : Ascending cmp) (a : α) : Ascending cmp :=
  ⟨place cmp a s.toList, pairwise_place a s.ascending⟩

/-- Remove the member that compares equal to the given one. -/
def erase (s : Ascending cmp) (a : α) : Ascending cmp :=
  ⟨s.toList.filter (fun b => cmp a b != .eq), s.ascending.filter _⟩

/-- Collect a list from left to right; of members that compare equal the last one stays. -/
def ofList [Std.TransCmp cmp] (l : List α) : Ascending cmp :=
  l.foldl insert empty

end Ascending

end MonotoneEquations
