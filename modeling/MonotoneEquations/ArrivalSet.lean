/-!
# Sets in order of arrival

A finite set that remembers the order in which its members arrived. A member that arrives again
changes nothing, so every member stands at its first position.

Two such sets can hold the same members in different orders; `SameMembers` compares them as sets.
-/

namespace MonotoneEquations

/-- A finite set listed in the order in which its members first arrived. -/
structure ArrivalSet (α : Type) where
  toList : List α
  nodup : toList.Nodup

namespace ArrivalSet

variable {α : Type}

/-- Two sets are equal as soon as their lists are. -/
@[ext] theorem ext {s t : ArrivalSet α} (h : s.toList = t.toList) : s = t := by
  cases s; cases t; cases h; rfl

instance [DecidableEq α] : DecidableEq (ArrivalSet α) := fun s t =>
  decidable_of_iff (s.toList = t.toList) ⟨ext, congrArg toList⟩

instance : Membership α (ArrivalSet α) := ⟨fun s a => a ∈ s.toList⟩

instance [DecidableEq α] (a : α) (s : ArrivalSet α) : Decidable (a ∈ s) :=
  inferInstanceAs (Decidable (a ∈ s.toList))

/-- The set without members. -/
def empty : ArrivalSet α := ⟨[], .nil⟩

/-- The set of one member. -/
def singleton (a : α) : ArrivalSet α := ⟨[a], by simp⟩

variable [DecidableEq α]

/-- Add a member at the end, unless it is already there. -/
def insert (s : ArrivalSet α) (a : α) : ArrivalSet α :=
  if h : a ∈ s.toList then s
  else ⟨s.toList ++ [a], List.nodup_append.mpr ⟨s.nodup, by simp, fun b hb c hc hbc => by
    simp only [List.mem_singleton] at hc
    exact h (hc ▸ hbc ▸ hb)⟩⟩

/-- Add the members of a list from left to right. -/
def insertAll (s : ArrivalSet α) (l : List α) : ArrivalSet α :=
  l.foldl insert s

/-- The members of a list, each at its first position. -/
def ofList (l : List α) : ArrivalSet α := empty.insertAll l

/-- The position of a member; the position at which it would arrive, if it is none. -/
def indexOf (s : ArrivalSet α) (a : α) : Nat := s.toList.idxOf a

/-- The position of a member, if it is one. -/
def indexOf? (s : ArrivalSet α) (a : α) : Option Nat :=
  if a ∈ s.toList then some (s.indexOf a) else none

/-- An enlarged set holds the new member and the old ones. -/
@[simp] theorem mem_insert {s : ArrivalSet α} {a b : α} : b ∈ s.insert a ↔ b = a ∨ b ∈ s := by
  by_cases h : a ∈ s.toList
  · simp only [insert, h, dif_pos]
    exact ⟨.inr, fun hb => hb.elim (fun hb => hb ▸ h) id⟩
  · simp only [insert, h, dif_neg, not_false_eq_true]
    show b ∈ s.toList ++ [a] ↔ b = a ∨ b ∈ s.toList
    simp [or_comm]

/-- Adding a list adds exactly its members. -/
@[simp] theorem mem_insertAll {s : ArrivalSet α} {l : List α} {b : α} :
    b ∈ s.insertAll l ↔ b ∈ s ∨ b ∈ l := by
  induction l generalizing s with
  | nil => simp [insertAll]
  | cons a rest ih =>
    have h := ih (s := s.insert a)
    simp only [insertAll, List.foldl_cons] at h ⊢
    rw [h, mem_insert, List.mem_cons]
    grind

/-- The set of a list's members has exactly those members. -/
@[simp] theorem mem_ofList {l : List α} {b : α} : b ∈ ofList l ↔ b ∈ l := by
  rw [ofList, mem_insertAll]
  exact ⟨fun h => h.elim (fun h => nomatch h) id, .inr⟩

/-- Whether two sets have the same members, in whatever order they arrived. -/
def SameMembers (s t : ArrivalSet α) : Prop :=
  s.toList.length = t.toList.length ∧ ∀ a ∈ s.toList, a ∈ t.toList

instance (s t : ArrivalSet α) : Decidable (s.SameMembers t) :=
  inferInstanceAs (Decidable (_ ∧ _))

end ArrivalSet

end MonotoneEquations
