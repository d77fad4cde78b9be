import Mathlib
import MonotoneEquations.Domain.Bool
import MonotoneEquations.Domain.Contract
import MonotoneEquations.Domain.Ternary
import MonotoneEquations.Proofs.Lattice
import MonotoneEquations.Proofs.Pieces

/-!
# Legible values

A value is legible if it is written as a valid name that is read as the same value. Not every value
has to be: a flat domain over arbitrary texts has elements whose written form is no name, or is the
name of a bound. But the values that can be read off a valid name are legible, and joins and meets of
legible values are, so that a text of equations never leads to others.
-/

namespace MonotoneEquations

/-- Whether a value is written as a valid name that is read as the value. -/
structure IsLegible {D : Type} [Spelling D] (value : D) : Prop where
  isName : IsName (Spelling.write value).toList
  read : Spelling.read? (Spelling.write value) = some value

/-- A domain in which the values that valid names spell are legible, and stay so when combined. -/
class LegibleDomain (D : Type) [Domain D] [Spelling D] : Prop where
  of_read {text : String} {value : D} :
    IsName text.toList → Spelling.read? text = some value → IsLegible value
  top : IsLegible (Domain.top : D)
  join {a b : D} : IsLegible a → IsLegible b → IsLegible (Domain.join a b)
  meet {a b : D} : IsLegible a → IsLegible b → IsLegible (Domain.meet a b)

/-- A type whose values are written as the text off which they are read. -/
class ExactSpelling (T : Type) [Spelling T] : Prop where
  write_of_read {text : String} {value : T} : Spelling.read text = .ok value →
    Spelling.write value = text

/-- A list of characters is a valid name if it starts and goes on like one. -/
theorem isName_iff {text : List Char} : IsName text ↔
    (text.head?.any Tokens.isNameStart ∧ text.tail.all Tokens.isNameChar) ∧ ¬ ['/', '/'] <:+: text := by
  constructor
  · rintro ⟨⟨first, rest, rfl, hfirst, hrest⟩, hunbroken⟩
    exact ⟨⟨by simpa using hfirst, by simpa using hrest⟩, hunbroken⟩
  · rintro ⟨⟨hfirst, hrest⟩, hunbroken⟩
    cases text with
    | nil => simp at hfirst
    | cons first rest => exact ⟨⟨first, rest, rfl, by simpa using hfirst, by simpa using hrest⟩, hunbroken⟩

instance (text : List Char) : Decidable (IsName text) := decidable_of_iff _ isName_iff.symm

instance {D : Type} [Spelling D] [DecidableEq D] (value : D) : Decidable (IsLegible value) :=
  decidable_of_iff (IsName (Spelling.write value).toList ∧
    Spelling.read? (Spelling.write value) = some value) ⟨fun h => ⟨h.1, h.2⟩, fun h => ⟨h.1, h.2⟩⟩

/-! ## Domains with a name for every value -/

instance : LegibleDomain Bool :=
  have hall : ∀ value : Bool, IsLegible value := by decide
  ⟨fun _ _ => hall _, hall _, fun _ _ => hall _, fun _ _ => hall _⟩

instance : LegibleDomain Ternary :=
  have hall (value : Ternary) : IsLegible value := by cases value <;> decide
  ⟨fun _ _ => hall _, hall _, fun _ _ => hall _, fun _ _ => hall _⟩

/-! ## Flat domains -/

instance : ExactSpelling Bool where
  write_of_read {text value} h := by
    simp only [Spelling.read] at h
    split at h <;> cases h <;> rfl

instance : ExactSpelling String where
  write_of_read h := (Except.ok.inj h).symm

/-- A name that is read from a table stands in the table with its value. -/
theorem mem_of_readName {T : Type} {names : List (String × T)} {text : String} {value : T}
    (h : readName names text = .ok value) : (text, value) ∈ names := by
  unfold readName at h
  split at h
  next found hlookup =>
    cases h
    obtain ⟨front, back, rfl, -⟩ := List.lookup_eq_some_iff.mp hlookup
    simp
  next => cases h

instance : ExactSpelling Contract where
  write_of_read {text value} h := by
    have hnames : ∀ entry ∈ [("NotNull", Contract.notNull), ("Null", .null), ("True", .true),
        ("False", .false), ("Pure", .pure)], entry.2.name = entry.1 := by decide
    exact hnames _ (mem_of_readName h)

namespace Flat

variable {T : Type} [Spelling T]

/-- The least value of a flat domain is legible. -/
theorem isLegible_bottom : IsLegible (bottom : Flat T) :=
  ⟨(by decide : IsName "Bot".toList), rfl⟩

/-- The greatest value of a flat domain is legible. -/
theorem isLegible_top : IsLegible (top : Flat T) := ⟨(by decide : IsName "Top".toList), rfl⟩

/-- An element that is read off a name is written as that name. -/
theorem write_of_read_elem [ExactSpelling T] {text : String} {value : T}
    (h : Spelling.read? text = some (elem value)) : Spelling.write (elem value) = text := by
  unfold Spelling.read? at h
  split at h
  next other hread =>
    cases h
    simp only [Spelling.read] at hread
    split at hread
    next => cases hread
    next => cases hread
    next =>
      split at hread
      next found hfound =>
        cases hread
        have hwrite : Spelling.write value = text := ExactSpelling.write_of_read hfound
        exact hwrite
      next => cases hread
  next => cases h

variable [DecidableEq T]

omit [Spelling T] in
/-- The join of two values of a flat domain is one of them or top. -/
theorem join_mem (a b : Flat T) : Domain.join a b ∈ [a, b, top] := by
  cases a <;> cases b <;> simp only [Domain.join, join] <;> grind

omit [Spelling T] in
/-- The meet of two values of a flat domain is one of them or bottom. -/
theorem meet_mem (a b : Flat T) : Domain.meet a b ∈ [a, b, bottom] := by
  cases a <;> cases b <;> simp only [Domain.meet, meet] <;> grind

instance [ExactSpelling T] : LegibleDomain (Flat T) where
  of_read {text value} hname hread := by
    cases value with
    | bottom => exact isLegible_bottom
    | top => exact isLegible_top
    | elem value =>
      have hwrite := write_of_read_elem hread
      exact ⟨by rwa [hwrite], by rwa [hwrite]⟩
  top := isLegible_top
  join {a b} ha hb := by
    have hmem := join_mem a b
    simp only [List.mem_cons, List.not_mem_nil, or_false] at hmem
    rcases hmem with h | h | h <;> rw [h]
    · exact ha
    · exact hb
    · exact isLegible_top
  meet {a b} ha hb := by
    have hmem := meet_mem a b
    simp only [List.mem_cons, List.not_mem_nil, or_false] at hmem
    rcases hmem with h | h | h <;> rw [h]
    · exact ha
    · exact hb
    · exact isLegible_bottom

end Flat

end MonotoneEquations
