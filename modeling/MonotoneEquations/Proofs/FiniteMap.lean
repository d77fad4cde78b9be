import Mathlib.Data.List.Nodup
import MonotoneEquations.Key

/-!
# Members of ascending collections

An ascending collection is determined by its members, and collecting a list keeps every member
that no later one replaces. So a set of keys is the set of the members of its list, whatever their
order, and a map of assignments to different keys is the set of these assignments.

Looking for a key in a list whose members have different keys finds the only member with that key,
if there is one.
-/

namespace MonotoneEquations

/-- Among assignments to different keys, a lookup finds exactly the listed one. -/
theorem lookup_eq_some_iff_mem {K V : Type} [DecidableEq K] {l : List (K × V)}
    (hkeys : (l.map Prod.fst).Nodup) {k : K} {v : V} : l.lookup k = some v ↔ (k, v) ∈ l := by
  induction l with
  | nil => simp
  | cons entry l ih =>
    obtain ⟨q, w⟩ := entry
    rw [List.map_cons, List.nodup_cons] at hkeys
    by_cases hk : k = q
    · subst k
      have hfresh : (q, v) ∉ l := fun hmem => hkeys.1 (List.mem_map.mpr ⟨_, hmem, rfl⟩)
      simp [hfresh, eq_comm]
    · have hne : (k == q) = false := beq_false_of_ne hk
      rw [List.lookup_cons, hne, ih hkeys.2]
      simp [hk]

/-- Among members with different keys, a search finds exactly the listed one. -/
theorem find?_eq_some_iff_mem {α K : Type} [DecidableEq K] {f : α → K} {l : List α}
    (hkeys : (l.map f).Nodup) {k : K} {a : α} :
    (l.find? fun b => f b = k) = some a ↔ a ∈ l ∧ f a = k := by
  constructor
  · intro hfind
    exact ⟨List.mem_of_find?_eq_some hfind, by simpa using List.find?_some hfind⟩
  · intro hlisted
    obtain ⟨hmem, rfl⟩ := hlisted
    cases hfind : l.find? fun b => f b = f a with
    | none => simpa using List.find?_eq_none.mp hfind a hmem
    | some b =>
      have hkey : f b = f a := by simpa using List.find?_some hfind
      have hb : b ∈ l := List.mem_of_find?_eq_some hfind
      rw [List.inj_on_of_nodup_map hkeys hb hmem hkey]

/-- Members made from those of a list have their keys in the order of the list. -/
theorem map_filterMap_sublist {α β K : Type} {f : α → Option β} {g : β → K} {k : α → K}
    (h : ∀ a b, f a = some b → g b = k a) (l : List α) :
    ((l.filterMap f).map g).Sublist (l.map k) := by
  induction l with
  | nil => exact .slnil
  | cons a l ih =>
    cases hf : f a with
    | none =>
      rw [List.filterMap_cons_none hf]
      exact ih.cons _
    | some b =>
      rw [List.filterMap_cons_some hf, List.map_cons, List.map_cons, h a b hf]
      exact ih.cons_cons _

/-- A part of a list of members with different keys is found again by its keys. -/
theorem filter_mem_map_eq_of_sublist {α K : Type} [DecidableEq K] {f : α → K} {part l : List α}
    (h : part.Sublist l) (hkeys : (l.map f).Nodup) : (l.filter fun a => f a ∈ part.map f) = part := by
  induction h with
  | slnil => rfl
  | @cons part l a h ih =>
    rw [List.map_cons, List.nodup_cons] at hkeys
    have hout : f a ∉ part.map f := fun hmem => hkeys.1 ((h.map f).subset hmem)
    rw [List.filter_cons_of_neg (by simpa using hout), ih hkeys.2]
  | @cons_cons part l a h ih =>
    rw [List.map_cons, List.nodup_cons] at hkeys
    have hrest : ∀ b ∈ l, decide (f b ∈ (a :: part).map f) = decide (f b ∈ part.map f) := by
      intro b hb
      have hne : f b ≠ f a := fun heq => hkeys.1 (heq ▸ List.mem_map_of_mem hb)
      rw [List.map_cons, decide_eq_decide, List.mem_cons, or_iff_right hne]
    rw [List.filter_cons_of_pos (by simp), List.filter_congr hrest, ih hkeys.2]

namespace Ascending

variable {α : Type} {cmp : α → α → Ordering}

/-- No member is listed twice. -/
theorem nodup [Std.ReflCmp cmp] (s : Ascending cmp) : s.toList.Nodup :=
  s.ascending.imp fun {a b} hab heq => by
    have hself : cmp b b = .eq := Std.ReflCmp.compare_self
    rw [heq, hself] at hab
    cases hab

/-- Collections with the same members are equal. -/
theorem ext_of_mem [Std.TransCmp cmp] {s t : Ascending cmp} (h : ∀ a, a ∈ s ↔ a ∈ t) : s = t := by
  have hperm : s.toList.Perm t.toList := (List.perm_ext_iff_of_nodup s.nodup t.nodup).mpr h
  refine ext (hperm.eq_of_pairwise (fun a b _ _ hab hba => ?_) s.ascending t.ascending)
  have hgt : cmp b a = .gt := Std.OrientedCmp.gt_of_lt hab
  rw [hgt] at hba
  cases hba

variable [Std.TransCmp cmp]

/-- A placed list holds the new member and the old ones that it does not replace. -/
theorem mem_place {a b : α} {l : List α} (hasc : l.Pairwise (fun a b => cmp a b = .lt)) :
    b ∈ place cmp a l ↔ b = a ∨ b ∈ l ∧ cmp a b ≠ .eq := by
  induction l with
  | nil => simp [place]
  | cons c rest ih =>
    obtain ⟨hc, hrest⟩ := List.pairwise_cons.mp hasc
    unfold place
    split
    next hac =>
      have hlt : ∀ d ∈ c :: rest, cmp a d ≠ .eq := by
        intro d hd
        rcases List.mem_cons.mp hd with rfl | hd
        · rw [hac]
          decide
        · rw [Std.TransCmp.lt_trans hac (hc d hd)]
          decide
      rw [List.mem_cons]
      exact or_congr_right (iff_self_and.mpr (hlt b))
    next hac =>
      have hlt : ∀ d ∈ rest, cmp a d ≠ .eq := by
        intro d hd
        rw [Std.TransCmp.lt_of_eq_of_lt hac (hc d hd)]
        decide
      rw [List.mem_cons, List.mem_cons]
      refine or_congr_right ⟨fun hb => ⟨.inr hb, hlt b hb⟩, fun hb => hb.1.resolve_left ?_⟩
      rintro rfl
      exact hb.2 hac
    next hac =>
      rw [List.mem_cons, ih hrest, List.mem_cons]
      constructor
      · intro hb
        rcases hb with rfl | rfl | hb
        · exact .inr ⟨.inl rfl, by rw [hac]; decide⟩
        · exact .inl rfl
        · exact .inr ⟨.inr hb.1, hb.2⟩
      · intro hb
        rcases hb with rfl | ⟨rfl | hb, hne⟩
        · exact .inr (.inl rfl)
        · exact .inl rfl
        · exact .inr (.inr ⟨hb, hne⟩)

/-- An enlarged collection holds the new member and the old ones that it does not replace. -/
theorem mem_insert {s : Ascending cmp} {a b : α} :
    b ∈ s.insert a ↔ b = a ∨ b ∈ s ∧ cmp a b ≠ .eq := mem_place s.ascending

/-- Members that replace none of each other are all collected. -/
theorem mem_ofList_of_pairwise {l : List α} (h : l.Pairwise (fun a b => cmp a b ≠ .eq)) {b : α} :
    b ∈ (ofList l : Ascending cmp) ↔ b ∈ l := by
  have hfold : ∀ (l : List α) (s : Ascending cmp), l.Pairwise (fun a b => cmp a b ≠ .eq) →
      (b ∈ l.foldl insert s ↔ b ∈ l ∨ b ∈ s ∧ ∀ a ∈ l, cmp a b ≠ .eq) := by
    intro l
    induction l with
    | nil => simp
    | cons a rest ih =>
      intro s hpair
      obtain ⟨ha, hrest⟩ := List.pairwise_cons.mp hpair
      rw [List.foldl_cons, ih (s.insert a) hrest, mem_insert, List.mem_cons, List.forall_mem_cons]
      have hkeep : b = a → ∀ c ∈ rest, cmp c b ≠ .eq := by
        rintro rfl c hc heq
        exact ha c hc (Std.OrientedCmp.eq_symm heq)
      grind
  rw [ofList, hfold l empty h]
  exact or_iff_left fun hb => nomatch hb.1

/-- Where equal comparison means equality, all members of a list are collected. -/
@[simp] theorem mem_ofList [Std.LawfulEqCmp cmp] {l : List α} {b : α} :
    b ∈ (ofList l : Ascending cmp) ↔ b ∈ l := by
  have hfold : ∀ (l : List α) (s : Ascending cmp), b ∈ l.foldl insert s ↔ b ∈ l ∨ b ∈ s := by
    intro l
    induction l with
    | nil => simp
    | cons a rest ih =>
      intro s
      rw [List.foldl_cons, ih, mem_insert, List.mem_cons]
      have heq : cmp a b = .eq → a = b := Std.LawfulEqCmp.eq_of_compare
      grind
  rw [ofList, hfold l empty]
  exact or_iff_left fun hb => nomatch hb

omit [Std.TransCmp cmp] in
/-- Where equal comparison means equality, exactly the given member is removed. -/
theorem mem_erase [Std.LawfulEqCmp cmp] {s : Ascending cmp} {a b : α} :
    b ∈ s.erase a ↔ b ∈ s ∧ b ≠ a := by
  have hself : cmp a a = .eq := Std.ReflCmp.compare_self
  have hne : cmp a b ≠ .eq ↔ b ≠ a :=
    not_congr ⟨fun heq => (Std.LawfulEqCmp.eq_of_compare heq).symm, fun heq => heq ▸ hself⟩
  change b ∈ s.toList.filter _ ↔ b ∈ s.toList ∧ b ≠ a
  rw [List.mem_filter, bne_iff_ne, hne]

end Ascending

namespace KeyMap

variable {D : Type}

/-- The assignments of a map are to different keys. -/
theorem keys_nodup (map : KeyMap D) : (map.toList.map Prod.fst).Nodup := by
  rw [List.Nodup, List.pairwise_map]
  refine map.ascending.imp fun {a b} hab heq => ?_
  have hself : compare b.1 b.1 = .eq := Std.ReflCmp.compare_self
  rw [compareOn, heq, hself] at hab
  cases hab

/-- The value of a key is the one that the map assigns to it. -/
theorem get?_eq_some_iff {map : KeyMap D} {key : Key} {value : D} :
    map.get? key = some value ↔ (key, value) ∈ map := lookup_eq_some_iff_mem map.keys_nodup

/-- Maps with the same values are equal. -/
theorem ext_of_get? {map other : KeyMap D} (h : ∀ key, map.get? key = other.get? key) :
    map = other := by
  refine Ascending.ext_of_mem fun ⟨key, value⟩ => ?_
  rw [← get?_eq_some_iff, h, get?_eq_some_iff]

/-- A map of assignments to different keys lists all of them. -/
theorem toList_ofList_perm {l : List (Key × D)} (hkeys : (l.map Prod.fst).Nodup) :
    (ofList l).toList.Perm l := by
  rw [List.perm_ext_iff_of_nodup (ofList l).nodup (List.Nodup.of_map _ hkeys)]
  rw [List.Nodup, List.pairwise_map] at hkeys
  exact fun pair => Ascending.mem_ofList_of_pairwise
    (hkeys.imp fun hne heq => hne (Std.LawfulEqOrd.eq_of_compare heq))

/-- A map of assignments to different keys holds every one of them. -/
theorem get?_ofList {l : List (Key × D)} (hkeys : (l.map Prod.fst).Nodup) {key : Key} {value : D} :
    (ofList l).get? key = some value ↔ (key, value) ∈ l := by
  rw [get?_eq_some_iff]
  exact (toList_ofList_perm hkeys).mem_iff

end KeyMap

end MonotoneEquations
