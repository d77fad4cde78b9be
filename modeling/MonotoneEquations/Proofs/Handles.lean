import Mathlib.Data.List.Nodup
import Mathlib.Data.List.Sort
import MonotoneEquations.ArrivalSet
import MonotoneEquations.Solver.Component

/-!
# Tables by handle

The handle of a key is its position in the order of arrival. A table that assigns something to every
key is the list of these assignments in that order, so writing to one handle of a table changes the
assignment to one key. Keys that arrive later do not move the handles of earlier ones.

Handles in a component are ascending, which is what makes the lookup by halving right, and what makes
equal handles stand next to each other when repetitions are erased.
-/

namespace MonotoneEquations

/-! ## Lists of numbers -/

/-- Ascending lists with the same members are equal. -/
theorem eq_of_ascending_of_mem_iff {l m : List Nat} (hl : l.Pairwise (· < ·))
    (hm : m.Pairwise (· < ·)) (h : ∀ n, n ∈ l ↔ n ∈ m) : l = m := by
  have hperm : l.Perm m :=
    (List.perm_ext_iff_of_nodup (hl.imp Nat.ne_of_lt) (hm.imp Nat.ne_of_lt)).mpr h
  exact hperm.eq_of_pairwise (fun a b _ _ hab hba => absurd (Nat.lt_trans hab hba) (Nat.lt_irrefl a))
    hl hm

/-- Sorting a list without repetitions makes it ascending. -/
theorem pairwise_lt_mergeSort {l : List Nat} (h : l.Nodup) : l.mergeSort.Pairwise (· < ·) := by
  have hle : l.mergeSort.Pairwise (· ≤ ·) := List.pairwise_mergeSort' (· ≤ ·) l
  have hne : l.mergeSort.Pairwise (· ≠ ·) := (l.mergeSort_perm _).nodup_iff.mpr h
  exact (hle.and hne).imp fun hab => Nat.lt_of_le_of_ne hab.1 hab.2

/-- Of two neighbours that are equal, the first is erased. -/
theorem eraseReps_cons_cons (a b : Nat) (l : List Nat) :
    (a :: b :: l).eraseReps = if a = b then (b :: l).eraseReps else a :: (b :: l).eraseReps := by
  have hacc : ∀ (l : List Nat) (a : Nat) (acc : List Nat),
      List.eraseRepsBy.loop (· == ·) a l acc =
        acc.reverse ++ List.eraseRepsBy.loop (· == ·) a l [] := by
    intro l
    induction l with
    | nil => simp [List.eraseRepsBy.loop]
    | cons b l ih =>
      intro a acc
      simp only [List.eraseRepsBy.loop]
      split
      · exact ih a acc
      · rw [ih b (a :: acc), ih b [a]]
        simp
  by_cases h : a = b
  · subst b
    simp [List.eraseReps, List.eraseRepsBy, List.eraseRepsBy.loop]
  · have hloop := hacc l b [a]
    have hne : (a == b) = false := beq_false_of_ne h
    simpa [List.eraseReps, List.eraseRepsBy, List.eraseRepsBy.loop, hne, h] using hloop

/-- Erasing repetitions keeps every member. -/
theorem mem_eraseReps {l : List Nat} {n : Nat} : n ∈ l.eraseReps ↔ n ∈ l := by
  induction l with
  | nil => rfl
  | cons a l ih =>
    cases l with
    | nil => rfl
    | cons b l =>
      rw [eraseReps_cons_cons]
      split
      next h =>
        subst b
        rw [ih]
        simp
      next => rw [List.mem_cons, ih, List.mem_cons (b := a)]

/-- Erasing repetitions from a sorted list leaves none. -/
theorem nodup_eraseReps {l : List Nat} (h : l.Pairwise (· ≤ ·)) : l.eraseReps.Nodup := by
  induction l with
  | nil => exact List.nodup_nil
  | cons a l ih =>
    obtain ⟨ha, hl⟩ := List.pairwise_cons.mp h
    cases l with
    | nil => exact List.nodup_singleton a
    | cons b l =>
      rw [eraseReps_cons_cons]
      split
      · exact ih hl
      next hne =>
        refine List.nodup_cons.mpr ⟨fun hmem => ?_, ih hl⟩
        rw [mem_eraseReps] at hmem
        have hb : b ≤ a := by
          rcases List.mem_cons.mp hmem with rfl | hmem
          · exact Nat.le_refl _
          · exact (List.pairwise_cons.mp hl).1 a hmem
        have hab : a ≤ b := ha b List.mem_cons_self
        exact hne (Nat.le_antisymm hab hb)

/-- Halving compares with the handle in the middle, and goes on with the part on one side of it. -/
theorem position?_append {below above : List Nat} {middle : Nat}
    (hhalf : (below ++ middle :: above).length / 2 = below.length) (id : Nat) :
    position? id (below ++ middle :: above) =
      match compare id middle with
      | .lt => position? id below
      | .eq => some below.length
      | .gt => (position? id above).map fun position => below.length + 1 + position := by
  rw [position?, hhalf, List.take_left]
  split
  next hdrop =>
    rw [List.drop_left] at hdrop
    cases hdrop
  next hdrop =>
    rw [List.drop_left] at hdrop
    cases hdrop
    rfl

/-- A list that is not empty has a handle in the middle. -/
theorem exists_middle {ids : List Nat} (h : ids ≠ []) :
    ∃ below middle above, ids = below ++ middle :: above ∧ ids.length / 2 = below.length := by
  have hpos : 0 < ids.length := List.length_pos_iff.mpr h
  have hhalf : ids.length / 2 < ids.length := Nat.div_lt_self hpos Nat.one_lt_two
  refine ⟨ids.take (ids.length / 2), ids[ids.length / 2], ids.drop (ids.length / 2 + 1), ?_, ?_⟩
  · rw [← List.drop_eq_getElem_cons, List.take_append_drop]
  · rw [List.length_take, Nat.min_eq_left (Nat.le_of_lt hhalf)]

/-- Halving finds every member of an ascending list at its position, and nothing else. -/
theorem position?_eq {ids : List Nat} (h : ids.Pairwise (· < ·)) (id : Nat) :
    position? id ids = if id ∈ ids then some (ids.idxOf id) else none := by
  induction hlength : ids.length using Nat.strongRecOn generalizing ids with
  | ind length ih =>
    subst length
    by_cases hids : ids = []
    · subst ids
      rw [position?]
      rfl
    obtain ⟨below, middle, above, rfl, hhalf⟩ := exists_middle hids
    have hbelow : below.length < (below ++ middle :: above).length := by simp
    have habove : above.length < (below ++ middle :: above).length := by simp; omega
    obtain ⟨hlow, hhigh, hcross⟩ := List.pairwise_append.mp h
    obtain ⟨hmiddle, hhigh⟩ := List.pairwise_cons.mp hhigh
    rw [position?_append hhalf]
    cases hcmp : compare id middle with
    | lt =>
      rw [Nat.compare_eq_lt] at hcmp
      have hne : id ≠ middle := Nat.ne_of_lt hcmp
      have hnot : id ∉ above := fun hmem => Nat.lt_asymm hcmp (hmiddle id hmem)
      rw [ih below.length hbelow hlow rfl]
      by_cases hmem : id ∈ below
      · simp [List.idxOf_append, hmem]
      · simp [hmem, hne, hnot]
    | eq =>
      rw [Nat.compare_eq_eq] at hcmp
      subst id
      have hnot : middle ∉ below := fun hmem =>
        Nat.lt_irrefl _ (hcross middle hmem middle List.mem_cons_self)
      simp [List.idxOf_append, hnot]
    | gt =>
      rw [Nat.compare_eq_gt] at hcmp
      have hne : middle ≠ id := Nat.ne_of_lt hcmp
      have hnot : id ∉ below := fun hmem =>
        Nat.lt_asymm hcmp (hcross id hmem middle List.mem_cons_self)
      rw [ih above.length habove hhigh rfl]
      by_cases hmem : id ∈ above
      · simp [List.idxOf_append, hnot, hmem, List.idxOf_cons_ne _ hne]
        omega
      · simp [hnot, hmem, hne.symm]

/-! ## Components -/

/-- If its handles ascend, a component that mentions a handle loses it to a value, and no other component
changes. -/
theorem Component.substitute_eq {D : Type} [Domain D] {component : Component D}
    (h : component.ids.Pairwise (· < ·)) (id : Nat) (value : D) :
    component.substitute id value =
      if id ∈ component.ids then ⟨Domain.meet component.value value, component.ids.erase id⟩
      else component := by
  rw [substitute, position?_eq h]
  by_cases hid : id ∈ component.ids
  · rw [if_pos hid, if_pos hid, List.erase_eq_eraseIdx_of_idxOf rfl]
  · rw [if_neg hid, if_neg hid]

/-! ## Tables -/

/-- Writing to the place of one key changes what the table assigns to that key alone. -/
theorem set_idxOf_map {K V : Type} [DecidableEq K] {keys : List K} (hnodup : keys.Nodup) {key : K}
    (hmem : key ∈ keys) {f g : K → V} (hsame : ∀ q ∈ keys, q ≠ key → g q = f q) :
    (keys.map f).set (keys.idxOf key) (g key) = keys.map g := by
  induction keys with
  | nil => cases hmem
  | cons k keys ih =>
    obtain ⟨hk, hkeys⟩ := List.nodup_cons.mp hnodup
    by_cases heq : k = key
    · subst k
      have hrest : ∀ q ∈ keys, f q = g q := fun q hq =>
        (hsame q (List.mem_cons_of_mem _ hq) (fun heq => hk (heq ▸ hq))).symm
      rw [List.idxOf_cons_self, List.map_cons, List.map_cons, List.set_cons_zero,
        List.map_congr_left hrest]
    · have hmem : key ∈ keys := (List.mem_cons.mp hmem).resolve_left (Ne.symm heq)
      rw [List.idxOf_cons_ne _ heq, List.map_cons, List.map_cons, List.set_cons_succ,
        ih hkeys hmem fun q hq => hsame q (List.mem_cons_of_mem _ hq),
        hsame k List.mem_cons_self heq]

/-- What a table holds for a key stands at the place of the key. -/
theorem getD_idxOf_map {K V : Type} [DecidableEq K] {keys : List K} {key : K} (hmem : key ∈ keys)
    (f : K → V) (default : V) : (keys.map f).getD (keys.idxOf key) default = f key := by
  rw [List.getD_eq_getElem?_getD, List.getElem?_map, List.getElem?_idxOf hmem]
  rfl

/-- Adding to the lists at different places adds to each of them once. -/
theorem getElem?_foldl_modify {V : Type} {places : List Nat} (h : places.Nodup) (value : V)
    (lists : List (List V)) (i : Nat) :
    (places.foldl (fun lists place => lists.modify place (· ++ [value])) lists)[i]? =
      lists[i]?.map fun list => if i ∈ places then list ++ [value] else list := by
  induction places generalizing lists with
  | nil => simp
  | cons place rest ih =>
    obtain ⟨hplace, hrest⟩ := List.nodup_cons.mp h
    rw [List.foldl_cons, ih hrest, List.getElem?_modify, Option.map_eq_map, Option.map_map]
    congr 1
    funext list
    by_cases hi : place = i
    · subst place
      simp [hplace]
    · simp [hi, Ne.symm hi]

/-- Adding to the lists of different keys adds to the table of these lists. -/
theorem foldl_modify_map {K V : Type} [DecidableEq K] {keys : List K} (hkeys : keys.Nodup)
    {places : List Nat} (hplaces : places.Nodup) (value : V) (f : K → List V) :
    places.foldl (fun lists place => lists.modify place (· ++ [value])) (keys.map f) =
      keys.map fun key => if keys.idxOf key ∈ places then f key ++ [value] else f key := by
  apply List.ext_getElem?
  intro i
  rw [getElem?_foldl_modify hplaces, List.getElem?_map, List.getElem?_map, Option.map_map]
  apply Option.map_congr
  intro key hkey
  obtain ⟨hi, rfl⟩ := List.getElem?_eq_some_iff.mp hkey
  rw [hkeys.idxOf_getElem]
  rfl

namespace ArrivalSet

variable {α : Type} [DecidableEq α]

/-- A member stands at its position. -/
theorem getElem?_indexOf {s : ArrivalSet α} {a : α} (h : a ∈ s) : s.toList[s.indexOf a]? = some a :=
  List.getElem?_idxOf h

/-- A member stands nowhere else. -/
theorem indexOf_eq_of_getElem? {s : ArrivalSet α} {a : α} {i : Nat} (h : s.toList[i]? = some a) :
    s.indexOf a = i := by
  obtain ⟨hi, rfl⟩ := List.getElem?_eq_some_iff.mp h
  exact s.nodup.idxOf_getElem i hi

/-- Different members stand at different positions. -/
theorem indexOf_inj {s : ArrivalSet α} {a b : α} (h : a ∈ s) : s.indexOf a = s.indexOf b ↔ a = b :=
  List.idxOf_inj h

/-- A member that is there already does not arrive again. -/
theorem insert_of_mem {s : ArrivalSet α} {a : α} (h : a ∈ s) : s.insert a = s := dif_pos h

/-- A new member arrives at the end. -/
theorem toList_insert_of_not_mem {s : ArrivalSet α} {a : α} (h : a ∉ s) :
    (s.insert a).toList = s.toList ++ [a] := by
  have h : a ∉ s.toList := h
  rw [insert, dif_neg h]

/-- A set does not shrink when a member arrives. -/
theorem length_le_insert (s : ArrivalSet α) (a : α) :
    s.toList.length ≤ (s.insert a).toList.length := by
  by_cases h : a ∈ s
  · rw [insert_of_mem h]
  · rw [toList_insert_of_not_mem h, List.length_append]
    exact Nat.le_add_right _ _

/-- A set does not shrink when a list of members arrives. -/
theorem length_le_insertAll (s : ArrivalSet α) (l : List α) :
    s.toList.length ≤ (s.insertAll l).toList.length := by
  induction l generalizing s with
  | nil => exact Nat.le_refl _
  | cons a l ih => exact (length_le_insert s a).trans (ih (s.insert a))

/-- Members arrive in two lists as they do in one. -/
theorem insertAll_append (s : ArrivalSet α) (l m : List α) :
    s.insertAll (l ++ m) = (s.insertAll l).insertAll m := List.foldl_append

/-- Of a list of members, those that are new arrive, each once and in the order of the list. -/
theorem toList_insertAll (s : ArrivalSet α) (l : List α) :
    (s.insertAll l).toList = s.toList ++ (l.filter fun a => a ∉ s.toList).eraseDups := by
  induction l generalizing s with
  | nil => simp [insertAll]
  | cons a l ih =>
    rw [show s.insertAll (a :: l) = (s.insert a).insertAll l from rfl, ih]
    by_cases ha : a ∈ s
    · have hold : a ∈ s.toList := ha
      rw [insert_of_mem ha, List.filter_cons_of_neg (by simpa using hold)]
    · have hnew : a ∉ s.toList := ha
      have hrest : ∀ b ∈ l, decide (b ∉ s.toList ++ [a]) = (!b == a && decide (b ∉ s.toList)) := by
        intro b _
        by_cases hb : b = a <;> simp [hb]
      rw [toList_insert_of_not_mem ha, List.filter_congr hrest, List.append_assoc,
        List.filter_cons_of_pos (by simpa using hnew), List.eraseDups_cons, List.filter_filter]
      rfl

/-- The set of a list lists its members in the order in which they first occur. -/
theorem toList_ofList (l : List α) : (ofList l).toList = l.eraseDups := by
  rw [ofList, toList_insertAll]
  simp [empty]

/-- A member keeps its position when others arrive. -/
theorem indexOf_insert {s : ArrivalSet α} {a : α} (h : a ∈ s) (b : α) :
    (s.insert b).indexOf a = s.indexOf a := by
  by_cases hb : b ∈ s
  · rw [insert_of_mem hb]
  · rw [indexOf, toList_insert_of_not_mem hb]
    exact List.idxOf_append_of_mem h

/-- A member keeps its position when a list of others arrives. -/
theorem indexOf_insertAll {s : ArrivalSet α} {a : α} (h : a ∈ s) (l : List α) :
    (s.insertAll l).indexOf a = s.indexOf a := by
  induction l generalizing s with
  | nil => rfl
  | cons b l ih => exact (ih (mem_insert.mpr (.inr h))).trans (indexOf_insert h b)

end ArrivalSet

end MonotoneEquations
