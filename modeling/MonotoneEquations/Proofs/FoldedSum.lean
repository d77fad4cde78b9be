import MonotoneEquations.Proofs.StepwiseSubstitution

/-!
# Folding keeps the value of a sum

A sum over handles has a value as soon as every handle has one. Folding it does not change that value,
whatever the handles have: a component without handles is its constant, and so is a component whose
constant is bottom, because a meet with bottom is bottom. If the constants join to top, the components
that are left out could not have added anything.

Substituting for a handle is reading that handle differently, and leaves no mention of it. For that the
handles of a component have to ascend, so that halving finds the handle wherever it stands and no second
occurrence is left.

A sum that stays pending is folded. Some component is open, none of the open ones is bottom, and what is
known stands in one constant.
-/

namespace MonotoneEquations

variable {D : Type} [Domain D]

/-! ## Values of sums -/

namespace Component

/-- The meet of the constant of a component and the values of its handles. -/
def eval (values : Nat → D) (component : Component D) : D :=
  (component.ids.map values).foldl Domain.meet component.value

variable {component : Component D}

/-- Substituting for a handle is giving it that value, if handles ascend. -/
theorem eval_substitute [EquationalDomain D] (h : component.Ascends) (id : Nat) (value : D)
    (values : Nat → D) :
    (component.substitute id value).eval values = component.eval (Function.update values id value) := by
  have hnodup : component.ids.Nodup := h.imp Nat.ne_of_lt
  rw [substitute_eq h]
  split
  next hid =>
    have hrest : (component.ids.erase id).map (Function.update values id value) =
        (component.ids.erase id).map values := by
      rw [(hnodup.erase id).map_update, if_neg hnodup.not_mem_erase]
    have hperm := (List.perm_cons_erase hid).map (Function.update values id value)
    rw [eval, eval, hperm.foldl_eq, List.map_cons, Function.update_self, List.foldl_cons, hrest]
  next hid => rw [eval, eval, hnodup.map_update, if_neg hid]

/-- Substituting for a handle leaves no mention of it, if handles ascend. -/
theorem not_mem_ids_substitute (h : component.Ascends) (id : Nat) (value : D) :
    id ∉ (component.substitute id value).ids := by
  have hnodup : component.ids.Nodup := h.imp Nat.ne_of_lt
  rw [substitute_eq h]
  split
  next => exact hnodup.not_mem_erase
  next hid => exact hid

/-- Substituting mentions no new handle. -/
theorem ids_substitute_subset (id : Nat) (value : D) (component : Component D) :
    (component.substitute id value).ids ⊆ component.ids := by
  rw [substitute]
  split
  · exact List.eraseIdx_subset
  · exact List.Subset.refl _

end Component

namespace Term

/-- The value of a term when every handle has a value: its own, or the join of its components. -/
def eval (values : Nat → D) : Term D → D
  | .final value => value
  | .pending sum => Domain.joinAll (sum.map (Component.eval values))

omit [Domain D] in
/-- The handles that a term mentions, as they occur in its sum. -/
def mentions : Term D → List Nat
  | .final _ => []
  | .pending sum => sum.flatMap Component.ids

/-- A constant at the end of a sum is joined with its value. -/
theorem eval_pending_concat [EquationalDomain D] (values : Nat → D) (sum : List (Component D)) (known : D) :
    (pending (sum ++ [⟨known, []⟩])).eval values = Domain.join known ((pending sum).eval values) := by
  have hknown : Domain.joinAll ([⟨known, []⟩].map (Component.eval values)) = known :=
    Domain.bottom_join known
  rw [eval, List.map_append, Domain.joinAll_append, hknown, EquationalDomain.join_comm, eval]

/-- Substituting throughout a sum mentions no new handle. -/
theorem mentions_map_substitute_subset (id : Nat) (value : D) (sum : List (Component D)) :
    (pending (sum.map (Component.substitute id value))).mentions ⊆ (pending sum).mentions := by
  intro other hother
  obtain ⟨reduced, hreduced, hother⟩ := List.mem_flatMap.mp hother
  obtain ⟨component, hcomponent, rfl⟩ := List.mem_map.mp hreduced
  exact List.mem_flatMap.mpr ⟨component, hcomponent, component.ids_substitute_subset id value hother⟩

end Term

variable [DecidableEq D]

/-! ## Folded sums -/

/-- A sum over handles in the form in which it is stored: something is open, every open component can
still count, and what is known stands in a single constant that neither adds nothing nor settles
the sum. -/
structure Term.IsFolded (sum : List (Component D)) : Prop where
  exists_open : ∃ component ∈ sum, component.ids ≠ []
  open_ne_bottom : ∀ component ∈ sum, component.ids ≠ [] → component.value ≠ Domain.bottom
  constants_le_one : (sum.countP fun component => component.ids.isEmpty) ≤ 1
  constant_ne : ∀ component ∈ sum, component.ids = [] →
    component.value ≠ Domain.bottom ∧ component.value ≠ Domain.top

/-- A component that is not known mentions a handle, and its constant is not bottom. -/
theorem Component.isKnown_eq_false_iff {component : Component D} :
    component.isKnown = false ↔ component.ids ≠ [] ∧ component.value ≠ Domain.bottom := by
  simp [isKnown]

namespace Term

/-- A sum that stays pending keeps its open components, and its known part in one constant if that
adds anything. -/
theorem normalize_eq_pending {sum rest : List (Component D)} (h : normalize sum = .pending rest) :
    ∃ known, known ≠ Domain.top ∧ (sum.filter fun component => !component.isKnown) ≠ [] ∧
      rest = (sum.filter fun component => !component.isKnown) ++
        if known = Domain.bottom then [] else [⟨known, []⟩] := by
  refine ⟨Domain.joinAll ((sum.filter Component.isKnown).map Component.value), ?_⟩
  unfold normalize at h
  dsimp only at h
  split at h
  next => cases h
  next hopen =>
    simp only [Bool.or_eq_true, List.isEmpty_iff, decide_eq_true_eq, not_or] at hopen
    refine ⟨hopen.2, hopen.1, ?_⟩
    split at h
    next hbottom => rw [if_pos hbottom, List.append_nil]; exact (Term.pending.inj h).symm
    next hbottom => rw [if_neg hbottom]; exact (Term.pending.inj h).symm

/-- A sum that stays pending is folded. -/
theorem isFolded_of_normalize {sum rest : List (Component D)} (h : normalize sum = .pending rest) :
    IsFolded rest := by
  obtain ⟨known, htop, hopen, rfl⟩ := normalize_eq_pending h
  have hrest : ∀ component ∈ sum.filter (fun component => !component.isKnown),
      component.ids ≠ [] ∧ component.value ≠ Domain.bottom := fun component hcomponent =>
    Component.isKnown_eq_false_iff.mp (by simpa using (List.mem_filter.mp hcomponent).2)
  have hconstant : ∀ component ∈ (if known = Domain.bottom then [] else [⟨known, []⟩] : List (Component D)),
      known ≠ Domain.bottom ∧ component = ⟨known, []⟩ := by
    intro component hcomponent
    split at hcomponent
    next => cases hcomponent
    next hbottom => exact ⟨hbottom, List.mem_singleton.mp hcomponent⟩
  refine ⟨?_, ?_, ?_, ?_⟩
  · obtain ⟨component, hcomponent⟩ := List.exists_mem_of_ne_nil _ hopen
    exact ⟨component, List.mem_append_left _ hcomponent, (hrest component hcomponent).1⟩
  · intro component hcomponent hids
    rcases List.mem_append.mp hcomponent with hcomponent | hcomponent
    · exact (hrest component hcomponent).2
    · obtain ⟨-, rfl⟩ := hconstant component hcomponent
      exact absurd rfl hids
  · have hnone : (sum.filter fun component => !component.isKnown).countP
        (fun component => component.ids.isEmpty) = 0 :=
      List.countP_eq_zero.mpr fun component hcomponent =>
        by simpa using (hrest component hcomponent).1
    rw [List.countP_append, hnone, Nat.zero_add]
    split
    · exact Nat.zero_le 1
    · exact Nat.le_refl 1
  · intro component hcomponent hids
    rcases List.mem_append.mp hcomponent with hcomponent | hcomponent
    · exact absurd hids (hrest component hcomponent).1
    · obtain ⟨hbottom, rfl⟩ := hconstant component hcomponent
      exact ⟨hbottom, htop⟩

end Term

/-! ## The value of a folded sum -/

/-- The value of a known component is its constant, whatever the values of handles are. -/
theorem Component.eval_of_isKnown [EquationalDomain D] {component : Component D} (h : component.isKnown)
    (values : Nat → D) : component.eval values = component.value := by
  rw [isKnown, Bool.or_eq_true, List.isEmpty_iff, decide_eq_true_eq] at h
  rcases h with hids | hvalue
  · rw [eval, hids, List.map_nil, List.foldl_nil]
  · rw [eval, hvalue, Domain.foldl_meet_bottom]

namespace Term

/-- What folding may leave of a sum: a value, or a folded sum over handles that the sum mentions. -/
structure IsRemnant (term : Term D) (sum : List (Component D)) : Prop where
  isFolded : ∀ rest, term = .pending rest → IsFolded rest
  mentions_subset : term.mentions ⊆ (pending sum).mentions

variable {sum : List (Component D)}

/-- The value of a sum is the join of its known part with the values of its open components. -/
theorem eval_pending [EquationalDomain D] (values : Nat → D) (sum : List (Component D)) :
    (pending sum).eval values =
      Domain.join (Domain.joinAll ((sum.filter Component.isKnown).map Component.value))
        ((pending (sum.filter fun component => !component.isKnown)).eval values) := by
  have hknown : (sum.filter Component.isKnown).map (Component.eval values) =
      (sum.filter Component.isKnown).map Component.value :=
    List.map_congr_left fun component hcomponent =>
      Component.eval_of_isKnown (List.mem_filter.mp hcomponent).2 values
  rw [eval, Domain.joinAll_map_eq_join Component.isKnown, hknown, eval]

/-- Normalizing a sum keeps its value. -/
theorem eval_normalize [EquationalDomain D] (values : Nat → D) (sum : List (Component D)) :
    (normalize sum).eval values = (pending sum).eval values := by
  rw [eval_pending, normalize]
  split
  next hsettled =>
    rw [Bool.or_eq_true, List.isEmpty_iff, decide_eq_true_eq] at hsettled
    rcases hsettled with hopen | htop
    · have hnothing : (pending ([] : List (Component D))).eval values = Domain.bottom := rfl
      rw [hopen, hnothing, Domain.join_bottom, eval]
    · -- The open components are dropped unread, and top absorbs whatever they would have added.
      rw [htop, Domain.top_join, eval]
  next =>
    split
    next hbottom => rw [hbottom, Domain.bottom_join]
    next => rw [eval_pending_concat]

/-- What normalizing leaves of a sum is a remnant of it. -/
theorem isRemnant_normalize (sum : List (Component D)) : (normalize sum).IsRemnant sum where
  isFolded _ := isFolded_of_normalize
  mentions_subset := by
    cases hterm : normalize sum with
    | final value => exact List.nil_subset _
    | pending rest =>
      obtain ⟨known, -, -, rfl⟩ := normalize_eq_pending hterm
      intro id hid
      obtain ⟨component, hcomponent, hid⟩ := List.mem_flatMap.mp hid
      rcases List.mem_append.mp hcomponent with hopen | hconstant
      · exact List.mem_flatMap.mpr ⟨component, (List.mem_filter.mp hopen).1, hid⟩
      · split at hconstant
        next => cases hconstant
        next =>
          obtain rfl := List.mem_singleton.mp hconstant
          cases hid

/-- What substituting leaves of a sum is a remnant of it. -/
theorem isRemnant_substitute (id : Nat) (value : D) (sum : List (Component D)) :
    (substitute id value sum).IsRemnant sum where
  isFolded := (isRemnant_normalize _).isFolded
  mentions_subset :=
    List.Subset.trans (isRemnant_normalize _).mentions_subset (mentions_map_substitute_subset id value sum)

/-- Substituting for a handle leaves no mention of it in a sum, if handles ascend. -/
theorem not_mem_mentions_substitute (hsum : ∀ component ∈ sum, component.Ascends) (id : Nat) (value : D) :
    id ∉ (substitute id value sum).mentions := by
  intro hid
  obtain ⟨reduced, hreduced, hid⟩ := List.mem_flatMap.mp ((isRemnant_normalize _).mentions_subset hid)
  obtain ⟨component, hcomponent, rfl⟩ := List.mem_map.mp hreduced
  exact Component.not_mem_ids_substitute (hsum component hcomponent) id value hid

/-- Substituting for a handle throughout a sum is giving it that value, if handles ascend. -/
theorem eval_substitute [EquationalDomain D] (hsum : ∀ component ∈ sum, component.Ascends) (id : Nat)
    (value : D) (values : Nat → D) :
    (substitute id value sum).eval values = (pending sum).eval (Function.update values id value) := by
  have hvalues : (sum.map (Component.substitute id value)).map (Component.eval values) =
      sum.map (Component.eval (Function.update values id value)) := by
    rw [List.map_map]
    exact List.map_congr_left fun component hcomponent =>
      Component.eval_substitute (hsum component hcomponent) id value values
  rw [substitute, eval_normalize, eval, hvalues, eval]

/-- Normalizing a sum keeps its value under all values of handles. Substituting for a handle gives the
value that the sum has when the handle has the value put in, and leaves no mention of the handle, if the
handles of every component ascend. What is pending afterwards is a folded sum over handles that were
mentioned before: some component is open, and no open one is bottom. -/
theorem eval_normalize_substitute [EquationalDomain D] (sum : List (Component D)) :
    ((∀ values, (normalize sum).eval values = (pending sum).eval values) ∧
      (normalize sum).IsRemnant sum) ∧
    ∀ id value, (substitute id value sum).IsRemnant sum ∧
      ((∀ component ∈ sum, component.Ascends) →
        id ∉ (substitute id value sum).mentions ∧
        ∀ values, (substitute id value sum).eval values =
          (pending sum).eval (Function.update values id value)) := by
  refine ⟨⟨fun values => eval_normalize values sum, isRemnant_normalize sum⟩, fun id value => ?_⟩
  refine ⟨isRemnant_substitute id value sum, fun hsum => ?_⟩
  exact ⟨not_mem_mentions_substitute hsum id value, eval_substitute hsum id value⟩

/-- A sum over contracts in which every component mentions the handle 4. -/
def contractSum : List (Component (Flat Contract)) :=
  [⟨.elem .pure, [1, 4, 7]⟩, ⟨.bottom, [2, 4]⟩, ⟨.top, [0, 4]⟩, ⟨.top, [4]⟩]

/-- With another contract for the handle 4, one component becomes bottom before its other handles are
known, one stays open and one becomes a constant. The value is the one that the sum had. -/
theorem eval_normalize_substitute_contracts :
    (∀ component ∈ contractSum, component.Ascends) ∧
      substitute 4 (.elem .null) contractSum = .pending [⟨.elem .null, [0]⟩, ⟨.elem .null, []⟩] ∧
      IsFolded ([⟨.elem .null, [0]⟩, ⟨.elem .null, []⟩] : List (Component (Flat Contract))) ∧
      4 ∉ (substitute 4 (.elem .null) contractSum).mentions ∧
      (pending contractSum).eval (Function.update (fun _ => .top) 4 (.elem .null)) = .elem .null := by
  have hsum : ∀ component ∈ contractSum, component.Ascends := by decide
  have hterm : substitute 4 (.elem .null) contractSum =
      .pending [⟨.elem .null, [0]⟩, ⟨.elem .null, []⟩] := by cbv
  obtain ⟨hremnant, hascends⟩ := (eval_normalize_substitute contractSum).2 4 (.elem .null)
  obtain ⟨hmentions, heval⟩ := hascends hsum
  refine ⟨hsum, hterm, hremnant.isFolded _ hterm, hmentions, ?_⟩
  rw [← heval, hterm]
  rfl

end Term

end MonotoneEquations
