import MonotoneEquations.Proofs.Knowledge
import MonotoneEquations.Sum

/-!
# Normalization loses nothing

Normalizing a sum folds its known products away and may resolve it early. Whatever is put into the
sum afterwards leads to the same result as if it had been put into the sum from which the normal
form was made: known products stay known with the same value, and a sum that has resolved stays
resolved with the same value.

So the status of an equation depends only on what is known, and not on the steps in which it became
known. It is resolved exactly when its right hand side has a consequence.
-/

namespace MonotoneEquations

variable {D : Type} [Domain D] [DecidableEq D]

namespace Status

/-- A sum resolves if nothing is open or the known part is top; otherwise it keeps its open products,
and its known part if that adds anything. -/
theorem normalize_eq (sum : List (Product D)) :
    normalize sum =
      if openPart sum = [] ∨ knownPart sum = Domain.top then .resolved (knownPart sum)
      else .waiting (openPart sum ++
        if knownPart sum = Domain.bottom then [] else [.constant (knownPart sum)]) := by
  rw [normalize]
  simp only [Bool.or_eq_true, List.isEmpty_iff, decide_eq_true_eq]
  split
  · rfl
  · split <;> simp

/-- The value that a sum resolves to is its known part. -/
theorem normalize_eq_resolved_iff {sum : List (Product D)} {value : D} :
    normalize sum = .resolved value ↔
      (openPart sum = [] ∨ knownPart sum = Domain.top) ∧ knownPart sum = value := by
  rw [normalize_eq]
  split
  next hdone => simp [hdone]
  next hdone => simp [hdone]

/-- A sum that waits has an open product, and its known part is not top. -/
theorem normalize_eq_waiting_iff {sum rest : List (Product D)} :
    normalize sum = .waiting rest ↔
      ¬(openPart sum = [] ∨ knownPart sum = Domain.top) ∧
        (openPart sum ++ if knownPart sum = Domain.bottom then [] else [.constant (knownPart sum)]) =
          rest := by
  rw [normalize_eq]
  split
  next hdone => simp [hdone]
  next hdone => simp [hdone]

/-- The normal form depends on the open and the known part alone. -/
theorem normalize_congr {sum other : List (Product D)} (hopen : openPart sum = openPart other)
    (hknown : knownPart sum = knownPart other) : normalize sum = normalize other := by
  rw [normalize, normalize, hopen, hknown]

/-- A known product joins the known part. -/
theorem knownPart_cons_of_isKnown [EquationalDomain D] {product : Product D} (h : product.isKnown)
    (sum : List (Product D)) :
    knownPart (product :: sum) = Domain.join product.value (knownPart sum) := by
  rw [knownPart, List.filter_cons_of_pos h, List.map_cons, Domain.joinAll_cons, knownPart]

/-- An open product does not count in the known part. -/
theorem knownPart_cons_of_not_isKnown {product : Product D} (h : ¬product.isKnown)
    (sum : List (Product D)) : knownPart (product :: sum) = knownPart sum := by
  rw [knownPart, List.filter_cons_of_neg h, knownPart]

/-- A known product does not stay in the open part. -/
theorem openPart_cons_of_isKnown {product : Product D} (h : product.isKnown)
    (sum : List (Product D)) : openPart (product :: sum) = openPart sum := by
  rw [openPart, List.filter_cons_of_neg (by simp [h]), openPart]

/-- An open product stays in the open part. -/
theorem openPart_cons_of_not_isKnown {product : Product D} (h : ¬product.isKnown)
    (sum : List (Product D)) : openPart (product :: sum) = product :: openPart sum := by
  rw [openPart, List.filter_cons_of_pos (by simp [h]), openPart]

variable [EquationalDomain D]

/-- The known part of two sums is the join of their known parts. -/
theorem knownPart_append (left right : List (Product D)) :
    knownPart (left ++ right) = Domain.join (knownPart left) (knownPart right) := by
  rw [knownPart, List.filter_append, List.map_append, Domain.joinAll_append, knownPart, knownPart]

/-- After a reduction the known part holds what was known and what became known. -/
theorem knownPart_map_reduce (known : Knowledge D) (sum : List (Product D)) :
    knownPart (sum.map (Product.reduce known)) =
      Domain.join (knownPart sum) (knownPart ((openPart sum).map (Product.reduce known))) := by
  induction sum with
  | nil => exact (Domain.bottom_join _).symm
  | cons product sum ih =>
    by_cases h : product.isKnown
    · obtain ⟨hstays, hvalue⟩ := product.reduce_of_isKnown known h
      rw [List.map_cons, knownPart_cons_of_isKnown hstays, hvalue, ih, knownPart_cons_of_isKnown h,
        openPart_cons_of_isKnown h, EquationalDomain.join_assoc]
    · rw [openPart_cons_of_not_isKnown h, knownPart_cons_of_not_isKnown h, List.map_cons,
        List.map_cons]
      by_cases hnow : (product.reduce known).isKnown
      · rw [knownPart_cons_of_isKnown hnow, knownPart_cons_of_isKnown hnow, ih]
        ac_rfl
      · rw [knownPart_cons_of_not_isKnown hnow, knownPart_cons_of_not_isKnown hnow, ih]

/-- After a reduction only products that were open are open. -/
theorem openPart_map_reduce (known : Knowledge D) (sum : List (Product D)) :
    openPart (sum.map (Product.reduce known)) =
      openPart ((openPart sum).map (Product.reduce known)) := by
  induction sum with
  | nil => rfl
  | cons product sum ih =>
    by_cases h : product.isKnown
    · have hstays := (product.reduce_of_isKnown known h).1
      rw [List.map_cons, openPart_cons_of_isKnown hstays, ih, openPart_cons_of_isKnown h]
    · rw [openPart_cons_of_not_isKnown h, List.map_cons, List.map_cons]
      by_cases hnow : (product.reduce known).isKnown
      · rw [openPart_cons_of_isKnown hnow, openPart_cons_of_isKnown hnow, ih]
      · rw [openPart_cons_of_not_isKnown hnow, openPart_cons_of_not_isKnown hnow, ih]

/-- A sum that has resolved keeps its value, whatever becomes known. -/
theorem normalize_map_reduce_of_resolved (known : Knowledge D) {sum : List (Product D)} {value : D}
    (h : normalize sum = .resolved value) :
    normalize (sum.map (Product.reduce known)) = .resolved value := by
  rw [normalize_eq_resolved_iff] at h ⊢
  rw [openPart_map_reduce, knownPart_map_reduce]
  rcases h with ⟨hopen | htop, rfl⟩
  · have hnothing : knownPart ([] : List (Product D)) = Domain.bottom := rfl
    rw [hopen, List.map_nil, hnothing, Domain.join_bottom]
    exact ⟨.inl rfl, rfl⟩
  · rw [htop, Domain.top_join]
    exact ⟨.inr rfl, rfl⟩

/-- Putting something into a normal form leads to the same as putting it into the sum itself. -/
theorem normalize_map_reduce_of_waiting (known : Knowledge D) {sum rest : List (Product D)}
    (h : normalize sum = .waiting rest) :
    normalize (rest.map (Product.reduce known)) = normalize (sum.map (Product.reduce known)) := by
  obtain ⟨-, rfl⟩ := normalize_eq_waiting_iff.mp h
  rw [List.map_append]
  split
  next hbottom =>
    rw [List.map_nil, List.append_nil]
    refine normalize_congr (openPart_map_reduce known sum).symm ?_
    rw [knownPart_map_reduce known sum, hbottom, Domain.bottom_join]
  next =>
    have hknown : (Product.constant (knownPart sum)).isKnown := rfl
    obtain ⟨hstays, hvalue⟩ := Product.reduce_of_isKnown known hknown
    have hopen : openPart ([.constant (knownPart sum)].map (Product.reduce known)) = [] := by
      rw [List.map_singleton, openPart_cons_of_isKnown hstays]
      rfl
    have hcarry : knownPart ([.constant (knownPart sum)].map (Product.reduce known)) =
        knownPart sum := by
      rw [List.map_singleton, knownPart_cons_of_isKnown hstays, hvalue]
      exact Domain.join_bottom _
    apply normalize_congr
    · rw [openPart_map_reduce known sum, openPart, List.filter_append, ← openPart, ← openPart, hopen,
        List.append_nil]
    · rw [knownPart_append, hcarry, knownPart_map_reduce known sum, EquationalDomain.join_comm]

/-- A normal form is its own normal form. -/
theorem normalize_of_waiting {sum rest : List (Product D)} (h : normalize sum = .waiting rest) :
    normalize rest = .waiting rest := by
  have hagain := normalize_map_reduce_of_waiting .nothing h
  rwa [Product.map_reduce_nothing, Product.map_reduce_nothing, h] at hagain

/-- A key that a normal form does not mention does not change it. -/
theorem substitute_of_not_mem_mentions {sum rest : List (Product D)} (h : normalize sum = .waiting rest)
    {key : Key} (value : D) (hkey : key ∉ (waiting rest).mentions) :
    substitute key value rest = .waiting rest := by
  have hsame : rest.map (Product.substitute key value) = rest := by
    have hproduct : ∀ product ∈ rest, product.substitute key value = product := by
      intro product hproduct
      have habsent : key ∉ product.ids := fun hids =>
        hkey (List.mem_flatMap.mpr ⟨product, hproduct, hids⟩)
      rw [Product.substitute, if_neg habsent]
    rw [List.map_congr_left hproduct, List.map_id']
  rw [substitute, hsame, normalize_of_waiting h]

omit [EquationalDomain D] in
/-- A sum waits on the keys of its open products. -/
theorem mem_mentions_normalize_iff {sum : List (Product D)} {r : Key} :
    r ∈ (normalize sum).mentions ↔
      ¬(openPart sum = [] ∨ knownPart sum = Domain.top) ∧
        ∃ product ∈ openPart sum, r ∈ product.ids.toList := by
  rw [normalize_eq]
  split
  next hdone => simp [mentions, hdone]
  next hdone =>
    have hcarry : r ∉ (Product.constant (knownPart sum)).ids.toList := List.not_mem_nil
    rw [mentions, List.mem_flatMap]
    split <;> simp [hdone, hcarry, or_and_right, exists_or]

omit [EquationalDomain D] in
/-- A normal form waits only on keys of its sum. -/
theorem mem_of_mem_mentions_normalize {sum : List (Product D)} {r : Key}
    (hr : r ∈ (normalize sum).mentions) : r ∈ (waiting sum).mentions := by
  obtain ⟨-, product, hproduct, hids⟩ := mem_mentions_normalize_iff.mp hr
  exact List.mem_flatMap.mpr ⟨product, (List.mem_filter.mp hproduct).1, hids⟩

omit [EquationalDomain D] in
/-- A substitution mentions no new key. -/
theorem mem_of_mem_mentions_substitute {source r : Key} {value : D} {sum : List (Product D)}
    (hr : r ∈ (substitute source value sum).mentions) : r ∈ (waiting sum).mentions := by
  obtain ⟨other, hother, hids⟩ := List.mem_flatMap.mp (mem_of_mem_mentions_normalize hr)
  obtain ⟨product, hproduct, rfl⟩ := List.mem_map.mp hother
  refine List.mem_flatMap.mpr ⟨product, hproduct, ?_⟩
  unfold Product.substitute at hids
  split at hids
  · exact (Ascending.mem_erase.mp hids).1
  · exact hids

end Status

namespace Rhs

/-- The status of an equation once everything known has been put into it. -/
def statusUnder (known : Knowledge D) : Rhs D → Status D
  | .final value => .resolved value
  | .pending products => .normalize (products.toList.map (Product.reduce known))

/-- Before anything is known, an equation has the normal form of its products. -/
theorem statusUnder_nothing (products : ArrivalSet (Product D)) :
    (pending products).statusUnder .nothing = .normalize products.toList := by
  rw [statusUnder, Product.map_reduce_nothing]

/-- An equation is resolved, with this value, exactly if its right hand side has a consequence. -/
theorem value?_statusUnder (known : Knowledge D) (rhs : Rhs D) :
    (rhs.statusUnder known).value? = rhs.consequence? known := by
  cases rhs with
  | final value => rfl
  | pending products =>
    have hsettled : Product.isKnown ∘ Product.reduce known = Product.isSettled (D := D) known := by
      funext product
      exact product.isKnown_reduce known
    have hvalue : Product.value ∘ Product.reduce known = Product.knownMeet (D := D) known := rfl
    have hknown : Status.knownPart (products.toList.map (Product.reduce known)) =
        settledJoin known products.toList := by
      rw [Status.knownPart, List.filter_map, hsettled, List.map_map, hvalue, settledJoin]
    have hopen : Status.openPart (products.toList.map (Product.reduce known)) = [] ↔
        products.toList.all (Product.isSettled known) := by
      rw [Status.openPart, List.filter_eq_nil_iff, List.forall_mem_map, List.all_eq_true]
      simp [Product.isKnown_reduce]
    rw [statusUnder, Status.normalize_eq, hknown, consequence?]
    simp only [hopen]
    split
    next hdone =>
      rcases hdone with hall | htop
      · rw [if_pos hall]
        rfl
      · rw [htop]
        split <;> simp [Status.value?]
    next hdone =>
      rw [if_neg fun hall => hdone (.inl hall), if_neg fun htop => hdone (.inr htop)]
      rfl

variable [EquationalDomain D]

/-- A resolved equation keeps its value, whatever becomes known. -/
theorem statusUnder_orElse_of_resolved {known : Knowledge D} {rhs : Rhs D} {value : D}
    (h : rhs.statusUnder known = .resolved value) (later : Knowledge D) :
    rhs.statusUnder (known.orElse later) = .resolved value := by
  cases rhs with
  | final _ => exact h
  | pending products =>
    rw [statusUnder, ← Product.map_reduce_map_reduce]
    exact Status.normalize_map_reduce_of_resolved later h

/-- What becomes known can be put into the sum that an equation waits on. -/
theorem normalize_map_reduce_of_statusUnder {known : Knowledge D} {rhs : Rhs D}
    {sum : List (Product D)} (h : rhs.statusUnder known = .waiting sum) (later : Knowledge D) :
    Status.normalize (sum.map (Product.reduce later)) = rhs.statusUnder (known.orElse later) := by
  cases rhs with
  | final _ => cases h
  | pending products =>
    rw [statusUnder, ← Product.map_reduce_map_reduce]
    exact Status.normalize_map_reduce_of_waiting later h

/-- Substituting a key leads to the status under the knowledge of that key as well. -/
theorem substitute_statusUnder {known : Knowledge D} {rhs : Rhs D} {sum : List (Product D)}
    (h : rhs.statusUnder known = .waiting sum) (key : Key) (value : D) :
    Status.substitute key value sum = rhs.statusUnder (known.put key value) := by
  have hsubst : Product.substitute key value = Product.reduce (D := D) (.single key value) := by
    funext product
    exact product.substitute_eq_reduce key value
  rw [Status.substitute, hsubst, normalize_map_reduce_of_statusUnder h]
  rfl

/-- Knowledge has the same consequences, and maybe more, when it grows. -/
theorem consequence?_mono {known later : Knowledge D} (hle : known.Le later) {rhs : Rhs D} {value : D}
    (h : rhs.consequence? known = some value) : rhs.consequence? later = some value := by
  rw [← value?_statusUnder] at h ⊢
  cases hs : rhs.statusUnder known with
  | waiting sum => simp [hs, Status.value?] at h
  | resolved result =>
    rw [hs] at h
    have hstays := statusUnder_orElse_of_resolved hs later
    rw [Knowledge.orElse_eq_of_le hle] at hstays
    rw [hstays, h]

/-- An equation waits only on references of which nothing is known, and which it waited on when
nothing was known at all. -/
theorem mem_mentions_statusUnder {known : Knowledge D} {rhs : Rhs D} {r : Key}
    (h : r ∈ (rhs.statusUnder known).mentions) :
    known r = none ∧ r ∈ (rhs.statusUnder .nothing).mentions := by
  cases rhs with
  | final _ => cases h
  | pending products =>
    rw [statusUnder_nothing, Status.mem_mentions_normalize_iff]
    rw [statusUnder, Status.mem_mentions_normalize_iff] at h
    obtain ⟨hwaits, reduced, hreduced, hr⟩ := h
    rw [Status.openPart_map_reduce] at hreduced
    obtain ⟨product, hproduct, rfl⟩ := List.mem_map.mp (List.mem_filter.mp hreduced).1
    obtain ⟨hr, hnone⟩ := List.mem_filter.mp hr
    refine ⟨Option.isNone_iff_eq_none.mp hnone, fun hdone => hwaits ?_, product, hproduct, hr⟩
    have hresolved := Status.normalize_eq_resolved_iff.mpr ⟨hdone, rfl⟩
    exact (Status.normalize_eq_resolved_iff.mp
      (Status.normalize_map_reduce_of_resolved known hresolved)).1

end Rhs

end MonotoneEquations
