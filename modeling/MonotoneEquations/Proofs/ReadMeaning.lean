import MonotoneEquations.Domain.Ternary
import MonotoneEquations.Proofs.Alternatives
import MonotoneEquations.Proofs.ReadableSum
import MonotoneEquations.Proofs.ViablePrefix

/-!
# The meaning of what is read

A statement means the join of its alternatives, each the meet of its atoms. An atom without marks that
the domain accepts is that value, and any other atom is what is assigned to the key that it spells. A
statement that is kept gives its key a right hand side with this meaning.

The limit is checked only where two sums with keys are joined. So a right hand side above the limit
comes from a single alternative with keys, and joining alternatives up to some point keeps to an
invariant on their number: there is none if the result is a value other than top, and exactly one if
the result is above the limit. Top is left out, because it absorbs what was joined before it.
-/

namespace MonotoneEquations

variable {D : Type} [Domain D] [DecidableEq D] [Spelling D]

/-! ## Meanings -/

/-- The value of an atom when every key is assigned a value: the value that an unmarked name spells, and
otherwise what is assigned to the key. -/
def Key.valueUnder (assigned : Key → D) (atom : Key) : D :=
  if atom.stable ∧ ¬atom.negated then
    match (Spelling.read atom.base : Except ReadError D) with
    | .ok value => value
    | .error _ => assigned atom
  else assigned atom

/-- The value of a statement when every key is assigned a value. -/
def Statement.valueUnder (assigned : Key → D) (statement : Statement) : D :=
  Domain.joinAll (statement.alternatives.map fun atoms =>
    Domain.meetAll (atoms.map (Key.valueUnder assigned)))

omit [Domain D] [DecidableEq D] in
variable (D) in
/-- Whether an atom of an alternative is a key. -/
def mentionsKey (atoms : List Key) : Bool := atoms.any fun atom => (atom.constant? : Option D).isNone

omit [Domain D] [DecidableEq D] in
/-- An atom that is no value has what is assigned to its key. -/
theorem Key.valueUnder_eq (assigned : Key → D) (atom : Key) :
    atom.valueUnder assigned = (atom.constant? : Option D).getD (assigned atom) := by
  unfold Key.valueUnder Key.constant? Spelling.read?
  by_cases hplain : atom.stable ∧ ¬atom.negated
  · have hplain' : (atom.stable && !atom.negated) = true := by simpa using hplain
    rw [if_pos hplain, if_pos hplain']
    cases (Spelling.read atom.base : Except ReadError D) <;> rfl
  · have hplain' : ¬(atom.stable && !atom.negated) = true := by simpa using hplain
    rw [if_neg hplain, if_neg hplain']
    rfl

omit [DecidableEq D] in
/-- What an alternative says has the value of the meet of its atoms. -/
theorem Product.eval_ofAlternative [LawfulDomain D] (assigned : Key → D) (atoms : List Key) :
    (Product.ofAlternative atoms : Product D).eval assigned =
      Domain.meetAll (atoms.map (Key.valueUnder assigned)) := by
  refine Domain.eq_of_lower_bounds fun c => ?_
  rw [Product.eval, Domain.le_foldl_meet_iff, Domain.le_meetAll_iff]
  constructor
  · rintro ⟨hvalue, hkeys⟩ a ha
    obtain ⟨atom, hatom, rfl⟩ := List.mem_map.mp ha
    rw [Key.valueUnder_eq]
    cases hconstant : (atom.constant? : Option D) with
    | some value =>
      exact Domain.le_meetAll_iff.mp hvalue value (List.mem_filterMap.mpr ⟨atom, hatom, hconstant⟩)
    | none =>
      refine hkeys _ (List.mem_map_of_mem (Ascending.mem_ofList.mpr ?_))
      exact List.mem_filter.mpr ⟨hatom, by rw [hconstant]; rfl⟩
  · intro hatoms
    refine ⟨Domain.le_meetAll_iff.mpr fun value hvalue => ?_, fun a ha => ?_⟩
    · obtain ⟨atom, hatom, hconstant⟩ := List.mem_filterMap.mp hvalue
      have hbelow := hatoms _ (List.mem_map_of_mem hatom)
      rwa [Key.valueUnder_eq, hconstant] at hbelow
    · obtain ⟨atom, hmem, rfl⟩ := List.mem_map.mp ha
      obtain ⟨hatom, hkey⟩ := List.mem_filter.mp (Ascending.mem_ofList.mp hmem)
      have hbelow := hatoms _ (List.mem_map_of_mem hatom)
      rwa [Key.valueUnder_eq, Option.isNone_iff_eq_none.mp hkey] at hbelow

/-- Alternatives that can be joined have the value of their join. -/
theorem Rhs.eval_ofAlternatives [LawfulDomain D] {limit : Nat} {alternatives : List (List Key)}
    {rhs : Rhs D} (h : ofAlternatives limit alternatives = .ok rhs) (assigned : Key → D) :
    rhs.eval assigned = Domain.joinAll (alternatives.map fun atoms =>
      Domain.meetAll (atoms.map (Key.valueUnder assigned))) := by
  rw [eval_eq_joinAll_sum, (saysSame_of_ofAlternatives h).joinAll_map_eval_eq assigned, List.map_map]
  exact congrArg Domain.joinAll
    (List.map_congr_left fun atoms _ => Product.eval_ofAlternative assigned atoms)

/-! ## Alternatives with keys -/

namespace Rhs

omit [Domain D] [Spelling D] in
/-- A constant adds no keys to a set of products. -/
theorem size_insert_constant (products : ArrivalSet (Product D)) (value : D) :
    (pending (products.insert (.constant value))).size = (pending products).size := by
  by_cases hmem : Product.constant value ∈ products
  · rw [ArrivalSet.insert_of_mem hmem]
  · rw [size, ArrivalSet.toList_insert_of_not_mem hmem, Product.occurrences_append]
    rfl

omit [DecidableEq D] [Spelling D] in
/-- A right hand side comes from alternatives of which some number has keys: none if it is a value, other
than top, and one if it is above the limit. -/
structure JoinedFrom (limit count : Nat) (rhs : Rhs D) : Prop where
  count_eq_zero : ∀ value, rhs = .final value → value ≠ Domain.top → count = 0
  count_eq_one : limit < rhs.size → count = 1

variable {limit : Nat}

omit [DecidableEq D] [Spelling D] in
/-- Top comes from any number of alternatives with keys. -/
theorem joinedFrom_top (count : Nat) : JoinedFrom limit count (top : Rhs D) where
  count_eq_zero := fun _ htop hne => absurd (Rhs.final.inj htop).symm hne
  count_eq_one := fun hlarge => absurd hlarge (Nat.not_lt_zero limit)

/-- An alternative is read as a value, or as one product with keys. -/
theorem joinedFrom_ofAlternative (limit : Nat) (atoms : List Key) :
    JoinedFrom limit (mentionsKey D atoms).toNat (ofAlternative atoms : Rhs D) := by
  have hkeys : (atoms.filter fun atom => (atom.constant? : Option D).isNone).isEmpty =
      !mentionsKey D atoms := by
    rw [Bool.eq_iff_iff]
    simp [mentionsKey]
  unfold ofAlternative
  dsimp only
  rw [hkeys]
  cases mentionsKey D atoms with
  | false => exact ⟨fun _ _ _ => rfl, fun hlarge => absurd hlarge (Nat.not_lt_zero limit)⟩
  | true => exact ⟨fun _ hfinal _ => (nomatch hfinal), fun _ => rfl⟩

omit [Spelling D] in
/-- A join comes from the alternatives of both sides together. -/
theorem JoinedFrom.join {r s t : Rhs D} {count more : Nat} (hr : JoinedFrom limit count r)
    (hs : JoinedFrom limit more s) (h : r.join limit s = .ok t) :
    JoinedFrom limit (count + more) t := by
  unfold Rhs.join at h
  split at h
  next hrtop =>
    cases h
    rw [hrtop]
    exact joinedFrom_top _
  next hrtop =>
    split at h
    next hstop =>
      cases h
      rw [hstop]
      exact joinedFrom_top _
    next hstop =>
      have hne {rhs : Rhs D} {a : D} (hrhs : rhs ≠ top) (hfinal : rhs = .final a) : a ≠ Domain.top :=
        fun htop => hrhs (hfinal.trans (congrArg Rhs.final htop))
      split at h
      next a b =>
        cases h
        obtain rfl := hr.count_eq_zero a rfl (hne hrtop rfl)
        obtain rfl := hs.count_eq_zero b rfl (hne hstop rfl)
        exact ⟨fun _ _ _ => rfl, fun hlarge => absurd hlarge (Nat.not_lt_zero limit)⟩
      next a products =>
        cases h
        obtain rfl := hr.count_eq_zero a rfl (hne hrtop rfl)
        refine ⟨fun _ hfinal => (nomatch hfinal), fun hlarge => ?_⟩
        rw [size_insert_constant] at hlarge
        rw [Nat.zero_add, hs.count_eq_one hlarge]
      next products b =>
        cases h
        obtain rfl := hs.count_eq_zero b rfl (hne hstop rfl)
        refine ⟨fun _ hfinal => (nomatch hfinal), fun hlarge => ?_⟩
        rw [size_insert_constant] at hlarge
        rw [Nat.add_zero, hr.count_eq_one hlarge]
      next products others =>
        unfold pendingWithin at h
        dsimp only at h
        split at h
        next => cases h
        next hfits =>
          cases h
          exact ⟨fun _ hfinal => (nomatch hfinal), fun hlarge => absurd hlarge hfits⟩

/-- Reading on joins what comes from the alternatives before with what comes from the others. -/
theorem JoinedFrom.foldlM {others : List (List Key)} {start rhs : Rhs D} {count : Nat}
    (hstart : JoinedFrom limit count start)
    (h : others.foldlM (fun rhs atoms => rhs.join limit (.ofAlternative atoms)) start = .ok rhs) :
    JoinedFrom limit (count + others.countP (mentionsKey D)) rhs := by
  induction others generalizing start count with
  | nil =>
    cases h
    exact hstart
  | cons atoms others ih =>
    rw [List.foldlM_cons] at h
    match hjoin : start.join limit (.ofAlternative atoms) with
    | .error excess => rw [hjoin] at h; cases h
    | .ok next =>
      rw [hjoin] at h
      have hnext := ih (hstart.join (joinedFrom_ofAlternative limit atoms) hjoin) h
      rw [List.countP_cons, Nat.add_comm (others.countP _), ← Nat.add_assoc]
      cases hmentions : mentionsKey D atoms <;> simpa [hmentions] using hnext

/-- A right hand side above the limit comes from a single alternative with keys. -/
theorem countP_mentionsKey_eq_one {alternatives : List (List Key)} {rhs : Rhs D}
    (h : ofAlternatives limit alternatives = .ok rhs) (hlarge : limit < rhs.size) :
    alternatives.countP (mentionsKey D) = 1 := by
  cases alternatives with
  | nil =>
    cases h
    exact absurd hlarge (Nat.not_lt_zero limit)
  | cons first others =>
    have hone := ((joinedFrom_ofAlternative limit first).foldlM h).count_eq_one hlarge
    rw [List.countP_cons, Nat.add_comm]
    cases hmentions : mentionsKey D first <;> simpa [hmentions] using hone

end Rhs

/-! ## Texts -/

/-- A definition says what a statement says: it stands on the line of the statement, gives the key of the
statement a right hand side with the value of the statement, and if it is above the limit, a single
alternative of the statement has keys. -/
structure Definition.Renders (limit : Nat) (definition : Definition D) (statement : Statement) : Prop where
  line_eq : definition.line = statement.line
  key_eq : definition.equation.key = statement.key
  eval_eq : ∀ assigned, definition.equation.rhs.eval assigned = statement.valueUnder assigned
  countP_eq_one : limit < definition.equation.rhs.size →
    statement.alternatives.countP (mentionsKey D) = 1

/-- Statements are read in their order. Each is kept as a definition that says the same, or is reported
as dropped, which happens only if its different alternatives mention more keys than the limit allows. -/
inductive Statement.ReadAs (limit : Nat) : List Statement → List (Definition D) → List Report → Prop
  | nil : ReadAs limit [] [] []
  | kept {statement : Statement} {statements : List Statement} {definition : Definition D}
      {definitions : List (Definition D)} {reports : List Report}
      (hrenders : definition.Renders limit statement) (hrest : ReadAs limit statements definitions reports) :
      ReadAs limit (statement :: statements) (definition :: definitions) reports
  | dropped {statement : Statement} {statements : List Statement} {definitions : List (Definition D)}
      {reports : List Report} (excess : TooLarge)
      (hlarge : limit < Product.occurrences
        (Product.ofAlternatives statement.alternatives : ArrivalSet (Product D)).toList)
      (hrest : ReadAs limit statements definitions reports) :
      ReadAs limit (statement :: statements) definitions (statement.dropReport excess :: reports)

namespace Reading

/-- The statements of a list are read in their order. -/
theorem readAs_defineAll [LawfulDomain D] (limit : Nat) (statements : List Statement) :
    Statement.ReadAs limit statements (Statement.defineAll limit statements : List (Definition D) × _).1
      (Statement.defineAll limit statements : List (Definition D) × _).2 := by
  induction statements with
  | nil => exact .nil
  | cons statement rest ih =>
    rw [Statement.defineAll, Statement.define]
    cases hrhs : (Rhs.ofAlternatives limit statement.alternatives : Except TooLarge (Rhs D)) with
    | ok rhs =>
      refine .kept ⟨rfl, rfl, fun assigned => ?_, fun hlarge => ?_⟩ ih
      · exact Rhs.eval_ofAlternatives hrhs assigned
      · exact Rhs.countP_mentionsKey_eq_one hrhs hlarge
    | error excess =>
      refine .dropped excess ?_ ih
      by_contra hfits
      obtain ⟨rhs, hread, -⟩ := Rhs.exists_ofAlternatives (Nat.not_lt.mp hfits)
      rw [hrhs] at hread
      cases hread

/-- A source that consists of statements is read as these statements say. -/
theorem readAs_of_consistsOf [LawfulDomain D] {source : String} {statements : List Statement}
    (h : ConsistsOf source statements) (limit : Nat) :
    ∃ definitions reports, (ofSource limit source : Reading D) = ⟨some definitions, reports⟩ ∧
      Statement.ReadAs limit statements definitions reports := by
  have hread := h.ofSource_eq (D := D) limit
  have hall := readAs_defineAll (D := D) limit statements
  rw [Statement.defineAll_eq] at hall
  exact ⟨_, _, hread, hall⟩

/-- A text with a statement that is kept above the limit of one key, one that is dropped although it ends
in top, and one that begins with top. One of its atoms is a value with a mark, which makes it a key. -/
def absorbedText : String := "k? = a & b | No & Maybe;\n!y = a | b | Yes;\nz = Yes | a & b | Yes?;"

/-- The statements of the text. -/
def absorbedStatements : List Statement :=
  let a : Key := ⟨"a", true, false⟩
  let b : Key := ⟨"b", true, false⟩
  let yes : Key := ⟨"Yes", true, false⟩
  [⟨1, ⟨"k", false, false⟩, [[a, b], [⟨"No", true, false⟩, ⟨"Maybe", true, false⟩]]⟩,
    ⟨2, ⟨"y", true, true⟩, [[a], [b], [yes]]⟩,
    ⟨3, ⟨"z", true, false⟩, [[yes], [a, b], [⟨"Yes", false, false⟩]]⟩]

/-- Over the chain, two of the statements are kept and one is dropped. -/
theorem readAs_of_consistsOf_absorbed :
    ConsistsOf absorbedText absorbedStatements ∧
      (∃ definitions reports,
        (ofSource 1 absorbedText : Reading Ternary) = ⟨some definitions, reports⟩ ∧
        Statement.ReadAs 1 absorbedStatements definitions reports) ∧
      (ofSource 1 absorbedText : Reading Ternary).reports =
        [⟨.error, 2, "at 'y'", "Equation dropped, equation size 2 exceeds the limit of 1."⟩] ∧
      (ofSource 1 absorbedText : Reading Ternary).definitions?.map
          (List.map fun definition => definition.equation.rhs.size) = some [2, 0] := by
  have htokens : Tokens.ofSource absorbedText = .ok ⟨(absorbedStatements.map fun statement =>
      statement.lexemes.map fun lexeme => ⟨lexeme, statement.line⟩).flatten, 3⟩ := by cbv
  have hsource : ConsistsOf absorbedText absorbedStatements :=
    consistsOf_of_lexemes (by decide) htokens
  refine ⟨hsource, readAs_of_consistsOf hsource 1, ?_, ?_⟩
  · rw [hsource.ofSource_eq]
    cbv
  · rw [hsource.ofSource_eq]
    cbv

end Reading

end MonotoneEquations
