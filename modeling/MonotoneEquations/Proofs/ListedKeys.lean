import MonotoneEquations.Proofs.PrintedSolution

/-!
# Which keys a solution lists

A session that shows unresolved keys lists a key with its value, or with a question mark if it did not
get one. The listing is made from the definitions, so it says something about every key that has a
definition, whatever became of it: a key of which every equation was refused by the solver gets a
question mark like one that waits.

A statement that is dropped while its alternatives are joined makes no definition. So the keys on the
left of a text are all listed exactly if each of them has a statement that is not dropped. That the
other keys are missing, and not only written differently, rests on reading a listing back: the keys of
a listing can be told from its text.
-/

namespace MonotoneEquations

section Listing

variable {D : Type} [Spelling D]

/-- The lines of a list of keys, each with its value or with a question mark. -/
def listing (solution : KeyMap D) (order : List Key) : String :=
  String.join (order.map fun key =>
    key.write ++ " = " ++ ((solution.get? key).map Spelling.write).getD "?" ++ "\n")

/-- A text has exactly one line for each of some keys: the key with its value, or with a question mark if
it has none. -/
def ListsKeys (keys : List Key) (solution : KeyMap D) (text : String) : Prop :=
  ∃ order : List Key, order.Nodup ∧ (∀ key, key ∈ order ↔ key ∈ keys) ∧ text = listing solution order

/-- The lines of a text can be read in one way only. -/
theorem LinesRead.unique {text : String} {entries others : List (Key × String)}
    (h : LinesRead text entries) (h' : LinesRead text others) : entries = others := by
  obtain ⟨lines, hlines, hread⟩ := h
  obtain ⟨again, hagain, hread'⟩ := h'
  obtain rfl : lines = again := List.append_cancel_right (hlines.symm.trans hagain)
  exact List.map_injective_iff.mpr (Option.some_injective _) (hread.symm.trans hread')

variable {solution : KeyMap D}

/-- A listing is read as its keys with their values or question marks. -/
theorem linesRead_listing {order : List Key} (hnames : ∀ key ∈ order, IsName key.base.toList)
    (hlegible : ∀ value : D, IsLegible value) :
    LinesRead (listing solution order)
      (order.map fun key => (key, ((solution.get? key).map Spelling.write).getD "?")) := by
  refine linesRead_of_entries ?_ fun entry hentry => ?_
  · rw [listing, String.toList_join, List.flatMap_map, List.flatMap_map, List.flatMap_map]
    exact List.flatMap_congr fun key _ => by simp [entryLine]
  · obtain ⟨key, hkey, rfl⟩ := List.mem_map.mp hentry
    refine ⟨hnames key hkey, ?_⟩
    cases solution.get? key with
    | some value => exact (hlegible value).write_ne.2
    | none => simp

/-- The keys of a listing can be told from its text. -/
theorem listing_injective {order other : List Key} (horder : ∀ key ∈ order, IsName key.base.toList)
    (hother : ∀ key ∈ other, IsName key.base.toList) (hlegible : ∀ value : D, IsLegible value)
    (h : listing solution order = listing solution other) : order = other := by
  have hread : LinesRead (listing solution order) _ := linesRead_listing horder hlegible
  rw [h] at hread
  have hentries := congrArg (List.map Prod.fst)
    (hread.unique (linesRead_listing hother hlegible))
  simpa [List.map_map, Function.comp_def] using hentries

/-- With unresolved keys, a printed solution lists the keys of its definitions. -/
theorem listsKeys_printSolution (definitions : List (Definition D)) :
    ListsKeys (definitions.map fun definition => definition.equation.key) solution
      (printSolution true definitions solution) := by
  have hline : solutionLine? true solution = fun key =>
      some (key.write ++ " = " ++ ((solution.get? key).map Spelling.write).getD "?" ++ "\n") := by
    funext key
    unfold solutionLine?
    cases solution.get? key <;> simp [String.append_assoc]
  let keys := KeySet.ofList (definitions.map fun definition => definition.equation.key)
  refine ⟨keys.toList, keys.nodup, fun key => Ascending.mem_ofList, ?_⟩
  rw [printSolution, hline, List.filterMap_eq_map', listing]

/-- A text that lists some keys lists others exactly if they are the same. -/
theorem ListsKeys.iff_mem_iff {keys others : List Key} {text : String}
    (h : ListsKeys keys solution text) (hkeys : ∀ key ∈ keys, IsName key.base.toList)
    (hothers : ∀ key ∈ others, IsName key.base.toList) (hlegible : ∀ value : D, IsLegible value) :
    ListsKeys others solution text ↔ ∀ key, key ∈ others ↔ key ∈ keys := by
  obtain ⟨order, hnodup, hmem, rfl⟩ := h
  constructor
  · rintro ⟨again, -, hagain, htext⟩
    have horder := listing_injective (fun key hkey => hkeys key ((hmem key).mp hkey))
      (fun key hkey => hothers key ((hagain key).mp hkey)) hlegible htext
    intro key
    rw [← hagain, ← horder, hmem]
  · exact fun hsame => ⟨order, hnodup, fun key => (hmem key).trans (hsame key).symm, rfl⟩

end Listing

/-- The keys of the statements of a source have valid names. -/
theorem ConsistsOf.isName_key {source : String} {statements : List Statement}
    (h : ConsistsOf source statements) :
    ∀ statement ∈ statements, IsName statement.key.base.toList := by
  obtain ⟨tokens, parts, htokens, hspelled, hbody⟩ := h
  have hnames := Statement.hasNames_of_isSpelledBy hspelled fun text hmem =>
    Tokens.isName_of_ofSource htokens (by rwa [Tokens.lexemes, ← hbody])
  exact fun statement hstatement => (hnames statement hstatement).2.1

/-- Whether the alternatives of a statement can be joined, so that it makes a definition. -/
def Statement.isKept (D : Type) [Domain D] [DecidableEq D] [Spelling D] (limit : Nat)
    (statement : Statement) : Bool := (statement.definition? D limit).isSome

namespace Session

/-- The output of a session lists some keys: behind the printed equations, if these are asked for, comes a
text with exactly one line for each of the keys, with its value in the solution of the definitions of
the source, or with a question mark. -/
def ListsKeysOf (D : Type) [Domain D] [DecidableEq D] [Spelling D] (options : Options) (source : String)
    (keys : List Key) (out : String) : Prop :=
  ∃ (definitions : List (Definition D)) (reports : List Report) (text : String),
    Reading.ofSource options.limit source = ⟨some definitions, reports⟩ ∧
    out = (if options.dumpEquations then printEquations definitions ++ "\n" else "") ++ text ∧
    ListsKeys keys (store options definitions).solve.solution text

variable {D : Type} [Domain D] [DecidableEq D] [Spelling D]

/-- The definitions of some statements have the keys of those that are kept. -/
theorem mem_keys_filterMap_definition? {limit : Nat} {statements : List Statement} {key : Key} :
    key ∈ (statements.filterMap (Statement.definition? D limit)).map
        (fun definition => definition.equation.key) ↔
      ∃ statement ∈ statements, statement.isKept D limit = true ∧ statement.key = key := by
  rw [List.map_filterMap, List.mem_filterMap]
  refine exists_congr fun statement => and_congr_right fun _ => ?_
  unfold Statement.isKept Statement.definition?
  cases (Rhs.ofAlternatives limit statement.alternatives : Except TooLarge (Rhs D)) <;> simp

/-- With unresolved keys, a session over a domain of legible values lists the keys of the statements that
are kept, and no other keys. -/
theorem listsKeysOf_runOver_iff (hlegible : ∀ value : D, IsLegible value) {options : Options}
    (hshow : options.showUnresolved = true) {source : String} {statements : List Statement}
    (hsource : ConsistsOf source statements) {keys : List Key}
    (hkeys : ∀ key ∈ keys, ∃ statement ∈ statements, statement.key = key) :
    ListsKeysOf D options source keys (runOver D options source).diagnostics.out ↔
      ∀ key, key ∈ keys ↔
        ∃ statement ∈ statements, statement.isKept D options.limit = true ∧ statement.key = key := by
  let definitions : List (Definition D) :=
    statements.filterMap (Statement.definition? D options.limit)
  let text := printSolution true definitions (store options definitions).solve.solution
  have hread := hsource.ofSource_eq (D := D) options.limit
  have hout : (runOver D options source).diagnostics.out =
      (if options.dumpEquations then printEquations definitions ++ "\n" else "") ++ text := by
    rw [runOver, hread]
    dsimp only
    rw [diagnostics_solve, hshow]
  have hlists : ListsKeys keys (store options definitions).solve.solution text ↔
      ∀ key, key ∈ keys ↔ key ∈ definitions.map fun definition => definition.equation.key := by
    refine (listsKeys_printSolution definitions).iff_mem_iff (fun key hkey => ?_) (fun key hkey => ?_)
      hlegible
    · obtain ⟨statement, hstatement, -, rfl⟩ := mem_keys_filterMap_definition?.mp hkey
      exact hsource.isName_key statement hstatement
    · obtain ⟨statement, hstatement, rfl⟩ := hkeys key hkey
      exact hsource.isName_key statement hstatement
  simp only [definitions, mem_keys_filterMap_definition?] at hlists
  rw [← hlists]
  constructor
  · rintro ⟨others, reports, again, hagain, hother, hlisted⟩
    rw [hread] at hagain
    cases hagain
    rw [hout] at hother
    rwa [(String.append_right_inj _).mp hother]
  · exact fun hlisted => ⟨definitions, _, text, hread, hout, hlisted⟩

/-- A session lists the keys of the statements that are kept. It lists every key on the left of its source
exactly if each of them is the key of a statement that is kept. -/
def ListsKept (D : Type) [Domain D] [DecidableEq D] [Spelling D] (options : Options)
    (statements : List Statement) (source out : String) : Prop :=
  ListsKeysOf D options source
      ((statements.filter (Statement.isKept D options.limit)).map Statement.key) out ∧
    (ListsKeysOf D options source (statements.map Statement.key) out ↔
      ∀ statement ∈ statements, ∃ other ∈ statements,
        other.isKept D options.limit = true ∧ other.key = statement.key)

/-- With unresolved keys, a session over a domain of legible values lists what is kept. -/
theorem listsKept_runOver (hlegible : ∀ value : D, IsLegible value) {options : Options}
    (hshow : options.showUnresolved = true) {source : String} {statements : List Statement}
    (hsource : ConsistsOf source statements) :
    ListsKept D options statements source (runOver D options source).diagnostics.out := by
  refine ⟨(listsKeysOf_runOver_iff hlegible hshow hsource fun key hkey => ?_).mpr fun key => ?_, ?_⟩
  · obtain ⟨statement, hstatement, rfl⟩ := List.mem_map.mp hkey
    exact ⟨statement, (List.mem_filter.mp hstatement).1, rfl⟩
  · simp only [List.mem_map, List.mem_filter, and_assoc]
  · rw [listsKeysOf_runOver_iff hlegible hshow hsource fun key => List.mem_map.mp]
    simp only [List.mem_map]
    constructor
    · exact fun hsame statement hstatement => (hsame statement.key).mp ⟨statement, hstatement, rfl⟩
    · intro hkept key
      constructor
      · rintro ⟨statement, hstatement, rfl⟩
        exact hkept statement hstatement
      · rintro ⟨statement, hstatement, -, rfl⟩
        exact ⟨statement, hstatement, rfl⟩

/-- Over the domain that its options choose, a session lists the keys of the statements that are kept. -/
def ListsKeptFor (options : Options) (statements : List Statement) (source out : String) : Prop :=
  match options.domain with
  | .ternary => ListsKept Ternary options statements source out
  | .contract => ListsKept (Flat Contract) options statements source out

/-- A session that shows unresolved keys lists every key on the left of its source with a value or with a
question mark, except the keys of which every statement is dropped because its alternatives are too
large to be joined. -/
theorem run_listsKept (options : Options) (hshow : options.showUnresolved = true) {source : String}
    {statements : List Statement} (hsource : ConsistsOf source statements) :
    ListsKeptFor options statements source (run options source).diagnostics.out := by
  rw [run]
  unfold ListsKeptFor
  cases options.domain with
  | ternary => exact listsKept_runOver Ternary.isLegible hshow hsource
  | contract => exact listsKept_runOver Flat.isLegible_of_contract hshow hsource

/-- A text over four keys of which, with a limit of one key, `x` is refused by the solver, `y` is dropped
and then defined again, `z` waits on itself, and `w` is dropped. -/
def crowdedText : String := "x = a & b;\ny = a | b;\ny = Yes;\nz = z | No;\nw = a | b;"

/-- The statements of the text. -/
def crowdedStatements : List Statement :=
  let a : Key := ⟨"a", true, false⟩
  let b : Key := ⟨"b", true, false⟩
  let y : Key := ⟨"y", true, false⟩
  let z : Key := ⟨"z", true, false⟩
  [⟨1, ⟨"x", true, false⟩, [[a, b]]⟩, ⟨2, y, [[a], [b]]⟩, ⟨3, y, [[⟨"Yes", true, false⟩]]⟩,
    ⟨4, z, [[z], [⟨"No", true, false⟩]]⟩, ⟨5, ⟨"w", true, false⟩, [[a], [b]]⟩]

/-- Of the four keys of the text, three are listed. -/
theorem run_listsKept_crowded :
    let options : Options := { limit := 1, showUnresolved := true }
    ConsistsOf crowdedText crowdedStatements ∧
      ListsKeptFor options crowdedStatements crowdedText (run options crowdedText).diagnostics.out ∧
      (run options crowdedText).diagnostics.out = "x = ?\ny = Yes\nz = ?\n" := by
  have htokens : Tokens.ofSource crowdedText = .ok ⟨(crowdedStatements.map fun statement =>
      statement.lexemes.map fun lexeme => ⟨lexeme, statement.line⟩).flatten, 5⟩ := by cbv
  have hsource : ConsistsOf crowdedText crowdedStatements :=
    consistsOf_of_lexemes (by decide) htokens
  refine ⟨hsource, run_listsKept _ rfl hsource, ?_⟩
  have hread := hsource.ofSource_eq (D := Ternary) 1
  show (runOver Ternary { limit := 1, showUnresolved := true } crowdedText).diagnostics.out = _
  rw [runOver, hread]
  cbv

/-- Two statements that are too large for a limit of one key. The solver refuses the first one, and the
second one is dropped while its alternatives are joined. -/
def overlargeText : String := "x = a & b;\ny = a | b;\n"

/-- The statements of the text. -/
def overlargeStatements : List Statement :=
  let a : Key := ⟨"a", true, false⟩
  let b : Key := ⟨"b", true, false⟩
  [⟨1, ⟨"x", true, false⟩, [[a, b]]⟩, ⟨2, ⟨"y", true, false⟩, [[a], [b]]⟩]

/-- Of the two keys of the text, only the one that the solver refuses is listed. -/
theorem not_listsKeysOf_overlarge :
    let options : Options := { limit := 1, showUnresolved := true }
    ConsistsOf overlargeText overlargeStatements ∧
      (run options overlargeText).diagnostics.out = "x = ?\n" ∧
      ¬ListsKeysOf Ternary options overlargeText (overlargeStatements.map Statement.key)
        (run options overlargeText).diagnostics.out := by
  have htokens : Tokens.ofSource overlargeText = .ok ⟨(overlargeStatements.map fun statement =>
      statement.lexemes.map fun lexeme => ⟨lexeme, statement.line⟩).flatten, 3⟩ := by cbv
  have hsource : ConsistsOf overlargeText overlargeStatements :=
    consistsOf_of_lexemes (by decide) htokens
  refine ⟨hsource, ?_, fun hlists => ?_⟩
  · have hread := hsource.ofSource_eq (D := Ternary) 1
    show (runOver Ternary { limit := 1, showUnresolved := true } overlargeText).diagnostics.out = _
    rw [runOver, hread]
    cbv
  · have hkept : ListsKept Ternary { limit := 1, showUnresolved := true } overlargeStatements overlargeText
        (run { limit := 1, showUnresolved := true } overlargeText).diagnostics.out :=
      listsKept_runOver Ternary.isLegible rfl hsource
    have hall := hkept.2.mp hlists
    revert hall
    decide

end Session

end MonotoneEquations
