import Mathlib
import MonotoneEquations.Proofs.Completeness
import MonotoneEquations.Proofs.RoundTrip
import MonotoneEquations.Proofs.SessionRun

/-!
# Reading a printed solution

A printed solution can be read without knowing the equations: each line splits before and after the
first ` = `, what stands before it decodes to a key, and what stands behind it is a value or a question
mark. Keys decode uniquely because no name starts with an exclamation mark or ends with a question mark,
and no value is written as a question mark because values are written as names.

So the lines give back the solution, and the keys that were defined without getting a value if these
are shown. Nothing else about the definitions can be seen.
-/

namespace MonotoneEquations

/-! ## Decoding -/

/-- The key that a text displays: an exclamation mark in front negates the key, and a question mark at
the end makes it unstable. -/
def Key.ofDisplay (text : List Char) : Key :=
  let body := if text.head? = some '!' then text.tail else text
  let base := if body.getLast? = some '?' then body.dropLast else body
  ⟨String.ofList base, body.getLast? ≠ some '?', text.head? = some '!'⟩

/-- Split a line before and after the first equals sign between two blanks. -/
def splitAtDefine : List Char → Option (List Char × List Char)
  | [] => none
  | c :: rest =>
    if [' ', '=', ' '] <+: c :: rest then some ([], rest.drop 2)
    else (splitAtDefine rest).map fun (front, back) => (c :: front, back)

/-- The key and the right side of a line. -/
def readLine (line : List Char) : Option (Key × String) :=
  (splitAtDefine line).map fun (front, back) => (Key.ofDisplay front, String.ofList back)

/-- The lines of a text, each with the line feed that ends it, have the given keys and right sides. -/
def LinesRead (text : String) (entries : List (Key × String)) : Prop :=
  ∃ lines, text.toList.splitOn '\n' = lines ++ [[]] ∧ lines.map readLine = entries.map some

/-- A character of a name is no operator and no blank. -/
theorem Tokens.ne_of_isNameChar {c : Char} (h : isNameChar c) :
    c ≠ '!' ∧ c ≠ '?' ∧ c ≠ ' ' ∧ c ≠ '\n' := by
  refine ⟨?_, ?_, ?_, ?_⟩ <;>
  · rintro rfl
    revert h
    decide

/-- A valid name does not start with an exclamation mark, and does not end with a question mark. -/
theorem IsName.head?_getLast? {text : List Char} (h : IsName text) :
    (∃ first, text.head? = some first ∧ first ≠ '!') ∧ text.getLast? ≠ some '?' := by
  have hchars := h.isNameChar
  obtain ⟨⟨first, rest, rfl, -, -⟩, -⟩ := h
  have hfirst := (Tokens.ne_of_isNameChar (hchars first List.mem_cons_self)).1
  refine ⟨⟨first, rfl, hfirst⟩, fun hlast => ?_⟩
  exact (Tokens.ne_of_isNameChar (hchars _ (List.mem_of_getLast? hlast))).2.1 rfl

/-- A key with a valid name is decoded from its written form. -/
theorem Key.ofDisplay_write {key : Key} (hname : IsName key.base.toList) :
    ofDisplay key.write.toList = key := by
  obtain ⟨⟨first, hhead, hfirst⟩, hlast⟩ := hname.head?_getLast?
  obtain ⟨base, stable, negated⟩ := key
  cases stable <;> cases negated <;> simp_all [ofDisplay, write]

/-- The characters of a written key belong to its name or are marks. -/
theorem Key.forall_mem_write {key : Key} (hname : IsName key.base.toList) :
    ∀ c ∈ key.write.toList, c ≠ ' ' ∧ c ≠ '\n' := by
  intro c hc
  have hmark (d : Char) (hd : d = '!' ∨ d = '?') : d ≠ ' ' ∧ d ≠ '\n' := by
    rcases hd with rfl | rfl <;> decide
  have hcases : c = '!' ∨ c ∈ key.base.toList ∨ c = '?' := by
    cases hnegated : key.negated <;> cases hstable : key.stable <;> simp_all [write]
    all_goals tauto
  rcases hcases with h | h | h
  · exact hmark c (.inl h)
  · exact (Tokens.ne_of_isNameChar (hname.isNameChar c h)).2.2
  · exact hmark c (.inr h)

/-- A line is split at the first equals sign between blanks. -/
theorem splitAtDefine_append {front : List Char} (hfront : ∀ c ∈ front, c ≠ ' ') (back : List Char) :
    splitAtDefine (front ++ ' ' :: '=' :: ' ' :: back) = some (front, back) := by
  induction front with
  | nil => simp [splitAtDefine]
  | cons c front ih =>
    rw [List.forall_mem_cons] at hfront
    have hne : ¬ [' ', '=', ' '] <+: c :: (front ++ ' ' :: '=' :: ' ' :: back) := by
      intro hprefix
      exact hfront.1 (List.cons_prefix_cons.mp hprefix).1.symm
    rw [List.cons_append, splitAtDefine, if_neg hne, ih hfront.2]
    rfl

/-- The line feeds of a text split it into the lines that they end. -/
theorem splitOn_lines {lines : List (List Char)} (hlines : ∀ line ∈ lines, '\n' ∉ line) :
    (lines.flatMap (· ++ ['\n'])).splitOn '\n' = lines ++ [[]] := by
  have hjoin : lines.flatMap (· ++ ['\n']) = ['\n'].intercalate (lines ++ [[]]) := by
    induction lines with
    | nil => rfl
    | cons line lines ih =>
      obtain ⟨next, rest, hrest⟩ := List.exists_cons_of_ne_nil (l := lines ++ [[]]) (by simp)
      rw [List.flatMap_cons, ih (List.forall_mem_cons.mp hlines).2, List.cons_append, hrest,
        List.intercalate_cons_cons]
  rw [hjoin]
  refine List.splitOn_intercalate '\n' (fun line hline => ?_) (by simp)
  rcases List.mem_append.mp hline with hline | hline
  · exact hlines line hline
  · rw [List.mem_singleton.mp hline]
    exact List.not_mem_nil

/-! ## What the lines show -/

section Show

variable {D : Type} [Spelling D]

/-- The key of a line with its value or with a question mark, if a solution has a line about the key. -/
def solutionPair? (showUnresolved : Bool) (solution : KeyMap D) (key : Key) : Option (Key × String) :=
  match solution.get? key with
  | some value => some (key, Spelling.write value)
  | none => if showUnresolved then some (key, "?") else none

/-- The lines of a text show a solution: their keys ascend, the pairs without a question mark are those
of the solution and are read as its values, and the question marks stand for the defined keys without a
value, if these are shown at all. -/
structure ShowsSolution (showUnresolved : Bool) (defined : List Key) (solution : KeyMap D)
    (entries : List (Key × String)) : Prop where
  ascending : entries.Pairwise fun entry other => compare entry.1 other.1 = .lt
  pairs : entries.filter (fun entry => entry.2 ≠ "?") =
    solution.toList.map fun pair => (pair.1, Spelling.write pair.2)
  values : ∀ pair ∈ solution, Spelling.read? (Spelling.write pair.2) = some pair.2
  open_iff : ∀ key, (key, "?") ∈ entries ↔
    showUnresolved = true ∧ key ∈ defined ∧ solution.get? key = none

/-- A legible value is not written as a question mark, and ends no line. -/
theorem IsLegible.write_ne {value : D} (h : IsLegible value) :
    Spelling.write value ≠ "?" ∧ '\n' ∉ (Spelling.write value).toList := by
  constructor
  · intro heq
    have hlast := h.isName.head?_getLast?.2
    rw [heq] at hlast
    exact hlast rfl
  · exact fun hmem => (Tokens.ne_of_isNameChar (h.isName.isNameChar _ hmem)).2.2.2 rfl

variable {showUnresolved : Bool} {solution : KeyMap D}

/-- The line of an entry, without the line feed that ends it. -/
def entryLine (entry : Key × String) : List Char :=
  entry.1.write.toList ++ ' ' :: '=' :: ' ' :: entry.2.toList

/-- The lines of entries with valid names are read as the entries. -/
theorem linesRead_of_entries {text : String} {entries : List (Key × String)}
    (htext : text.toList = (entries.map entryLine).flatMap (· ++ ['\n']))
    (hentries : ∀ entry ∈ entries, IsName entry.1.base.toList ∧ '\n' ∉ entry.2.toList) :
    LinesRead text entries := by
  refine ⟨entries.map entryLine, ?_, ?_⟩
  · rw [htext]
    refine splitOn_lines (List.forall_mem_map.mpr fun entry hentry => ?_)
    obtain ⟨hname, hright⟩ := hentries entry hentry
    have hleft : '\n' ∉ entry.1.write.toList := fun hmem => (Key.forall_mem_write hname _ hmem).2 rfl
    simp [entryLine, hleft, hright]
  · rw [List.map_map]
    refine List.map_congr_left fun entry hentry => ?_
    obtain ⟨hname, -⟩ := hentries entry hentry
    have hleft : ∀ c ∈ entry.1.write.toList, c ≠ ' ' := fun c hc => (Key.forall_mem_write hname c hc).1
    simp only [Function.comp, entryLine, readLine, splitAtDefine_append hleft, Option.map_some,
      Key.ofDisplay_write hname, String.ofList_toList]

variable {showUnresolved : Bool} {solution : KeyMap D}

/-- The entries of a solution that has a line about some keys. -/
def solutionEntries (showUnresolved : Bool) (solution : KeyMap D) (keys : KeySet) :
    List (Key × String) :=
  keys.toList.filterMap (solutionPair? showUnresolved solution)

/-- An entry is about a key that has its value or a question mark. -/
theorem solutionPair?_eq_some_iff {key : Key} {entry : Key × String} :
    solutionPair? showUnresolved solution key = some entry ↔ entry.1 = key ∧
      ((∃ value, solution.get? key = some value ∧ entry.2 = Spelling.write value) ∨
        showUnresolved = true ∧ solution.get? key = none ∧ entry.2 = "?") := by
  obtain ⟨other, right⟩ := entry
  unfold solutionPair?
  cases solution.get? key with
  | some value => simp [eq_comm]
  | none => cases showUnresolved <;> simp [eq_comm]

/-- A printed solution consists of the lines of its entries. -/
theorem toList_printSolution (definitions : List (Definition D)) :
    (printSolution showUnresolved definitions solution).toList =
      ((solutionEntries showUnresolved solution
        (.ofList (definitions.map fun definition => definition.equation.key))).map entryLine).flatMap
          (· ++ ['\n']) := by
  have hline : solutionLine? showUnresolved solution = fun key =>
      (solutionPair? showUnresolved solution key).map fun entry =>
        entry.1.write ++ " = " ++ entry.2 ++ "\n" := by
    funext key
    unfold solutionLine? solutionPair?
    cases solution.get? key with
    | some value => rfl
    | none => cases showUnresolved <;> simp [String.append_assoc]
  rw [printSolution, hline, ← List.map_filterMap, String.toList_join, List.flatMap_map,
    List.flatMap_map]
  exact List.flatMap_congr fun entry _ => by simp [entryLine]

omit [Spelling D] in
/-- Among keys that include those of a map, the map assigns values to exactly its own. -/
theorem KeyMap.filterMap_get?_eq {keys : KeySet} (hkeys : ∀ pair ∈ solution, pair.1 ∈ keys) :
    (keys.toList.filterMap fun key => (solution.get? key).map fun value => (key, value)) =
      solution.toList := by
  have hascending : (keys.toList.filterMap fun key =>
      (solution.get? key).map fun value => (key, value)).Pairwise
        fun a b => compareOn Prod.fst a b = .lt := by
    refine List.Pairwise.filterMap _ (fun key other hlt pair hpair last hlast => ?_) keys.ascending
    obtain ⟨_, -, rfl⟩ := Option.map_eq_some_iff.mp hpair
    obtain ⟨_, -, rfl⟩ := Option.map_eq_some_iff.mp hlast
    exact hlt
  have hsame : (⟨_, hascending⟩ : KeyMap D) = solution := by
    refine Ascending.ext_of_mem fun pair => ?_
    obtain ⟨key, value⟩ := pair
    have hmem : (key, value) ∈ (⟨_, hascending⟩ : KeyMap D) ↔
        key ∈ keys ∧ solution.get? key = some value := by
      refine List.mem_filterMap.trans ⟨?_, fun h => ⟨key, h.1, by rw [h.2]; rfl⟩⟩
      rintro ⟨other, hother, hpair⟩
      obtain ⟨_, hvalue, heq⟩ := Option.map_eq_some_iff.mp hpair
      cases heq
      exact ⟨hother, hvalue⟩
    rw [hmem, KeyMap.get?_eq_some_iff]
    exact and_iff_right_of_imp (hkeys (key, value))
  exact congrArg Ascending.toList hsame

/-- The entries of a solution of legible values show the solution, if all keys of the solution are among
the given ones. -/
theorem showsSolution_solutionEntries {keys : KeySet} {defined : List Key}
    (hdefined : ∀ key, key ∈ keys ↔ key ∈ defined) (hkeys : ∀ pair ∈ solution, pair.1 ∈ defined)
    (hlegible : ∀ pair ∈ solution, IsLegible pair.2) :
    ShowsSolution showUnresolved defined solution (solutionEntries showUnresolved solution keys) where
  ascending := by
    refine List.Pairwise.filterMap _ (fun key other hlt entry hentry last hlast => ?_) keys.ascending
    rw [(solutionPair?_eq_some_iff.mp hentry).1, (solutionPair?_eq_some_iff.mp hlast).1]
    exact hlt
  pairs := by
    have hentry (key : Key) :
        (solutionPair? showUnresolved solution key).filter (fun entry => entry.2 ≠ "?") =
        ((solution.get? key).map fun value => (key, value)).map fun pair =>
          (pair.1, Spelling.write pair.2) := by
      unfold solutionPair?
      cases hvalue : solution.get? key with
      | some value =>
        have hne := (hlegible (key, value) (KeyMap.get?_eq_some_iff.mp hvalue)).write_ne.1
        simp [hne]
      | none => cases showUnresolved <;> simp
    have hall : ∀ pair ∈ solution, pair.1 ∈ keys := fun pair hpair =>
      (hdefined _).mpr (hkeys pair hpair)
    rw [solutionEntries, List.filter_filterMap, ← KeyMap.filterMap_get?_eq hall, List.map_filterMap]
    exact List.filterMap_congr fun key _ => hentry key
  values := fun pair hpair => (hlegible pair hpair).read
  open_iff := by
    intro key
    rw [solutionEntries, List.mem_filterMap, ← hdefined]
    constructor
    · rintro ⟨other, hother, hentry⟩
      obtain ⟨rfl, hcases⟩ := solutionPair?_eq_some_iff.mp hentry
      rcases hcases with ⟨value, hvalue, hright⟩ | ⟨hshow, hnone, -⟩
      · have hpair := KeyMap.get?_eq_some_iff.mp hvalue
        exact absurd hright.symm (hlegible _ hpair).write_ne.1
      · exact ⟨hshow, hother, hnone⟩
    · rintro ⟨hshow, hmem, hnone⟩
      exact ⟨key, hmem, solutionPair?_eq_some_iff.mpr ⟨rfl, .inr ⟨hshow, hnone, rfl⟩⟩⟩

/-- The lines of a printed solution of legible values are read as its entries, if the keys of the
definitions have valid names. -/
theorem linesRead_printSolution {definitions : List (Definition D)}
    (hnames : ∀ definition ∈ definitions, IsName definition.equation.key.base.toList)
    (hlegible : ∀ pair ∈ solution, IsLegible pair.2) :
    LinesRead (printSolution showUnresolved definitions solution)
      (solutionEntries showUnresolved solution
        (.ofList (definitions.map fun definition => definition.equation.key))) := by
  refine linesRead_of_entries (toList_printSolution definitions) fun entry hentry => ?_
  obtain ⟨key, hkey, hentry⟩ := List.mem_filterMap.mp hentry
  obtain ⟨rfl, hcases⟩ := solutionPair?_eq_some_iff.mp hentry
  obtain ⟨definition, hdefinition, heq⟩ := List.mem_map.mp (Ascending.mem_ofList.mp hkey)
  refine ⟨heq ▸ hnames definition hdefinition, ?_⟩
  rcases hcases with ⟨value, hvalue, hright⟩ | ⟨-, -, hright⟩
  · rw [hright]
    exact (hlegible _ (KeyMap.get?_eq_some_iff.mp hvalue)).write_ne.2
  · rw [hright]
    decide

/-- Only the set of the defined keys shows in a printed solution. -/
theorem printSolution_congr {definitions others : List (Definition D)}
    (hsame : ∀ key, key ∈ others.map (fun definition => definition.equation.key) ↔
      key ∈ definitions.map fun definition => definition.equation.key) :
    printSolution showUnresolved others solution =
      printSolution showUnresolved definitions solution := by
  have hkeys : KeySet.ofList (others.map fun definition => definition.equation.key) =
      .ofList (definitions.map fun definition => definition.equation.key) :=
    Ascending.ext_of_mem fun key => by rw [Ascending.mem_ofList, Ascending.mem_ofList, hsame]
  rw [printSolution, printSolution, hkeys]

end Show

/-! ## Solutions of sessions -/

/-- The values of the chain are legible. -/
theorem Ternary.isLegible (value : Ternary) : IsLegible value := by cases value <;> decide

/-- The values of the flat domain of contracts are legible. -/
theorem Flat.isLegible_of_contract (value : Flat Contract) : IsLegible value := by
  cases value with
  | bottom => exact isLegible_bottom
  | top => exact isLegible_top
  | elem contract => cases contract <;> decide

variable {D : Type} [Domain D] [DecidableEq D]

/-- The accepted equations are offered ones, in the same order. -/
theorem Solver.accepted_sublist (solver : Solver D) (offered : List (Equation D)) :
    (solver.accepted offered).Sublist offered := by
  induction offered generalizing solver with
  | nil => exact .slnil
  | cons equation offered ih =>
    rw [accepted]
    cases solver.add equation with
    | error _ => exact (ih solver).cons _
    | ok next => exact (ih next).cons_cons _

/-- Every key of a solution is the key of an equation that was offered. -/
theorem Store.mem_keys_of_mem_solution (limit : Nat) (offered : List (Equation D)) :
    ∀ pair ∈ ((new limit).addAll offered).solve.solution, pair.1 ∈ offered.map Equation.key := by
  intro pair hpair
  have hannounced := (Solver.announced_new limit).addAll offered
  rw [List.nil_append] at hannounced
  rw [solve_addAll] at hpair
  have hresolved : pair ∈ ((Solver.new limit).addAll offered).run.resolutions :=
    hannounced.solution_run_perm.mem_iff.mp hpair
  have hmem := hannounced.mem_keys_of_mem_resolutions_run hresolved
  exact ((Solver.accepted_sublist _ offered).map _).subset hmem

namespace Session

/-- The output of a session shows its solution: behind the printed equations, if these are asked for,
comes a text whose lines show the solution of the definitions of the source. Other definitions of the
same keys, in whatever order and however often, would be printed as the same text. -/
def PrintsSolution (D : Type) [Domain D] [DecidableEq D] [Spelling D] (options : Options)
    (source out : String) : Prop :=
  ∃ (definitions : List (Definition D)) (reports : List Report) (text : String)
    (entries : List (Key × String)),
    Reading.ofSource options.limit source = ⟨some definitions, reports⟩ ∧
    out = (if options.dumpEquations then printEquations definitions ++ "\n" else "") ++ text ∧
    LinesRead text entries ∧
    ShowsSolution options.showUnresolved (definitions.map fun definition => definition.equation.key)
      (store options definitions).solve.solution entries ∧
    ∀ others : List (Definition D),
      (∀ key, key ∈ others.map (fun definition => definition.equation.key) ↔
        key ∈ definitions.map fun definition => definition.equation.key) →
      printSolution options.showUnresolved others (store options definitions).solve.solution = text

variable [Spelling D]

/-- A session over a domain of legible values shows its solution. -/
theorem printsSolution_runOver [LegibleDomain D] (hlegible : ∀ value : D, IsLegible value)
    (options : Options) {source : String} {statements : List Statement}
    (hsource : ConsistsOf source statements) :
    PrintsSolution D options source (runOver D options source).diagnostics.out := by
  have hread := hsource.ofSource_eq (D := D) options.limit
  have hnames : ∀ definition ∈ statements.filterMap (Statement.definition? D options.limit),
      IsName definition.equation.key.base.toList := fun definition hdefinition =>
    (Reading.isReadable_of_ofSource hread definition hdefinition).isName
  have hkeys := Store.mem_keys_of_mem_solution options.limit
    ((statements.filterMap (Statement.definition? D options.limit)).map Definition.equation)
  rw [List.map_map] at hkeys
  refine ⟨_, _, _, _, hread, ?_, linesRead_printSolution hnames fun pair _ => hlegible pair.2,
    showsSolution_solutionEntries (fun _ => Ascending.mem_ofList) hkeys fun pair _ => hlegible pair.2,
    fun _ => printSolution_congr⟩
  rw [runOver, hread]
  dsimp only
  rw [diagnostics_solve]

/-- The output of a session shows its solution over the domain that its options choose. -/
def PrintsSolutionFor (options : Options) (source out : String) : Prop :=
  match options.domain with
  | .ternary => PrintsSolution Ternary options source out
  | .contract => PrintsSolution (Flat Contract) options source out

/-- Over a source that consists of statements, a session prints its solution in full: the lines that it
writes give back the solution, and the defined keys without a value if these are asked for. -/
theorem run_printsSolution (options : Options) {source : String} {statements : List Statement}
    (hsource : ConsistsOf source statements) :
    PrintsSolutionFor options source (run options source).diagnostics.out := by
  rw [run]
  unfold PrintsSolutionFor
  cases options.domain with
  | ternary => exact printsSolution_runOver Ternary.isLegible options hsource
  | contract => exact printsSolution_runOver Flat.isLegible_of_contract options hsource

/-- A text in which a name holds many kinds of characters, a key is defined twice, and two keys are left
without a value. -/
def markedText : String := "b? = !b? & a;\nLp/Q$r<>()[ = NotNull;\n!a = c | Pure;\nb? = Top;"

/-- The statements of the text. -/
def markedStatements : List Statement :=
  [⟨1, ⟨"b", false, false⟩, [[⟨"b", false, true⟩, ⟨"a", true, false⟩]]⟩,
    ⟨2, ⟨"Lp/Q$r<>()[", true, false⟩, [[⟨"NotNull", true, false⟩]]⟩,
    ⟨3, ⟨"a", true, true⟩, [[⟨"c", true, false⟩], [⟨"Pure", true, false⟩]]⟩,
    ⟨4, ⟨"b", false, false⟩, [[⟨"Top", true, false⟩]]⟩]

/-- The solution of the text over contracts has three lines, in the order of the keys. -/
theorem run_printsSolution_marked :
    let options : Options := { domain := .contract, showUnresolved := true }
    ConsistsOf markedText markedStatements ∧
      PrintsSolutionFor options markedText (run options markedText).diagnostics.out ∧
      (run options markedText).diagnostics.out = "Lp/Q$r<>()[ = NotNull\n!a = ?\nb? = ?\n" := by
  have htokens : Tokens.ofSource markedText = .ok ⟨(markedStatements.map fun statement =>
      statement.lexemes.map fun lexeme => ⟨lexeme, statement.line⟩).flatten, 4⟩ := by cbv
  have hsource : ConsistsOf markedText markedStatements :=
    ⟨_, _, htokens, .cons ⟨by simp [Statement.IsComplete], rfl, rfl⟩
      (.cons ⟨by simp [Statement.IsComplete], rfl, rfl⟩
        (.cons ⟨by simp [Statement.IsComplete], rfl, rfl⟩
          (.cons ⟨by simp [Statement.IsComplete], rfl, rfl⟩ .nil))), rfl⟩
  refine ⟨hsource, run_printsSolution _ hsource, ?_⟩
  have hread := hsource.ofSource_eq (D := Flat Contract) defaultLimit
  show (runOver (Flat Contract) { domain := .contract, showUnresolved := true }
    markedText).diagnostics.out = _
  rw [runOver, hread]
  cbv

end Session

end MonotoneEquations
