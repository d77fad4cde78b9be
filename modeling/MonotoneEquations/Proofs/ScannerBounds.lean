import Mathlib
import MonotoneEquations.Proofs.Handles
import MonotoneEquations.Proofs.Pieces
import MonotoneEquations.Source.Scanner

/-!
# A scanner stays in its text

What a scanner has before it is the part of the text behind its position. A step takes the first
character of this part, and skipping takes some of its first characters, so the position never leaves
the text. Every round of a loop takes a character, and a loop that is given more rounds than there are
characters left is not cut off.

So a scanner finds the tokens of a text, numbered: its marks are those of the tokens, with the place of
each name in the table of all names.
-/

namespace MonotoneEquations

/-! ## Tokens -/

namespace Token

/-- The mark of a token, once its name has a place. -/
def encode (names : ArrivalSet String) (token : Token) : Mark :=
  ⟨match token.lexeme with
    | .name text => .name (names.indexOf text)
    | .operator operator => .operator operator,
    token.line⟩

/-- Whether the name of a token has a place in a table; an operator needs none. -/
def HasPlace (names : ArrivalSet String) (token : Token) : Prop :=
  ∀ text ∈ token.lexeme.name?, text ∈ names

/-- Names that arrive later do not change the mark of a token whose name has a place. -/
theorem encode_insertAll {names : ArrivalSet String} {token : Token} (h : token.HasPlace names)
    (more : List String) :
    token.encode (names.insertAll more) = token.encode names := by
  obtain ⟨lexeme, line⟩ := token
  cases lexeme with
  | operator operator => rfl
  | name text =>
    have hplace := ArrivalSet.indexOf_insertAll (h text rfl) more
    simp only [encode, hplace]

end Token

/-- Whether a mark stands for a token: on the line of the token, and for a name at its place in a table. -/
inductive Mark.StandsFor (names : ArrivalSet String) : Mark → Token → Prop
  | name {place line : Nat} {text : String} : names.toList[place]? = some text →
    StandsFor names ⟨.name place, line⟩ ⟨.name text, line⟩
  | operator {symbol : Operator} {line : Nat} :
    StandsFor names ⟨.operator symbol, line⟩ ⟨.operator symbol, line⟩

/-- The mark of a token whose name has a place stands for it. -/
theorem Token.encode_standsFor {names : ArrivalSet String} {token : Token} (h : token.HasPlace names) :
    Mark.StandsFor names (token.encode names) token := by
  obtain ⟨lexeme, line⟩ := token
  cases lexeme with
  | operator symbol => exact .operator
  | name text => exact .name (ArrivalSet.getElem?_indexOf (h text rfl))

namespace Tokens

/-- Whether a comment is next shows in the next two characters. -/
theorem startsComment_eq (text : List Char) :
    startsComment text =
      (decide (text.headD '\x00' = '/') && decide (text.tail.headD '\x00' = '/')) := by
  match text with
  | [] => rfl
  | [c] => by_cases hc : c = '/' <;> simp [startsComment, hc]
  | c :: d :: after =>
    by_cases hc : c = '/' <;> by_cases hd : d = '/' <;> simp [startsComment, hc, hd]

/-- A slash starts a comment if another one follows. -/
theorem startsComment_cons (after : List Char) :
    startsComment ('/' :: after) = decide (after.head? = some '/') := by
  cases after with
  | nil => rfl
  | cons c after => simp [startsComment_eq]

/-- A text has no more tokens than characters. -/
theorem length_body_le {line : Nat} {text : List Char} {tokens : Tokens} (h : scan line text = .ok tokens) :
    tokens.body.length ≤ text.length := by
  fun_induction scan line text generalizing tokens with
  | case1 =>
    cases h
    exact Nat.zero_le _
  | case2 line c rest operator hoperator ih =>
    cases hrest : scan line rest with
    | error error => simp [hrest, Except.map] at h
    | ok others =>
      rw [hrest] at h
      cases h
      exact Nat.succ_le_succ (ih hrest)
  | case3 line rest _ ih => exact Nat.le_succ_of_le (ih h)
  | case4 line c rest _ _ _ ih => exact Nat.le_succ_of_le (ih h)
  | case5 line c rest _ _ _ _ hleft ih => exact Nat.le_succ_of_le ((ih h).trans hleft)
  | case6 line c rest _ _ _ _ _ hleft ih =>
    cases hrest : scan line (splitName rest).2 with
    | error error => simp [hrest, Except.map] at h
    | ok others =>
      rw [hrest] at h
      cases h
      exact Nat.succ_le_succ ((ih hrest).trans hleft)
  | case7 => cases h

/-- The table of a text lists the names of its tokens. -/
theorem names_eq (tokens : Tokens) :
    tokens.names = .ofList (tokens.body.filterMap fun token => token.lexeme.name?) := rfl

/-- The tokens of a text have places in its table. -/
theorem hasPlace {tokens : Tokens} {token : Token} (h : token ∈ tokens.body) :
    token.HasPlace tokens.names := by
  intro text htext
  rw [names_eq, ArrivalSet.mem_ofList]
  exact List.mem_filterMap.mpr ⟨token, h, htext⟩

/-- Put tokens in front of those that follow them. -/
def prepend (front : List Token) (tokens : Tokens) : Tokens := { tokens with body := front ++ tokens.body }

/-- Nothing is put in front. -/
theorem map_prepend_nil (answer : Except TokenError Tokens) : answer.map (prepend []) = answer := by
  cases answer <;> rfl

/-- Tokens are put in front of others one by one. -/
theorem map_prepend_concat (front : List Token) (token : Token) (answer : Except TokenError Tokens) :
    answer.map (prepend (front ++ [token])) = (answer.map (cons token)).map (prepend front) := by
  cases answer with
  | error error => rfl
  | ok tokens => simp [Except.map, prepend, cons]

end Tokens

namespace Scanner

variable {α β : Type} {s t : Scanner}

/-! ## Positions -/

/-- What a scanner has before it. -/
def rest (scanner : Scanner) : List Char := scanner.text.drop scanner.current

/-- A scanner that took more characters. -/
def moved (scanner : Scanner) (taken : Nat) : Scanner :=
  { scanner with current := scanner.current + taken }

@[simp] theorem moved_moved (s : Scanner) (m n : Nat) : (s.moved m).moved n = s.moved (m + n) := by
  simp [moved, Nat.add_assoc]

@[simp] theorem rest_moved (s : Scanner) (n : Nat) : (s.moved n).rest = s.rest.drop n := by
  simp [moved, rest, List.drop_drop]

/-- The whole text is taken as soon as nothing is left of it. -/
theorem isAtEnd_iff : s.isAtEnd = true ↔ s.rest = [] := by
  simp [isAtEnd, rest]

/-- As long as something is left, the text is not taken. -/
theorem isAtEnd_eq_false {c : Char} {after : List Char} (h : s.rest = c :: after) : s.isAtEnd = false := by
  simp [Bool.eq_false_iff, isAtEnd_iff, h]

/-- The next character is the first one of what is left. -/
theorem peek_eq (s : Scanner) : s.peek = s.rest.headD '\x00' := by
  simp [peek, rest, List.headD_eq_head?_getD, List.head?_drop]

/-- The character after the next one is the second one of what is left. -/
theorem peekNext_eq (s : Scanner) : s.peekNext = s.rest.tail.headD '\x00' := by
  simp [peekNext, rest, List.headD_eq_head?_getD, List.head?_drop]

/-- A scanner with something before it is inside its text. -/
theorem current_lt (h : s.rest ≠ []) : s.current < s.text.length := by
  simpa [rest] using h

/-! ## Runs -/

/-- One computation runs after the other. -/
theorem run_bind (x : Scanning α) (f : α → Scanning β) :
    s.run (x >>= f) = s.run x >>= fun result => result.2.run (f result.1) := rfl

@[simp] theorem run_pure (a : α) : s.run (pure a) = pure (a, s) := rfl

@[simp] theorem run_get : s.run get = pure (s, s) := rfl

@[simp] theorem run_modify (f : Scanner → Scanner) : s.run (modify f) = pure ((), f s) := rfl

/-- A computation goes on after one that has a result. -/
theorem run_bind_of_eq {x : Scanning α} {a : α} (h : s.run x = pure (a, t)) (f : α → Scanning β) :
    s.run (x >>= f) = t.run (f a) := by
  rw [run_bind, h, pure_bind]

/-- A step is taken inside the text. -/
theorem run_step (h : s.rest ≠ []) : s.run step = pure ((), s.moved 1) := by
  simp only [step, run_bind, run_get, pure_bind, current_lt h, if_true]
  rfl

-- Without a character left, a step is a fault.
example : (new []).run step = throw (.position 1) := rfl

/-- A character that is there is taken. -/
theorem run_advance {c : Char} {after : List Char} (h : s.rest = c :: after) :
    s.run advance = pure (c, s.moved 1) := by
  have hpeek : s.peek = c := by simp [peek_eq, h]
  simp only [advance, run_bind, run_get, pure_bind, run_step (h ▸ List.cons_ne_nil c after), hpeek,
    run_pure]

/-- A character that is expected is taken if it is next. -/
theorem run_matchChar {expected : Char} (hexpected : expected ≠ '\x00') :
    s.run (matchChar expected) =
      if s.rest.head? = some expected then pure (true, s.moved 1) else pure (false, s) := by
  simp only [matchChar, run_bind, run_get, pure_bind, peek_eq]
  cases h : s.rest with
  | nil => simp [hexpected.symm]
  | cons c after =>
    have hstep := run_step (h ▸ List.cons_ne_nil c after)
    by_cases hc : c = expected
    · simp only [List.headD_cons, List.head?_cons, hc, if_true, run_bind, hstep, pure_bind, run_pure]
    · simp [hc]

/-- What was taken since the start of a lexeme is a part of the text. -/
theorem run_part {c : Char} {taken after : List Char} (htext : s.text.drop s.start = c :: taken ++ after)
    (hcurrent : s.current = s.start + (c :: taken).length) :
    s.run part = pure (String.ofList (c :: taken), s) := by
  have hlength := congrArg List.length htext
  simp only [List.length_drop, List.length_append, List.length_cons] at hlength hcurrent
  have hbounds : s.start ≤ s.current ∧ s.current ≤ s.text.length := by omega
  have hpart : (s.text.take s.current).drop s.start = c :: taken := by
    rw [List.drop_take, htext, hcurrent, Nat.add_sub_cancel_left]
    simp
  simp only [part, run_bind, run_get, pure_bind, hbounds, and_self, if_true, hpart, run_pure]

/-- A scanner that entered a name into its table. -/
def entered (scanner : Scanner) (name : String) : Scanner :=
  { scanner with names := scanner.names.insert name }

@[simp] theorem rest_entered (s : Scanner) (name : String) : (s.entered name).rest = s.rest := rfl

/-- A name gets its place in the table. -/
theorem run_placeOf (s : Scanner) (name : String) :
    s.run (placeOf name) = pure ((s.entered name).names.indexOf name, s.entered name) := by
  simp only [placeOf, run_bind, run_get, pure_bind]
  by_cases hmem : name ∈ s.names
  · rw [if_pos hmem, entered, ArrivalSet.insert_of_mem hmem]
    rfl
  · have hplace : (s.entered name).names.indexOf name = s.names.toList.length := by
      rw [entered, ArrivalSet.indexOf, ArrivalSet.toList_insert_of_not_mem hmem,
        List.idxOf_append_of_notMem hmem]
      simp
    rw [if_neg hmem, hplace]
    rfl

/-! ## Skipping -/

/-- A loop that takes a character in every round but its last one is not cut off, and takes what is in
front of the part that it leaves. -/
theorem exists_run_of_rounds {loop : Nat → Scanning Unit} (left : List Char → List Char)
    (hround : ∀ (s : Scanner) (rounds : Nat),
      (s.run (loop (rounds + 1)) = pure ((), s) ∧ left s.rest = s.rest) ∨
        ∃ c after, s.rest = c :: after ∧
          s.run (loop (rounds + 1)) = (s.moved 1).run (loop rounds) ∧ left s.rest = left after)
    {rounds : Nat} (h : s.rest.length < rounds) :
    ∃ taken, s.run (loop rounds) = pure ((), s.moved taken.length) ∧ s.rest = taken ++ left s.rest := by
  induction rounds generalizing s with
  | zero => cases h
  | succ rounds ih =>
    rcases hround s rounds with ⟨hrun, hleft⟩ | ⟨c, after, hrest, hrun, hleft⟩
    · exact ⟨[], hrun, hleft.symm⟩
    · have hafter : (s.moved 1).rest = after := by rw [rest_moved, hrest, List.drop_one, List.tail_cons]
      have hshorter : (s.moved 1).rest.length < rounds := by
        rw [hrest, List.length_cons] at h
        rw [hafter]
        omega
      obtain ⟨taken, hmore, hsplit⟩ := ih hshorter
      refine ⟨c :: taken, ?_, ?_⟩
      · rw [hrun, hmore, moved_moved, List.length_cons, Nat.add_comm]
      · rw [hafter] at hsplit
        rw [hleft, hrest, List.cons_append, ← hsplit]

/-- A line is skipped up to its end. -/
theorem exists_run_skipLine {rounds : Nat} (h : s.rest.length < rounds) :
    ∃ taken, s.run (skipLine rounds) = pure ((), s.moved taken.length) ∧
      s.rest = taken ++ Tokens.afterLine s.rest := by
  refine exists_run_of_rounds Tokens.afterLine (fun s rounds => ?_) h
  rw [skipLine, run_bind_of_eq run_get]
  cases hrest : s.rest with
  | nil =>
    have hend : s.isAtEnd = true := isAtEnd_iff.mpr hrest
    exact .inl ⟨by simp [hend], rfl⟩
  | cons c after =>
    have hmore : s.isAtEnd = false := isAtEnd_eq_false hrest
    have hpeek : s.peek = c := by simp [peek_eq, hrest]
    by_cases hc : c = '\n'
    · exact .inl ⟨by simp [hmore, hpeek, hc], by simp [Tokens.afterLine, hc]⟩
    · refine .inr ⟨c, after, rfl, ?_, by simp [Tokens.afterLine, hc]⟩
      simp [hmore, hpeek, hc, run_bind, run_advance hrest]

/-- The characters that continue a name are skipped. -/
theorem run_skipName {rounds : Nat} (h : s.rest.length < rounds) :
    s.run (skipName rounds) = pure ((), s.moved (Tokens.splitName s.rest).1.length) := by
  have hround : ∀ (s : Scanner) (rounds : Nat),
      (s.run (skipName (rounds + 1)) = pure ((), s) ∧ (Tokens.splitName s.rest).2 = s.rest) ∨
        ∃ c after, s.rest = c :: after ∧
          s.run (skipName (rounds + 1)) = (s.moved 1).run (skipName rounds) ∧
            (Tokens.splitName s.rest).2 = (Tokens.splitName after).2 := by
    intro s rounds
    rw [skipName, run_bind_of_eq run_get, peek_eq, peekNext_eq, ← Tokens.startsComment_eq]
    cases hrest : s.rest with
    | nil => exact .inl ⟨rfl, rfl⟩
    | cons c after =>
      by_cases hgo : Tokens.isNameChar c && !Tokens.startsComment (c :: after)
      · refine .inr ⟨c, after, rfl, ?_, by rw [Tokens.splitName, if_pos hgo]⟩
        rw [List.headD_cons, if_pos hgo, run_bind_of_eq (run_advance hrest)]
      · exact .inl ⟨by rw [List.headD_cons, if_neg hgo, run_pure], by rw [Tokens.splitName, if_neg hgo]⟩
  obtain ⟨taken, hrun, hsplit⟩ :=
    exists_run_of_rounds (fun text => (Tokens.splitName text).2) hround h
  have htaken : (Tokens.splitName s.rest).1 = taken :=
    List.append_cancel_right ((Tokens.splitName_append s.rest).trans hsplit)
  rw [htaken, hrun]

/-! ## The next token -/

/-- What scanning for the next mark finds: a token in front of the tokens of what is left, the end of
the text, or the error of the text. -/
inductive Found (s : Scanner) : Option Mark → Scanner → Prop
  | mark {token : Token} {mark : Mark} {t : Scanner}
    (hscan : Tokens.scan s.line s.rest = (Tokens.scan t.line t.rest).map (Tokens.cons token))
    (hmark : mark = token.encode t.names) (hshorter : t.rest.length < s.rest.length)
    (hfailed : t.failed = s.failed) (hreports : t.reports = s.reports)
    (hnames : t.names = s.names.insertAll token.lexeme.name?.toList) : Found s (some mark) t
  | ended {t : Scanner} (hscan : Tokens.scan s.line s.rest = .ok ⟨[], t.line⟩) (hrest : t.rest = [])
    (hfailed : t.failed = s.failed) (hreports : t.reports = s.reports) (hnames : t.names = s.names) :
    Found s none t
  | failed {t : Scanner} {error : TokenError} (hscan : Tokens.scan s.line s.rest = .error error)
    (hfailed : t.failed = true) (hreports : t.reports = s.reports ++ [error.report]) : Found s none t

/-- A scanner that skipped some separators. -/
structure Skipped (s t : Scanner) : Prop where
  scan : Tokens.scan s.line s.rest = Tokens.scan t.line t.rest
  shorter : t.rest.length < s.rest.length
  failed : t.failed = s.failed
  reports : t.reports = s.reports
  names : t.names = s.names

/-- What is found behind separators is found. -/
theorem Found.of_skipped {found : Option Mark} {u : Scanner} (hskipped : s.Skipped t)
    (h : t.Found found u) : s.Found found u := by
  obtain ⟨hscan, hshorter, hfailed, hreports, hnames⟩ := hskipped
  cases h with
  | mark hscan' hmark hshorter' hfailed' hreports' hnames' =>
    exact .mark (hscan.trans hscan') hmark (hshorter'.trans hshorter) (hfailed'.trans hfailed)
      (hreports'.trans hreports) (hnames ▸ hnames')
  | ended hscan' hrest hfailed' hreports' hnames' =>
    exact .ended (hscan.trans hscan') hrest (hfailed'.trans hfailed) (hreports'.trans hreports)
      (hnames'.trans hnames)
  | failed hscan' hfailed' hreports' =>
    exact .failed (hscan.trans hscan') hfailed' (hreports ▸ hreports')

/-- What one round of the search for the next mark gives: it is found, or the search goes on. -/
inductive Round (s : Scanner) (rounds : Nat) : Checked (Option Mark × Scanner) → Prop
  | found {found : Option Mark} {t : Scanner} (h : s.Found found t) : Round s rounds (pure (found, t))
  | skipped {t : Scanner} (h : s.Skipped t) : Round s rounds (t.run (next rounds))

/-- A scanner that started a lexeme with the next character. -/
def begun (s : Scanner) : Scanner := { s with start := s.current }.moved 1

section Begun

variable {c : Char} {after : List Char} {rounds : Nat}

/-- The first character of a lexeme is taken. -/
theorem rest_begun (hrest : s.rest = c :: after) : s.begun.rest = after := by
  have hmoved := rest_moved s 1
  rw [hrest, List.drop_one, List.tail_cons] at hmoved
  exact hmoved

/-- The characters of a lexeme are a part of the text. -/
theorem run_part_begun (hrest : s.rest = c :: after) {taken left : List Char}
    (hafter : after = taken ++ left) :
    (s.begun.moved taken.length).run part =
      pure (String.ofList (c :: taken), s.begun.moved taken.length) := by
  have htext : s.text.drop s.current = c :: taken ++ left := by
    rw [List.cons_append, ← hafter]
    exact hrest
  refine run_part htext ?_
  simp only [begun, moved, List.length_cons]
  omega

/-- A character that starts no lexeme is reported. -/
theorem run_unexpected (hrest : s.rest = c :: after) :
    s.begun.run unexpected = pure ((),
      { s.begun with
        failed := true
        reports := s.reports ++ [(TokenError.unexpected s.line c).report] }) := by
  have hpart : s.begun.run part = pure (String.ofList [c], s.begun) :=
    run_part_begun hrest (List.nil_append after).symm
  rw [unexpected, run_bind_of_eq hpart, run_modify]
  rfl

/-- A name is taken up to where no character continues it. -/
theorem run_takeName (hrest : s.rest = c :: after) (h : s.rest.length ≤ rounds) :
    s.begun.run (takeName rounds) =
      pure (String.ofList (c :: (Tokens.splitName after).1),
        s.begun.moved (Tokens.splitName after).1.length) := by
  have hafter := rest_begun hrest
  have hrounds : s.begun.rest.length < rounds := by
    rw [hafter]
    exact Nat.lt_of_lt_of_le (by simp [hrest]) h
  rw [takeName, run_bind_of_eq (run_skipName hrounds), hafter]
  exact run_part_begun hrest (Tokens.splitName_append after).symm

/-- A comment is skipped, and the search goes on behind it. -/
theorem round_comment (taken : Nat)
    (hscan : Tokens.scan s.line s.rest =
      Tokens.scan s.line (Tokens.afterLine (s.begun.moved taken).rest))
    (hrest : s.rest = c :: after) (h : s.rest.length ≤ rounds) :
    s.Round rounds ((s.begun.moved taken).run (skipLine rounds >>= fun _ => next rounds)) := by
  have hshorter : (s.begun.moved taken).rest.length < s.rest.length := by
    rw [rest_moved, rest_begun hrest, hrest, List.length_drop, List.length_cons]
    omega
  obtain ⟨skipped, hrun, hsplit⟩ := exists_run_skipLine (Nat.lt_of_lt_of_le hshorter h)
  rw [run_bind_of_eq hrun]
  have hleft : ((s.begun.moved taken).moved skipped.length).rest =
      Tokens.afterLine (s.begun.moved taken).rest := by
    rw [rest_moved]
    nth_rewrite 1 [hsplit]
    exact List.drop_left
  refine .skipped ⟨?_, ?_, rfl, rfl, rfl⟩
  · rw [hleft]
    exact hscan
  · rw [hleft]
    exact Nat.lt_of_le_of_lt (Tokens.length_afterLine_le _) hshorter

/-- A name is found. -/
theorem round_name {token : Token}
    (htoken : token = ⟨.name (String.ofList (c :: (Tokens.splitName after).1)), s.line⟩)
    (hscan : Tokens.scan s.line s.rest =
      (Tokens.scan s.line (Tokens.splitName after).2).map (Tokens.cons token))
    (hrest : s.rest = c :: after) (h : s.rest.length ≤ rounds) :
    s.Round rounds (s.begun.run (takeName rounds >>= fun name => placeOf name >>= fun place =>
      get >>= fun scanner => pure (some ⟨.name place, scanner.line⟩))) := by
  rw [run_bind_of_eq (run_takeName hrest h), run_bind_of_eq (run_placeOf _ _), run_bind_of_eq run_get,
    run_pure]
  have hleft : (s.begun.moved (Tokens.splitName after).1.length).rest = (Tokens.splitName after).2 := by
    rw [rest_moved, rest_begun hrest]
    nth_rewrite 2 [← Tokens.splitName_append after]
    exact List.drop_left
  subst token
  rw [← hleft] at hscan
  refine .found (.mark hscan rfl ?_ rfl rfl rfl)
  rw [rest_entered, hleft, hrest]
  exact Nat.lt_succ_of_le (Tokens.length_splitName_le after)

/-- An operator is found. -/
theorem found_operator {operator : Operator}
    (hscan : Tokens.scan s.line s.rest =
      (Tokens.scan s.line after).map (Tokens.cons ⟨.operator operator, s.line⟩))
    (hrest : s.rest = c :: after) : s.Found (some ⟨.operator operator, s.line⟩) s.begun := by
  rw [← rest_begun hrest] at hscan
  refine .mark hscan rfl ?_ rfl rfl rfl
  rw [rest_begun hrest, hrest]
  exact Nat.lt_succ_self _

/-- A separator is skipped, and a line end is counted. -/
theorem skipped_begun {line : Nat} (hscan : Tokens.scan s.line s.rest = Tokens.scan line after)
    (hrest : s.rest = c :: after) : s.Skipped { s.begun with line := line } := by
  have hbegun : ({ s.begun with line := line } : Scanner).rest = after := rest_begun hrest
  refine ⟨by rw [hbegun, hscan], ?_, rfl, rfl, rfl⟩
  rw [hbegun, hrest]
  exact Nat.lt_succ_self _

/-- Two slashes start a comment, and one slash starts nothing. -/
theorem round_slash
    (hscan : Tokens.scan s.line s.rest =
      if after.head? = some '/' then Tokens.scan s.line (Tokens.afterLine after)
      else .error (.unexpected s.line c))
    (hrest : s.rest = c :: after) (h : s.rest.length ≤ rounds) :
    s.Round rounds (s.begun.run (matchChar '/' >>= fun second =>
      if second then skipLine rounds >>= fun _ => next rounds
      else unexpected >>= fun _ => pure none)) := by
  rw [run_bind, run_matchChar (by decide), rest_begun hrest]
  by_cases hsecond : after.head? = some '/'
  · obtain ⟨more, rfl⟩ := List.head?_eq_some_iff.mp hsecond
    rw [if_pos hsecond] at hscan
    rw [if_pos hsecond, pure_bind, if_pos rfl]
    refine round_comment 1 ?_ hrest h
    rw [hscan, rest_moved, rest_begun hrest]
    rfl
  · rw [if_neg hsecond] at hscan
    rw [if_neg hsecond, pure_bind, if_neg Bool.false_ne_true, run_bind_of_eq (run_unexpected hrest),
      run_pure]
    exact .found (.failed hscan rfl rfl)

end Begun

/-- In every round, the next mark is found or separators are skipped. -/
theorem round_next {c : Char} {after : List Char} (hrest : s.rest = c :: after) {rounds : Nat}
    (h : s.rest.length ≤ rounds) : s.Round rounds (s.run (next (rounds + 1))) := by
  have hstart : ({ s with start := s.current } : Scanner).run advance = pure (c, s.begun) :=
    run_advance hrest
  have hscan := Tokens.scan.eq_2 s.line c after
  rw [← hrest] at hscan
  rw [next, run_bind_of_eq run_get, isAtEnd_eq_false hrest]
  simp only [Bool.false_eq_true, if_false, run_bind, run_modify, pure_bind, hstart]
  cases hoperator : Operator.ofChar? c with
  | some operator =>
    rw [hoperator] at hscan
    exact .found (found_operator hscan hrest)
  | none =>
    simp only [hoperator] at hscan ⊢
    by_cases hlineFeed : c = '\n'
    · rw [if_pos hlineFeed] at hscan ⊢
      exact .skipped (skipped_begun hscan hrest)
    rw [if_neg hlineFeed] at hscan ⊢
    by_cases hblank : Tokens.isBlank c
    · rw [if_pos hblank] at hscan ⊢
      exact .skipped (skipped_begun hscan hrest)
    rw [if_neg hblank] at hscan ⊢
    by_cases hhash : c = '#'
    · rw [if_pos hhash]
      rw [if_pos (by simp [hhash])] at hscan
      rw [← rest_begun hrest] at hscan
      exact round_comment 0 hscan hrest h
    rw [if_neg hhash]
    by_cases hslash : c = '/'
    · rw [if_pos hslash]
      refine round_slash ?_ hrest h
      rw [hscan, hrest, hslash, Tokens.startsComment_cons]
      simp [Tokens.isNameStart]
    rw [if_neg hslash]
    have hcomment : (c = '#' || Tokens.startsComment s.rest) = false := by
      simp [Tokens.startsComment_eq, hrest, hhash, hslash]
    rw [hcomment, if_neg Bool.false_ne_true] at hscan
    by_cases hname : Tokens.isNameStart c
    · rw [if_pos hname] at hscan ⊢
      exact round_name rfl hscan hrest h
    rw [if_neg hname] at hscan ⊢
    rw [run_bind_of_eq (run_unexpected hrest), run_pure]
    exact .found (.failed hscan rfl rfl)

/-- With more rounds than there are characters left, the search for the next mark finds it. -/
theorem exists_found {rounds : Nat} (h : s.rest.length < rounds) :
    ∃ found t, s.run (next rounds) = pure (found, t) ∧ s.Found found t := by
  induction rounds generalizing s with
  | zero => cases h
  | succ rounds ih =>
    cases hrest : s.rest with
    | nil =>
      have hend : s.isAtEnd = true := isAtEnd_iff.mpr hrest
      refine ⟨none, s, ?_, .ended ?_ hrest rfl rfl rfl⟩
      · rw [next, run_bind_of_eq run_get, if_pos hend, run_pure]
      · rw [hrest, Tokens.scan]
    | cons c after =>
      generalize houtcome : s.run (next (rounds + 1)) = outcome
      have hround := round_next hrest (Nat.le_of_lt_succ h)
      rw [houtcome] at hround
      cases hround with
      | found hfound => exact ⟨_, _, rfl, hfound⟩
      | @skipped u hskipped =>
        have hless : u.rest.length < rounds := Nat.lt_of_lt_of_le hskipped.shorter (Nat.le_of_lt_succ h)
        obtain ⟨found, t, hrun, hfound⟩ := ih hless
        exact ⟨found, t, hrun, hfound.of_skipped hskipped⟩

end Scanner

/-! ## All marks -/

/-- What scanning gives for a text with the given tokens. -/
def Scanned.ofTokens : Except TokenError Tokens → Scanned
  | .ok tokens =>
    ⟨tokens.body.map (Token.encode tokens.names) ++ [⟨.endOfText, tokens.lastLine⟩], tokens.names, []⟩
  | .error error => ⟨[], .empty, [error.report]⟩

namespace Scanner

variable {s t : Scanner}

/-- Collecting ends with the text. -/
theorem run_collect_of_nil (hrest : s.rest = []) (rounds : Nat) (marks : List Mark) :
    s.run (collect (rounds + 1) marks) =
      pure (⟨marks ++ [⟨.endOfText, s.line⟩], s.names, s.reports⟩, s) := by
  rw [collect, run_bind_of_eq run_get, if_pos (isAtEnd_iff.mpr hrest), run_pure]

/-- Collecting goes on behind a mark. -/
theorem run_collect_of_some (hrest : s.rest ≠ []) {rounds : Nat} {mark : Mark}
    (hnext : s.run (next (rounds + 1)) = pure (some mark, t)) (marks : List Mark) :
    s.run (collect (rounds + 1) marks) = t.run (collect rounds (marks ++ [mark])) := by
  rw [collect, run_bind_of_eq run_get, if_neg (mt isAtEnd_iff.mp hrest), run_bind_of_eq hnext]

/-- Collecting goes on where there are only separators left, and ends with an error. -/
theorem run_collect_of_none (hrest : s.rest ≠ []) {rounds : Nat}
    (hnext : s.run (next (rounds + 1)) = pure (none, t)) (marks : List Mark) :
    s.run (collect (rounds + 1) marks) =
      if t.failed then pure (⟨[], .empty, t.reports⟩, t) else t.run (collect rounds marks) := by
  rw [collect, run_bind_of_eq run_get, if_neg (mt isAtEnd_iff.mp hrest), run_bind_of_eq hnext]
  simp only [run_bind_of_eq run_get]
  split <;> rfl

/-- With more rounds than there are characters left, the tokens behind those that were found are
collected. -/
theorem exists_run_collect {front : List Token} {rounds : Nat} (h : s.rest.length < rounds)
    (hfailed : s.failed = false) (hreports : s.reports = [])
    (hnames : s.names = .ofList (front.filterMap fun token => token.lexeme.name?)) :
    ∃ t, s.run (collect rounds (front.map (Token.encode s.names))) =
      pure (Scanned.ofTokens ((Tokens.scan s.line s.rest).map (Tokens.prepend front)), t) := by
  induction rounds generalizing s front with
  | zero => cases h
  | succ rounds ih =>
    by_cases hrest : s.rest = []
    · have hbody : (Tokens.mk (front ++ []) s.line).names = s.names := by
        rw [Tokens.names_eq, List.append_nil, hnames]
      refine ⟨s, ?_⟩
      rw [run_collect_of_nil hrest, hrest, Tokens.scan, Except.map, Tokens.prepend, Scanned.ofTokens,
        hbody, hreports, List.append_nil]
    obtain ⟨found, t, hrun, hfound⟩ := exists_found h
    cases hfound with
    | @mark token mark _ hscan hmark hshorter hfailed' hreports' hnames' =>
      have hless : t.rest.length < rounds := Nat.lt_of_lt_of_le hshorter (Nat.le_of_lt_succ h)
      have htable : t.names = .ofList ((front ++ [token]).filterMap fun token => token.lexeme.name?) := by
        rw [hnames', hnames, ArrivalSet.ofList, ArrivalSet.ofList, ← ArrivalSet.insertAll_append,
          List.filterMap_append]
        rfl
      have hmarks : (front ++ [token]).map (Token.encode t.names) =
          front.map (Token.encode s.names) ++ [mark] := by
        rw [List.map_append, hmark, hnames']
        refine congrArg (· ++ _) (List.map_congr_left fun other hother => ?_)
        refine Token.encode_insertAll (fun text htext => ?_) _
        rw [hnames, ArrivalSet.mem_ofList]
        exact List.mem_filterMap.mpr ⟨other, hother, htext⟩
      obtain ⟨u, hmore⟩ := ih hless (hfailed'.trans hfailed) (hreports'.trans hreports) htable
      refine ⟨u, ?_⟩
      rw [run_collect_of_some hrest hrun, ← hmarks, hmore, hscan, Tokens.map_prepend_concat]
    | ended hscan hend hfailed' hreports' hnames' =>
      have hless : t.rest.length < rounds := by
        rw [hend]
        exact Nat.lt_of_lt_of_le (List.length_pos_iff.mpr hrest) (Nat.le_of_lt_succ h)
      obtain ⟨u, hmore⟩ := ih hless (hfailed'.trans hfailed) (hreports'.trans hreports)
        (hnames'.trans hnames)
      refine ⟨u, ?_⟩
      rw [run_collect_of_none hrest hrun, hfailed', hfailed, if_neg Bool.false_ne_true, ← hnames', hmore,
        hscan, hend, Tokens.scan]
    | failed hscan hfailed' hreports' =>
      refine ⟨t, ?_⟩
      rw [run_collect_of_none hrest hrun, if_pos hfailed', hreports', hreports, hscan]
      rfl

/-- With more rounds than a text has characters, scanning it finds its tokens, and is neither cut off
nor ever out of bounds. -/
theorem scan_eq {rounds : Nat} {source : String} (h : source.toList.length < rounds) :
    scan rounds source = pure (Scanned.ofTokens (Tokens.ofSource source)) := by
  rw [scan, Tokens.ofSource]
  split
  · have hrest : (new source.toList).rest = source.toList := List.drop_zero
    have hnames : (new source.toList).names =
        .ofList (([] : List Token).filterMap fun token => token.lexeme.name?) := rfl
    obtain ⟨t, hrun⟩ := exists_run_collect (hrest.symm ▸ h) rfl rfl hnames
    rw [hrest, Tokens.map_prepend_nil, List.map_nil] at hrun
    rw [hrun]
    rfl
  · rfl

end Scanner

/-! ## What scanning gives -/

namespace Scanned

/-- Either there are no marks or the last one is the only one for the end of the text, and the names that
marks refer to are in the table. -/
structure WellFormed (scanned : Scanned) : Prop where
  ends : scanned.marks ≠ [] → ∃ body line, scanned.marks = body ++ [⟨.endOfText, line⟩] ∧
    ∀ mark ∈ body, mark.word ≠ .endOfText
  named : ∀ mark ∈ scanned.marks, ∀ place, mark.word = .name place → place < scanned.names.toList.length

/-- What is scanned is well formed. -/
theorem wellFormed_ofTokens (answer : Except TokenError Tokens) : (ofTokens answer).WellFormed := by
  cases answer with
  | error error => exact ⟨fun h => absurd rfl h, nofun⟩
  | ok tokens =>
    constructor
    · intro _
      refine ⟨_, _, rfl, fun mark hmark => ?_⟩
      obtain ⟨⟨lexeme, line⟩, -, rfl⟩ := List.mem_map.mp hmark
      cases lexeme <;> nofun
    · intro mark hmark place hplace
      rcases List.mem_append.mp hmark with hbody | hend
      · obtain ⟨⟨lexeme, line⟩, htoken, rfl⟩ := List.mem_map.mp hbody
        cases lexeme with
        | operator operator => cases hplace
        | name text =>
          cases hplace
          exact List.idxOf_lt_length_of_mem (tokens.hasPlace htoken text rfl)
      · obtain rfl := List.mem_singleton.mp hend
        cases hplace

end Scanned

end MonotoneEquations
