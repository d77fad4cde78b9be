import Mathlib
import MonotoneEquations.Proofs.ScannerBounds
import MonotoneEquations.Proofs.ViablePrefix
import MonotoneEquations.Source.Parser

/-!
# A parser stays among its marks

A parser over the marks of some tokens does what the readers of these tokens do: it takes the same
tokens and builds the same things, or it fails and reports the error of the reader. As long as its
marks are those of tokens in front of one mark for the end of the text, it never leaves them, and every
name that it looks up has its place in the table.

Every round of a loop takes a token, so no loop is cut off that is given more rounds than there are
tokens. Together with the bounds of the scanner, reading a text by position always has an outcome, which
is the reading of the text.
-/

namespace MonotoneEquations

/-- A reader that gives what it read is the reader itself. -/
theorem Reader.andThen_give {α : Type} (reader : Reader α) : reader.andThen Reader.give = reader := by
  funext tokens
  rw [Reader.andThen]
  cases reader tokens <;> rfl

namespace Parser

variable {α β γ δ : Type}

/-! ## Runs -/

section Runs

variable {p q : Parser}

/-- One computation runs after the other, if that one has a result. -/
theorem run_bind (x : Parsing α) (f : α → Parsing β) :
    p.run (x >>= f) = p.run x >>= fun result =>
      match result.1 with
      | some a => result.2.run (f a)
      | none => pure (none, result.2) := by
  refine bind_congr (x := p.run x) fun
    | (some a, q) => rfl
    | (none, q) => rfl

@[simp] theorem run_pure (a : α) : p.run (pure a) = pure (some a, p) := rfl

@[simp] theorem run_get : p.run get = pure (some p, p) := rfl

@[simp] theorem run_modify (f : Parser → Parser) : p.run (modify f) = pure (some (), f p) := rfl

@[simp] theorem run_failure : p.run (failure : Parsing α) = pure (none, p) := rfl

/-- A computation goes on after one that has a result. -/
theorem run_bind_of_some {x : Parsing α} {a : α} (h : p.run x = pure (some a, q)) (f : α → Parsing β) :
    p.run (x >>= f) = q.run (f a) := by
  rw [run_bind, h, pure_bind]

/-- A computation ends after one that has no result. -/
theorem run_bind_of_none {x : Parsing α} (h : p.run x = pure (none, q)) (f : α → Parsing β) :
    p.run (x >>= f) = pure (none, q) := by
  rw [run_bind, h, pure_bind]

end Runs

/-! ## Where a parser stands -/

/-- What a parser works with: the table of names, the line on which the text ends, and the number of
rounds that its loops are given. -/
structure Setting where
  names : ArrivalSet String
  lastLine : Nat
  rounds : Nat

/-- The mark at which something is found: the mark of a token, or the one for the end of the text. -/
def Setting.mark (setting : Setting) : Option Token → Mark
  | some token => token.encode setting.names
  | none => ⟨.endOfText, setting.lastLine⟩

/-- A parser has the marks of some tokens before it. Their names have places, and the rounds are enough
for them. -/
structure Before (setting : Setting) (tokens : List Token) (p : Parser) : Prop where
  names : p.names = setting.names
  marks : p.marks.drop p.current = tokens.map (Token.encode setting.names) ++ [setting.mark none]
  named : ∀ token ∈ tokens, token.HasPlace setting.names
  fits : tokens.length < setting.rounds

/-- A parser that took one more mark. -/
def moved (p : Parser) : Parser := { p with current := p.current + 1 }

/-- A parser that reported something. -/
def reported (p : Parser) (report : Report) : Parser := { p with reports := p.reports ++ [report] }

section Steps

variable {setting : Setting} {tokens rest : List Token} {token : Token} {symbol : Operator}
  {p : Parser}

/-- The marks before a parser, by their distance. -/
theorem Before.getElem?_marks (h : Before setting tokens p) (n : Nat) :
    p.marks[p.current + n]? =
      (tokens.map (Token.encode setting.names) ++ [setting.mark none])[n]? := by
  rw [← h.marks, List.getElem?_drop]

/-- A parser that took the mark of a token stands before the others. -/
theorem Before.moved (h : Before setting (token :: rest) p) : Before setting rest p.moved where
  names := h.names
  marks := by
    have hmarks := congrArg (List.drop 1) h.marks
    rwa [List.drop_drop] at hmarks
  named other hother := h.named other (List.mem_cons_of_mem _ hother)
  fits := Nat.lt_of_succ_lt h.fits

/-- The next mark is that of the first token, or the one for the end. -/
theorem run_peek (h : Before setting tokens p) :
    p.run peek = pure (some (setting.mark tokens.head?), p) := by
  have hmark : p.marks[p.current]? = some (setting.mark tokens.head?) := by
    rw [← Nat.add_zero p.current, h.getElem?_marks]
    cases tokens <;> rfl
  rw [peek, run_bind_of_some run_get, markAt, run_bind_of_some run_get, hmark, run_pure]

-- Without any marks, looking at the next one is a fault, so a text without marks must not be parsed.
example : (new ⟨[], .empty, []⟩).run peek = throw (.mark 0) := rfl

/-- The end of a text is next if no token is. -/
theorem run_isAtEnd (h : Before setting tokens p) :
    p.run isAtEnd = pure (some tokens.isEmpty, p) := by
  rw [isAtEnd, run_bind_of_some (run_peek h), run_pure]
  match tokens with
  | [] => rfl
  | ⟨.name _, _⟩ :: _ | ⟨.operator _, _⟩ :: _ => rfl

/-- A mark for a token is not the last one, so there is a mark behind it. -/
theorem run_step (h : Before setting (token :: rest) p) : p.run step = pure (some (), p.moved) := by
  have hlength := congrArg List.length h.marks
  simp only [List.length_drop, List.length_append, List.length_map, List.length_cons] at hlength
  have hinside : p.current + 1 < p.marks.length := by omega
  rw [step, run_bind_of_some run_get, if_pos hinside]
  rfl

/-- The mark before the next one is the one that was taken. -/
theorem run_previous (h : Before setting (token :: rest) p) :
    p.moved.run previous = pure (some (token.encode setting.names), p.moved) := by
  have hmark : p.moved.marks[p.moved.current - 1]? = some (token.encode setting.names) :=
    h.getElem?_marks 0
  have hcurrent : p.moved.current ≠ 0 := Nat.succ_ne_zero p.current
  rw [previous, run_bind_of_some run_get, if_neg hcurrent, markAt, run_bind_of_some run_get, hmark,
    run_pure]

/-- A token is taken. -/
theorem run_advance (h : Before setting (token :: rest) p) :
    p.run advance = pure (some (token.encode setting.names), p.moved) := by
  rw [advance, run_bind_of_some (run_isAtEnd h)]
  exact (run_bind_of_some (run_step h) _).trans (run_previous h)

/-- An operator is found where it is next. -/
theorem run_check_of_cons (h : Before setting (token :: rest) p)
    (htoken : token.lexeme = .operator symbol) : p.run (check symbol) = pure (some true, p) := by
  rw [check, run_bind_of_some (run_isAtEnd h)]
  refine (run_bind_of_some (run_peek h) _).trans ?_
  simp [Setting.mark, Token.encode, htoken]

/-- An operator is not found where it is not next. -/
theorem run_check_of_clearOf (h : Before setting tokens p) (hclear : ClearOf [symbol] tokens) :
    p.run (check symbol) = pure (some false, p) := by
  rw [check, run_bind_of_some (run_isAtEnd h)]
  match tokens with
  | [] => rfl
  | ⟨.name text, line⟩ :: rest => exact run_bind_of_some (run_peek h) _
  | ⟨.operator other, line⟩ :: rest =>
    have hother : other ≠ symbol := by simpa [ClearOf] using hclear
    refine (run_bind_of_some (run_peek h) _).trans ?_
    simp [Setting.mark, Token.encode, hother]

/-- An operator that is next is taken. -/
theorem run_tryConsume_of_cons (h : Before setting (token :: rest) p)
    (htoken : token.lexeme = .operator symbol) :
    p.run (tryConsume symbol) = pure (some (some (token.encode setting.names)), p.moved) := by
  rw [tryConsume, run_bind_of_some (run_check_of_cons h htoken)]
  exact run_bind_of_some (run_advance h) _

/-- An operator that is not next is not taken. -/
theorem run_tryConsume_of_clearOf (h : Before setting tokens p) (hclear : ClearOf [symbol] tokens) :
    p.run (tryConsume symbol) = pure (some none, p) := by
  rw [tryConsume, run_bind_of_some (run_check_of_clearOf h hclear)]
  rfl

/-- A name that has a place is found there. -/
theorem run_nameAt (h : Before setting tokens p) {text : String} (htext : text ∈ setting.names) :
    p.run (nameAt (setting.names.indexOf text)) = pure (some text, p) := by
  rw [nameAt, run_bind_of_some run_get, h.names, ArrivalSet.getElem?_indexOf htext, run_pure]

/-- What is reported at a mark. -/
def Setting.reportAt (setting : Setting) (found : Option Token) (message : String) : Report :=
  ⟨.error, (found.map Token.line).getD setting.lastLine, (SyntaxError.mk found .key).item, message⟩

/-- A report at a mark names what stands there. -/
theorem run_report (h : Before setting tokens p) {found : Option Token}
    (hfound : ∀ token ∈ found, token.HasPlace setting.names) (message : String) :
    p.run (report (setting.mark found) message) =
      pure (some (), p.reported (setting.reportAt found message)) := by
  match found with
  | none => rfl
  | some ⟨.operator operator, line⟩ => rfl
  | some ⟨.name text, line⟩ =>
    have hname := run_nameAt h (hfound _ rfl text rfl)
    simp only [report, Setting.mark, Token.encode, run_bind, hname, pure_bind, run_modify]
    rfl

end Steps

/-! ## Parsers that do what readers do -/

section Implements

variable {setting : Setting}

/-- An outcome that follows the answer of a reader: either there is a result, and the parser stands
before the tokens that the reader leaves, or there is none, and the error is reported. -/
inductive Follows (setting : Setting) (Gives : β → α → Prop) (p : Parser) :
    Except SyntaxError (β × List Token) → Checked (Option α × Parser) → Prop
  | ok {b : β} {a : α} {rest : List Token} {q : Parser} (hgives : Gives b a)
    (hbefore : Before setting rest q) (hreports : q.reports = p.reports) :
    Follows setting Gives p (.ok (b, rest)) (pure (some a, q))
  | error {error : SyntaxError} {q : Parser}
    (hreports : q.reports = p.reports ++ [error.report setting.lastLine]) :
    Follows setting Gives p (.error error) (pure (none, q))

/-- A computation that does what a reader does, wherever a parser stands. -/
def Implements (setting : Setting) (Gives : β → α → Prop) (x : Parsing α) (reader : Reader β) : Prop :=
  ∀ ⦃p : Parser⦄ ⦃tokens : List Token⦄, Before setting tokens p →
    Follows setting Gives p (reader tokens) (p.run x)

/-- Only the reports of a parser matter for what follows. -/
theorem Follows.of_reports {Gives : β → α → Prop} {p q : Parser} (hreports : q.reports = p.reports)
    {answer : Except SyntaxError (β × List Token)} {outcome : Checked (Option α × Parser)}
    (h : Follows setting Gives q answer outcome) : Follows setting Gives p answer outcome := by
  cases h with
  | ok hgives hbefore hreports' => exact .ok hgives hbefore (hreports'.trans hreports)
  | error hreports' => exact .error (hreports ▸ hreports')

/-- A reader may make something else of what it reads. -/
theorem Follows.map {Gives : β → α → Prop} {Makes : γ → α → Prop} {f : β → γ}
    (hf : ∀ b a, Gives b a → Makes (f b) a) {p : Parser} {answer : Except SyntaxError (β × List Token)}
    {outcome : Checked (Option α × Parser)} (h : Follows setting Gives p answer outcome) :
    Follows setting Makes p (answer.map fun read => (f read.1, read.2)) outcome := by
  cases h with
  | ok hgives hbefore hreports => exact .ok (hf _ _ hgives) hbefore hreports
  | error hreports => exact .error hreports

/-- Reading nothing is giving a result. -/
theorem Implements.give {Gives : β → α → Prop} {b : β} {a : α} (h : Gives b a) :
    Implements setting Gives (pure a) (Reader.give b) :=
  fun _ _ hbefore => .ok h hbefore rfl

/-- What comes after a part that is read may depend on it. -/
theorem Follows.andThen {Gives : β → α → Prop} {GivesNext : δ → γ → Prop} {p : Parser} {x : Parsing α}
    {first : Reader β} {f : α → Parsing γ} {next : β → Reader δ} {tokens : List Token}
    (hx : Follows setting Gives p (first tokens) (p.run x))
    (hf : ∀ b a rest, first tokens = .ok (b, rest) → Gives b a →
      Implements setting GivesNext (f a) (next b)) :
    Follows setting GivesNext p (first.andThen next tokens) (p.run (x >>= f)) := by
  generalize hrun : p.run x = outcome at hx
  rw [Reader.andThen]
  cases hanswer : first tokens with
  | error error =>
    rw [hanswer] at hx
    cases hx with
    | error hreports =>
      rw [run_bind_of_none hrun]
      exact .error hreports
  | ok read =>
    rw [hanswer] at hx
    cases hx with
    | ok hgives hnext hreports =>
      rw [run_bind_of_some hrun]
      exact (hf _ _ _ hanswer hgives hnext).of_reports hreports

/-- Parts are read one after the other. -/
theorem Implements.andThen {Gives : β → α → Prop} {GivesNext : δ → γ → Prop} {x : Parsing α}
    {first : Reader β} {f : α → Parsing γ} {next : β → Reader δ} (hx : Implements setting Gives x first)
    (hf : ∀ b a, Gives b a → Implements setting GivesNext (f a) (next b)) :
    Implements setting GivesNext (x >>= f) (first.andThen next) :=
  fun _ _ hbefore => (hx hbefore).andThen fun b a _ _ hgives => hf b a hgives

/-- Where something else is needed, that is reported, and there is no result. -/
theorem follows_report {Gives : β → α → Prop} {p : Parser} {tokens : List Token}
    (h : Before setting tokens p) {expected : Expected} {message : String}
    (hmessage : message = (SyntaxError.mk tokens.head? expected).message) :
    Follows setting Gives p (.error ⟨tokens.head?, expected⟩)
      (p.run (report (setting.mark tokens.head?) message >>= fun _ => failure)) := by
  have hfound : ∀ token ∈ tokens.head?, token.HasPlace setting.names :=
    fun token htoken => h.named token (List.mem_of_mem_head? htoken)
  subst hmessage
  rw [run_bind_of_some (run_report h hfound _), run_failure]
  exact .error rfl

/-- An operator that is expected is taken, or asked for. -/
theorem implements_consume (symbol : Operator) :
    Implements setting (fun _ _ => True) (consume symbol) (Statement.expect symbol) := by
  intro p tokens h
  rcases Statement.eq_cons_or_clearOf symbol tokens with ⟨token, rest, rfl, htoken⟩ | hclear
  · rw [Statement.expect_cons htoken, consume, run_bind_of_some (run_check_of_cons h htoken), if_pos rfl,
      run_advance h]
    exact .ok trivial h.moved rfl
  · rw [Statement.expect_error hclear, consume, run_bind_of_some (run_check_of_clearOf h hclear),
      if_neg Bool.false_ne_true, run_bind_of_some (run_peek h)]
    exact follows_report h rfl

/-- A key together with the mark of its name. -/
def Setting.placed (setting : Setting) (placed : Nat × Key) : Mark × Key :=
  (setting.mark (some ⟨.name placed.2.base, placed.1⟩), placed.2)

/-- What is read for a key: the key with the mark of its name, which has its place in the table. -/
def GivesKey (setting : Setting) (placed : Nat × Key) (result : Mark × Key) : Prop :=
  result = setting.placed placed ∧ placed.2.base ∈ setting.names

/-- A name is read together with the mark for unstable keys. -/
theorem implements_markedName (negated : Bool) :
    Implements setting (GivesKey setting) (markedName negated) (Statement.markedName negated) := by
  intro p tokens h
  match tokens with
  | [] | ⟨.operator _, _⟩ :: _ =>
    rw [markedName, run_bind_of_some (run_peek h)]
    exact follows_report h rfl
  | ⟨.name base, line⟩ :: rest =>
    have hbase : base ∈ setting.names := h.named _ List.mem_cons_self base rfl
    have hrun : p.run (markedName negated) = p.moved.run (tryConsume .unstable >>= fun mark? =>
        pure (setting.mark (some ⟨.name base, line⟩), ⟨base, mark?.isNone, negated⟩)) := by
      rw [markedName, run_bind_of_some (run_peek h)]
      exact (run_bind_of_some (run_advance h) _).trans (run_bind_of_some (run_nameAt h.moved hbase) _)
    rw [hrun]
    rcases Statement.eq_cons_or_clearOf .unstable rest with ⟨⟨_, _⟩, last, rfl, rfl⟩ | hclear
    · rw [run_bind_of_some (run_tryConsume_of_cons h.moved rfl), run_pure]
      exact .ok ⟨rfl, hbase⟩ h.moved.moved rfl
    · rw [run_bind_of_some (run_tryConsume_of_clearOf h.moved hclear), run_pure,
        Statement.markedName_stable negated base line hclear]
      exact .ok ⟨rfl, hbase⟩ h.moved rfl

/-- A key is read with its marks. -/
theorem implements_key : Implements setting (GivesKey setting) key Statement.placedKey := by
  intro p tokens h
  rcases Statement.eq_cons_not_or_clearOf tokens with ⟨line, rest, rfl⟩ | hclear
  · have hreports : p.moved.reports = p.reports := rfl
    rw [key, run_bind_of_some (run_tryConsume_of_cons h rfl)]
    exact (implements_markedName true h.moved).of_reports hreports
  · rw [key, run_bind_of_some (run_tryConsume_of_clearOf h hclear), Statement.placedKey_of_clearOf hclear]
    exact implements_markedName false h

/-- Parts are read one by one with an operator between them, within as many rounds as there are tokens. -/
theorem follows_parts {part : Parsing α} {reader : Reader β} {give : β → α} (advances : reader.Advances)
    (hpart : Implements setting (fun b a => a = give b) part reader) (symbol : Operator) {rounds : Nat}
    {p : Parser} {tokens : List Token} (h : Before setting tokens p) (hrounds : tokens.length < rounds)
    (read : List α) :
    Follows setting (fun bs as => as = read ++ bs.map give) p
      (Statement.separated symbol reader advances tokens) (p.run (parts symbol part rounds read)) := by
  induction rounds generalizing p tokens read with
  | zero => cases hrounds
  | succ rounds ih =>
    have hfirst := hpart h
    rw [parts]
    generalize hrun : p.run part = outcome at hfirst
    cases hanswer : reader tokens with
    | error error =>
      rw [hanswer] at hfirst
      cases hfirst with
      | error hreports =>
        rw [run_bind_of_none hrun, Statement.separated_eq, hanswer]
        exact .error hreports
    | ok answer =>
      obtain ⟨b, rest⟩ := answer
      rw [hanswer] at hfirst
      cases hfirst with
      | @ok _ _ _ q hgives hnext hreports =>
        subst hgives
        rw [run_bind_of_some hrun]
        rcases Statement.eq_cons_or_clearOf symbol rest with ⟨token, more, rfl, htoken⟩ | hclear
        · have hshorter : more.length < rounds := by
            have := advances _ _ _ hanswer
            simp only [List.length_cons] at this
            omega
          have hmoved : q.moved.reports = p.reports := hreports
          have hothers := (ih hnext.moved hshorter (read ++ [give b])).of_reports hmoved
          rw [run_bind_of_some (run_tryConsume_of_cons hnext htoken),
            Statement.separated_of_cons advances hanswer htoken]
          refine hothers.map fun bs as has => ?_
          rw [has, List.map_cons, List.append_assoc, List.singleton_append]
        · rw [run_bind_of_some (run_tryConsume_of_clearOf hnext hclear),
            Statement.separated_of_clearOf advances hanswer hclear]
          exact .ok rfl hnext hreports

/-- Parts are read from the first one on. -/
theorem implements_parts {part : Parsing α} {reader : Reader β} {give : β → α}
    (advances : reader.Advances) (hpart : Implements setting (fun b a => a = give b) part reader)
    (symbol : Operator) :
    Implements setting (fun bs as => as = bs.map give) (parts symbol part setting.rounds [])
      (Statement.separated symbol reader advances) :=
  fun _ _ h => follows_parts advances hpart symbol h h.fits []

end Implements

/-! ## Equations -/

section Equations

variable {D : Type} [Spelling D] {setting : Setting} {p : Parser} {tokens : List Token}

/-- An atom is the value that it spells, or else a key. -/
def atomOf (atom : Key) : Atom D :=
  match (atom.constant? : Option D) with
  | some value => .value value
  | none => .key atom

/-- The value that is spelled where a key is next. -/
def spelledBy (tokens : List Token) : Option D :=
  match Statement.placedKey tokens with
  | .ok ((_, key), _) => key.constant?
  | .error _ => none

/-- Only a name can be an unstable one. -/
theorem run_isUnstableName_of_not_name (h : Before setting tokens p)
    (hname : ∀ token ∈ tokens.head?, token.lexeme.name? = none) :
    p.run isUnstableName = pure (some false, p) := by
  rw [isUnstableName, run_bind_of_some (run_peek h)]
  match tokens with
  | [] | ⟨.operator _, _⟩ :: _ => rfl
  | ⟨.name base, _⟩ :: _ => cases hname _ rfl

/-- A name is an unstable one if it is marked as such. -/
theorem run_isUnstableName_of_name {base : String} {line : Nat} {rest : List Token}
    (h : Before setting (⟨.name base, line⟩ :: rest) p) :
    p.run isUnstableName =
      pure (some (decide (∃ token ∈ rest.head?, token.lexeme = .operator .unstable)), p) := by
  have hmark : p.marks[p.current + 1]? = some (setting.mark rest.head?) := by
    rw [h.getElem?_marks]
    cases rest <;> rfl
  rw [isUnstableName, run_bind_of_some (run_peek h)]
  refine (run_bind_of_some run_get _).trans ?_
  rw [hmark, run_pure]
  match rest with
  | [] => simp [Setting.mark]
  | ⟨.name _, _⟩ :: _ | ⟨.operator _, _⟩ :: _ => simp [Setting.mark, Token.encode]

/-- A value is next if an unmarked name spells one. -/
theorem run_spelled? (h : Before setting tokens p) :
    p.run spelled? = pure (some (spelledBy tokens : Option D), p) := by
  rw [spelled?]
  rcases Statement.eq_cons_not_or_clearOf tokens with ⟨line, rest, rfl⟩ | hclear
  · have hnegated : (spelledBy (⟨.operator .not, line⟩ :: rest) : Option D) = none := by
      rw [spelledBy, Statement.placedKey]
      cases hread : Statement.markedName true rest with
      | error error => rfl
      | ok read =>
        obtain ⟨taken, -, ⟨hnegated, -⟩, -⟩ := (Statement.markedName_reads true).takes hread
        simp [Key.constant?, hnegated]
    rw [run_bind_of_some (run_check_of_cons h rfl), hnegated]
    rfl
  · rw [run_bind_of_some (run_check_of_clearOf h hclear), spelledBy, Statement.placedKey_of_clearOf hclear]
    match tokens with
    | [] | ⟨.operator _, _⟩ :: _ =>
      have hunstable := run_isUnstableName_of_not_name h (by simp [Lexeme.name?])
      refine (run_bind_of_some hunstable _).trans ((run_bind_of_some (run_peek h) _).trans rfl)
    | ⟨.name base, line⟩ :: rest =>
      have hbase : base ∈ setting.names := h.named _ List.mem_cons_self base rfl
      refine (run_bind_of_some (run_isUnstableName_of_name h) _).trans ?_
      rcases Statement.eq_cons_or_clearOf .unstable rest with ⟨⟨_, _⟩, last, rfl, rfl⟩ | hclear
      · rw [decide_eq_true ⟨_, rfl, rfl⟩, if_pos rfl]
        rfl
      · have hnone : ¬ ∃ token ∈ rest.head?, token.lexeme = .operator .unstable := by
          simpa [ClearOf] using hclear
        rw [decide_eq_false hnone, if_neg Bool.false_ne_true,
          Statement.markedName_stable false base line hclear]
        exact (run_bind_of_some (run_peek h) _).trans ((run_bind_of_some (run_nameAt h hbase) _).trans rfl)

/-- A value is spelled by one name. -/
theorem exists_of_spelledBy {value : D} (hspelled : spelledBy tokens = some value) :
    ∃ token rest, tokens = token :: rest ∧ ∃ atom : Key, Statement.atom tokens = .ok (atom, rest) ∧
      atom.constant? = some value := by
  rw [spelledBy] at hspelled
  rw [Statement.atom_eq, Reader.andThen]
  cases hread : Statement.placedKey tokens with
  | error error =>
    rw [hread] at hspelled
    cases hspelled
  | ok read =>
    obtain ⟨⟨line, key⟩, rest⟩ := read
    rw [hread] at hspelled
    obtain ⟨taken, rfl, ⟨hlexemes, -⟩, -⟩ := Statement.placedKey_reads.takes hread
    obtain ⟨hmarks, -⟩ : (key.stable = true ∧ key.negated = false) ∧ _ := by
      simpa [Key.constant?] using hspelled
    obtain ⟨token, rfl, -⟩ : ∃ token, taken = [token] ∧ token.lexeme = .name key.base := by
      simpa [Key.lexemes, hmarks, List.map_eq_singleton_iff] using hlexemes
    exact ⟨token, rest, rfl, key, rfl, hspelled⟩

/-- An atom is read as the value that it spells, or else as a key. -/
theorem implements_atom :
    Implements setting (fun key a => a = (atomOf key : Atom D)) atom Statement.atom := by
  intro p tokens h
  rw [atom, run_bind_of_some (run_spelled? h)]
  cases hspelled : (spelledBy tokens : Option D) with
  | some value =>
    obtain ⟨token, rest, rfl, key, hatom, hconstant⟩ := exists_of_spelledBy hspelled
    change Follows setting _ p _ (p.run (advance >>= fun _ => pure (Atom.value value)))
    rw [hatom, run_bind_of_some (run_advance h), run_pure]
    exact .ok (by rw [atomOf, hconstant]) h.moved rfl
  | none =>
    rw [Statement.atom_eq]
    refine (implements_key h).andThen fun placed result rest hread hgives => Implements.give ?_
    have hconstant : (placed.2.constant? : Option D) = none := by
      rwa [spelledBy, hread] at hspelled
    obtain ⟨rfl, -⟩ := hgives
    rw [atomOf, hconstant]
    rfl

/-- The values among atoms are those that their keys spell. -/
theorem filterMap_value?_atomOf (atoms : List Key) :
    (atoms.map atomOf).filterMap Atom.value? = atoms.filterMap (Key.constant? : Key → Option D) := by
  rw [List.filterMap_map]
  refine List.filterMap_congr fun atom _ => ?_
  rw [Function.comp_apply, atomOf]
  cases (atom.constant? : Option D) <;> rfl

/-- The keys among atoms are those that spell no value. -/
theorem filterMap_key?_atomOf (atoms : List Key) :
    (atoms.map (atomOf : Key → Atom D)).filterMap Atom.key? =
      atoms.filter fun atom => (atom.constant? : Option D).isNone := by
  rw [List.filterMap_map, ← List.filterMap_eq_filter]
  refine List.filterMap_congr fun atom _ => ?_
  rw [Function.comp_apply, atomOf, Option.guard]
  cases (atom.constant? : Option D) <;> rfl

variable [Domain D] [DecidableEq D]

/-- A product is the right hand side of an alternative. -/
theorem implements_product :
    Implements setting (fun atoms rhs => rhs = (Rhs.ofAlternative atoms : Rhs D))
      (product setting.rounds) Statement.alternative := by
  have hatoms : Implements setting (fun keys atoms => atoms = keys.map (atomOf : Key → Atom D))
      (parts .and atom setting.rounds []) Statement.alternative :=
    implements_parts Statement.atom_advances implements_atom .and
  rw [← Reader.andThen_give Statement.alternative]
  refine hatoms.andThen fun keys atoms hgives => Implements.give ?_
  subst hgives
  rw [filterMap_value?_atomOf, filterMap_key?_atomOf]
  rfl

/-- What is written for a statement: its key and the right hand sides of its alternatives. -/
def GivesStatement (setting : Setting) (statement : Statement)
    (result : (Mark × Key) × List (Rhs D)) : Prop :=
  GivesKey setting (statement.line, statement.key) result.1 ∧
    result.2 = statement.alternatives.map Rhs.ofAlternative

/-- An equation is read like a statement. -/
theorem implements_written :
    Implements setting (GivesStatement setting (D := D)) (written setting.rounds) Statement.reader := by
  have hproducts : Implements setting (fun alternatives sums => sums = alternatives.map (Rhs.ofAlternative (D := D)))
      (parts .or (product setting.rounds) setting.rounds []) Statement.readAlternatives :=
    implements_parts Statement.alternative_advances implements_product .or
  rw [Statement.reader_eq]
  refine implements_key.andThen fun placed result hkey => ?_
  refine (implements_consume .define).andThen fun _ _ _ => ?_
  refine hproducts.andThen fun alternatives products hproducts => ?_
  refine (implements_consume .semicolon).andThen fun _ _ _ => ?_
  exact Implements.give ⟨hkey, hproducts⟩

/-- A statement that is written makes a definition, or is reported as dropped. -/
theorem exists_run_define (limit : Nat) {statement : Statement} (hne : statement.alternatives ≠ [])
    {result : (Mark × Key) × List (Rhs D)} (hgives : GivesStatement setting statement result)
    (h : Before setting tokens p) :
    ∃ q, p.run (define limit result.1 result.2) = pure (some (statement.definition? D limit), q) ∧
      Before setting tokens q ∧ q.reports = p.reports ++ (statement.drop? D limit).toList := by
  obtain ⟨placed, products⟩ := result
  obtain ⟨⟨rfl, hbase⟩, rfl⟩ := hgives
  obtain ⟨first, others, halternatives⟩ := List.exists_cons_of_ne_nil hne
  rw [Statement.definition?, Statement.drop?, halternatives, List.map_cons, define, Rhs.ofAlternatives,
    List.foldlM_map]
  cases List.foldlM (fun rhs atoms => Rhs.join limit rhs (Rhs.ofAlternative atoms))
      (Rhs.ofAlternative first : Rhs D) others with
  | ok rhs => exact ⟨p, rfl, h, (List.append_nil _).symm⟩
  | error excess =>
    have hname : ∀ token ∈ some (Token.mk (.name statement.key.base) statement.line),
        token.HasPlace setting.names := by
      rintro _ ⟨⟩ _ ⟨⟩
      exact hbase
    exact ⟨p.reported (statement.dropReport excess), run_bind_of_some (run_report h hname _) _,
      ⟨h.names, h.marks, h.named, h.fits⟩, rfl⟩

/-- A statement that can be read is an equation, which has a definition unless it is dropped. -/
theorem exists_run_equation_of_ok (limit : Nat) (h : Before setting tokens p) {statement : Statement}
    {rest : List Token} (hread : Statement.reader tokens = .ok (statement, rest)) :
    ∃ q, p.run (equation limit setting.rounds) = pure (some (statement.definition? D limit), q) ∧
      Before setting rest q ∧ q.reports = p.reports ++ (statement.drop? D limit).toList := by
  have hne : statement.alternatives ≠ [] := by
    obtain ⟨_, -, hspelled, -⟩ := Statement.reader_reads.takes hread
    exact hspelled.complete.1
  have hwritten := implements_written (D := D) h
  generalize hrun : p.run (written (D := D) setting.rounds) = outcome at hwritten
  rw [hread] at hwritten
  cases hwritten with
  | ok hgives hbefore hreports =>
    rw [← hreports, equation, run_bind_of_some hrun]
    exact exists_run_define limit hne hgives hbefore

/-- Where no statement can be read, the error is reported. -/
theorem exists_run_equation_of_error (limit : Nat) (h : Before setting tokens p) {error : SyntaxError}
    (hread : Statement.reader tokens = .error error) :
    ∃ q, p.run (equation limit setting.rounds : Parsing (Option (Definition D))) = pure (none, q) ∧
      q.reports = p.reports ++ [error.report setting.lastLine] := by
  have hwritten := implements_written (D := D) h
  generalize hrun : p.run (written (D := D) setting.rounds) = outcome at hwritten
  rw [hread] at hwritten
  cases hwritten with
  | error hreports => exact ⟨_, run_bind_of_none hrun _, hreports⟩

end Equations

end Parser

/-! ## Whole texts -/

namespace Reading

variable {D : Type} [Domain D] [DecidableEq D] [Spelling D]

/-- A text without tokens has no definitions. -/
theorem ofTokens_nil (limit lastLine : Nat) :
    (ofTokens limit ⟨[], lastLine⟩ : Reading D) = ⟨some [], []⟩ := by
  simp only [ofTokens, Script.ofTokens_nil]
  rfl

/-- What a statement gives comes before what the tokens behind it give. -/
theorem ofTokens_of_ok (limit lastLine : Nat) {tokens rest : List Token} {statement : Statement}
    (hread : Statement.reader tokens = .ok (statement, rest)) :
    (ofTokens limit ⟨tokens, lastLine⟩ : Reading D) =
      ⟨(ofTokens limit ⟨rest, lastLine⟩).definitions?.map ((statement.definition? D limit).toList ++ ·),
        (statement.drop? D limit).toList ++ (ofTokens limit ⟨rest, lastLine⟩ : Reading D).reports⟩ := by
  have hcons {α : Type} (f : Statement → Option α) (statements : List Statement) :
      (statement :: statements).filterMap f = (f statement).toList ++ statements.filterMap f := by
    rw [List.filterMap_cons]
    cases f statement <;> rfl
  simp only [ofTokens, Script.ofTokens_of_ok hread, Statement.defineAll_eq, hcons]
  cases (Script.ofTokens rest).failure with
  | none => rfl
  | some error => simp

/-- Where no statement can be read, there are no definitions. -/
theorem ofTokens_of_error (limit lastLine : Nat) {tokens : List Token} {error : SyntaxError}
    (hne : tokens ≠ []) (hread : Statement.reader tokens = .error error) :
    (ofTokens limit ⟨tokens, lastLine⟩ : Reading D) = ⟨none, [error.report lastLine]⟩ := by
  simp only [ofTokens, Script.ofTokens_of_error hne hread]
  rfl

end Reading

namespace Parser

variable {D : Type} [Domain D] [DecidableEq D] [Spelling D]

/-- With more rounds than there are tokens left, equations are read up to the end of the text or to its
error, and all reports are made. -/
theorem exists_run_equations (limit : Nat) {names : ArrivalSet String} {lastLine rounds : Nat}
    {tokens : List Token} {p : Parser} (h : Before ⟨names, lastLine, rounds⟩ tokens p)
    (read : List (Definition D)) :
    ∃ q, p.run (equations limit rounds read) =
        pure ((Reading.ofTokens limit ⟨tokens, lastLine⟩).definitions?.map (read ++ ·), q) ∧
      q.reports = p.reports ++ (Reading.ofTokens limit ⟨tokens, lastLine⟩ : Reading D).reports := by
  induction rounds generalizing p tokens read with
  | zero => cases h.fits
  | succ rounds ih =>
    rw [equations, run_bind_of_some (run_isAtEnd h)]
    cases tokens with
    | nil =>
      rw [Reading.ofTokens_nil]
      refine ⟨p, ?_, (List.append_nil _).symm⟩
      rw [Option.map_some, List.append_nil]
      rfl
    | cons token tokens =>
      cases hread : Statement.reader (token :: tokens) with
      | error error =>
        obtain ⟨q, hrun, hreports⟩ := exists_run_equation_of_error (D := D) limit h hread
        rw [Reading.ofTokens_of_error limit lastLine (List.cons_ne_nil _ _) hread]
        exact ⟨q, run_bind_of_none hrun _, hreports⟩
      | ok answer =>
        obtain ⟨statement, rest⟩ := answer
        obtain ⟨q, hrun, hnext, hreports⟩ := exists_run_equation_of_ok (D := D) limit h hread
        have hshorter := Statement.reader_advances _ _ _ hread
        have hfits : Before ⟨names, lastLine, rounds⟩ rest q :=
          ⟨hnext.names, hnext.marks, hnext.named, Nat.lt_of_lt_of_le hshorter (Nat.le_of_lt_succ h.fits)⟩
        obtain ⟨r, hmore, hreports'⟩ := ih hfits (read ++ (statement.definition? D limit).toList)
        refine ⟨r, ?_, ?_⟩
        · refine (run_bind_of_some hrun _).trans ?_
          rw [hmore, Reading.ofTokens_of_ok limit lastLine hread, Option.map_map]
          simp only [Function.comp_def, List.append_assoc]
        · rw [hreports', hreports, Reading.ofTokens_of_ok limit lastLine hread, List.append_assoc]

end Parser

namespace Reading

variable {D : Type} [Domain D] [DecidableEq D] [Spelling D]

/-- With more rounds than a text has characters, reading it by position gives what it says. -/
theorem byPosition_eq {rounds : Nat} {source : String} (hrounds : source.toList.length < rounds)
    (limit : Nat) :
    (byPosition rounds limit source : Checked (Reading D)) = pure (ofSource limit source) := by
  rw [byPosition, Scanner.scan_eq hrounds, pure_bind, ofSource]
  cases hsource : Tokens.ofSource source with
  | error error => rfl
  | ok tokens =>
    have hbody : tokens.body.length < rounds := by
      rw [Tokens.ofSource] at hsource
      split at hsource
      · exact Nat.lt_of_le_of_lt (Tokens.length_body_le hsource) hrounds
      · cases hsource
    have hbefore : Parser.Before ⟨tokens.names, tokens.lastLine, rounds⟩ tokens.body
        (Parser.new (Scanned.ofTokens (.ok tokens))) :=
      ⟨rfl, rfl, fun _ htoken => tokens.hasPlace htoken, hbody⟩
    obtain ⟨q, hrun, hreports⟩ := Parser.exists_run_equations (D := D) limit hbefore []
    have hmarks : (Scanned.ofTokens (.ok tokens)).marks.isEmpty = false := by
      simp [Scanned.ofTokens]
    have hdefinitions : (ofTokens limit tokens : Reading D).definitions?.map ([] ++ ·) =
        (ofTokens limit tokens : Reading D).definitions? := by
      cases (ofTokens limit tokens : Reading D).definitions? <;> rfl
    have hreading : (⟨(ofTokens limit tokens : Reading D).definitions?, q.reports⟩ : Reading D) =
        ofTokens limit tokens := by
      rw [hreports]
      rfl
    rw [hmarks, if_neg Bool.false_ne_true, hrun, pure_bind, hdefinitions]
    exact congrArg pure hreading

/-- Scanning a text of equations and parsing its marks, if there are any, always end without a step out of
bounds. Every loop needs at most one round more than there are characters, and more rounds change
nothing. The marks end with their only mark for the end of the text, and the definitions and reports are
those of the text. -/
theorem byPosition_total (limit more : Nat) (source : String) :
    (∃ scanned, Scanner.scan (source.toList.length + 1 + more) source = pure scanned ∧
      scanned.WellFormed) ∧
    (byPosition (source.toList.length + 1 + more) limit source : Checked (Reading D)) =
      pure (ofSource limit source) := by
  have hrounds : source.toList.length < source.toList.length + 1 + more := by omega
  exact ⟨⟨_, Scanner.scan_eq hrounds, Scanned.wellFormed_ofTokens _⟩, byPosition_eq hrounds limit⟩

end Reading

end MonotoneEquations
