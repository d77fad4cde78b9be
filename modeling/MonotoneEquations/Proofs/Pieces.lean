import Mathlib
import MonotoneEquations.Source.Token

/-!
# Pieces of a text

The parts of a text of equations: names and operators, and the blanks, line feeds and comments that
separate them. A name starts with a letter or an underscore and has no two slashes in a row; a comment
starts with a hash or with two slashes and stays on its line.

What a piece is depends on what follows it. A name goes on as far as it can, so it does not end before
a character that could follow in it, and a comment does not end before the line does. Where a piece
starts, the reader finds one that ends, and goes on with what is left; where none starts, it stops.
-/

namespace MonotoneEquations

/-- The characters of a valid name. -/
structure IsName (text : List Char) : Prop where
  starts : ∃ first rest, text = first :: rest ∧ Tokens.isNameStart first ∧
    ∀ c ∈ rest, Tokens.isNameChar c
  unbroken : ¬ ['/', '/'] <:+: text

/-- The characters of a lexeme. -/
def Lexeme.chars : Lexeme → List Char
  | .name text => text.toList
  | .operator symbol => [symbol.char]

/-- The text of a name. -/
def Lexeme.name? : Lexeme → Option String
  | .name text => some text
  | .operator _ => none

/-- How a comment starts. -/
inductive CommentMark where
  | hash
  | slashes
  deriving DecidableEq

/-- The characters with which a comment starts. -/
def CommentMark.chars : CommentMark → List Char
  | .hash => ['#']
  | .slashes => ['/', '/']

/-- A part of a rendered text: a name or an operator, or something that separates them. -/
inductive Piece where
  | lexeme (lexeme : Lexeme)
  | blank (char : Char)
  | lineFeed
  | comment (mark : CommentMark) (body : List Char)
  deriving DecidableEq

namespace Piece

/-- The characters of a piece. -/
def chars : Piece → List Char
  | .lexeme word => word.chars
  | .blank char => [char]
  | .lineFeed => ['\n']
  | .comment mark body => mark.chars ++ body

/-- Names are valid, blanks are spaces, tabs or carriage returns, and comments stay on their line. -/
def IsValid : Piece → Prop
  | .lexeme (.name text) => IsName text.toList
  | .lexeme (.operator _) => True
  | .blank char => char = ' ' ∨ char = '\t' ∨ char = '\r'
  | .lineFeed => True
  | .comment _ body => '\n' ∉ body

/-- Whether a piece can stand right before another one. -/
def MayPrecede : Piece → Piece → Prop
  | .comment _ _, next => next = .lineFeed
  | .lexeme (.name _), .lexeme (.name _) => False
  | .lexeme (.name text), .comment .slashes _ => text.toList.getLast? ≠ some '/'
  | _, _ => True

/-- The lexeme that a piece stands for, if it stands for one. -/
def lexeme? : Piece → Option Lexeme
  | .lexeme word => some word
  | _ => none

end Piece

/-! ## Characters -/

namespace Tokens

/-- A character that starts a name can also follow in one. -/
theorem isNameChar_of_isNameStart {c : Char} (h : isNameStart c) : isNameChar c := by
  simp only [isNameStart, Bool.or_eq_true, decide_eq_true_eq] at h
  rcases h with h | rfl
  · simp [isNameChar, Char.isAlphanum, h]
  · decide

/-- What starts a name starts nothing else. -/
theorem ofChar?_of_isNameStart {c : Char} (h : isNameStart c) :
    Operator.ofChar? c = none ∧ c ≠ '\n' ∧ isBlank c = false ∧ c ≠ '#' ∧ c ≠ '/' := by
  have hne : ∀ d, isNameStart d = false → c ≠ d := by
    rintro d hd rfl
    rw [hd] at h
    cases h
  refine ⟨?_, hne _ (by decide), ?_, hne _ (by decide), hne _ (by decide)⟩
  · rw [Option.eq_none_iff_forall_ne_some]
    intro operator hoperator
    refine hne _ ?_ (Operator.ofChar?_eq_some_iff.mp hoperator)
    cases operator <;> decide
  · simp [isBlank, hne ' ' (by decide), hne '\t' (by decide), hne '\r' (by decide)]

/-- Two slashes start a comment, and nothing else does. -/
theorem startsComment_iff {text : List Char} : startsComment text ↔ ∃ rest, text = '/' :: '/' :: rest := by
  unfold startsComment
  split
  next rest => simp
  next hother => simpa using fun rest => hother rest

/-- A name goes on until a character that is not part of it. -/
theorem splitName_eq {name after : List Char} (hname : ∀ c ∈ name, isNameChar c)
    (hunbroken : ∀ part, part ≠ [] → part <:+ name → ¬ startsComment (part ++ after))
    (hend : ∀ c ∈ after.head?, isNameChar c → startsComment after) :
    splitName (name ++ after) = (name, after) := by
  induction name with
  | nil =>
    cases after with
    | nil => rfl
    | cons c after =>
      have hstop : ¬ (isNameChar c && !startsComment (c :: after)) := by
        simpa using hend c rfl
      rw [List.nil_append, splitName, if_neg hstop]
  | cons c name ih =>
    have hwhole : ¬ startsComment (c :: name ++ after) :=
      hunbroken (c :: name) (List.cons_ne_nil _ _) List.suffix_rfl
    have hgoes : isNameChar c && !startsComment (c :: (name ++ after)) := by
      simpa [hname c List.mem_cons_self] using hwhole
    rw [List.forall_mem_cons] at hname
    have hrest := ih hname.2 fun part hpart hsuffix =>
      hunbroken part hpart (hsuffix.trans (List.suffix_cons c name))
    rw [List.cons_append, splitName, if_pos hgoes, hrest]

/-- Only characters of names are taken into a name. -/
theorem isNameChar_of_mem_splitName {text : List Char} :
    ∀ c ∈ (splitName text).1, isNameChar c := by
  induction text with
  | nil => simp [splitName]
  | cons c rest ih =>
    rw [splitName]
    split
    next hgoes => exact List.forall_mem_cons.mpr ⟨(Bool.and_eq_true_iff.mp hgoes).1, ih⟩
    next => simp

/-- No comment starts within a name, nor at its last character. -/
theorem not_startsComment_of_suffix_splitName {text part : List Char} (hpart : part ≠ [])
    (hsuffix : part <:+ (splitName text).1) : ¬ startsComment (part ++ (splitName text).2) := by
  induction text with
  | nil => exact absurd (List.suffix_nil.mp hsuffix) hpart
  | cons c rest ih =>
    rw [splitName] at hsuffix ⊢
    split at hsuffix
    next hgoes =>
      rw [if_pos hgoes]
      rcases List.suffix_cons_iff.mp hsuffix with rfl | hsuffix
      · rw [List.cons_append, splitName_append]
        simpa using (Bool.and_eq_true_iff.mp hgoes).2
      · exact ih hsuffix
    next => exact absurd (List.suffix_nil.mp hsuffix) hpart

/-- After a name comes nothing that could be part of it. -/
theorem startsComment_of_head?_splitName {text : List Char} :
    ∀ c ∈ (splitName text).2.head?, isNameChar c → startsComment (splitName text).2 := by
  induction text with
  | nil => simp [splitName]
  | cons c rest ih =>
    rw [splitName]
    split
    next => exact ih
    next hstop => simpa using hstop

/-- A comment reaches to the end of its line. -/
theorem afterLine_append {body after : List Char} (hbody : '\n' ∉ body)
    (hend : ∀ c ∈ after.head?, c = '\n') : afterLine (body ++ after) = after := by
  have hline : ∀ c ∈ body, decide (c ≠ '\n') := fun c hc => by
    simpa using fun heq : c = '\n' => hbody (heq ▸ hc)
  rw [afterLine, List.dropWhile_append_of_pos hline]
  cases after with
  | nil => rfl
  | cons c after => rw [List.dropWhile_cons_of_neg (by simpa using hend c rfl)]

/-- A line ends at a line feed or with the text. -/
theorem eq_of_head?_afterLine {text : List Char} : ∀ c ∈ (afterLine text).head?, c = '\n' := by
  intro c hc
  have hstop := List.head?_dropWhile_not (fun c => decide (c ≠ '\n')) text
  rw [show text.dropWhile _ = afterLine text from rfl, Option.mem_def.mp hc] at hstop
  simpa using hstop

end Tokens

/-- A name has characters of names only. -/
theorem IsName.isNameChar {text : List Char} (h : IsName text) : ∀ c ∈ text, Tokens.isNameChar c := by
  obtain ⟨first, rest, rfl, hfirst, hrest⟩ := h.starts
  exact List.forall_mem_cons.mpr ⟨Tokens.isNameChar_of_isNameStart hfirst, hrest⟩

/-! ## Pieces in a text -/

namespace Piece

open Tokens

/-- Whether a piece ends where the given characters follow it. -/
def EndsBefore (after : List Char) : Piece → Prop
  | .comment _ _ => ∀ c ∈ after.head?, c = '\n'
  | .lexeme (.name text) =>
    (∀ c ∈ after.head?, isNameChar c → startsComment after) ∧
      (text.toList.getLast? = some '/' → after.head? ≠ some '/')
  | _ => True

/-- The tokens of a piece on the given line. -/
def tokens (line : Nat) (piece : Piece) : List Token :=
  (piece.lexeme?.map fun word => ⟨word, line⟩).toList

/-- What a valid piece starts with. -/
theorem chars_ne_nil {piece : Piece} (hvalid : piece.IsValid) : piece.chars ≠ [] := by
  cases piece with
  | lexeme word =>
    cases word with
    | name text =>
      obtain ⟨first, rest, heq, -⟩ := hvalid.starts
      rw [chars, Lexeme.chars, heq]
      exact List.cons_ne_nil _ _
    | operator => exact List.cons_ne_nil _ _
  | blank | lineFeed => exact List.cons_ne_nil _ _
  | comment mark => cases mark <;> exact List.cons_ne_nil _ _

/-- At the end of a text every piece ends. -/
theorem endsBefore_nil (piece : Piece) : piece.EndsBefore [] := by
  cases piece with
  | lexeme word => cases word <;> simp [EndsBefore]
  | blank | lineFeed => trivial
  | comment => simp [EndsBefore]

/-- A line feed starts a piece only as the piece that it is. -/
theorem head?_chars_eq_lineFeed_iff {piece : Piece} (hvalid : piece.IsValid) :
    piece.chars.head? = some '\n' ↔ piece = .lineFeed := by
  cases piece with
  | lexeme word =>
    cases word with
    | name text =>
      obtain ⟨first, rest, heq, hfirst, -⟩ := hvalid.starts
      simpa [chars, Lexeme.chars, heq] using (ofChar?_of_isNameStart hfirst).2.1
    | operator symbol => cases symbol <;> decide
  | blank char =>
    rcases hvalid with rfl | rfl | rfl <;> decide
  | lineFeed => simp [chars]
  | comment mark => cases mark <;> simp [chars, CommentMark.chars]

/-- A name ends before a character that cannot follow in one. -/
theorem endsBefore_of_not_isNameChar {text : String} {c : Char} (hc : isNameChar c = false)
    (rest : List Char) : (Piece.lexeme (.name text)).EndsBefore (c :: rest) := by
  have hslash : c ≠ '/' := by
    rintro rfl
    revert hc
    decide
  exact ⟨by simp [hc], fun _ => by simpa using hslash⟩

/-- A piece may stand before another one exactly if it ends there. -/
theorem mayPrecede_iff {piece next : Piece} (hvalid : next.IsValid) (more : List Char) :
    piece.MayPrecede next ↔ piece.EndsBefore (next.chars ++ more) := by
  cases piece with
  | lexeme word =>
    cases word with
    | name text =>
      cases next with
      | lexeme word =>
        cases word with
        | name next =>
          obtain ⟨first, rest, heq, hfirst, -⟩ := hvalid.starts
          have hgoes := isNameChar_of_isNameStart hfirst
          have hslash := (ofChar?_of_isNameStart hfirst).2.2.2.2
          simp [MayPrecede, EndsBefore, chars, Lexeme.chars, heq, hgoes, startsComment_iff, hslash]
        | operator symbol =>
          exact iff_of_true trivial (endsBefore_of_not_isNameChar (by cases symbol <;> decide) _)
      | blank char =>
        refine iff_of_true trivial (endsBefore_of_not_isNameChar ?_ _)
        rcases hvalid with rfl | rfl | rfl <;> decide
      | lineFeed => exact iff_of_true trivial (endsBefore_of_not_isNameChar (by decide) _)
      | comment mark body =>
        cases mark with
        | hash => exact iff_of_true trivial (endsBefore_of_not_isNameChar (by decide) _)
        | slashes => simp [MayPrecede, EndsBefore, chars, CommentMark.chars, startsComment]
    | operator => exact iff_of_true trivial trivial
  | blank | lineFeed => exact iff_of_true trivial trivial
  | comment mark body =>
    obtain ⟨c, rest, heq⟩ := List.exists_cons_of_ne_nil (chars_ne_nil hvalid)
    rw [EndsBefore, MayPrecede, ← head?_chars_eq_lineFeed_iff hvalid, heq]
    simp

/-- A name of a text is a piece of it. -/
theorem scan_name {text : List Char} (hname : IsName text) {after : List Char}
    (hends : (Piece.lexeme (.name (String.ofList text))).EndsBefore after) (line : Nat) :
    scan line (text ++ after) =
      (scan line after).map (cons ⟨.name (String.ofList text), line⟩) := by
  obtain ⟨⟨first, rest, rfl, hfirst, hrest⟩, hunbroken⟩ := hname
  obtain ⟨hoperator, hlineFeed, hblank, hhash, hslash⟩ := ofChar?_of_isNameStart hfirst
  have hcomment : ¬ startsComment (first :: (rest ++ after)) := by
    rw [startsComment_iff]
    rintro ⟨more, hmore⟩
    exact hslash (List.cons.inj hmore).1
  have hsplit : splitName (rest ++ after) = (rest, after) := by
    refine splitName_eq hrest (fun part hpart hsuffix hstarts => ?_) hends.1
    obtain ⟨more, hmore⟩ := startsComment_iff.mp hstarts
    obtain ⟨front, rfl⟩ := hsuffix
    match part, hpart with
    | [c], _ =>
      obtain ⟨rfl, rfl⟩ := List.cons.inj hmore
      refine hends.2 ?_ rfl
      rw [String.toList_ofList, ← List.cons_append, List.getLast?_concat]
    | c :: d :: part, _ =>
      obtain ⟨rfl, hnext⟩ := List.cons.inj hmore
      obtain rfl : d = '/' := (List.cons.inj hnext).1
      exact hunbroken ⟨first :: front, part, by simp⟩
  rw [List.cons_append, scan, hoperator]
  simp only [hlineFeed, hblank, hhash, hcomment, hfirst, hsplit, if_false, if_true, decide_false,
    Bool.or_false, Bool.false_eq_true]

/-- A comment of a text is skipped. -/
theorem scan_comment {mark : CommentMark} {body after : List Char} (hbody : '\n' ∉ body)
    (hend : ∀ c ∈ after.head?, c = '\n') (line : Nat) :
    scan line (mark.chars ++ body ++ after) = scan line after := by
  cases mark with
  | hash =>
    rw [CommentMark.chars, List.append_assoc, List.singleton_append, scan]
    exact congrArg (scan line) (afterLine_append hbody hend)
  | slashes =>
    have hline : afterLine ('/' :: body ++ after) = after :=
      afterLine_append (by simpa using hbody) hend
    rw [CommentMark.chars, List.append_assoc, List.cons_append, List.singleton_append, scan]
    exact congrArg (scan line) hline

/-- A piece of a text gives its tokens, and the text after it gives the others. -/
theorem scan_append {piece : Piece} (hvalid : piece.IsValid) {after : List Char}
    (hends : piece.EndsBefore after) (line : Nat) :
    scan line (piece.chars ++ after) =
      (scan (line + piece.chars.count '\n') after).map fun tokens =>
        { tokens with body := piece.tokens line ++ tokens.body } := by
  -- A piece without tokens leaves the tokens after it as they are.
  have hskip (result : Except TokenError Tokens) :
      result.map (fun tokens => { tokens with body := [] ++ tokens.body }) = result := by
    cases result <;> rfl
  cases piece with
  | lexeme word =>
    cases word with
    | name text =>
      have hname : scan line (text.toList ++ after) = _ :=
        scan_name hvalid (by rwa [String.ofList_toList]) line
      have hcount : text.toList.count '\n' = 0 :=
        List.count_eq_zero_of_not_mem fun hmem => absurd (hvalid.isNameChar _ hmem) (by decide)
      rw [String.ofList_toList] at hname
      rw [chars, Lexeme.chars, hname, hcount]
      rfl
    | operator symbol =>
      have hsymbol : Operator.ofChar? symbol.char = some symbol := Operator.ofChar?_eq_some_iff.mpr rfl
      have hcount : [symbol.char].count '\n' = 0 := by cases symbol <;> decide
      rw [chars, Lexeme.chars, List.singleton_append, scan, hsymbol, hcount]
      rfl
  | blank char =>
    have hchar : Operator.ofChar? char = none ∧ char ≠ '\n' ∧ isBlank char ∧ [char].count '\n' = 0 := by
      rcases hvalid with rfl | rfl | rfl <;> decide
    rw [chars, List.singleton_append, scan, hchar.1, hchar.2.2.2]
    simp only [hchar.2.1, hchar.2.2.1, if_false, if_true]
    exact (hskip _).symm
  | lineFeed =>
    rw [chars, List.singleton_append, scan]
    exact (hskip _).symm
  | comment mark body =>
    have hcount : (mark.chars ++ body).count '\n' = 0 := by
      rw [List.count_append, List.count_eq_zero_of_not_mem hvalid]
      cases mark <;> rfl
    rw [chars, scan_comment hvalid hends, hcount]
    exact (hskip _).symm

/-- Whether a token or a separator starts here. -/
def Starts : List Char → Prop
  | [] => False
  | c :: rest =>
    (∃ symbol : Operator, c = symbol.char) ∨ c = '\n' ∨ isBlank c ∨ c = '#' ∨
      startsComment (c :: rest) ∨ isNameStart c

/-- A text that begins with a piece starts it. -/
theorem starts_append {piece : Piece} (hvalid : piece.IsValid) (after : List Char) :
    Starts (piece.chars ++ after) := by
  cases piece with
  | lexeme word =>
    cases word with
    | name text =>
      obtain ⟨first, rest, heq, hfirst, -⟩ := hvalid.starts
      simp [chars, Lexeme.chars, heq, Starts, hfirst]
    | operator symbol => exact .inl ⟨symbol, rfl⟩
  | blank char =>
    have hblank : isBlank char := by rcases hvalid with rfl | rfl | rfl <;> decide
    exact .inr (.inr (.inl hblank))
  | lineFeed => exact .inr (.inl rfl)
  | comment mark body =>
    cases mark with
    | hash => exact .inr (.inr (.inr (.inl rfl)))
    | slashes => exact .inr (.inr (.inr (.inr (.inl rfl))))

/-- A name that is split off a text is valid. -/
theorem isName_splitName {c : Char} (hstart : isNameStart c) (rest : List Char) :
    IsName (c :: (splitName rest).1) where
  starts := ⟨c, _, rfl, hstart, isNameChar_of_mem_splitName⟩
  unbroken := by
    rintro ⟨front, back, heq⟩
    cases front with
    | nil => exact (ofChar?_of_isNameStart hstart).2.2.2.2 (List.cons.inj heq).1.symm
    | cons d front =>
      have hsuffix : '/' :: '/' :: back <:+ (splitName rest).1 :=
        ⟨front, by simpa using (List.cons.inj heq).2⟩
      exact not_startsComment_of_suffix_splitName (List.cons_ne_nil _ _) hsuffix rfl

/-- A name that is split off a text ends where it is split off. -/
theorem endsBefore_splitName {c : Char} (hstart : isNameStart c) (rest : List Char) :
    (Piece.lexeme (.name (String.ofList (c :: (splitName rest).1)))).EndsBefore
      (splitName rest).2 := by
  refine ⟨startsComment_of_head?_splitName, fun hlast hnext => ?_⟩
  rw [String.toList_ofList] at hlast
  obtain ⟨front, heq⟩ := List.getLast?_eq_some_iff.mp hlast
  obtain ⟨more, hmore⟩ := List.head?_eq_some_iff.mp hnext
  cases front with
  | nil => exact (ofChar?_of_isNameStart hstart).2.2.2.2 (List.cons.inj heq).1
  | cons d front =>
    have hsuffix : ['/'] <:+ (splitName rest).1 := ⟨front, (List.cons.inj heq).2.symm⟩
    refine not_startsComment_of_suffix_splitName (List.cons_ne_nil _ _) hsuffix ?_
    rw [hmore]
    rfl

/-- What starts here is a piece that ends before the rest of the text. -/
theorem exists_piece {text : List Char} (h : Starts text) :
    ∃ (piece : Piece) (after : List Char),
      piece.IsValid ∧ piece.EndsBefore after ∧ text = piece.chars ++ after := by
  have hline (text : List Char) : '\n' ∉ text.takeWhile (· ≠ '\n') := fun hmem => by
    simpa using List.mem_takeWhile_imp hmem
  cases text with
  | nil => exact h.elim
  | cons c rest =>
    rcases h with ⟨symbol, rfl⟩ | rfl | hblank | rfl | hcomment | hstart
    · exact ⟨.lexeme (.operator symbol), rest, trivial, trivial, rfl⟩
    · exact ⟨.lineFeed, rest, trivial, trivial, rfl⟩
    · exact ⟨.blank c, rest, by simpa [IsValid, isBlank, or_assoc] using hblank, trivial, rfl⟩
    · refine ⟨.comment .hash (rest.takeWhile (· ≠ '\n')), afterLine rest, hline rest,
        eq_of_head?_afterLine, ?_⟩
      exact congrArg (List.cons '#') List.takeWhile_append_dropWhile.symm
    · obtain ⟨more, heq⟩ := startsComment_iff.mp hcomment
      refine ⟨.comment .slashes (more.takeWhile (· ≠ '\n')), afterLine more, hline more,
        eq_of_head?_afterLine, ?_⟩
      rw [heq]
      exact congrArg (fun text => '/' :: '/' :: text) List.takeWhile_append_dropWhile.symm
    · refine ⟨.lexeme (.name (String.ofList (c :: (splitName rest).1))), (splitName rest).2, ?_,
        endsBefore_splitName hstart rest, ?_⟩
      · simpa [IsValid] using isName_splitName hstart rest
      · simp [chars, Lexeme.chars, splitName_append]

/-- Where neither a token nor a separator starts, reading stops. -/
theorem scan_of_not_starts {c : Char} {rest : List Char} (h : ¬ Starts (c :: rest)) (line : Nat) :
    scan line (c :: rest) = .error (.unexpected line c) := by
  simp only [Starts, not_or, not_exists] at h
  obtain ⟨hsymbol, hlineFeed, hblank, hhash, hcomment, hstart⟩ := h
  have hoperator : Operator.ofChar? c = none := by
    rw [Option.eq_none_iff_forall_ne_some]
    exact fun symbol heq => hsymbol symbol (Operator.ofChar?_eq_some_iff.mp heq)
  rw [scan, hoperator]
  simp [hlineFeed, hblank, hhash, hcomment, hstart]

end Piece

end MonotoneEquations
