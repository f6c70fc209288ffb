import Notebook.Text.Numeral
import Notebook.Token

/-!
# From text to tokens

Reading goes in two passes.  The first cuts the text into *pieces* that lose nothing: white
space one character at a time, comments, and tokens as they are spelled.  The second walks
over the pieces, keeps the position, drops white space and comments, and puts in the
semicolons that line ends imply.

## Main definitions

* `Piece`, `pieces`: the cut, with `flatten_pieces` saying that nothing is lost
* `tokensOf`: positions and implied semicolons
* `tokenize`: both passes

## Design notes

A semicolon is implied by a line end only after a token that can end a statement, so the
second pass needs one bit of memory.  A block comment that holds a line feed counts as a line
end; its semicolon is placed at the offset of the comment, with the line and column behind it.
-/

namespace Notebook

/-! ### Pieces -/

/-- What a piece of source text is. -/
inductive PieceKind where
  | blank
  | comment
  | token (kind : TokenKind)
deriving DecidableEq, Repr

/-- A stretch of source text and what it is. -/
structure Piece where
  kind : PieceKind
  text : Text
deriving DecidableEq, Repr

namespace Lexer

/-- A character that begins an identifier. -/
def isIdentifierStart (c : Char) : Bool :=
  isLetter c || c == '_'

/-- The body of a block comment, up to and with the first closing mark, or to the end of the
text. -/
def blockComment : Text → Text × Text
  | [] => ([], [])
  | '*' :: '/' :: t => (['*', '/'], t)
  | c :: t => (c :: (blockComment t).1, (blockComment t).2)

/-- The rest of a quoted literal behind its opening quote.  A backslash protects the character
behind it, and a line feed ends the literal without belonging to it; in a raw literal neither
holds. -/
def quotedRest (quote : Char) : Text → Text × Text
  | [] => ([], [])
  | c :: t =>
    if c = '\n' ∧ quote ≠ '\x60' then ([], c :: t)
    else if c = '\\' ∧ quote ≠ '\x60' then
      match t with
      | [] => ([c], [])
      | d :: t => (c :: d :: (quotedRest quote t).1, (quotedRest quote t).2)
    else if c = quote then ([c], t)
    else (c :: (quotedRest quote t).1, (quotedRest quote t).2)

/-- Whether a number is spelled in base sixteen. -/
def isHexadecimal (t : Text) : Bool :=
  "0x".toList.isPrefixOf t || "0X".toList.isPrefixOf t

/-- The characters that carry an exponent: `p` in base sixteen, else `e`. -/
def isExponentMark (hex : Bool) (c : Char) : Bool :=
  if hex then c == 'p' || c == 'P' else c == 'e' || c == 'E'

/-- The characters of a number: digits, letters, underscores and points, and a sign behind an
exponent mark.  `prev` is the character in front. -/
def numberRun (hex : Bool) : (prev : Char) → Text → Text × Text
  | _, [] => ([], [])
  | prev, c :: t =>
    if c == '.' || ((c == '+' || c == '-') && isExponentMark hex prev) || c.isAlphanum ||
        c == '_' then
      (c :: (numberRun hex c t).1, (numberRun hex c t).2)
    else ([], c :: t)

/-- The kind of a number, from its spelling: imaginary if it ends in `i`, floating if it has a
point, a signed exponent or, outside base sixteen, an exponent mark. -/
def numberKind (hex : Bool) (t : Text) : TokenKind :=
  if t.getLast? = some 'i' then .imag
  else if t.any fun c => c == '.' || c == '+' || c == '-' then .float
  else if !hex && t.any (isExponentMark false) then .float
  else .int

/-- The operators of more than one character; of two that fit, the earlier one is read. -/
def operators : List String :=
  ["<<=", ">>=", "&^=", "...", "&&", "||", "<-", "++", "--", "==", "!=", "<=",
    ">=", ":=", "+=",
   "-=", "*=", "/=", "%=", "&=", "|=", "^=", "<<", ">>", "&^"]

/-- The spelled marks that have a kind of their own. -/
def markKinds : List (String × TokenKind) :=
  [("(", .opening .paren), (")", .closing .paren), ("[", .opening .square),
    ("]", .closing .square),
   ("\x7b", .opening .brace), ("\x7d", .closing .brace), (",", .comma),
   (";", .semi), (".", .dot),
   ("...", .ellipsis), (":", .colon), (":=", .define), ("=", .assign),
   ("++", .inc), ("--", .dec),
   ("<-", .arrow), ("+=", .opAssign), ("-=", .opAssign), ("*=", .opAssign), ("/=", .opAssign),
   ("%=", .opAssign), ("&=", .opAssign), ("|=", .opAssign), ("^=", .opAssign),
   ("<<=", .opAssign),
   (">>=", .opAssign), ("&^=", .opAssign)]

/-- The kind of a mark or operator. -/
def markKind (t : Text) : TokenKind :=
  ((markKinds.find? fun m => m.1.toList == t).map Prod.snd).getD .op

/-- The mark at the front of a nonempty text: the first operator that fits, else one
character. -/
def mark (c : Char) (t : Text) : Text × Text :=
  match operators.find? fun o => o.toList.isPrefixOf (c :: t) with
  | some o => (o.toList, (c :: t).drop o.toList.length)
  | none => ([c], t)

/-- The first piece of a nonempty text, and what follows it. -/
def firstPiece (c : Char) (t : Text) : Piece × Text :=
  if isBlank c then (⟨.blank, [c]⟩, t)
  else if c = '/' ∧ t.head? = some '/' then
    (⟨.comment, c :: t.takeWhile (· != '\n')⟩, t.dropWhile (· != '\n'))
  else if c = '/' ∧ t.head? = some '*' then
    (⟨.comment, '/' :: '*' :: (blockComment t.tail).1⟩, (blockComment t.tail).2)
  else if c = '"' then (⟨.token .str, c :: (quotedRest c t).1⟩, (quotedRest c t).2)
  else if c = '\x60' then (⟨.token .rawStr, c :: (quotedRest c t).1⟩, (quotedRest c t).2)
  else if c = '\'' then (⟨.token .char, c :: (quotedRest c t).1⟩, (quotedRest c t).2)
  else if isIdentifierStart c then
    let word := c :: t.takeWhile isIdentifierChar
    (⟨.token (((Keyword.ofText? word).map TokenKind.keyword).getD .ident), word⟩,
      t.dropWhile isIdentifierChar)
  else if c.isDigit || (c == '.' && t.head?.any Char.isDigit) then
    let hex := isHexadecimal (c :: t)
    let number := c :: (numberRun hex c t).1
    (⟨.token (numberKind hex number), number⟩, (numberRun hex c t).2)
  else (⟨.token (markKind (mark c t).1), (mark c t).1⟩, (mark c t).2)

/-! ### Nothing is lost -/

theorem blockComment_append (t : Text) : (blockComment t).1 ++ (blockComment t).2 = t := by
  fun_induction blockComment t <;> simp_all

theorem quotedRest_append (q : Char) (t : Text) :
    (quotedRest q t).1 ++ (quotedRest q t).2 = t := by
  fun_induction quotedRest q t <;> simp_all

theorem numberRun_append (hex : Bool) (prev : Char) (t : Text) :
    (numberRun hex prev t).1 ++ (numberRun hex prev t).2 = t := by
  fun_induction numberRun hex prev t <;> simp_all

theorem mark_append (c : Char) (t : Text) : (mark c t).1 ++ (mark c t).2 = c :: t := by
  unfold mark
  split
  next o h =>
    have hp : o.toList.isPrefixOf (c :: t) = true := by simpa using List.find?_some h
    obtain ⟨r, hr⟩ := List.isPrefixOf_iff_prefix.1 hp
    simp [← hr]
  next => simp

theorem mark_ne_nil (c : Char) (t : Text) : (mark c t).1 ≠ [] := by
  unfold mark
  split
  next o h =>
    have : ∀ o ∈ operators, o.toList ≠ [] := by decide
    exact this o (List.mem_of_find?_eq_some h)
  next => simp

/-- The first piece and what follows it make up the text. -/
theorem firstPiece_append (c : Char) (t : Text) :
    (firstPiece c t).1.text ++ (firstPiece c t).2 = c :: t := by
  unfold firstPiece
  repeat' split
  all_goals simp [blockComment_append, quotedRest_append, numberRun_append, mark_append]
  next h =>
    obtain ⟨rfl, h⟩ := h
    cases t <;> simp_all

/-- A piece is not empty. -/
theorem firstPiece_text_ne_nil (c : Char) (t : Text) : (firstPiece c t).1.text ≠ [] := by
  unfold firstPiece
  repeat' split
  all_goals simp [mark_ne_nil]

theorem length_firstPiece_snd_lt (c : Char) (t : Text) :
    (firstPiece c t).2.length < (c :: t).length := by
  have h := congrArg List.length (firstPiece_append c t)
  have := List.length_pos_iff.2 (firstPiece_text_ne_nil c t)
  rw [List.length_append] at h
  omega

/-! ### The two passes -/

/-- A text cut into its pieces. -/
def pieces : Text → List Piece
  | [] => []
  | c :: t => (firstPiece c t).1 :: pieces (firstPiece c t).2
termination_by t => t.length
decreasing_by exact length_firstPiece_snd_lt c t

@[simp] theorem pieces_nil : pieces [] = [] := by
  rw [pieces]

theorem pieces_cons (c : Char) (t : Text) :
    pieces (c :: t) = (firstPiece c t).1 :: pieces (firstPiece c t).2 := by
  rw [pieces]

/-- The pieces of a text, put together again, are the text. -/
theorem flatten_pieces (t : Text) : ((pieces t).map Piece.text).flatten = t := by
  fun_induction pieces t with
  | case1 => rfl
  | case2 c t ih => simp [ih, firstPiece_append]

/-- Whether a piece that is no token holds a line end that can imply a semicolon. -/
def Piece.endsLine (p : Piece) : Bool :=
  p.text.contains '\n'

/-- The tokens of the pieces that start at `here`.  `pending` says whether the token in front
can end a statement, and no semicolon stands between it and here. -/
def tokensOf (here : Position) (pending : Bool) : List Piece → List Token
  | [] => if pending then [.impliedSemi here, .eof here] else [.eof here]
  | p :: ps =>
    let behind := here.advance p.text
    match p.kind with
    | .token k => ⟨k, p.text, here⟩ :: tokensOf behind k.endsStatement ps
    | .blank =>
      if pending && Piece.endsLine p then .impliedSemi here :: tokensOf behind false ps
      else tokensOf behind pending ps
    | .comment =>
      if pending && Piece.endsLine p then
        .impliedSemi ⟨here.offset, behind.line, behind.column⟩ :: tokensOf behind false ps
      else tokensOf behind pending ps

end Lexer

/-- The tokens of a text, with the semicolons that line ends imply and one end token at the
end. -/
def tokenize (t : Text) : List Token :=
  Lexer.tokensOf .start false (Lexer.pieces t)

end Notebook
