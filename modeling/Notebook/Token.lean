import Notebook.Text

/-!
# Tokens of Go source text

A token has a kind, the characters of the source that it covers, and the position where it
starts.  Two kinds of token cover nothing: the end of the text, and a semicolon that the line
structure implies rather than spells.

## Main definitions

* `Bracket`, `Keyword`, `TokenKind`: what a token is
* `TokenKind.endsStatement`: the kinds after which a line end implies a semicolon
* `Position`, `Token`: where it stands
-/

namespace Notebook

/-- The three kinds of brackets. -/
inductive Bracket where
  | paren
  | square
  | brace
deriving DecidableEq, Repr

/-- The reserved words of Go. -/
inductive Keyword where
  | breakKw
  | caseKw
  | chanKw
  | constKw
  | continueKw
  | defaultKw
  | deferKw
  | elseKw
  | fallthroughKw
  | forKw
  | funcKw
  | goKw
  | gotoKw
  | ifKw
  | importKw
  | interfaceKw
  | mapKw
  | packageKw
  | rangeKw
  | returnKw
  | selectKw
  | structKw
  | switchKw
  | typeKw
  | varKw
deriving DecidableEq, Repr

namespace Keyword

/-- All reserved words, in alphabetical order of their spelling. -/
def all : List Keyword :=
  [breakKw, caseKw, chanKw, constKw, continueKw, defaultKw, deferKw, elseKw,
    fallthroughKw, forKw,
   funcKw, goKw, gotoKw, ifKw, importKw, interfaceKw, mapKw, packageKw, rangeKw,
   returnKw, selectKw,
   structKw, switchKw, typeKw, varKw]

/-- How a reserved word is written. -/
def spelling : Keyword → String
  | breakKw => "break"
  | caseKw => "case"
  | chanKw => "chan"
  | constKw => "const"
  | continueKw => "continue"
  | defaultKw => "default"
  | deferKw => "defer"
  | elseKw => "else"
  | fallthroughKw => "fallthrough"
  | forKw => "for"
  | funcKw => "func"
  | goKw => "go"
  | gotoKw => "goto"
  | ifKw => "if"
  | importKw => "import"
  | interfaceKw => "interface"
  | mapKw => "map"
  | packageKw => "package"
  | rangeKw => "range"
  | returnKw => "return"
  | selectKw => "select"
  | structKw => "struct"
  | switchKw => "switch"
  | typeKw => "type"
  | varKw => "var"

/-- The reserved word with the given spelling. -/
def ofText? (t : Text) : Option Keyword :=
  all.find? fun k => k.spelling.toList == t

/-- Reserved words that open a statement of control flow. -/
def isControl : Keyword → Bool
  | ifKw | forKw | switchKw | selectKw | goKw | deferKw | returnKw | breakKw
  | continueKw | gotoKw
  | fallthroughKw | elseKw | caseKw | defaultKw => true
  | _ => false

end Keyword

/-- What a token is. -/
inductive TokenKind where
  | ident
  | int
  | float
  | imag
  | char
  | str
  | rawStr
  | opening (b : Bracket)
  | closing (b : Bracket)
  | comma
  /-- A semicolon, written or implied by the end of a line. -/
  | semi
  | dot
  | ellipsis
  | colon
  /-- `:=` -/
  | define
  /-- `=` -/
  | assign
  /-- An assignment that combines with an operator, such as `+=`. -/
  | opAssign
  | inc
  | dec
  /-- `<-` -/
  | arrow
  /-- Any other operator, and any character that begins no token of another kind. -/
  | op
  | keyword (k : Keyword)
  | eof
deriving DecidableEq, Repr

namespace TokenKind

/-- Whether the kind is an opening bracket. -/
def opens : TokenKind → Bool
  | opening _ => true
  | _ => false

/-- Whether the kind is a closing bracket. -/
def closes : TokenKind → Bool
  | closing _ => true
  | _ => false

/-- Kinds after which the end of a line implies a semicolon. -/
def endsStatement : TokenKind → Bool
  | ident | int | float | imag | char | str | rawStr | inc | dec | closing _ => true
  | keyword .breakKw | keyword .continueKw | keyword .fallthroughKw
  | keyword .returnKw => true
  | _ => false

/-- Whether the kind is a reserved word of control flow. -/
def isControl : TokenKind → Bool
  | keyword k => k.isControl
  | _ => false

/-- The name under which a kind is shown. -/
def name : TokenKind → String
  | ident => "ident"
  | int => "int"
  | float => "float"
  | imag => "imag"
  | char => "char"
  | str => "str"
  | rawStr => "raw_str"
  | opening .paren => "l_paren"
  | closing .paren => "r_paren"
  | opening .square => "l_square"
  | closing .square => "r_square"
  | opening .brace => "l_brace"
  | closing .brace => "r_brace"
  | comma => "comma"
  | semi => "semi"
  | dot => "dot"
  | ellipsis => "ellipsis"
  | colon => "colon"
  | define => "define"
  | assign => "asn"
  | opAssign => "op_asn"
  | inc => "inc"
  | dec => "dec"
  | arrow => "arrow"
  | op => "op"
  | keyword k => k.spelling
  | eof => "eof"

end TokenKind

/-- A place in a text: the offset counts bytes, line and column count from one, and the column
counts characters. -/
structure Position where
  offset : Nat
  line : Nat
  column : Nat
deriving DecidableEq, Repr

namespace Position

/-- The beginning of a text. -/
def start : Position := ⟨0, 1, 1⟩

/-- The place behind one character. -/
def next (p : Position) (c : Char) : Position :=
  if c = '\n' then ⟨p.offset + c.utf8Size, p.line + 1, 1⟩
  else ⟨p.offset + c.utf8Size, p.line, p.column + 1⟩

/-- The place behind a text. -/
def advance (p : Position) (t : Text) : Position :=
  t.foldl next p

@[simp] theorem advance_nil (p : Position) : p.advance [] = p := rfl

@[simp] theorem advance_cons (p : Position) (c : Char) (t : Text) :
    p.advance (c :: t) = (p.next c).advance t := rfl

theorem advance_append (p : Position) (a b : Text) :
    p.advance (a ++ b) = (p.advance a).advance b :=
  List.foldl_append

@[simp] theorem offset_next (p : Position) (c : Char) :
    (p.next c).offset = p.offset + c.utf8Size := by
  unfold next; split <;> rfl

/-- Advancing over a text moves the offset by the text's size. -/
@[simp] theorem offset_advance (p : Position) (t : Text) :
    (p.advance t).offset = p.offset + t.byteSize := by
  induction t generalizing p with
  | nil => rfl
  | cons c t ih => simp [ih, Nat.add_assoc]

end Position

/-- A token: its kind, the characters of the source that it covers, and the place where it
starts. -/
structure Token where
  kind : TokenKind
  lexeme : Text
  start : Position
deriving DecidableEq, Repr

namespace Token

/-- The number of bytes that the token covers. -/
def size (t : Token) : Nat := t.lexeme.byteSize

/-- The offset where the token begins. -/
def pos (t : Token) : Nat := t.start.offset

/-- The offset behind the token. -/
def stop (t : Token) : Nat := t.pos + t.size

/-- Whether the token is a semicolon that a line end implies. -/
def isImpliedSemi (t : Token) : Bool :=
  t.kind == .semi && t.lexeme.isEmpty

/-- The text under which a token is known: its characters, and a line feed for an implied
semicolon. -/
def text (t : Token) : Text :=
  if t.isImpliedSemi then "\n" else t.lexeme

/-- Whether the token is the given identifier. -/
def isIdent (t : Token) (name : Text) : Bool :=
  t.kind == .ident && t.lexeme == name

/-- A semicolon implied by a line end. -/
def impliedSemi (start : Position) : Token := ⟨.semi, [], start⟩

/-- The end of the text. -/
def eof (start : Position) : Token := ⟨.eof, [], start⟩

/-- A token as shown in a listing: brackets and marks by themselves, names and literals with
their text, and all else by the name of the kind. -/
def render (t : Token) : Text :=
  match t.kind with
  | .semi => if t.isImpliedSemi then "<nl>" else "<;>"
  | .opening .paren => "<(>"
  | .closing .paren => "<)>"
  | .opening .square => "<[>"
  | .closing .square => "<]>"
  | .opening .brace => "<\x7b>"
  | .closing .brace => "<\x7d>"
  | .comma => "<,>"
  | .dot => "<.>"
  | .define => "<:=>"
  | .assign => "<=>"
  | .eof => "<eof>"
  | .ident | .int | .float | .imag | .char | .str | .rawStr | .op | .opAssign =>
    "<" ++ t.kind.name.toList ++ ":" ++ t.lexeme ++ ">"
  | _ => "<" ++ t.kind.name.toList ++ ">"

end Token

end Notebook
