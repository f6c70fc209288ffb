import Notebook.Text

/-!
# JSON

A strict reader of JSON texts, and the quoting of a text as a JSON string.  A string may name
half of a surrogate pair by an escape; it is then well formed but no text, and only somebody
who looks at it need complain.  Numbers are checked and not kept.
-/

namespace Notebook

/-- A JSON value.  A string that is no text is `none`. -/
inductive JsonValue where
  | null
  | bool (b : Bool)
  | number
  | string (text : Option Text)
  | array (items : List JsonValue)
  | object (members : List (Option Text × JsonValue))

namespace JsonValue

/-! ### Strings -/

/-- What an escape or a plain character stands for. -/
inductive StringItem where
  | char (c : Char)
  /-- Half of a surrogate pair. -/
  | half (code : Nat)

/-- The value of a hexadecimal digit. -/
def hexDigit? (c : Char) : Option Nat :=
  if c.isDigit then some (c.toNat - '0'.toNat)
  else if 'a' ≤ c ∧ c ≤ 'f' then some (c.toNat - 'a'.toNat + 10)
  else if 'A' ≤ c ∧ c ≤ 'F' then some (c.toNat - 'A'.toNat + 10)
  else none

/-- The number that four hexadecimal digits name. -/
def hexNumber? (a b c d : Char) : Option Nat := do
  return (((← hexDigit? a) * 16 + (← hexDigit? b)) * 16 + (← hexDigit? c)) * 16 +
    (← hexDigit? d)

/-- The item of a four-digit escape. -/
def itemOfCode (n : Nat) : StringItem :=
  if 0xd800 ≤ n ∧ n < 0xe000 then .half n else .char (Char.ofNat n)

/-- The character that a short escape stands for. -/
def shortEscape? : Char → Option Char
  | '"' => some '"'
  | '\\' => some '\\'
  | '/' => some '/'
  | 'b' => some '\x08'
  | 'f' => some '\x0c'
  | 'n' => some '\n'
  | 'r' => some '\r'
  | 't' => some '\t'
  | _ => none

/-- Reads a string behind its opening quote. -/
def stringItems : Text → Option (List StringItem × Text)
  | [] => none
  | '"' :: t => some ([], t)
  | '\\' :: 'u' :: a :: b :: c :: d :: t => do
    let n ← hexNumber? a b c d
    let (items, t) ← stringItems t
    return (itemOfCode n :: items, t)
  | '\\' :: e :: t => do
    let c ← shortEscape? e
    let (items, t) ← stringItems t
    return (.char c :: items, t)
  | c :: t =>
    if c.toNat < 0x20 ∨ c = '\\' then none
    else (stringItems t).map fun p => (.char c :: p.1, p.2)

/-- The text of a string, with surrogate pairs put together; `none` if a half is left
alone. -/
def joinItems : List StringItem → Option Text
  | [] => some []
  | .char c :: items => (joinItems items).map (c :: ·)
  | .half hi :: .half lo :: items =>
    if hi < 0xdc00 ∧ 0xdc00 ≤ lo then
      (joinItems items).map
        (Char.ofNat (0x10000 + (hi - 0xd800) * 0x400 + (lo - 0xdc00)) :: ·)
    else none
  | .half _ :: _ => none

/-! ### Values -/

/-- Drops the white space that JSON allows. -/
def skipBlanks (t : Text) : Text :=
  t.dropWhile fun c => c == ' ' || c == '\t' || c == '\n' || c == '\r'

/-- Drops digits, of which there must be one. -/
def skipDigits? (t : Text) : Option Text :=
  if t.head?.any Char.isDigit then some (t.dropWhile Char.isDigit) else none

/-- Drops the whole part of a number: a zero, or digits that begin with another. -/
def skipWhole? : Text → Option Text
  | '0' :: t => if t.head?.any Char.isDigit then none else some t
  | t => skipDigits? t

/-- Drops the fraction of a number, if there is one. -/
def skipFraction? : Text → Option Text
  | '.' :: t => skipDigits? t
  | t => some t

/-- Drops the exponent of a number, if there is one. -/
def skipExponent? : Text → Option Text
  | 'e' :: t | 'E' :: t =>
    match t with
    | '+' :: t | '-' :: t => skipDigits? t
    | t => skipDigits? t
  | t => some t

/-- What follows a number. -/
def skipNumber? (t : Text) : Option Text := do
  let t := match t with
    | '-' :: t => t
    | t => t
  skipExponent? (← skipFraction? (← skipWhole? t))

/-- What follows a word at the front. -/
def skipWord? (word t : Text) : Option Text :=
  if word.isPrefixOf t then some (t.drop word.length) else none

mutual

/-- Reads a value at the front of a text.  The first argument bounds the number of values,
items and members that follow one another or lie in one another. -/
def value? : Nat → Text → Option (JsonValue × Text)
  | 0, _ => none
  | n + 1, t =>
    match skipBlanks t with
    | '\x7b' :: t => (members? n true t).map fun p => (.object p.1, p.2)
    | '[' :: t => (items? n true t).map fun p => (.array p.1, p.2)
    | '"' :: t => (stringItems t).map fun p => (.string (joinItems p.1), p.2)
    | 'n' :: t => (skipWord? "ull" t).map fun t => (.null, t)
    | 't' :: t => (skipWord? "rue" t).map fun t => (.bool true, t)
    | 'f' :: t => (skipWord? "alse" t).map fun t => (.bool false, t)
    | t => (skipNumber? t).map fun t => (.number, t)

/-- Reads the items of an array up to its end; `first` says that none was read yet. -/
def items? : Nat → (first : Bool) → Text → Option (List JsonValue × Text)
  | 0, _, _ => none
  | n + 1, first, t =>
    match first, skipBlanks t with
    | _, ']' :: t => some ([], t)
    | true, t => itemsFrom? n t
    | false, ',' :: t => itemsFrom? n t
    | false, _ => none

/-- Reads at least one item. -/
def itemsFrom? : Nat → Text → Option (List JsonValue × Text)
  | 0, _ => none
  | n + 1, t => do
    let (v, t) ← value? n t
    let (vs, t) ← items? n false t
    return (v :: vs, t)

/-- Reads the members of an object up to its end; `first` says that none was read yet. -/
def members? : Nat → (first : Bool) → Text → Option (List (Option Text × JsonValue) × Text)
  | 0, _, _ => none
  | n + 1, first, t =>
    match first, skipBlanks t with
    | _, '\x7d' :: t => some ([], t)
    | true, t => membersFrom? n t
    | false, ',' :: t => membersFrom? n t
    | false, _ => none

/-- Reads at least one member. -/
def membersFrom? : Nat → Text → Option (List (Option Text × JsonValue) × Text)
  | 0, _ => none
  | n + 1, t =>
    match skipBlanks t with
    | '"' :: t => do
      let (key, t) ← stringItems t
      match skipBlanks t with
      | ':' :: t => do
        let (v, t) ← value? n t
        let (ms, t) ← members? n false t
        return ((joinItems key, v) :: ms, t)
      | _ => none
    | _ => none

end

/-- Reads a text that is one JSON value. -/
def ofText? (t : Text) : Option JsonValue := do
  let (v, rest) ← value? (4 * t.length + 4) t
  if (skipBlanks rest).isEmpty then some v else none

/-! ### Quoting -/

/-- A hexadecimal digit, in small letters. -/
def hexDigit (n : Nat) : Char :=
  if n < 10 then Char.ofNat ('0'.toNat + n) else Char.ofNat ('a'.toNat + (n - 10))

/-- A character inside a JSON string. -/
def quoteChar (c : Char) : Text :=
  match c with
  | '"' => "\\\""
  | '\\' => "\\\\"
  | '\x08' => "\\b"
  | '\x0c' => "\\f"
  | '\n' => "\\n"
  | '\r' => "\\r"
  | '\t' => "\\t"
  | c =>
    if c.toNat < 0x20 then "\\u00" ++ [hexDigit (c.toNat / 16), hexDigit (c.toNat % 16)] else
      [c]

/-- A text as a JSON string. -/
def quote (t : Text) : Text :=
  "\"" ++ t.flatMap quoteChar ++ "\""

end JsonValue

end Notebook
