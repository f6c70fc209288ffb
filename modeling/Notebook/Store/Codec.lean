import Notebook.Session
import Notebook.Text.Utf8

/-!
# Stored values as bytes

The store keeps values in a fixed-width binary form: numbers little endian, lengths in eight
bytes, one byte for a truth value or for the presence of an optional value, four bytes for the
number of a variant.  A value with a length that eight bytes cannot hold has no such form.  A
reader takes what it needs from the front and hands back the rest, so bytes that follow a
value do no harm.

## Main definitions

* `Codec`: a writer and a reader of one type
* `Codec.text`, `Codec.list`, `Codec.literals`, `Codec.session`: the types that are stored
-/

namespace Notebook

/-- A binary form of a type: how a value is written, if it can be, and how one is read from
the front of bytes. -/
structure Codec (α : Type) where
  encode : α → Option Bytes
  decode : Bytes → Option (α × Bytes)

namespace Codec

/-- The low bytes of a number, the lowest first. -/
def littleEndian : (width : Nat) → Nat → Bytes
  | 0, _ => []
  | w + 1, n => UInt8.ofNat (n % 256) :: littleEndian w (n / 256)

/-- Reads a number of the given width. -/
def readLittleEndian : (width : Nat) → Bytes → Option (Nat × Bytes)
  | 0, bs => some (0, bs)
  | _ + 1, [] => none
  | w + 1, b :: bs => (readLittleEndian w bs).map fun p => (b.toNat + 256 * p.1, p.2)

/-- A count, in eight bytes. -/
def count : Codec Nat where
  encode n := if n < UInt64.size then some (littleEndian 8 n) else none
  decode := readLittleEndian 8

/-- A word of 32 bits. -/
def word32 : Codec UInt32 where
  encode n := some (littleEndian 4 n.toNat)
  decode bs := (readLittleEndian 4 bs).map fun p => (UInt32.ofNat p.1, p.2)

/-- A signed word of 64 bits, in two's complement. -/
def int64 : Codec Int64 where
  encode n := some (littleEndian 8 n.toUInt64.toNat)
  decode bs := (readLittleEndian 8 bs).map fun p => ((UInt64.ofNat p.1).toInt64, p.2)

/-- A truth value: one byte, zero or one. -/
def bool : Codec Bool where
  encode b := some [if b then 1 else 0]
  decode
    | 0 :: bs => some (false, bs)
    | 1 :: bs => some (true, bs)
    | _ => none

/-- A text: the number of its bytes, then its UTF-8 form. -/
def text : Codec Text where
  encode t := (count.encode t.toBytes.length).map (· ++ t.toBytes)
  decode bs := do
    let (n, bs) ← count.decode bs
    if n ≤ bs.length then
      let t ← Text.ofBytes? (bs.take n)
      return (t, bs.drop n)
    else none

/-- An optional value: a byte zero, or a byte one and the value. -/
def option {α : Type} (c : Codec α) : Codec (Option α) where
  encode
    | none => some [0]
    | some a => (c.encode a).map (1 :: ·)
  decode
    | 0 :: bs => some (none, bs)
    | 1 :: bs => (c.decode bs).map fun p => (some p.1, p.2)
    | _ => none

/-- Writes values one after the other. -/
def encodeMany {α : Type} (c : Codec α) : List α → Option Bytes
  | [] => some []
  | a :: as => do
    let bs ← c.encode a
    let rest ← encodeMany c as
    return bs ++ rest

/-- Reads values one after the other. -/
def decodeMany {α : Type} (c : Codec α) : Nat → Bytes → Option (List α × Bytes)
  | 0, bs => some ([], bs)
  | n + 1, bs => do
    let (a, bs) ← c.decode bs
    let (as, bs) ← decodeMany c n bs
    return (a :: as, bs)

/-- A list: the number of its members, then the members. -/
def list {α : Type} (c : Codec α) : Codec (List α) where
  encode as := do
    let bs ← count.encode as.length
    let rest ← encodeMany c as
    return bs ++ rest
  decode bs := do
    let (n, bs) ← count.decode bs
    decodeMany c n bs

/-- Two values, one behind the other. -/
def pair {α β : Type} (c : Codec α) (d : Codec β) : Codec (α × β) where
  encode p := do
    let bs ← c.encode p.1
    let rest ← d.encode p.2
    return bs ++ rest
  decode bs := do
    let (a, bs) ← c.decode bs
    let (b, bs) ← d.decode bs
    return ((a, b), bs)

/-- Sources by name.  A name that was written twice is read with its later source. -/
def literals : Codec Literals where
  encode ls := (list (pair text text)).encode ls
  decode bs := ((list (pair text text)).decode bs).map fun p => (Literals.ofList p.1, p.2)

/-- The number of a kind of declaration. -/
def kindNumber : DeclarationKind → Nat
  | .importDecl => 0
  | .function => 1
  | .typeDecl => 2

/-- A kind of declaration, by its number in four bytes. -/
def declarationKind : Codec DeclarationKind where
  encode k := some (littleEndian 4 (kindNumber k))
  decode bs := do
    let (n, bs) ← readLittleEndian 4 bs
    match n with
    | 0 => return (.importDecl, bs)
    | 1 => return (.function, bs)
    | 2 => return (.typeDecl, bs)
    | _ => none

/-- A declaration: kind, key and source. -/
def declaration : Codec Declaration where
  encode d := (pair declarationKind (pair text text)).encode (d.kind, d.key, d.source)
  decode bs := do
    let ((kind, key, source), bs) ← (pair declarationKind (pair text text)).decode bs
    return (⟨kind, key, source⟩, bs)

/-- A session: names, function literals and declarations. -/
def session : Codec Session where
  encode s :=
    (pair (list text) (pair literals (list declaration))).encode
      (s.names, s.literals, s.declarations)
  decode bs := do
    let ((names, ls, decls), bs) ←
      (pair (list text) (pair literals (list declaration))).decode bs
    return (⟨names, ls, decls⟩, bs)

end Codec

end Notebook
