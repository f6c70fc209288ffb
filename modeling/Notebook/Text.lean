import Notebook.Text.Blank

/-!
# Texts

A text is a list of characters, so that cutting and joining are facts about lists.  Offsets
into a text count bytes of its UTF-8 form: an offset is usable only when it lies in the text
and between two characters, and `cutAt?` decides exactly that.

## Main definitions

* `Text.byteSize`, `Text.cutAt?`: offsets
* `Text.trim`, `Text.lines`: white space and lines
* `Text.cutFirst?`, `Text.cutLast?`, `Text.erase`: occurrences of one text in another
-/

namespace Notebook

/-- A text, character by character. -/
abbrev Text := List Char

instance : Coe String Text := ⟨String.toList⟩

namespace Text

/-- Comparing texts decides whether they are equal. -/
instance instLawfulBEq : LawfulBEq Text := inferInstance

/-! ### Offsets -/

/-- The number of bytes of the UTF-8 form. -/
def byteSize : Text → Nat
  | [] => 0
  | c :: t => c.utf8Size + byteSize t

@[simp] theorem byteSize_nil : byteSize [] = 0 := rfl

@[simp] theorem byteSize_cons (c : Char) (t : Text) :
    byteSize (c :: t) = c.utf8Size + byteSize t := rfl

@[simp] theorem byteSize_append (a b : Text) :
    byteSize (a ++ b) = byteSize a + byteSize b := by
  induction a with
  | nil => simp
  | cons c a ih => simp [ih, Nat.add_assoc]

/-- Cuts a text in two at a byte offset; `none` when the offset lies past the end or inside a
character. -/
def cutAt? : Text → Nat → Option (Text × Text)
  | t, 0 => some ([], t)
  | [], _ + 1 => none
  | c :: t, n + 1 =>
    if c.utf8Size ≤ n + 1 then (cutAt? t (n + 1 - c.utf8Size)).map fun p => (c :: p.1, p.2)
    else none

/-- A cut loses nothing, and its first part is as long as asked; every such division is
found. -/
theorem cutAt?_eq_some_iff {t a b : Text} {n : Nat} :
    cutAt? t n = some (a, b) ↔ t = a ++ b ∧ byteSize a = n := by
  induction t generalizing a n with
  | nil =>
    cases n with
    | zero => simp [cutAt?]; grind [byteSize_nil]
    | succ n =>
      simp only [cutAt?, reduceCtorEq, false_iff, not_and]
      intro h
      simp [(List.append_eq_nil_iff.1 h.symm).1]
  | cons c t ih =>
    have hc := c.utf8Size_pos
    cases n with
    | zero =>
      cases a with
      | nil => simp [cutAt?, eq_comm]
      | cons d a =>
        have hd := d.utf8Size_pos
        simp [cutAt?]; omega
    | succ n =>
      cases a with
      | nil => simp only [cutAt?]; split <;> simp
      | cons d a =>
        simp only [cutAt?]
        split
        next hle =>
          simp only [Option.map_eq_some_iff, Prod.exists, Prod.mk.injEq, List.cons.injEq,
            List.cons_append, byteSize_cons]
          constructor
          · rintro ⟨x, y, hxy, ⟨rfl, rfl⟩, rfl⟩
            obtain ⟨rfl, hx⟩ := ih.1 hxy
            exact ⟨⟨rfl, rfl⟩, by omega⟩
          · rintro ⟨⟨rfl, rfl⟩, hs⟩
            exact ⟨a, b, ih.2 ⟨rfl, by omega⟩, ⟨rfl, rfl⟩, rfl⟩
        next hgt =>
          simp only [reduceCtorEq, List.cons_append, List.cons.injEq,
            byteSize_cons, false_iff, not_and]
          rintro ⟨rfl, -⟩
          omega

/-! ### White space and lines -/

/-- Drops white space at the front. -/
def trimStart (t : Text) : Text :=
  t.dropWhile isBlank

/-- Drops white space at the end. -/
def trimEnd (t : Text) : Text :=
  (t.reverse.dropWhile isBlank).reverse

/-- Drops white space at both ends. -/
def trim (t : Text) : Text :=
  trimEnd (trimStart t)

/-- Cuts a text after every line feed. -/
def lineFeedSegments : Text → List Text
  | [] => []
  | c :: t =>
    if c = '\n' then [c] :: lineFeedSegments t
    else
      match lineFeedSegments t with
      | [] => [[c]]
      | l :: ls => (c :: l) :: ls

/-- Drops a line feed at the end, together with one carriage return before it. -/
def dropLineEnd (t : Text) : Text :=
  match t.reverse with
  | '\n' :: '\r' :: r => r.reverse
  | '\n' :: r => r.reverse
  | _ => t

/-- The lines of a text, without their ends.  A line feed at the end of the text opens no new
line, and a carriage return that no line feed follows belongs to its line. -/
def lines (t : Text) : List Text :=
  (lineFeedSegments t).map dropLineEnd

/-! ### One text inside another -/

/-- The parts before and after the first occurrence. -/
def cutFirst? (needle : Text) : Text → Option (Text × Text)
  | [] => if needle = [] then some ([], []) else none
  | c :: t =>
    if needle.isPrefixOf (c :: t) then some ([], (c :: t).drop needle.length)
    else (cutFirst? needle t).map fun p => (c :: p.1, p.2)

/-- The parts before and after the last occurrence. -/
def cutLast? (needle : Text) : Text → Option (Text × Text)
  | [] => if needle = [] then some ([], []) else none
  | c :: t =>
    match cutLast? needle t with
    | some p => some (c :: p.1, p.2)
    | none => if needle.isPrefixOf (c :: t) then
      some ([], (c :: t).drop needle.length) else none

/-- Whether the text occurs anywhere. -/
def containsText (t needle : Text) : Bool :=
  (cutFirst? needle t).isSome

/-- `eraseFrom needle n t` skips `n` characters and then leaves out every occurrence, from
left to right. -/
def eraseFrom (needle : Text) : Nat → Text → Text
  | _, [] => []
  | n + 1, _ :: t => eraseFrom needle n t
  | 0, c :: t =>
    if needle.isPrefixOf (c :: t) then eraseFrom needle (needle.length - 1) t
    else c :: eraseFrom needle 0 t

/-- Leaves out every occurrence of a nonempty text, from left to right. -/
def erase (t needle : Text) : Text :=
  eraseFrom needle 0 t

/-- Whether a text comes no later than another in the order of the code points. -/
def notAfter : Text → Text → Bool
  | [], _ => true
  | _ :: _, [] => false
  | c :: a, d :: b => c.toNat < d.toNat || (c == d && notAfter a b)

/-- Joins texts with a text between each two. -/
def joinWith (sep : Text) : List Text → Text
  | [] => []
  | [t] => t
  | t :: ts => t ++ sep ++ joinWith sep ts

end Text

end Notebook
