import Notebook.Text

/-!
# Texts as bytes

Files hold bytes; a text is written in UTF-8 and read back only from well-formed UTF-8.
-/

namespace Notebook

/-- A sequence of bytes. -/
abbrev Bytes := List UInt8

namespace Text

/-- The UTF-8 form of a text. -/
def toBytes (t : Text) : Bytes :=
  t.flatMap String.utf8EncodeChar

/-- The text of well-formed UTF-8. -/
def ofBytes? (bs : Bytes) : Option Text :=
  bs.toByteArray.utf8Decode?.map Array.toList

/-- Reading back what was written. -/
@[simp] theorem ofBytes?_toBytes (t : Text) : ofBytes? t.toBytes = some t := by
  have h : (List.flatMap String.utf8EncodeChar t).toByteArray = List.utf8Encode t := rfl
  simp [ofBytes?, toBytes, h]

end Text

end Notebook
