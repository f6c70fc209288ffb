import Notebook.Proofs.RoundTrip
import Notebook.Proofs.Trails
import Notebook.Store

/-!
# The store as a typed map

A value that was stored under a key is found under it again, at its type and at no other,
however many values are stored under other keys behind it.  Two things make this so: the
reader takes from the front of the bytes what the writer put there, and the two files of a
key, its value and its tag, are never those of another key.

## Main statements

* `StoredType.readsBack`: a value of every stored type comes back from its bytes
* `ValueStore.Holds.encode`, `ValueStore.Holds.storesOthers`: storing under other keys changes
  nothing
* `ValueStore.decode_of_encode`: what was stored is read, and only at its tag
-/

namespace Notebook

/-! ### Stored types -/

/-- The types of stored values. -/
inductive StoredType where
  | word32
  | int64
  | bool
  | text
  | option (type : StoredType)
  | list (type : StoredType)
  | literals
  | session

namespace StoredType

/-- The values of a type. -/
def Value : StoredType → Type
  | word32 => UInt32
  | int64 => Int64
  | bool => Bool
  | text => Text
  | option type => Option type.Value
  | list type => List type.Value
  | literals => Literals
  | session => Session

/-- How the values of a type are written and read. -/
def codec : (type : StoredType) → Codec type.Value
  | word32 => Codec.word32
  | int64 => Codec.int64
  | bool => Codec.bool
  | text => Codec.text
  | option type => Codec.option type.codec
  | list type => Codec.list type.codec
  | literals => Codec.literals
  | session => Codec.session

/-- Values in which no map lists a name twice. -/
def WellFormed : (type : StoredType) → type.Value → Prop
  | option type => fun (value? : Option type.Value) => ∀ value ∈ value?, type.WellFormed value
  | list type => fun (values : List type.Value) => ∀ value ∈ values, type.WellFormed value
  | literals => fun (ls : Literals) => (ls.map Prod.fst).Nodup
  | session => fun (s : Session) => (s.literals.map Prod.fst).Nodup
  | word32 | int64 | bool | text => fun _ => True

/-- A value of every stored type comes back from its written form, whatever follows. -/
theorem readsBack (type : StoredType) {value : type.Value} (h : type.WellFormed value) :
    type.codec.ReadsBack value := by
  induction type with
  | word32 => exact Codec.readsBack_word32 value
  | int64 => exact Codec.readsBack_int64 value
  | bool => exact Codec.readsBack_bool value
  | text => exact Codec.readsBack_text value
  | option type ih => exact Codec.readsBack_option fun member hmember => ih (h member hmember)
  | list type ih => exact Codec.readsBack_list fun member hmember => ih (h member hmember)
  | literals => exact Codec.readsBack_literals h
  | session => exact Codec.readsBack_session h

end StoredType

namespace ValueStore

variable {store : ValueStore} {key other tag : Text} {bytes : Bytes} {files files' : FileTree}

/-! ### Keys and their files -/

/-- A key whose files are those of no other key: a name without dots and slashes. -/
structure IsKey (key : Text) : Prop where
  ne_nil : key ≠ []
  dot_notMem : '.' ∉ key
  slash_notMem : '/' ∉ key

theorem IsKey.isName (h : IsKey key) : Path.IsName key := by
  refine Path.isName_of_slash_notMem h.ne_nil ?_ ?_ h.slash_notMem
  · rintro rfl
    exact h.dot_notMem (by decide)
  · rintro rfl
    exact h.dot_notMem (by decide)

theorem IsKey.isName_tag (h : IsKey key) : Path.IsName (key ++ ".type".toList) := by
  have hlong : 5 < (key ++ ".type".toList).length := by
    have := List.length_pos_iff.2 h.ne_nil
    rw [List.length_append]
    change 5 < key.length + 5
    omega
  refine Path.isName_of_slash_notMem ?_ ?_ ?_ ?_
  · intro hnil
    rw [hnil] at hlong
    cases hlong
  · intro hdot
    rw [hdot] at hlong
    exact absurd hlong (by decide)
  · intro hdots
    rw [hdots] at hlong
    exact absurd hlong (by decide)
  · rw [List.mem_append, not_or]
    exact ⟨h.slash_notMem, by decide⟩

/-- The name of a tag is no key. -/
theorem IsKey.ne_tag (h : IsKey key) (other : Text) : key ≠ other ++ ".type".toList := by
  rintro rfl
  exact h.dot_notMem (List.mem_append_right other (by decide))

/-! ### Storing -/

/-- What a value that was stored leaves behind. -/
theorem encode_eq_ok {α : Type} {c : Codec α} {value : α}
    (h : store.encode c key tag value files = (.ok (), files')) :
    ∃ bytes files₁ files₂, c.encode value = some bytes ∧
      files.createDirectories store.dir = (.ok (), files₁) ∧
      files₁.write (store.blobPath key) bytes = .ok files₂ ∧
      files₂.write (store.tagPath key) tag.toBytes = .ok files' := by
  unfold encode at h
  split at h
  · cases h
  next bytes hbytes =>
    split at h
    · cases h
    next files₁ hdirs =>
      split at h
      · cases h
      next files₂ hblob =>
        split at h
        · cases h
        next files₃ htag =>
          cases h
          exact ⟨bytes, files₁, files₂, hbytes, hdirs, hblob, htag⟩

theorem encode_eq_of_fst {α : Type} {c : Codec α} {value : α}
    (h : (store.encode c key tag value files).1 = .ok ()) :
    store.encode c key tag value files = (.ok (), (store.encode c key tag value files).2) :=
  Prod.ext h rfl

/-- The files of a key hold bytes and a tag. -/
structure Holds (store : ValueStore) (key tag : Text) (bytes : Bytes) (files : FileTree) :
    Prop where
  blob : files.read (store.blobPath key) = .ok bytes
  tag : files.read (store.tagPath key) = .ok tag.toBytes

/-- A value that was stored is held by the files of its key. -/
theorem holds_of_encode {α : Type} {c : Codec α} {value : α} (hkey : IsKey key)
    (h : store.encode c key tag value files = (.ok (), files')) :
    ∃ bytes, c.encode value = some bytes ∧ store.Holds key tag bytes files' := by
  obtain ⟨bytes, files₁, files₂, hbytes, -, hblob, htag⟩ := encode_eq_ok h
  have hne := FileTree.placeOf_join_name_ne hkey.isName hkey.isName_tag (hkey.ne_tag key)
    files₂ store.dir
  exact ⟨bytes, hbytes, FileTree.read_of_write_of_ne htag hne (FileTree.read_of_write hblob),
    FileTree.read_of_write htag⟩

/-- Storing under another key leaves a file alone that is not one of its own. -/
theorem read_of_encode {α : Type} {c : Codec α} {value : α} {name : Text} {content : Bytes}
    (hother : IsKey other) (hname : Path.IsName name) (hblob : name ≠ other)
    (htag : name ≠ other ++ ".type".toList)
    (h : store.encode c other tag value files = (.ok (), files'))
    (hread : files.read (Path.join store.dir name) = .ok content) :
    files'.read (Path.join store.dir name) = .ok content := by
  obtain ⟨bytes, files₁, files₂, -, hdirs, hwrite, hwriteTag⟩ := encode_eq_ok h
  have hread₁ : files₁.read (Path.join store.dir name) = .ok content := by
    have hmade := FileTree.read_of_createDirectories store.dir hread
    rwa [hdirs] at hmade
  have hread₂ := FileTree.read_of_write_of_ne hwrite
    (FileTree.placeOf_join_name_ne hname hother.isName hblob files₁ store.dir) hread₁
  exact FileTree.read_of_write_of_ne hwriteTag
    (FileTree.placeOf_join_name_ne hname hother.isName_tag htag files₂ store.dir) hread₂

/-- Storing under another key changes nothing under a key. -/
theorem Holds.encode {α : Type} {c : Codec α} {value : α} {otherTag : Text} (hkey : IsKey key)
    (hother : IsKey other) (hne : other ≠ key) (hholds : store.Holds key tag bytes files)
    (h : store.encode c other otherTag value files = (.ok (), files')) :
    store.Holds key tag bytes files' where
  blob := read_of_encode hother hkey.isName hne.symm (hkey.ne_tag other) h hholds.blob
  tag := by
    refine read_of_encode hother hkey.isName_tag (hother.ne_tag key).symm ?_ h hholds.tag
    exact fun heq => hne (List.append_cancel_right heq).symm

/-- Values of any types are stored under other keys than one, one after the other. -/
inductive StoresOthers (store : ValueStore) (key : Text) : FileTree → FileTree → Prop where
  | none (files : FileTree) : StoresOthers store key files files
  | store {α : Type} {c : Codec α} {other tag : Text} {value : α}
    {files files₁ files₂ : FileTree}
      (isKey : IsKey other) (ne : other ≠ key)
      (encode : store.encode c other tag value files = (.ok (), files₁))
      (rest : StoresOthers store key files₁ files₂) : StoresOthers store key files files₂

/-- However many values are stored under other keys, nothing changes under a key. -/
theorem Holds.storesOthers (hkey : IsKey key) (hholds : store.Holds key tag bytes files)
    (h : store.StoresOthers key files files') : store.Holds key tag bytes files' := by
  induction h with
  | none => exact hholds
  | store isKey ne encode _ ih => exact ih (hholds.encode hkey isKey ne encode)

/-! ### Reading -/

theorem Holds.readTag (h : store.Holds key tag bytes files) (htag : tag.trim = tag) :
    store.readTag files key key = .ok tag := by
  simp only [ValueStore.readTag, FileTree.readText, h.tag, bind, Except.bind,
    Text.ofBytes?_toBytes]
  exact congrArg _ htag

/-- Bytes are read at their tag. -/
theorem Holds.decode {α : Type} {c : Codec α} {value : α} {rest : Bytes}
    (h : store.Holds key tag bytes files) (htag : tag.trim = tag)
    (hdecode : c.decode bytes = some (value, rest)) :
    store.decode c key tag files = .ok value := by
  simp only [ValueStore.decode, h.readTag htag, h.blob, hdecode]
  exact if_neg (not_not_intro rfl)

/-- At any other tag the stored one is reported. -/
theorem Holds.decode_of_tag_ne {α : Type} (c : Codec α) {expected : Text}
    (h : store.Holds key tag bytes files) (htag : tag.trim = tag) (hne : expected ≠ tag) :
    store.decode c key expected files = .error (.typeMismatch key expected tag) := by
  simp only [ValueStore.decode, h.readTag htag]
  exact if_pos hne.symm

/-- **What was stored is read, and only at its tag.**  A value of a `StoredType` that `encode`
wrote under a key comes back from `decode` exactly as it was, maps in their order, after any
further values have been written under other keys (`StoresOthers`).  Any other tag is a
`.typeMismatch` that reports the stored one, and bytes behind the written form of the value do
no harm. -/
theorem decode_of_encode {type : StoredType} {value : type.Value} {files₁ files₂ : FileTree}
    (hvalue : type.WellFormed value) (hkey : IsKey key) (htag : tag.trim = tag)
    (hencode : store.encode type.codec key tag value files = (.ok (), files₁))
    (hothers : store.StoresOthers key files₁ files₂) :
    store.decode type.codec key tag files₂ = .ok value ∧
      (∀ (α : Type) (c : Codec α) (expected : Text), expected ≠ tag →
        store.decode c key expected files₂ = .error (.typeMismatch key expected tag)) ∧
      ∃ bytes, type.codec.encode value = some bytes ∧
        ∀ extra, type.codec.decode (bytes ++ extra) = some (value, extra) := by
  obtain ⟨bytes, hbytes, hholds₁⟩ := holds_of_encode hkey hencode
  have hback : ∀ extra, type.codec.decode (bytes ++ extra) = some (value, extra) :=
    fun extra => type.readsBack hvalue bytes extra hbytes
  have hbare : type.codec.decode bytes = some (value, []) := by simpa using hback []
  have hholds := hholds₁.storesOthers hkey hothers
  refine ⟨hholds.decode htag hbare, ?_, bytes, hbytes, hback⟩
  exact fun α c expected hne => hholds.decode_of_tag_ne c htag hne

/-- A map of two names is read from a store in a relative directory, behind a number and a
text that were stored later, with its names in the order in which they were written. -/
theorem decode_of_encode_literals :
    ∃ files₁ files₂ : FileTree,
      encode ⟨"cache/store"⟩ StoredType.literals.codec "map" "map[string]string"
          [("b", "func() int"), ("a", "")] .empty = (.ok (), files₁) ∧
        StoresOthers ⟨"cache/store"⟩ "map" files₁ files₂ ∧
        decode ⟨"cache/store"⟩ StoredType.literals.codec "map" "map[string]string" files₂ =
          .ok [("b", "func() int"), ("a", "")] ∧
        decode ⟨"cache/store"⟩ Codec.text "map" "string" files₂ =
          .error (.typeMismatch "map" "string" "map[string]string") := by
  let store : ValueStore := ⟨"cache/store"⟩
  let value : StoredType.literals.Value := [("b", "func() int"), ("a", "")]
  let files₁ :=
    (store.encode StoredType.literals.codec "map" "map[string]string" value .empty).2
  let files₂ := (store.encode Codec.int64 "var-map" "int" (-1) files₁).2
  let files₃ := (store.encode Codec.text "ma" "string" "p" files₂).2
  have hmap : store.encode StoredType.literals.codec "map" "map[string]string" value .empty =
      (.ok (), files₁) := encode_eq_of_fst (by decide +kernel)
  have hnumber : store.encode Codec.int64 "var-map" "int" (-1) files₁ = (.ok (), files₂) :=
    encode_eq_of_fst (by decide +kernel)
  have htext : store.encode Codec.text "ma" "string" "p" files₂ = (.ok (), files₃) :=
    encode_eq_of_fst (by decide +kernel)
  have hothers : store.StoresOthers "map" files₁ files₃ :=
    .store ⟨by decide, by decide, by decide⟩ (by decide) hnumber
      (.store ⟨by decide, by decide, by decide⟩ (by decide) htext (.none files₃))
  have hvalue : StoredType.literals.WellFormed value := by
    change (List.map Prod.fst (value : Literals)).Nodup
    decide
  obtain ⟨hread, hmismatch, -⟩ :=
    decode_of_encode hvalue ⟨by decide, by decide, by decide⟩ (by decide) hmap hothers
  exact ⟨files₁, files₃, hmap, hothers, hread, hmismatch Text Codec.text "string" (by decide)⟩

end ValueStore

end Notebook
