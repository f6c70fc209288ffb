import Mathlib.Algebra.Group.Nat.Defs
import Notebook.Store.Codec

/-!
# Reading back what was written

A reader takes from the front of bytes exactly what the writer of its codec put there,
whatever follows.  The parts of a stored session are put together by combinators, and each
combinator keeps this up.

## Main statements

* `Codec.readsBack_option`, `Codec.readsBack_list`: what is put together comes back with its
  parts
* `Codec.readsBack_session`: a session comes back if no two of its function literals share a
  name
-/

namespace Notebook

open List

namespace Literals

/-- A new name goes to the end. -/
theorem put_of_notMem {ls : Literals} {name : Text} (source : Text)
    (h : name ∉ ls.map Prod.fst) : ls.put name source = ls ++ [(name, source)] := by
  induction ls with
  | nil => rfl
  | cons p ls ih =>
    simp only [map_cons, mem_cons, not_or] at h
    rw [put, if_neg (Ne.symm h.1), ih h.2, cons_append]

theorem foldl_put {ls acc : Literals} (h : ((acc ++ ls).map Prod.fst).Nodup) :
    ls.foldl (fun ls p => put ls p.1 p.2) acc = acc ++ ls := by
  induction ls generalizing acc with
  | nil => simp
  | cons p ls ih =>
    -- The names still to come are new to what has been put in so far.
    have hnew : p.1 ∉ acc.map Prod.fst := by
      simp only [map_append, map_cons, nodup_append, mem_cons] at h
      exact fun hmem => h.2.2 _ hmem _ (.inl rfl) rfl
    rw [foldl_cons, put_of_notMem p.2 hnew, ih (by simpa using h), append_assoc,
      singleton_append]

/-- Pairs of different names are listed as they were put in. -/
theorem ofList_eq {ls : List (Text × Text)} (h : (ls.map Prod.fst).Nodup) :
    ofList ls = ls := by
  rw [ofList, foldl_put (by simpa using h), nil_append]

end Literals

namespace Codec

variable {α β : Type} {c : Codec α} {d : Codec β}

/-- A value that comes back from its written form, whatever follows. -/
def ReadsBack (c : Codec α) (a : α) : Prop :=
  ∀ bs rest, c.encode a = some bs → c.decode (bs ++ rest) = some (a, rest)

/-! ### Numbers -/

/-- A number comes back from as many bytes as it needs. -/
theorem readLittleEndian_littleEndian (w : Nat) {n : Nat} (h : n < 256 ^ w) (rest : Bytes) :
    readLittleEndian w (littleEndian w n ++ rest) = some (n, rest) := by
  induction w generalizing n with
  | zero =>
    obtain rfl : n = 0 := by simpa using h
    rfl
  | succ w ih =>
    have hhigh : n / 256 < 256 ^ w := by
      rw [Nat.pow_succ] at h
      exact Nat.div_lt_of_lt_mul (by omega)
    have hlow : (UInt8.ofNat (n % 256)).toNat + 256 * (n / 256) = n := by
      rw [UInt8.toNat_ofNat_of_lt' (Nat.mod_lt n (by decide))]
      exact Nat.mod_add_div n 256
    rw [littleEndian, cons_append, readLittleEndian, ih hhigh, Option.map_some, hlow]

theorem readsBack_count (n : Nat) : ReadsBack count n := by
  intro bs rest h
  simp only [count] at h ⊢
  split at h
  next hn =>
    cases h
    exact readLittleEndian_littleEndian 8 hn rest
  · cases h

theorem readsBack_word32 (n : UInt32) : ReadsBack word32 n := by
  intro bs rest h
  cases h
  simp [word32, readLittleEndian_littleEndian 4 n.toNat_lt rest]

theorem readsBack_int64 (n : Int64) : ReadsBack int64 n := by
  intro bs rest h
  cases h
  simp only [int64, readLittleEndian_littleEndian 8 n.toUInt64.toNat_lt rest, Option.map_some,
    UInt64.ofNat_toNat, Int64.toInt64_toUInt64]

theorem readsBack_bool (b : Bool) : ReadsBack bool b := by
  intro bs rest h
  cases h
  cases b <;> rfl

/-! ### Combinators -/

theorem readsBack_text (t : Text) : ReadsBack text t := by
  intro bs rest h
  obtain ⟨size, hsize, rfl⟩ := Option.map_eq_some_iff.1 h
  have hcount := readsBack_count _ size (t.toBytes ++ rest) hsize
  simp [text, append_assoc, hcount]

theorem readsBack_pair {a : α} {b : β} (ha : ReadsBack c a) (hb : ReadsBack d b) :
    ReadsBack (pair c d) (a, b) := by
  intro bs rest h
  obtain ⟨left, hleft, h⟩ := Option.bind_eq_some_iff.1 h
  obtain ⟨right, hright, h⟩ := Option.bind_eq_some_iff.1 h
  cases h
  simp [pair, append_assoc, ha left (right ++ rest) hleft, hb right rest hright]

theorem readsBack_option {a? : Option α} (ha : ∀ a ∈ a?, ReadsBack c a) :
    ReadsBack (option c) a? := by
  intro bs rest h
  cases a? with
  | none =>
    cases h
    rfl
  | some a =>
    obtain ⟨as, has, rfl⟩ := Option.map_eq_some_iff.1 h
    simp [option, ha a rfl as rest has]

theorem decodeMany_encodeMany {as : List α} (has : ∀ a ∈ as, ReadsBack c a) {bs : Bytes}
    (h : encodeMany c as = some bs) (rest : Bytes) :
    decodeMany c as.length (bs ++ rest) = some (as, rest) := by
  induction as generalizing bs with
  | nil =>
    cases h
    rfl
  | cons a as ih =>
    obtain ⟨first, hfirst, h⟩ := Option.bind_eq_some_iff.1 h
    obtain ⟨others, hothers, h⟩ := Option.bind_eq_some_iff.1 h
    cases h
    have ha := has a mem_cons_self first (others ++ rest) hfirst
    have has' := ih (fun b hb => has b (mem_cons_of_mem a hb)) hothers
    simp [decodeMany, append_assoc, ha, has']

theorem readsBack_list {as : List α} (has : ∀ a ∈ as, ReadsBack c a) :
    ReadsBack (list c) as := by
  intro bs rest h
  obtain ⟨size, hsize, h⟩ := Option.bind_eq_some_iff.1 h
  obtain ⟨members, hmembers, h⟩ := Option.bind_eq_some_iff.1 h
  cases h
  simp [list, append_assoc, readsBack_count _ size (members ++ rest) hsize,
    decodeMany_encodeMany has hmembers rest]

/-! ### Sessions -/

theorem readsBack_literals {ls : Literals} (h : (ls.map Prod.fst).Nodup) :
    ReadsBack literals ls := by
  intro bs rest hbs
  have hlist : ReadsBack (list (pair text text)) ls :=
    readsBack_list fun l _ => readsBack_pair (readsBack_text l.1) (readsBack_text l.2)
  simp [literals, hlist bs rest hbs, Literals.ofList_eq h]

theorem readsBack_declarationKind (kind : DeclarationKind) :
    ReadsBack declarationKind kind := by
  intro bs rest h
  cases h
  have hsmall : kindNumber kind < 256 ^ 4 := by cases kind <;> decide
  simp only [declarationKind, readLittleEndian_littleEndian 4 hsmall rest]
  cases kind <;> rfl

theorem readsBack_declaration (decl : Declaration) : ReadsBack declaration decl := by
  intro bs rest h
  have hparts := readsBack_pair (readsBack_declarationKind decl.kind)
    (readsBack_pair (readsBack_text decl.key) (readsBack_text decl.source)) bs rest h
  simp [declaration, hparts]

/-- A session comes back from its written form if no two of its function literals share a
name. -/
theorem readsBack_session {s : Session} (h : (s.literals.map Prod.fst).Nodup) :
    ReadsBack session s := by
  intro bs rest hbs
  have hnames : ReadsBack (list text) s.names :=
    readsBack_list fun name _ => readsBack_text name
  have hdecls : ReadsBack (list declaration) s.declarations :=
    readsBack_list fun decl _ => readsBack_declaration decl
  have hparts :=
    readsBack_pair hnames (readsBack_pair (readsBack_literals h) hdecls) bs rest hbs
  simp [session, hparts]

end Codec

end Notebook
