import Notebook.Text

/-!
# Spans of a text

A span is a pair of byte offsets.  Reading one is *checked*: it fails when the offsets are out
of order, or when one of them lies outside the text or inside a character.
-/

namespace Notebook

/-- Why a place in a text or in a list of tokens cannot be read. -/
inductive Fault where
  /-- A span whose end lies before its start. -/
  | reversed (start stop : Nat)
  /-- An offset outside the text or inside a character. -/
  | offset (offset : Nat)
  /-- A token number past the last token. -/
  | token (index : Nat)
deriving DecidableEq, Repr

/-- What is said of a fault. -/
def Fault.message : Fault → Text
  | .reversed _ _ => "a span ends before it starts"
  | .offset _ => "an offset is no place of the text"
  | .token _ => "there is no such token"

/-- A result, or the fault that prevented it. -/
abbrev Checked := Except Fault

/-- The bytes from `start` up to but without `stop`. -/
structure Span where
  start : Nat
  stop : Nat
deriving DecidableEq, Repr

namespace Span

/-- The text before, in and after a span. -/
def cut (s : Span) (t : Text) : Checked (Text × Text × Text) :=
  if s.stop < s.start then .error (.reversed s.start s.stop)
  else
    match t.cutAt? s.start with
    | none => .error (.offset s.start)
    | some (before, rest) =>
      match Text.cutAt? rest (s.stop - s.start) with
      | none => .error (.offset s.stop)
      | some (inside, behind) => .ok (before, inside, behind)

/-- The text in a span. -/
def slice (s : Span) (t : Text) : Checked Text :=
  (s.cut t).map fun p => p.2.1

/-- A span cuts a text exactly when its bounds fall between characters. -/
theorem cut_eq_ok_iff {s : Span} {t a b c : Text} :
    s.cut t = .ok (a, b, c) ↔
      t = a ++ b ++ c ∧ s.start = a.byteSize ∧ s.stop = a.byteSize + b.byteSize := by
  unfold cut
  split
  next h => simp; omega
  next h =>
    split
    next hs =>
      simp only [reduceCtorEq, false_iff, not_and]
      rintro rfl ha
      rw [Text.cutAt?_eq_some_iff (a := a) (b := b ++ c) |>.2 ⟨by simp, ha.symm⟩] at hs
      simp at hs
    next x r hs =>
      obtain ⟨rfl, hx⟩ := Text.cutAt?_eq_some_iff.1 hs
      split
      next hr =>
        simp only [reduceCtorEq, false_iff, not_and]
        intro ht ha hb
        obtain ⟨rfl, rfl⟩ : x = a ∧ r = b ++ c := by
          have h1 : Text.cutAt? (x ++ r) s.start = some (a, b ++ c) :=
            Text.cutAt?_eq_some_iff.2 ⟨by simp [ht], ha.symm⟩
          rw [hs] at h1
          simpa using h1
        rw [Text.cutAt?_eq_some_iff (a := b) (b := c) |>.2 ⟨rfl, by omega⟩] at hr
        simp at hr
      next y z hr =>
        obtain ⟨rfl, hy⟩ := Text.cutAt?_eq_some_iff.1 hr
        simp only [Except.ok.injEq, Prod.mk.injEq]
        constructor
        · rintro ⟨rfl, rfl, rfl⟩
          exact ⟨by simp, hx.symm, by omega⟩
        · rintro ⟨ht, ha, hb⟩
          have h1 : Text.cutAt? (x ++ (y ++ z)) s.start = some (a, b ++ c) :=
            Text.cutAt?_eq_some_iff.2 ⟨by simp [ht], ha.symm⟩
          rw [hs] at h1
          simp only [Option.some.injEq, Prod.mk.injEq] at h1
          obtain ⟨rfl, h2⟩ := h1
          have h3 : Text.cutAt? (y ++ z) (s.stop - s.start) = some (b, c) :=
            Text.cutAt?_eq_some_iff.2 ⟨h2, by omega⟩
          rw [hr] at h3
          simp only [Option.some.injEq, Prod.mk.injEq] at h3
          exact ⟨rfl, h3.1, h3.2⟩

end Span

end Notebook
