import Notebook.Span

/-!
# Spans that fit a text

A span can be read exactly if its bounds are in order and both fall between two characters of
the text.  `Span.Fits` says so without reading anything, so that the stages that compute spans
can be judged before a text is cut.

## Main statements

* `Text.IsBoundary.split`: two boundaries in order divide a text in three
* `Span.Fits.slice`: a span that fits has a text
-/

namespace Notebook

namespace Text

/-- An offset that falls between two characters of a text, or at one of its ends. -/
def IsBoundary (t : Text) (n : Nat) : Prop :=
  ∃ a b, t = a ++ b ∧ byteSize a = n

/-- Cutting succeeds exactly at the boundaries. -/
theorem isBoundary_iff {t : Text} {n : Nat} :
    t.IsBoundary n ↔ (t.cutAt? n).isSome = true := by
  constructor
  · rintro ⟨a, b, rfl, h⟩
    rw [cutAt?_eq_some_iff.2 ⟨rfl, h⟩]
    rfl
  · intro h
    obtain ⟨⟨a, b⟩, hab⟩ := Option.isSome_iff_exists.1 h
    obtain ⟨ht, hn⟩ := cutAt?_eq_some_iff.1 hab
    exact ⟨a, b, ht, hn⟩

instance (t : Text) (n : Nat) : Decidable (t.IsBoundary n) :=
  decidable_of_iff _ isBoundary_iff.symm

theorem byteSize_eq_zero {t : Text} : byteSize t = 0 ↔ t = [] := by
  cases t with
  | nil => simp
  | cons c t =>
    have := c.utf8Size_pos
    simp only [byteSize_cons, reduceCtorEq, iff_false]
    omega

theorem isBoundary_zero (t : Text) : t.IsBoundary 0 :=
  ⟨[], t, rfl, rfl⟩

namespace IsBoundary

variable {t : Text} {m n : Nat}

/-- A text that is at least as long as the part before a boundary begins with that part. -/
theorem prefix_of_le {a b : Text} (h : t = a ++ b) (hn : t.IsBoundary n)
    (hle : a.byteSize ≤ n) :
    ∃ x y, b = x ++ y ∧ n = a.byteSize + byteSize x := by
  obtain ⟨p, q, hpq, rfl⟩ := hn
  rw [h] at hpq
  rcases List.append_eq_append_iff.1 hpq with ⟨x, rfl, rfl⟩ | ⟨x, rfl, rfl⟩
  · exact ⟨x, q, rfl, by simp⟩
  · -- The part before the boundary is not longer than `p`, so nothing stands between the two.
    have hx : x = [] := byteSize_eq_zero.1 (by rw [byteSize_append] at hle; omega)
    exact ⟨[], b, rfl, by simp [hx]⟩

/-- Two boundaries in order divide a text in three. -/
theorem split (hm : t.IsBoundary m) (hn : t.IsBoundary n) (hle : m ≤ n) :
    ∃ a b c, t = a ++ b ++ c ∧ m = byteSize a ∧ n = byteSize a + byteSize b := by
  obtain ⟨a, r, rfl, rfl⟩ := hm
  obtain ⟨x, y, rfl, h⟩ := prefix_of_le rfl hn hle
  exact ⟨a, x, y, by simp, rfl, h⟩

/-- A boundary within the front part of a text is a boundary of that part. -/
theorem of_append {a b : Text} (h : (a ++ b).IsBoundary n) (hle : n ≤ a.byteSize) :
    a.IsBoundary n := by
  obtain ⟨p, q, hpq, rfl⟩ := h
  rcases List.append_eq_append_iff.1 hpq with ⟨x, rfl, rfl⟩ | ⟨x, rfl, rfl⟩
  · have hx : x = [] := byteSize_eq_zero.1 (by rw [byteSize_append] at hle; omega)
    exact ⟨a, [], by simp, by simp [hx]⟩
  · exact ⟨p, x, rfl, rfl⟩

end IsBoundary

end Text

namespace Span

/-- A span whose bounds are in order and fall between characters of a text. -/
structure Fits (s : Span) (t : Text) : Prop where
  le : s.start ≤ s.stop
  start : t.IsBoundary s.start
  stop : t.IsBoundary s.stop

/-- The spans that fit are those that can be read. -/
theorem fits_iff {s : Span} {t : Text} : s.Fits t ↔ ∃ p, s.cut t = .ok p := by
  constructor
  · intro h
    obtain ⟨a, b, c, ht, hm, hn⟩ := h.start.split h.stop h.le
    exact ⟨(a, b, c), cut_eq_ok_iff.2 ⟨ht, hm, hn⟩⟩
  · rintro ⟨⟨a, b, c⟩, h⟩
    obtain ⟨ht, hm, hn⟩ := cut_eq_ok_iff.1 h
    exact ⟨by omega, ⟨a, b ++ c, by simp [ht], hm.symm⟩, ⟨a ++ b, c, ht, by simp [hn]⟩⟩

instance (s : Span) (t : Text) : Decidable (s.Fits t) :=
  decidable_of_iff (s.start ≤ s.stop ∧ t.IsBoundary s.start ∧ t.IsBoundary s.stop)
    ⟨fun h => ⟨h.1, h.2.1, h.2.2⟩, fun h => ⟨h.le, h.start, h.stop⟩⟩

namespace Fits

variable {s : Span} {t : Text}

/-- A span that fits has a text. -/
theorem slice (h : s.Fits t) : ∃ r, s.slice t = .ok r := by
  obtain ⟨p, hp⟩ := fits_iff.1 h
  exact ⟨p.2.1, by simp [Span.slice, hp, Except.map]⟩

/-- A span within the front part of a text fits that part. -/
theorem of_append {a b : Text} (h : s.Fits (a ++ b)) (hle : s.stop ≤ a.byteSize) : s.Fits a :=
  ⟨h.le, h.start.of_append (Nat.le_trans h.le hle), h.stop.of_append hle⟩

end Fits

/-- Two spans of which one ends before the other begins. -/
def Disjoint (a b : Span) : Prop :=
  a.stop ≤ b.start ∨ b.stop ≤ a.start

instance (a b : Span) : Decidable (a.Disjoint b) :=
  inferInstanceAs (Decidable (_ ∨ _))

theorem Disjoint.symm {a b : Span} (h : a.Disjoint b) : b.Disjoint a :=
  Or.symm h

end Span

end Notebook
