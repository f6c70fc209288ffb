import Mathlib.Data.List.Nodup
import Notebook.Edit
import Notebook.Proofs.Spans

/-!
# Edits that fit a text

Edits fit a text if each of their spans fits it and no two of them overlap.  Such edits can be
applied in any case: from the back of the text to the front, every span still stands where it
stood, because all that was edited before lies behind it.

## Main statements

* `Edit.Fit.applyAll`: edits that fit can be applied
* `Edit.Fit.of_ordered`: edits that follow one another fit
-/

namespace Notebook

open List

namespace Edit

/-- Edits whose spans lie in a text between characters and do not overlap. -/
structure Fit (t : Text) (edits : List Edit) : Prop where
  inText : ∀ e ∈ edits, e.span.Fits t
  disjoint : edits.Pairwise fun a b => a.span.Disjoint b.span

instance (t : Text) (edits : List Edit) : Decidable (Fit t edits) :=
  decidable_of_iff ((∀ e ∈ edits, e.span.Fits t) ∧
      edits.Pairwise fun a b => a.span.Disjoint b.span)
    ⟨fun h => ⟨h.1, h.2⟩, fun h => ⟨h.inText, h.disjoint⟩⟩

/-! ### The order of application -/

theorem notAfter_trans (a b c : Edit) (hab : notAfter a b = true)
    (hbc : notAfter b c = true) :
    notAfter a c = true := by
  simp only [notAfter, Bool.or_eq_true, Bool.and_eq_true, beq_iff_eq, decide_eq_true_eq] at *
  omega

theorem notAfter_total (a b : Edit) : (notAfter a b || notAfter b a) = true := by
  simp only [notAfter, Bool.or_eq_true, Bool.and_eq_true, beq_iff_eq, decide_eq_true_eq]
  omega

/-- Edits of different spans are applied in one order, however they are given. -/
theorem mergeSort_notAfter {edits ordered : List Edit} (hspans : (ordered.map (·.span)).Nodup)
    (hordered : ordered.Pairwise fun a b => notAfter b a = true)
    (hperm : edits.Perm ordered) :
    edits.mergeSort notAfter = ordered.reverse := by
  have hall : (edits.mergeSort notAfter).Perm ordered :=
    (mergeSort_perm edits _).trans hperm
  refine List.Perm.eq_of_pairwise ?_
    (List.pairwise_mergeSort notAfter_trans notAfter_total edits)
    (pairwise_reverse.2 hordered) (hall.trans (reverse_perm _).symm)
  -- Neither of two edits comes first only if their spans are the same, and then they are one
  -- edit.
  intro a b ha hb hab hba
  refine inj_on_of_nodup_map hspans (hall.mem_iff.1 ha) (mem_reverse.1 hb) ?_
  obtain ⟨⟨start, stop⟩, text⟩ := a
  obtain ⟨⟨start', stop'⟩, text'⟩ := b
  simp only [notAfter, Bool.or_eq_true, Bool.and_eq_true, beq_iff_eq,
    decide_eq_true_eq] at hab hba
  simp only [Span.mk.injEq]
  omega

/-- Of two disjoint edits the one that is applied later ends before the other begins. -/
theorem stop_le_start_of_notAfter {a b : Edit} (hle : a.span.start ≤ a.span.stop)
    (hab : notAfter a b = true) (h : a.span.Disjoint b.span) :
    b.span.stop ≤ a.span.start := by
  simp only [notAfter, Bool.or_eq_true, Bool.and_eq_true, beq_iff_eq,
    decide_eq_true_eq] at hab
  rcases h with h | h
  · omega
  · exact h

/-- In the order of application every edit ends before those in front of it begin. -/
theorem Fit.pairwise_mergeSort {t : Text} {edits : List Edit} (h : Fit t edits) :
    (edits.mergeSort notAfter).Pairwise fun a b => b.span.stop ≤ a.span.start := by
  have hperm : (edits.mergeSort notAfter).Perm edits := mergeSort_perm edits notAfter
  have hsorted : (edits.mergeSort notAfter).Pairwise fun a b => notAfter a b = true :=
    List.pairwise_mergeSort notAfter_trans notAfter_total edits
  have hdisjoint : (edits.mergeSort notAfter).Pairwise fun a b => a.span.Disjoint b.span :=
    hperm.symm.pairwise h.disjoint fun hab => hab.symm
  -- Disjointness leaves two ways for a pair to lie, and the order rules one of them out.
  refine (hsorted.and hdisjoint).imp_of_mem ?_
  intro a b ha _ hab
  exact stop_le_start_of_notAfter (h.inText a (hperm.mem_iff.1 ha)).le hab.1 hab.2

/-! ### Application -/

/-- An edit of a span that fits succeeds, and keeps all that stands before the span. -/
theorem apply_append {e : Edit} {front : Text} (h : e.span.Fits front) (back : Text) :
    ∃ before behind, e.apply (front ++ back) = .ok (before ++ behind) ∧ before <+: front ∧
      before.byteSize = e.span.start := by
  obtain ⟨a, b, c, rfl, hstart, hstop⟩ := h.start.split h.stop h.le
  refine ⟨a, e.text ++ (c ++ back), ?_, ⟨b ++ c, by simp⟩, hstart.symm⟩
  have hcut : e.span.cut (a ++ b ++ c ++ back) = .ok (a, b, c ++ back) :=
    Span.cut_eq_ok_iff.2 ⟨by simp, hstart, hstop⟩
  rw [apply, hcut]
  simp [Except.map]

/-- Edits from the back to the front can be applied: what comes later fits the part of the
text that is still as it was. -/
theorem foldlM_apply_ok (edits : List Edit) (front back : Text)
    (hfits : ∀ e ∈ edits, e.span.Fits front)
    (hordered : edits.Pairwise fun a b => b.span.stop ≤ a.span.start) :
    ∃ r, edits.foldlM (fun t e => e.apply t) (front ++ back) = .ok r := by
  induction edits generalizing front back with
  | nil => exact ⟨front ++ back, rfl⟩
  | cons e es ih =>
    obtain ⟨hlater, hes⟩ := pairwise_cons.1 hordered
    obtain ⟨before, behind, happly, ⟨rest, rfl⟩, hsize⟩ :=
      apply_append (hfits e mem_cons_self) back
    -- The edits still to come lie in what stands before this one, which is as it was.
    have hbefore : ∀ e' ∈ es, e'.span.Fits before := by
      intro e' he'
      refine (hfits e' (mem_cons_of_mem e he')).of_append ?_
      rw [hsize]
      exact hlater e' he'
    obtain ⟨r, hr⟩ := ih before behind hbefore hes
    refine ⟨r, ?_⟩
    rw [foldlM_cons, happly]
    exact hr

namespace Fit

variable {t : Text} {edits : List Edit}

/-- Edits that fit a text can be applied to it. -/
theorem applyAll (h : Fit t edits) : ∃ r, applyAll t edits = .ok r := by
  have hfits : ∀ e ∈ edits.mergeSort notAfter, e.span.Fits t := by
    intro e he
    exact h.inText e ((mergeSort_perm edits notAfter).mem_iff.1 he)
  obtain ⟨r, hr⟩ := foldlM_apply_ok _ t [] hfits h.pairwise_mergeSort
  exact ⟨r, by simpa [Edit.applyAll] using hr⟩

/-- Edits that follow one another in a text fit it. -/
theorem of_ordered (hfits : ∀ e ∈ edits, e.span.Fits t)
    (hordered : edits.Pairwise fun a b => a.span.stop ≤ b.span.start) : Fit t edits :=
  ⟨hfits, hordered.imp Or.inl⟩

end Fit

end Edit

end Notebook
