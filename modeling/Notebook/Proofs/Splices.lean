import Notebook.Proofs.Edits

/-!
# Replacing all spans at once

Edits are applied one after the other, each in the text that the ones before it have left.
The result can be said without any of these texts: go through the original text from the front
to the back, copy what no edit touches, and put the text of an edit where its span stands.  An
insertion at the place where a replaced span begins comes before the replacement.

## Main statements

* `Edit.foldlM_reverse`: what is applied from the back to the front is spliced from front to
  back
* `Edit.applyAll_eq_splice`: edits of different spans that fit a text are applied all at once
-/

namespace Notebook

open List

namespace Edit

/-- Whether an edit comes no later than another from the front of the text to the back.  Of
two that start at one place an insertion is the first. -/
def standsBefore (a b : Edit) : Bool :=
  a.span.start < b.span.start || (a.span.start == b.span.start && a.span.stop ≤ b.span.stop)

/-- Edits in the order in which their spans stand in a text. -/
def inOrder (edits : List Edit) : List Edit :=
  edits.mergeSort standsBefore

/-- The text from an offset on, with the texts of edits in place of their spans.  What is
copied is cut out of the text as it was before all edits. -/
def spliceFrom (t : Text) (here : Nat) : List Edit → Checked Text
  | [] => Span.slice ⟨here, t.byteSize⟩ t
  | e :: es => do
    let untouched ← Span.slice ⟨here, e.span.start⟩ t
    let behind ← spliceFrom t e.span.stop es
    return untouched ++ e.text ++ behind

/-- The segments of a text that no edit touches, with the texts of the edits between them. -/
def splice (t : Text) (edits : List Edit) : Checked Text :=
  spliceFrom t 0 (inOrder edits)

/-! ### The two orders -/

theorem standsBefore_iff {a b : Edit} : standsBefore a b = true ↔ notAfter b a = true := by
  simp only [standsBefore, notAfter, Bool.or_eq_true, Bool.and_eq_true, beq_iff_eq,
    decide_eq_true_eq]

theorem inOrder_perm (edits : List Edit) : (inOrder edits).Perm edits :=
  mergeSort_perm edits standsBefore

theorem pairwise_inOrder (edits : List Edit) :
    (inOrder edits).Pairwise fun a b => notAfter b a = true := by
  have hsorted : (inOrder edits).Pairwise fun a b => standsBefore a b = true := by
    refine List.pairwise_mergeSort ?_ ?_ edits
    · intro a b c hab hbc
      exact standsBefore_iff.2
        (notAfter_trans c b a (standsBefore_iff.1 hbc) (standsBefore_iff.1 hab))
    · intro a b
      have htotal := notAfter_total b a
      simp only [Bool.or_eq_true, ← standsBefore_iff] at htotal ⊢
      exact htotal
  exact hsorted.imp standsBefore_iff.1

/-- In order, edits that fit a text end before the next one begins. -/
theorem Fit.ordered {t : Text} {edits : List Edit} (h : Fit t edits) :
    (inOrder edits).Pairwise fun a b => a.span.stop ≤ b.span.start := by
  have hdisjoint : (inOrder edits).Pairwise fun a b => a.span.Disjoint b.span :=
    (inOrder_perm edits).symm.pairwise h.disjoint fun hab => hab.symm
  refine ((pairwise_inOrder edits).and hdisjoint).imp_of_mem ?_
  intro a b _ hb hab
  exact stop_le_start_of_notAfter (h.inText b ((inOrder_perm edits).mem_iff.1 hb)).le hab.1
    hab.2.symm

/-! ### From the back to the front -/

/-- Edits that follow one another behind an offset: applied from the last one to the first
they leave what stands before the offset, and what stands behind it is spliced. -/
theorem foldlM_reverse {t front rest : Text} {edits : List Edit} (ht : t = front ++ rest)
    (hfits : ∀ e ∈ edits, e.span.Fits t) (hfront : ∀ e ∈ edits, front.byteSize ≤ e.span.start)
    (hordered : edits.Pairwise fun a b => a.span.stop ≤ b.span.start) :
    ∃ r, spliceFrom t front.byteSize edits = .ok r ∧
      edits.reverse.foldlM (fun t e => e.apply t) t = .ok (front ++ r) := by
  induction edits generalizing front rest with
  | nil =>
    refine ⟨rest, ?_, by rw [ht]; rfl⟩
    have hcut : Span.cut ⟨front.byteSize, t.byteSize⟩ t = .ok (front, rest, []) :=
      Span.cut_eq_ok_iff.2 ⟨by rw [ht, append_nil],
        rfl, by rw [ht, Text.byteSize_append]⟩
    rw [spliceFrom, Span.slice, hcut]
    rfl
  | cons e es ih =>
    obtain ⟨hlater, hes⟩ := pairwise_cons.1 hordered
    have he := hfits e mem_cons_self
    -- The text in front of the span, the span itself and what is behind it.
    obtain ⟨gap, _, rfl, hstart⟩ :=
      Text.IsBoundary.prefix_of_le ht he.start (hfront e mem_cons_self)
    rw [← append_assoc] at ht
    obtain ⟨old, behind, rfl, hstop⟩ := Text.IsBoundary.prefix_of_le ht he.stop
      (by rw [Text.byteSize_append, ← hstart]; exact he.le)
    rw [← append_assoc] at ht
    have hsize : (front ++ gap ++ old).byteSize = e.span.stop := by
      rw [Text.byteSize_append, hstop]
    obtain ⟨r, hsplice, hfold⟩ := ih ht (fun e' he' => hfits e' (mem_cons_of_mem e he'))
      (by rw [hsize]; exact hlater) hes
    refine ⟨gap ++ e.text ++ r, ?_, ?_⟩
    · have hcut : Span.cut ⟨front.byteSize, e.span.start⟩ t =
          .ok (front, gap, old ++ behind) :=
        Span.cut_eq_ok_iff.2 ⟨by rw [ht, append_assoc], rfl, hstart⟩
      rw [hsize] at hsplice
      rw [spliceFrom, Span.slice, hcut, hsplice]
      rfl
    · have hcut : e.span.cut (front ++ gap ++ old ++ r) = .ok (front ++ gap, old, r) :=
        Span.cut_eq_ok_iff.2 ⟨rfl, by rw [Text.byteSize_append, hstart], hstop⟩
      have happly : e.apply (front ++ gap ++ old ++ r) =
          .ok (front ++ (gap ++ e.text ++ r)) := by
        rw [apply, hcut]
        simp [Except.map]
      rw [reverse_cons, foldlM_append, hfold]
      exact bind_pure _ |>.trans happly

/-- **Edits are applied all at once.**  For edits of different spans that `Fit` a text,
`applyAll` gives the same in whatever order they are listed: the `splice` of the text, in
which what no edit touches is as it was and the text of each edit stands where its span
stood. -/
theorem applyAll_eq_splice {t : Text} {edits : List Edit} (h : Fit t edits)
    (hspans : (edits.map (·.span)).Nodup) :
    ∃ r, splice t edits = .ok r ∧ ∀ edits' : List Edit, edits'.Perm edits →
      applyAll t edits' = .ok r := by
  have hfits : ∀ e ∈ inOrder edits, e.span.Fits t := fun e he =>
    h.inText e ((inOrder_perm edits).mem_iff.1 he)
  obtain ⟨r, hsplice, hfold⟩ := foldlM_reverse (nil_append t).symm hfits
    (fun e _ => Nat.zero_le _) h.ordered
  have hnodup : ((inOrder edits).map (·.span)).Nodup :=
    ((inOrder_perm edits).map _).nodup_iff.2 hspans
  refine ⟨r, hsplice, fun edits' hperm => ?_⟩
  rw [applyAll, mergeSort_notAfter hnodup (pairwise_inOrder edits)
    (hperm.trans (inOrder_perm edits).symm)]
  exact hfold

/-- A replacement and an insertion where it begins, a deletion and an insertion where that
ends, given in disorder, in a text whose characters have different sizes. -/
theorem applyAll_eq_splice_touching :
    let t : Text := "aébc"
    let edits : List Edit := [⟨⟨4, 5⟩, []⟩, ⟨⟨1, 3⟩, "E"⟩, ⟨⟨5, 5⟩, "!"⟩, ⟨⟨1, 1⟩, "+"⟩]
    Fit t edits ∧ (edits.map (·.span)).Nodup ∧ applyAll t edits = .ok "a+Eb!" ∧
      applyAll t edits.reverse = .ok "a+Eb!" := by
  intro t edits
  have hfit : Fit t edits := by decide +kernel
  have hspans : (edits.map (·.span)).Nodup := by decide
  -- From the back to the front they are in the order of application already.
  let ordered : List Edit := [⟨⟨5, 5⟩, "!"⟩, ⟨⟨4, 5⟩, []⟩, ⟨⟨1, 3⟩, "E"⟩, ⟨⟨1, 1⟩, "+"⟩]
  have hresult : applyAll t ordered = .ok "a+Eb!" := by
    rw [applyAll, mergeSort_of_pairwise (by decide)]
    decide +kernel
  obtain ⟨r, -, hall⟩ := applyAll_eq_splice hfit hspans
  obtain rfl := Except.ok.inj ((hall ordered (by decide)).symm.trans hresult)
  exact ⟨hfit, hspans, hall edits (List.Perm.refl _), hall _ (reverse_perm _)⟩

end Edit

end Notebook
