import Notebook.Proofs.StageEdits

/-!
# The marked statement

The mark of a program stands behind the statement whose value may be shown.  It is looked for
by offsets: the last occurrence of the mark, the beginning of its line, and the last statement
that ends between them.  `IsMarked` says which statement that is in terms of the text alone,
and `YieldsValue` says when its value is shown, whoever answers how many results a call has.

## Main statements

* `DisplayPlan.markedStatement_iff`: the marked statement is found
* `DisplayPlan.shows_iff`: it is shown if it yields a value
-/

namespace Notebook

open List

variable {lineStart mark : Nat} {st : Statement} {program : Text}

namespace Text

variable {needle t a b : Text}

theorem not_infix_of_cutLast? (h : cutLast? needle t = none) : ¬needle <:+: t := by
  induction t with
  | nil =>
    rw [cutLast?] at h
    split at h
    · cases h
    next hne => exact fun hinfix => hne (infix_nil.1 hinfix)
  | cons c t ih =>
    rw [cutLast?] at h
    split at h
    · cases h
    next hnone =>
      split at h
      · cases h
      next hprefix =>
        rw [infix_cons_iff]
        rintro (hpre | hinfix)
        · exact hprefix (List.isPrefixOf_iff_prefix.2 hpre)
        · exact ih hnone hinfix

/-- The last occurrence is one, and none begins behind it. -/
theorem cutLast?_spec (h : cutLast? needle t = some (a, b)) :
    t = a ++ needle ++ b ∧ ∀ a' b', t = a' ++ needle ++ b' → a'.length ≤ a.length := by
  induction t generalizing a with
  | nil =>
    rw [cutLast?] at h
    split at h
    next hnil =>
      cases h
      refine ⟨by rw [hnil]; rfl, fun a' b' heq => ?_⟩
      simp at heq
      simp [heq.1]
    · cases h
  | cons c t ih =>
    rw [cutLast?] at h
    split at h
    next p hp =>
      cases h
      obtain ⟨heq, hlast⟩ := ih hp
      refine ⟨by rw [heq]; rfl, fun a' b' ha' => ?_⟩
      cases a' with
      | nil => exact Nat.zero_le _
      | cons d a' =>
        have := hlast a' b' (List.cons.inj ha').2
        simp only [length_cons]
        omega
    next hnone =>
      split at h
      next hprefix =>
        cases h
        obtain ⟨r, hr⟩ := List.isPrefixOf_iff_prefix.1 hprefix
        refine ⟨by rw [← hr]; simp, fun a' b' ha' => ?_⟩
        cases a' with
        | nil => exact Nat.le_refl _
        | cons d a' =>
          refine absurd ?_ (not_infix_of_cutLast? hnone)
          exact ⟨a', b', (List.cons.inj ha').2.symm⟩
      · cases h

theorem exists_cutLast? (h : needle <:+: t) : ∃ a b, cutLast? needle t = some (a, b) := by
  cases hcut : cutLast? needle t with
  | none => exact absurd h (not_infix_of_cutLast? hcut)
  | some p => exact ⟨p.1, p.2, rfl⟩

end Text

/-- The statement that ends on the line of the last mark of a program: no other statement ends
between it and the mark, and no line does. -/
def IsMarked (program : Text) (sts : List Statement) (st : Statement) : Prop :=
  ∃ before line after, program = before ++ line ++ inputMark ++ after ∧
    (∀ a b, program = a ++ inputMark ++ b → a.length ≤ (before ++ line).length) ∧
    st.span.stop = before.byteSize ∧ '\n' ∉ line ∧
    ∃ front back, sts = front ++ st :: back ∧
      ∀ x ∈ back, (before ++ line).byteSize < x.span.stop

/-- Whether a statement of the entry function has a value: it is an expression, or a call of a
function with results. -/
def Source.YieldsValue (s : Source) (entry : EntryPoint)
    (resultCount : ArityQuery → Option Nat) (st : Statement) : Prop :=
  s.classify st = .expr ∨ ∃ callee text n, s.classify st = .call callee ∧
    s.slice callee = .ok text ∧
    resultCount ⟨text, s.text, entry.bodyStart, st.span.start⟩ = some n ∧ 0 < n

namespace DisplayPlan

/-- Where the line of a mark begins. -/
theorem lineStart_le_iff {before line : Text} {after : Text}
    (h : markOffsets? program = some (mark, lineStart))
    (hcut : Text.cutLast? inputMark program = some (before ++ line, after)) :
    mark = (before ++ line).byteSize ∧ (lineStart ≤ before.byteSize ↔ '\n' ∉ line) := by
  rw [markOffsets?, hcut] at h
  simp only [Option.bind_eq_bind, Option.bind_some, Option.pure_def, Option.some.injEq,
    Prod.mk.injEq] at h
  obtain ⟨rfl, rfl⟩ := h
  refine ⟨rfl, ?_⟩
  -- A line feed in `line` is an occurrence behind `before`.
  have hmem : '\n' ∈ line → ∃ x y, line = x ++ "\n".toList ++ y := by
    intro hin
    obtain ⟨x, y, rfl⟩ := append_of_mem hin
    exact ⟨x, y, by simp⟩
  cases hline : Text.cutLast? "\n" (before ++ line) with
  | none =>
    have hnone := Text.not_infix_of_cutLast? hline
    simp only [Nat.zero_le, true_iff]
    intro hin
    obtain ⟨x, y, rfl⟩ := hmem hin
    exact hnone ⟨before ++ x, y, by simp⟩
  | some p =>
    obtain ⟨above, below⟩ := p
    obtain ⟨heq, hlast⟩ := Text.cutLast?_spec hline
    have heq' : before ++ line = above ++ '\n' :: below := by simpa using heq
    show above.byteSize + 1 ≤ before.byteSize ↔ _
    constructor
    · intro hle hin
      obtain ⟨x, y, rfl⟩ := hmem hin
      have hlen := hlast (before ++ x) y (by simp)
      rcases append_eq_append_iff.1 heq' with ⟨z, rfl, -⟩ | ⟨z, rfl, -⟩
      · rw [Text.byteSize_append] at hle
        omega
      · simp only [length_append] at hlen
        obtain rfl : z = [] := length_eq_zero_iff.1 (by omega)
        rw [Text.byteSize_append, Text.byteSize_nil] at hle
        omega
    · intro hnot
      rcases append_eq_append_iff.1 heq' with ⟨z, -, rfl⟩ | ⟨z, rfl, hz⟩
      · exact absurd (by simp) hnot
      · cases z with
        | nil =>
          rw [nil_append] at hz
          rw [← hz] at hnot
          exact absurd mem_cons_self hnot
        | cons c z =>
          obtain rfl := (List.cons.inj hz).1
          have hsize : Char.utf8Size '\n' = 1 := rfl
          rw [Text.byteSize_append, Text.byteSize_cons, hsize]
          omega

/-- A mark in a program is found. -/
theorem exists_markOffsets? (h : inputMark <:+: program) :
    ∃ mark lineStart, markOffsets? program = some (mark, lineStart) := by
  obtain ⟨before, after, hcut⟩ := Text.exists_cutLast? h
  rw [markOffsets?, hcut]
  exact ⟨_, _, rfl⟩

/-- The marked statement is found by offsets. -/
theorem markedStatement_iff (h : markOffsets? program = some (mark, lineStart))
    {sts : List Statement} (hsts : ∀ st ∈ sts, program.IsBoundary st.span.stop) :
    markedStatement sts mark lineStart = some st ↔ IsMarked program sts st := by
  obtain ⟨upTo, after, hcut⟩ :
    ∃ upTo after, Text.cutLast? inputMark program = some (upTo, after) := by
    cases hcut : Text.cutLast? inputMark program with
    | none =>
      rw [markOffsets?, hcut] at h
      cases h
    | some p => exact ⟨p.1, p.2, rfl⟩
  obtain ⟨hprogram, hlast⟩ := Text.cutLast?_spec hcut
  have hmark : mark = upTo.byteSize := by
    have hnil : Text.cutLast? inputMark program = some (upTo ++ [], after) := by
      simpa using hcut
    simpa using (lineStart_le_iff h hnil).1
  rw [markedStatement, Option.filter_eq_some_iff, find?_eq_some_iff_append]
  constructor
  · rintro ⟨⟨hstop, front, back, hsplit, hback⟩, hline⟩
    have hsts' : sts = back.reverse ++ st :: front.reverse := by
      rw [← reverse_reverse sts, hsplit]
      simp
    have hle : st.span.stop ≤ upTo.byteSize := by
      rw [← hmark]
      exact of_decide_eq_true hstop
    have hboundary : upTo.IsBoundary st.span.stop := by
      have hst := hsts st (by simp [hsts'])
      rw [hprogram, append_assoc] at hst
      exact hst.of_append hle
    obtain ⟨before, line, rfl, hsize⟩ := hboundary
    obtain ⟨-, hiff⟩ := lineStart_le_iff h hcut
    refine ⟨before, line, after, hprogram, hlast, hsize.symm, ?_, back.reverse,
      front.reverse, hsts', fun x hx => ?_⟩
    · rw [← hiff, hsize]
      exact of_decide_eq_true hline
    · have := hback x (mem_reverse.1 hx)
      simpa [hmark] using this
  · rintro ⟨before, line, after', hprogram', hlast', hstop, hline, front, back, rfl, hback⟩
    -- Two last occurrences are one.
    obtain rfl : upTo = before ++ line := by
      have hlen :=
        Nat.le_antisymm (hlast' upTo after hprogram) (hlast (before ++ line) after' hprogram')
      rw [hprogram, append_assoc, append_assoc _ inputMark] at hprogram'
      exact (append_inj hprogram' hlen).1
    obtain ⟨-, hiff⟩ := lineStart_le_iff h hcut
    refine ⟨⟨?_, back.reverse, front.reverse, by simp, ?_⟩, ?_⟩
    · rw [decide_eq_true_eq, hstop, hmark, Text.byteSize_append]
      exact Nat.le_add_right _ _
    · intro x hx
      have := hback x (mem_reverse.1 hx)
      simpa [hmark] using this
    · rw [decide_eq_true_eq, hstop, hiff]
      exact hline

/-- The marked statement is shown if it yields a value. -/
theorem shows_iff {p : DisplayPlan} {entry : EntryPoint} (hst : st.StandsIn p.source.tokens)
    (hneed : needOf p.source entry st = .ok p.need) (resultCount : ArityQuery → Option Nat) :
    p.shows (p.query?.bind resultCount) = true ↔
      p.source.YieldsValue entry resultCount st := by
  unfold Source.YieldsValue
  rw [needOf_eq hst] at hneed
  split at hneed
  next hclass =>
    have halways : p.need = .always := (Except.ok.inj hneed).symm
    simp [shows, halways, hclass]
  next callee hclass =>
    obtain ⟨text, htext, hneed⟩ := Checked.bind_eq_ok.1 hneed
    have hresults :
        p.need = .ifResults ⟨text, p.source.text, entry.bodyStart, st.span.start⟩ :=
      (Except.ok.inj hneed).symm
    simp [shows, query?, hresults, hclass, htext, Option.any_eq_true]
  next hexpr hcall =>
    have hnever : p.need = .never := (Except.ok.inj hneed).symm
    simp only [shows, hnever, Bool.false_eq_true, false_iff, not_or, not_exists, not_and]
    exact ⟨hexpr, fun callee _ _ hclass => absurd hclass (hcall callee)⟩

end DisplayPlan

end Notebook
