import Notebook.Proofs.TokenReads

/-!
# Names that a trial build reports as unused

A trial build speaks of the text that it was given in the end, which need not be the program.
A name that it reports counts if a statement of the entry function of that text binds it, and
if the report points at a line, then at one of that statement.  So what is bound inside of
blocks does not count, even under a name that the entry function binds as well.
-/

namespace Notebook

open List

/-- The line where a statement begins, and the line where its last token begins. -/
def Source.lines? (s : Source) (st : Statement) : Option (Nat × Nat) := do
  let first ← s.tokens[st.first]?
  let last ← s.tokens[st.last]?
  return (first.start.line, last.start.line)

/-- A report on a name that a statement of the entry function binds.  If it points at a line,
that is one of the statement. -/
def UnusedReport.PointsInto (r : UnusedReport) (built : Text) : Prop :=
  ∃ entry ∈ (Source.ofText built).entryPoint,
    ∃ st ∈ (Source.ofText built).bodyStatements entry,
      r.name ∈ ((Source.ofText built).bindings st).map (·.name) ∧
        ∀ line ∈ r.line, ∃ q ∈ (Source.ofText built).lines? st, q.1 ≤ line ∧ line ≤ q.2

instance (r : UnusedReport) (built : Text) : Decidable (r.PointsInto built) :=
  inferInstanceAs (Decidable (∃ entry ∈ (Source.ofText built).entryPoint,
    ∃ st ∈ (Source.ofText built).bodyStatements entry, _ ∧ ∀ line ∈ r.line, ∃ q ∈ _, _ ∧ _))

/-- The lines and the names of a statement in a source. -/
theorem BindingLines.exists_ofStatement {s : Source} {st : Statement}
    (h : st.StandsIn s.tokens) :
    ∃ b, BindingLines.ofStatement s st = .ok b ∧
      s.lines? st = some (b.firstLine, b.lastLine) ∧
      b.names = (s.bindings st).map (·.name) := by
  obtain ⟨first, last, hfirst, hlast, -⟩ := h.extent
  refine ⟨⟨first.start.line, last.start.line, (s.bindings st).map (·.name)⟩, ?_, ?_, rfl⟩
  · rw [BindingLines.ofStatement_eq h, Source.tokenAt_eq hfirst, Source.tokenAt_eq hlast]
    rfl
  · rw [Source.lines?, hfirst, hlast]
    rfl

/-- A statement explains a report that names one of its names and points at one of its
lines. -/
theorem BindingLines.explains_iff {s : Source} {st : Statement} {b : BindingLines}
    (hlines : s.lines? st = some (b.firstLine, b.lastLine))
    (hnames : b.names = (s.bindings st).map (·.name)) (r : UnusedReport) :
    b.explains r = true ↔ r.name ∈ (s.bindings st).map (·.name) ∧
      ∀ line ∈ r.line, ∃ q ∈ s.lines? st, q.1 ≤ line ∧ line ≤ q.2 := by
  rw [BindingLines.explains, hnames, hlines]
  cases r.line <;> simp

/-- The statements of the entry function explain the reports that point into it. -/
theorem exists_bindingLines (built : Text) :
    ∃ found, bindingLines built = .ok found ∧
      ∀ r : UnusedReport, found.any (·.explains r) = true ↔ r.PointsInto built := by
  let s := Source.ofText built
  rw [bindingLines_eq]
  cases hentry : s.entryPoint with
  | none =>
    simp only [s, hentry]
    refine ⟨[], rfl, fun r => iff_of_false Bool.false_ne_true ?_⟩
    rintro ⟨entry, hmem, -⟩
    rw [hentry] at hmem
    cases hmem
  | some entry =>
    simp only [s, hentry]
    obtain ⟨found, hfound, hall⟩ := Checked.mapM_forall₂
      fun st (hst : st ∈ s.bodyStatements entry) =>
        BindingLines.exists_ofStatement (Source.standsIn_of_mem hst).1
    refine ⟨found.filter fun b => !b.names.isEmpty, by rw [hfound]; rfl, fun r => ?_⟩
    rw [any_eq_true]
    constructor
    · rintro ⟨b, hb, hexplains⟩
      obtain ⟨st, hst, hlines, hnames⟩ := exists_of_forall₂ hall (mem_filter.1 hb).1
      exact ⟨entry, hentry, st, hst, (BindingLines.explains_iff hlines hnames r).1 hexplains⟩
    · rintro ⟨entry', hentry', st, hst, hpoints⟩
      rw [hentry] at hentry'
      cases hentry'
      obtain ⟨b, hb, hlines, hnames⟩ := exists_of_forall₂ hall.flip hst
      refine ⟨b, mem_filter.2 ⟨hb, ?_⟩,
        (BindingLines.explains_iff hlines hnames r).2 hpoints⟩
      rw [hnames, Bool.not_eq_true', isEmpty_eq_false_iff]
      exact ne_nil_of_mem hpoints.1

/-- Adding names one after the other drops those that are there already. -/
theorem addNames_eq (names more : List Text) :
    addNames names more = names ++ (more.filter (· ∉ names)).eraseDups := by
  induction more generalizing names with
  | nil => simp [addNames]
  | cons m more ih =>
    have hstep : addNames names (m :: more) =
        addNames (if m ∈ names then names else names ++ [m]) more := rfl
    rw [hstep, ih]
    by_cases hm : m ∈ names
    · simp [hm]
    · rw [if_neg hm, filter_cons_of_pos (by simpa using hm), eraseDups_cons,
        filter_filter, append_assoc, singleton_append]
      congr 3
      refine filter_congr fun n _ => ?_
      by_cases hn : n = m <;> simp [hn]

/-- The names that count are those of the reports that point into the entry function, each
once and in the order of the reports. -/
theorem unusedNames_eq (built : Text) (reports : List UnusedReport) :
    unusedNames built reports =
      .ok ((reports.filter fun r => r.PointsInto built).map (·.name)).eraseDups := by
  obtain ⟨found, hfound, hexplains⟩ := exists_bindingLines built
  have hfilter : (reports.filter fun r => found.any (·.explains r)) =
      reports.filter fun r => r.PointsInto built := by
    refine filter_congr fun r _ => ?_
    rw [Bool.eq_iff_iff, hexplains, decide_eq_true_iff]
  rw [unusedNames, hfound]
  show Except.ok (addNames [] _) = _
  rw [addNames_eq, hfilter]
  simp

theorem nodup_of_unusedNames {built : Text} {reports : List UnusedReport} {names : List Text}
    (h : unusedNames built reports = .ok names) : names.Nodup := by
  obtain ⟨found, -, h⟩ := Checked.bind_eq_ok.1 h
  cases h
  exact nodup_addNames nodup_nil _

end Notebook
