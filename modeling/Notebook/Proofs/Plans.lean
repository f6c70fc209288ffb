import Notebook.Proofs.TokenReads

/-!
# What a plan stores

A plan takes its names from two sides, the bindings of the entry function and the storing
calls that are already there, and its function literals from the bindings alone.  However the
two sides overlap, every name is stored once, the literals follow the order of the names, and
each of them is a function literal.
-/

namespace Notebook

open List

variable {b : Binding} {c : Capture} {cs : List Capture} {s : Source} {program : Text}

namespace PersistencePlan

/-- A plan that stores every name once, and function literals under some of the names, in
their order. -/
structure Sound (plan : PersistencePlan) : Prop where
  nodup : plan.names.Nodup
  keys : (plan.literals.map Prod.fst).Sublist plan.names
  literals : ∀ l ∈ plan.literals, isFunctionLiteral l.2 = true

/-! ### Captures -/

theorem firstOfEach_sublist (seen : List Text) (cs : List Capture) :
    (firstOfEach seen cs).Sublist cs := by
  induction cs generalizing seen with
  | nil => exact Sublist.refl _
  | cons c cs ih =>
    rw [firstOfEach]
    split
    · exact (ih seen).cons c
    · exact (ih _).cons_cons c

theorem firstOfEach_notMem {seen : List Text} (hc : c ∈ firstOfEach seen cs) :
    c.name ∉ seen := by
  induction cs generalizing seen with
  | nil => cases hc
  | cons d cs ih =>
    rw [firstOfEach] at hc
    split at hc
    · exact ih hc
    next hd =>
      rcases mem_cons.1 hc with rfl | hc
      · exact hd
      · exact fun hmem => ih hc (mem_append_left _ hmem)

theorem firstOfEach_nodup (seen : List Text) (cs : List Capture) :
    ((firstOfEach seen cs).map (·.name)).Nodup := by
  induction cs generalizing seen with
  | nil => exact nodup_nil
  | cons c cs ih =>
    rw [firstOfEach]
    split
    · exact ih seen
    · rw [map_cons]
      refine nodup_cons.2 ⟨?_, ih _⟩
      intro hmem
      obtain ⟨d, hd, hname⟩ := mem_map.1 hmem
      exact firstOfEach_notMem hd
        (mem_append_right _ (hname ▸ mem_singleton_self _))

/-- What is captured of a binding: the function literal that its own value is, if it is one
and not `nil`, and no literal where names share their values. -/
inductive CaptureOf (s : Source) (b : Binding) : Capture → Prop where
  | own {value : Span} {text : Text} (hvalue : b.value = some value)
    (htext : s.slice value = .ok text)
      (hnil : text.trim ≠ "nil".toList) :
      CaptureOf s b ⟨b.name, b.pos, if isFunctionLiteral text then some text else none⟩
  | shared {rhs : Span} (hvalue : b.value = none) (hrhs : b.rhs = some rhs) :
      CaptureOf s b ⟨b.name, b.pos, none⟩

theorem capture?_eq_some_iff :
    capture? s b = .ok (some c) ↔ b.name ≠ blankName ∧ CaptureOf s b c := by
  constructor
  · intro h
    unfold capture? at h
    split at h
    · cases h
    next hname =>
      refine ⟨hname, ?_⟩
      split at h
      next value hvalue =>
        obtain ⟨text, htext, h⟩ := Checked.bind_eq_ok.1 h
        split at h
        · cases h
        next hnil =>
          cases h
          exact .own hvalue htext hnil
      next rhs hvalue hrhs =>
        cases h
        exact .shared hvalue hrhs
      · cases h
  · rintro ⟨hname, hcapture⟩
    rw [capture?, if_neg hname]
    cases hcapture with
    | own hvalue htext hnil =>
      simp only [hvalue, htext, hnil, bind, Except.bind, if_false]
      rfl
    | shared hvalue hrhs => simp only [hvalue, hrhs]

theorem capture?_literal {l : Text} (h : capture? s b = .ok (some c))
    (hl : c.literal = some l) : isFunctionLiteral l = true := by
  cases (capture?_eq_some_iff.1 h).2 with
  | own =>
    simp only at hl
    split at hl
    next hfunction =>
      cases hl
      exact hfunction
    · cases hl
  | shared => cases hl

/-- The captures of statements have a name each, and function literals where they have any. -/
theorem captures_spec {statements : List Statement} (h : captures s statements = .ok cs) :
    (cs.map (·.name)).Nodup ∧ ∀ c ∈ cs, ∀ l, c.literal = some l →
      isFunctionLiteral l = true := by
  obtain ⟨bindings, -, h⟩ := Checked.bind_eq_ok.1 h
  obtain ⟨found, hfound, h⟩ := Checked.bind_eq_ok.1 h
  cases h
  -- Sorting by position only permutes the first binding of each name.
  have hperm := mergeSort_perm (firstOfEach [] (found.filterMap id))
    fun a b => decide (a.pos ≤ b.pos)
  constructor
  · exact (hperm.map _).nodup_iff.2 (firstOfEach_nodup [] _)
  · intro c hc l hl
    have hmem := (firstOfEach_sublist [] _).subset (hperm.mem_iff.1 hc)
    obtain ⟨o, ho, rfl⟩ := mem_filterMap.1 hmem
    obtain ⟨b, -, hb⟩ := Checked.exists_of_mapM hfound ho
    exact capture?_literal hb hl

namespace Findings

theorem literals_keys_sublist (f : Findings) :
    (f.literals.map Prod.fst).Sublist (f.captures.map (·.name)) := by
  unfold literals
  induction f.captures with
  | nil => exact Sublist.refl _
  | cons c cs ih =>
    rw [filterMap_cons, map_cons]
    cases c.literal with
    | none => exact ih.cons _
    | some l => exact ih.cons_cons _

end Findings

/-- The plan of a program is made of what is found in it. -/
theorem planPersistence_of_findings {text : Text} {entry : EntryPoint} {found : Findings}
    (hentry : (Source.ofText program).entryPoint = some entry)
    (hfound : findings (.ofText program) entry = .ok found)
    (htext : Edit.applyAll program (found.edits entry) = .ok text) :
    planPersistence program =
      .ok (some ⟨text, storedNames found.stored found.captures, found.literals⟩) := by
  simp only [planPersistence_eq, hentry, hfound, htext, bind, Except.bind]
  rfl

/-- Every plan is sound. -/
theorem sound_of_plan {plan : PersistencePlan}
    (h : planPersistence program = .ok (some plan)) : plan.Sound := by
  rw [planPersistence_eq] at h
  simp only at h
  split at h
  · cases h
  next entry he =>
    obtain ⟨found, hfound, h⟩ := Checked.bind_eq_ok.1 h
    obtain ⟨text, -, h⟩ := Checked.bind_eq_ok.1 h
    cases h
    rw [findings_eq he] at hfound
    obtain ⟨calls, -, hfound⟩ := Checked.bind_eq_ok.1 hfound
    obtain ⟨cs, hcs, hfound⟩ := Checked.bind_eq_ok.1 hfound
    cases hfound
    obtain ⟨hnodup, hliterals⟩ := captures_spec hcs
    -- The names of the captures stand in front of all names that are stored.
    refine ⟨nodup_addNames hnodup _, ?_, ?_⟩
    · exact (Findings.literals_keys_sublist _).trans (prefix_addNames _ _).sublist
    · intro l hl
      obtain ⟨c, hc, hsome⟩ := mem_filterMap.1 hl
      obtain ⟨text, htext, rfl⟩ := Option.map_eq_some_iff.1 hsome
      exact hliterals c hc text htext

end PersistencePlan

end Notebook
