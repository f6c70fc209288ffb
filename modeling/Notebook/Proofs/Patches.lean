import Notebook.Proofs.Edits
import Notebook.Proofs.Trimming

/-!
# Edits of rows

Edits that replace parts of a text are applied from the back to the front, and the result is
as if all parts had been replaced at once.  When the parts lie in rows, one row after the
other turns into another row, and if these are sound the edited text is made of them.

## Main statements

* `Patch.applyAll_of_perm`: edits are a replacement of parts, in whatever order they are given
* `Row.patched_remap`: edits that turn rows into others
* `Row.applyAll_remap`: edits that turn rows into others, in a text around the rows
* `applyAll_laid`: such edits in a text that is made of rows
-/

namespace Notebook

open Lexer List

variable {e : Edit} {es : List Edit} {ps : List Patch} {rows : List Row} {i offset : Nat}
  {here : Position} {front new r t : Text}

/-! ### Replacing parts of a text -/

/-- A part of a text, and what replaces it if anything does. -/
structure Patch where
  old : Text
  new : Option Text
deriving DecidableEq, Repr

namespace Patch

/-- The text before. -/
def text (ps : List Patch) : Text :=
  ps.flatMap (·.old)

/-- The text behind. -/
def result (ps : List Patch) : Text :=
  ps.flatMap fun p => p.new.getD p.old

/-- The edits that make the replacements, from the front to the back. -/
def edits (offset : Nat) : List Patch → List Edit
  | [] => []
  | ⟨old, none⟩ :: ps => edits (offset + old.byteSize) ps
  | ⟨old, some new⟩ :: ps =>
    ⟨⟨offset, offset + old.byteSize⟩, new⟩ :: edits (offset + old.byteSize) ps

/-- What is replaced is not empty. -/
def Proper (ps : List Patch) : Prop :=
  ∀ p ∈ ps, p.new.isSome = true → p.old ≠ []

@[simp] theorem text_nil : text [] = [] := rfl

@[simp] theorem text_cons (p : Patch) (ps : List Patch) :
    text (p :: ps) = p.old ++ text ps := rfl

@[simp] theorem text_append (ps qs : List Patch) : text (ps ++ qs) = text ps ++ text qs :=
  flatMap_append

@[simp] theorem result_nil : result [] = [] := rfl

@[simp] theorem result_cons (p : Patch) (ps : List Patch) :
    result (p :: ps) = p.new.getD p.old ++ result ps := rfl

@[simp] theorem result_append (ps qs : List Patch) :
    result (ps ++ qs) = result ps ++ result qs :=
  flatMap_append

theorem edits_append (offset : Nat) (ps qs : List Patch) :
    edits offset (ps ++ qs) = edits offset ps ++
      edits (offset + Text.byteSize (text ps)) qs := by
  induction ps generalizing offset with
  | nil => rfl
  | cons p ps ih =>
    obtain ⟨old, new⟩ := p
    cases new <;> simp [edits, ih, Nat.add_assoc]

theorem Proper.append {qs : List Patch} (hps : Proper ps) (hqs : Proper qs) :
    Proper (ps ++ qs) := by
  exact forall_mem_append.2 ⟨hps, hqs⟩

theorem proper_of_none (t : Text) : Proper [⟨t, none⟩] := by
  intro p hp hsome
  rw [mem_singleton.1 hp] at hsome
  cases hsome

/-- The replacements made from the back to the front. -/
theorem foldlM_edits (ps : List Patch) (front : Text) :
    (edits front.byteSize ps).reverse.foldlM (fun t e => Edit.apply e t) (front ++ text ps) =
      .ok (front ++ result ps) := by
  induction ps generalizing front with
  | nil => rfl
  | cons p ps ih =>
    obtain ⟨old, new⟩ := p
    have hbehind := ih (front ++ old)
    rw [Text.byteSize_append, append_assoc] at hbehind
    cases new with
    | none =>
      rw [append_assoc] at hbehind
      exact hbehind
    | some new =>
      -- All behind this part has been replaced when its turn comes.
      rw [edits, reverse_cons, foldlM_append]
      rw [text_cons, hbehind]
      have hcut : Span.cut ⟨front.byteSize, front.byteSize + old.byteSize⟩
          (front ++ old ++ result ps) = .ok (front, old, result ps) :=
        Span.cut_eq_ok_iff.2 ⟨rfl, rfl, rfl⟩
      simp only [bind, Except.bind, foldlM_cons, foldlM_nil, Edit.apply,
        hcut, Except.map, pure, Except.pure]
      simp

theorem offset_le_of_mem_edits (h : e ∈ edits offset ps) : offset ≤ e.span.start := by
  induction ps generalizing offset with
  | nil => cases h
  | cons p ps ih =>
    obtain ⟨old, new⟩ := p
    cases new with
    | none => exact Nat.le_trans (Nat.le_add_right _ _) (ih h)
    | some new =>
      rcases mem_cons.1 h with rfl | h
      · exact Nat.le_refl _
      · exact Nat.le_trans (Nat.le_add_right _ _) (ih h)

theorem Proper.pairwise_edits (h : Proper ps) (offset : Nat) :
    (edits offset ps).Pairwise fun a b => a.span.start < b.span.start := by
  induction ps generalizing offset with
  | nil => exact .nil
  | cons p ps ih =>
    have hps := ih fun q hq => h q (mem_cons_of_mem p hq)
    obtain ⟨old, new⟩ := p
    cases new with
    | none => exact hps _
    | some new =>
      refine pairwise_cons.2 ⟨?_, hps _⟩
      intro e he
      have hle := offset_le_of_mem_edits he
      have hpos : 0 < old.byteSize := by
        refine Nat.pos_of_ne_zero fun hzero => ?_
        exact h ⟨old, some new⟩ mem_cons_self rfl (Text.byteSize_eq_zero.1 hzero)
      simp only
      omega

theorem Proper.start_lt_of_mem_edits (h : Proper ps) (he : e ∈ edits offset ps) :
    e.span.start < offset + Text.byteSize (text ps) := by
  induction ps generalizing offset with
  | nil => cases he
  | cons p ps ih =>
    have hps : Proper ps := fun q hq => h q (mem_cons_of_mem p hq)
    obtain ⟨old, new⟩ := p
    rw [text_cons, Text.byteSize_append, ← Nat.add_assoc]
    cases new with
    | none => exact ih hps he
    | some new =>
      rcases mem_cons.1 he with rfl | he
      · have hpos : 0 < old.byteSize := by
          refine Nat.pos_of_ne_zero fun hzero => ?_
          exact h ⟨old, some new⟩ mem_cons_self rfl (Text.byteSize_eq_zero.1 hzero)
        simp only
        omega
      · exact ih hps he

/-- The order of application is from the back to the front. -/
theorem mergeSort_edits
    (hstarts : (edits offset ps).Pairwise fun a b => a.span.start < b.span.start)
    (hperm : es.Perm (edits offset ps)) :
    es.mergeSort Edit.notAfter = (edits offset ps).reverse := by
  refine Edit.mergeSort_notAfter ?_ (hstarts.imp fun hlt => ?_) hperm
  · exact pairwise_map.2 (hstarts.imp fun hlt hspan =>
      Nat.ne_of_lt hlt (congrArg Span.start hspan))
  · simp [Edit.notAfter, hlt]

/-- Edits that replace parts of a text, in whatever order they are given. -/
theorem applyAll_of_perm
    (hstarts : (edits 0 ps).Pairwise fun a b => a.span.start < b.span.start)
    (hperm : es.Perm (edits 0 ps)) : Edit.applyAll (text ps) es = .ok (result ps) := by
  rw [Edit.applyAll, mergeSort_edits hstarts hperm]
  exact foldlM_edits ps []

end Patch

/-- Edits from an offset on that replace parts of a text, and what becomes of it. -/
def Patched (offset : Nat) (edits : List Edit) (t t' : Text) : Prop :=
  ∃ ps, Patch.text ps = t ∧ Patch.edits offset ps = edits ∧ Patch.result ps = t' ∧
    Patch.Proper ps

namespace Patched

variable {edits edits' : List Edit} {t' u u' : Text}

/-- Without edits a text stays as it is. -/
theorem refl (offset : Nat) (t : Text) : Patched offset [] t t :=
  ⟨[⟨t, none⟩], by simp, rfl, by simp, Patch.proper_of_none t⟩

theorem append (ht : Patched offset edits t t')
    (hu : Patched (offset + t.byteSize) edits' u u') :
    Patched offset (edits ++ edits') (t ++ u) (t' ++ u') := by
  obtain ⟨ps, rfl, rfl, rfl, hps⟩ := ht
  obtain ⟨qs, rfl, rfl, rfl, hqs⟩ := hu
  exact ⟨ps ++ qs, by simp, Patch.edits_append .., by simp, hps.append hqs⟩

/-- The edits, in whatever order they are given, with text around what they change. -/
theorem applyAll (h : Patched front.byteSize edits t t') (back : Text)
    (hperm : es.Perm edits) :
    Edit.applyAll (front ++ t ++ back) es = .ok (front ++ t' ++ back) := by
  have hfront : Patched 0 [] front front := .refl 0 front
  rw [← Nat.zero_add front.byteSize] at h
  obtain ⟨ps, htext, hedits, hresult, hproper⟩ := (hfront.append h).append (.refl _ back)
  rw [nil_append, append_nil] at hedits
  rw [← hedits] at hperm
  rw [← htext, ← hresult]
  exact Patch.applyAll_of_perm (hproper.pairwise_edits 0) hperm

/-- The edits, and something put in behind what they change. -/
theorem applyAll_insertion (h : Patched front.byteSize edits t t') (back : Text)
    (hperm : es.Perm (edits ++ [Edit.insertion (front ++ t).byteSize new])) :
    Edit.applyAll (front ++ t ++ back) es = .ok (front ++ t' ++ new ++ back) := by
  have hfront : Patched 0 [] front front := .refl 0 front
  rw [← Nat.zero_add front.byteSize] at h
  obtain ⟨ps, htext, hedits, hresult, hproper⟩ := hfront.append h
  rw [nil_append] at hedits
  have hall : Patch.edits 0 (ps ++ [⟨[], some new⟩, ⟨back, none⟩]) =
      edits ++ [Edit.insertion (front ++ t).byteSize new] := by
    rw [Patch.edits_append, hedits, htext, Nat.zero_add]
    rfl
  have hstarts : (Patch.edits 0 (ps ++ [⟨[], some new⟩, ⟨back, none⟩])).Pairwise
      fun a b => a.span.start < b.span.start := by
    rw [hall, ← hedits]
    refine pairwise_append.2 ⟨hproper.pairwise_edits 0, pairwise_singleton _ _, ?_⟩
    intro e he d hd
    have hlt := hproper.start_lt_of_mem_edits he
    rw [htext, Nat.zero_add] at hlt
    rw [mem_singleton.1 hd]
    exact hlt
  rw [← hall] at hperm
  have happly := Patch.applyAll_of_perm hstarts hperm
  rw [Patch.text_append, Patch.result_append, htext, hresult] at happly
  simpa using happly

end Patched

namespace Edit

@[simp] theorem applyAll_nil (t : Text) : applyAll t [] = .ok t := by
  rw [applyAll, mergeSort_nil]
  rfl

theorem apply_append_right (h : e.apply t = .ok r) (u : Text) :
    e.apply (t ++ u) = .ok (r ++ u) := by
  unfold apply at h ⊢
  cases hcut : e.span.cut t with
  | error err =>
    rw [hcut] at h
    cases h
  | ok p =>
    obtain ⟨a, b, c⟩ := p
    obtain ⟨rfl, hstart, hstop⟩ := Span.cut_eq_ok_iff.1 hcut
    rw [hcut] at h
    cases h
    rw [Span.cut_eq_ok_iff.2 ⟨(append_assoc _ c u), hstart, hstop⟩]
    simp [Except.map]

/-- Edits of the front of a text leave what is behind it. -/
theorem applyAll_append_right (h : applyAll t es = .ok r) (u : Text) :
    applyAll (t ++ u) es = .ok (r ++ u) := by
  unfold applyAll at h ⊢
  generalize es.mergeSort notAfter = sorted at h ⊢
  induction sorted generalizing t with
  | nil =>
    cases h
    rfl
  | cons e es ih =>
    rw [foldlM_cons] at h ⊢
    cases happly : e.apply t with
    | error err =>
      rw [happly] at h
      cases h
    | ok t' =>
      rw [happly] at h
      rw [apply_append_right happly u]
      exact ih h

end Edit

/-! ### Rows that are changed one by one -/

namespace Row

/-- The rows that hold a statement, with the statement. -/
def paired (i : Nat) (here : Position) : List Row → List (Statement × Row)
  | [] => []
  | r :: rs =>
    (r.statementAt i here).map (fun st => (st, r)) ++
      paired (i + (kinds false r.pieces).length) (here.advance (textOf r.pieces)) rs

/-- Rows in which each that holds a statement is changed. -/
def remap (g : Statement → Row → Row) (i : Nat) (here : Position) : List Row → List Row
  | [] => []
  | r :: rs =>
    (((r.statementAt i here).head?.map fun st => g st r).getD r) ::
      remap g (i + (kinds false r.pieces).length) (here.advance (textOf r.pieces)) rs

theorem map_fst_paired (i : Nat) (here : Position) (rows : List Row) :
    (paired i here rows).map Prod.fst = placed i here rows := by
  induction rows generalizing i here with
  | nil => rfl
  | cons r rs ih => simp [paired, placed, ih, Function.comp_def]

theorem map_body_paired (i : Nat) (here : Position) (rows : List Row) :
    (paired i here rows).map (fun p => p.2.body) = bodies rows := by
  induction rows generalizing i here with
  | nil => rfl
  | cons r rs ih =>
    rw [paired, map_append, ih, bodies_cons, statementAt]
    by_cases hnil : r.body = [] <;> simp [hnil]

/-- What holds of statements and the pieces of their rows. -/
theorem forall_paired_of_forall₂ {R : Statement → List Piece → Prop}
    (h : Forall₂ R (placed i here rows) (bodies rows)) :
    ∀ q ∈ paired i here rows, R q.1 q.2.body := by
  rw [← map_fst_paired, ← map_body_paired i here, forall₂_map_left_iff,
    forall₂_map_right_iff, forall₂_same] at h
  exact h

/-- A statement in the first row, or none. -/
theorem statementAt_cases (i : Nat) (here : Position) (r : Row) :
    (r.body = [] ∧ r.statementAt i here = []) ∨
      ∃ st, r.body ≠ [] ∧ r.statementAt i here = [st] ∧ st.span.start = here.offset := by
  unfold statementAt
  by_cases hnil : r.body = []
  · exact .inl ⟨hnil, if_pos hnil⟩
  · exact .inr ⟨_, hnil, if_neg hnil, rfl⟩

end Row

/-- Replacing a statement and a part of the gap behind it. -/
theorem patched_replaced {st : Statement} {r r' : Row} (hbody : textOf r.body ≠ [])
    (hstop : st.span.stop = st.span.start + Text.byteSize (textOf r.body))
    {gone kept : List Piece} (hgap : r.gap = gone ++ kept)
    (htext : textOf r'.pieces = new ++ textOf kept) :
    Patched st.span.start
      [⟨⟨st.span.start, st.span.stop + Text.byteSize (textOf gone)⟩, new⟩]
      (textOf r.pieces) (textOf r'.pieces) := by
  refine ⟨[⟨textOf (r.body ++ gone), some new⟩, ⟨textOf kept, none⟩], ?_, ?_, ?_, ?_⟩
  · simp [Row.pieces, hgap]
  · simp only [Patch.edits, textOf_append, Text.byteSize_append, hstop, Nat.add_assoc]
  · simp [htext]
  · intro q hq hsome
    rcases mem_cons.1 hq with rfl | hq
    · rw [textOf_append]
      exact fun hnil => hbody (append_eq_nil_iff.1 hnil).1
    · rw [mem_singleton.1 hq] at hsome
      cases hsome

/-- The edits of a statement turn its row into another one. -/
structure Turns (edits : List Edit) (st : Statement) (r r' : Row) : Prop where
  patch : Patched st.span.start edits (textOf r.pieces) (textOf r'.pieces)
  sound : r'.Sound

namespace Row

variable {g : Statement → Row → Row} {E : Statement → List Edit}

/-- Edits that change rows one by one change the text of the rows. -/
theorem patched_remap {rows : List Row} {i : Nat} {here : Position}
    (h : ∀ p ∈ paired i here rows,
      Patched p.1.span.start (E p.1) (textOf p.2.pieces) (textOf (g p.1 p.2).pieces)) :
    Patched here.offset ((placed i here rows).flatMap E) (textOf (flatten rows))
      (textOf (flatten (remap g i here rows))) := by
  induction rows generalizing i here with
  | nil => exact .refl _ _
  | cons r rs ih =>
    have hrest := ih fun p hp => h p (mem_append_right _ hp)
    rw [Position.offset_advance] at hrest
    rw [placed, flatMap_append, remap, flatten_cons, flatten_cons, textOf_append,
      textOf_append]
    refine Patched.append ?_ hrest
    rcases statementAt_cases i here r with ⟨-, hnone⟩ | ⟨st, -, hone, hstart⟩
    · rw [hnone]
      exact .refl _ _
    · have hst := h (st, r) (by simp [paired, hone])
      rw [hstart] at hst
      simpa [hone] using hst

/-- What holds of the rows and of all that they turn into. -/
theorem forall_remap {P : Row → Prop} (hrows : ∀ r ∈ rows, P r)
    (h : ∀ p ∈ paired i here rows, P (g p.1 p.2)) : ∀ r ∈ remap g i here rows, P r := by
  induction rows generalizing i here with
  | nil => exact fun r hr => by cases hr
  | cons r rs ih =>
    intro q hq
    rw [remap] at hq
    rcases mem_cons.1 hq with rfl | hq
    · rcases statementAt_cases i here r with ⟨-, hnone⟩ | ⟨st, -, hone, -⟩
      · rw [hnone]
        exact hrows r mem_cons_self
      · rw [hone]
        exact h (st, r) (by simp [paired, hone])
    · exact ih (fun r' hr' => hrows r' (mem_cons_of_mem r hr'))
        (fun p hp => h p (mem_append_right _ hp)) q hq

theorem sound_remap (hrows : ∀ r ∈ rows, r.Sound)
    (h : ∀ p ∈ paired i here rows, Turns (E p.1) p.1 p.2 (g p.1 p.2)) :
    ∀ r ∈ remap g i here rows, r.Sound :=
  forall_remap hrows fun p hp => (h p hp).sound

theorem bodies_remap (g : Statement → Row → Row) (i : Nat) (here : Position)
    (rows : List Row) :
    bodies (remap g i here rows) =
      ((paired i here rows).map fun p => (g p.1 p.2).body).filter fun b => !b.isEmpty := by
  induction rows generalizing i here with
  | nil => rfl
  | cons r rs ih =>
    rw [remap, bodies_cons, ih, paired, map_append, filter_append]
    congr 1
    rcases statementAt_cases i here r with ⟨hnil, hnone⟩ | ⟨st, -, hone, -⟩
    · simp [hnone, hnil]
    · rw [hone]
      cases hbody : (g st r).body <;> simp [hbody]

/-- Edits of the statements in rows, with text around the rows. -/
theorem applyAll_remap {back : Text} (hhere : here.offset = front.byteSize)
    (h : ∀ p ∈ paired i here rows, Turns (E p.1) p.1 p.2 (g p.1 p.2))
    (hperm : es.Perm ((placed i here rows).flatMap E)) :
    Edit.applyAll (front ++ textOf (flatten rows) ++ back) es =
      .ok (front ++ textOf (flatten (remap g i here rows)) ++ back) := by
  have hpatched := patched_remap fun p hp => (h p hp).patch
  rw [hhere] at hpatched
  exact hpatched.applyAll back hperm

end Row

/-- Edits of the statements of a text that is made of rows. -/
theorem applyAll_laid (hrows : ∀ r ∈ rows, r.Sound)
    (hflat : Row.flatten rows = Lexer.pieces t ++ [lineEnd]) {g : Statement → Row → Row}
    {E : Statement → List Edit}
    (h : ∀ p ∈ Row.paired 0 .start rows, Turns (E p.1) p.1 p.2 (g p.1 p.2))
    (hperm : es.Perm ((Source.ofText t).statements.flatMap E))
    (hr : Edit.applyAll t es = .ok r) :
    (∀ r ∈ Row.remap g 0 .start rows, Row.Sound r) ∧
      textOf (Row.flatten (Row.remap g 0 .start rows)) = r ++ ['\n'] := by
  have hstatements : (Source.ofText t).statements = Row.placed 0 .start rows := by
    rw [Source.statements_eq_split, ← hflat, Source.split_rows_nil (Row.ended_of_sound hrows)]
  rw [hstatements] at hperm
  have happly : Edit.applyAll ([] ++ textOf (Row.flatten rows) ++ []) es =
      .ok ([] ++ textOf (Row.flatten (Row.remap g 0 .start rows)) ++ []) :=
    Row.applyAll_remap rfl h hperm
  have htext : textOf (Row.flatten rows) = t ++ ['\n'] := by
    rw [hflat, textOf_append, textOf_pieces]
    rfl
  rw [nil_append, append_nil, htext, Edit.applyAll_append_right hr] at happly
  refine ⟨Row.sound_remap hrows h, ?_⟩
  simpa using (Except.ok.inj happly).symm

end Notebook
