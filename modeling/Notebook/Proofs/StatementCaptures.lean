import Notebook.Proofs.BindingTokens
import Notebook.Proofs.FirstWrites

/-!
# What a program stores, statement by statement

A plan is made from the text of a whole program, but what it captures is the sum of what the
statements of the entry function capture, in their order, and each statement captures the same
wherever it stands.  So the stored names of a program are known from the statements that it is
made of: a name stands where it is first captured, with the function literal that it has
there.

## Main statements

* `Statement.Spells.captures_eq`: the captures of a statement of a source
* `planPersistence_framed`: the plan of a program around rows
-/

namespace Notebook

open Lexer List

variable {b : Binding} {bodies : List (List Piece)} {sts : List Statement} {s : Source}
  {before behind t : Text}

/-- A name, with the source of the function literal that it holds. -/
abbrev NamedLiteral := Text × Option Text

/-- The name and the function literal of a capture. -/
def Capture.named (c : Capture) : NamedLiteral :=
  (c.name, c.literal)

/-- The names that the pieces of a statement capture. -/
def capturesOf (body : List Piece) : List NamedLiteral :=
  (Source.bindingsOf (scan .start false body)).filterMap fun b =>
    (PersistencePlan.captured (.ofText (textOf body)) b).map Capture.named

/-- Whether the pieces of a statement are a storing call. -/
def storesValue (body : List Piece) : Bool :=
  Source.startsPersistence (scan .start false body) &&
    (kinds false body).getLast? == some (.closing .paren)

/-- The first entry under each name. -/
def firstNamed : List NamedLiteral → List NamedLiteral
  | [] => []
  | p :: ps => p :: (firstNamed ps).filter (·.1 ≠ p.1)

/-- The function literals among entries. -/
def literalsOf (ps : List NamedLiteral) : Literals :=
  ps.filterMap fun p => p.2.map fun l => (p.1, l)

/-! ### The first entry under each name -/

theorem mem_of_mem_firstNamed {ps : List NamedLiteral} {p : NamedLiteral}
    (h : p ∈ firstNamed ps) :
    p ∈ ps := by
  induction ps with
  | nil => exact h
  | cons q ps ih =>
    rcases mem_cons.1 h with rfl | h
    · exact mem_cons_self
    · exact mem_cons_of_mem q (ih (mem_filter.1 h).1)

theorem firstNamed_append (ps qs : List NamedLiteral) :
    firstNamed (ps ++ qs) =
      firstNamed ps ++ (firstNamed qs).filter fun q => q.1 ∉ ps.map Prod.fst := by
  induction ps with
  | nil => simp [firstNamed]
  | cons p ps ih =>
    simp only [cons_append, firstNamed, ih, filter_append, filter_filter]
    congr 3
    funext q
    simp only [map_cons, mem_cons, not_or, Bool.decide_and]

/-- Entries under distinct names are all first. -/
theorem firstNamed_of_nodup {ps : List NamedLiteral} (h : (ps.map Prod.fst).Nodup) :
    firstNamed ps = ps := by
  induction ps with
  | nil => rfl
  | cons p ps ih =>
    rw [map_cons, nodup_cons] at h
    rw [firstNamed, ih h.2, filter_eq_self.2]
    intro q hq
    have hne : q.1 ≠ p.1 := fun heq => h.1 (heq ▸ mem_map_of_mem hq)
    simpa using hne

theorem nodup_firstNamed (ps : List NamedLiteral) : ((firstNamed ps).map Prod.fst).Nodup := by
  induction ps with
  | nil => exact nodup_nil
  | cons p ps ih =>
    rw [firstNamed, map_cons, nodup_cons]
    refine ⟨?_, ih.sublist (filter_sublist.map _)⟩
    intro hmem
    obtain ⟨q, hq, heq⟩ := mem_map.1 hmem
    have := (mem_filter.1 hq).2
    simp [heq] at this

/-- The captures that are kept are the first under their names. -/
theorem map_named_firstOfEach (seen : List Text) (cs : List Capture) :
    (PersistencePlan.firstOfEach seen cs).map Capture.named =
      (firstNamed (cs.map Capture.named)).filter fun p => p.1 ∉ seen := by
  induction cs generalizing seen with
  | nil => rfl
  | cons c cs ih =>
    obtain ⟨name, pos, literal⟩ := c
    have hnamed : Capture.named ⟨name, pos, literal⟩ = (name, literal) := rfl
    rw [PersistencePlan.firstOfEach, map_cons, hnamed, firstNamed]
    by_cases hseen : name ∈ seen
    · rw [if_pos hseen, ih, filter_cons_of_neg (by simpa using hseen),
        filter_filter]
      refine filter_congr fun p _ => ?_
      by_cases hp : p.1 ∈ seen
      · simp [hp]
      · have hne : p.1 ≠ name := fun heq => hp (heq ▸ hseen)
        simp [hp, hne]
    · rw [if_neg hseen, map_cons, hnamed, ih,
        filter_cons_of_pos (by simpa using hseen), filter_filter]
      congr 1
      refine filter_congr fun p _ => ?_
      simp

/-! ### Captures of a statement -/

/-- A part of a text is read alike in the text. -/
theorem Span.slice_move {v : Span} (h : v.Fits t) (before behind : Text) :
    (v.move before.byteSize).slice (before ++ t ++ behind) = v.slice t := by
  obtain ⟨⟨a, m, c⟩, hcut⟩ := fits_iff.1 h
  obtain ⟨rfl, hstart, hstop⟩ := cut_eq_ok_iff.1 hcut
  have hmoved : (v.move before.byteSize).cut (before ++ (a ++ m ++ c) ++ behind) =
      .ok (before ++ a, m, c ++ behind) :=
    cut_eq_ok_iff.2 ⟨by simp, by simp [move, hstart], by simp [move, hstop, Nat.add_assoc]⟩
  rw [slice, slice, hcut, hmoved]
  rfl

/-- A binding captures the same in another place. -/
theorem captured_move (hb : b.FitsIn t) (htext : s.text = before ++ t ++ behind) :
    (PersistencePlan.captured s (b.move before.byteSize)).map Capture.named =
      (PersistencePlan.captured (.ofText t) b).map Capture.named := by
  unfold PersistencePlan.captured PersistencePlan.capture?
  dsimp only [Binding.move]
  by_cases hblank : b.name = blankName
  · simp only [hblank, if_true]
  · simp only [hblank, if_false]
    cases hvalue : b.value with
    | none => cases b.rhs <;> rfl
    | some v =>
      obtain ⟨text, hread⟩ := (hb.value v hvalue).slice
      have hown : (Source.ofText t).slice v = .ok text := hread
      have hslice : s.slice (v.move before.byteSize) = .ok text := by
        rw [Source.slice, htext, Span.slice_move (hb.value v hvalue) before behind, hread]
      simp only [Option.map_some, hslice, hown, bind, Except.bind]
      by_cases hnil : text.trim = "nil".toList
      · simp only [hnil, if_true]
      · simp only [hnil, if_false]
        rfl

namespace Source

theorem bindingsOf_fit {ts : List Token} (h : Placed t ts) (hb : b ∈ bindingsOf ts) :
    b.FitsIn t := by
  unfold bindingsOf at hb
  split at hb
  · cases hb
  next a us =>
    have hdeclaration : b ∈ declarationBindings us → b.FitsIn t := by
      intro hb
      have hus : us.Sublist (a :: us) := sublist_cons_self a us
      unfold declarationBindings at hb
      cases us with
      | nil => exact (readOff_of_mem_specBindings hb).fitsIn (Placed.nil t)
      | cons u vs =>
        simp only at hb
        split at hb
        · split at hb
          · cases hb
          · obtain ⟨spec, -, hb⟩ := mem_flatMap.1 hb
            refine (readOff_of_mem_specBindings hb).fitsIn (h.sublist ?_)
            exact ((take_sublist _ _).trans (drop_sublist _ _)).trans
              ((take_sublist _ _).trans ((sublist_cons_self u vs).trans hus))
        · exact (readOff_of_mem_specBindings hb).fitsIn (h.sublist hus)
    split at hb
    · exact hdeclaration hb
    · exact hdeclaration hb
    · exact (readOff_of_mem_assignmentBindings hb).fitsIn h

end Source

/-- The tokens of pieces that are read back stand in their text. -/
theorem Lexer.Lexed.placed_scan {ps : List Piece} (h : Lexed ps) :
    Placed (textOf ps) (scan .start false ps) := by
  refine (tokenize_placed (textOf ps)).sublist ?_
  rw [tokenize_eq, h]
  exact sublist_append_left _ _

namespace Statement.Spells

variable {st : Statement} {body : List Piece}

/-- The text around a statement. -/
theorem exists_text (h : st.Spells s body) :
    ∃ before behind, s.text = before ++ textOf body ++ behind ∧
      st.span.start = before.byteSize := by
  have htext := h.text
  rw [Source.statementText, Source.slice, Span.slice] at htext
  obtain ⟨⟨before, mid, behind⟩, hcut, hmid⟩ := Checked.map_eq_ok.1 htext
  obtain ⟨heq, hstart, -⟩ := Span.cut_eq_ok_iff.1 hcut
  simp only at hmid
  subst hmid
  exact ⟨before, behind, heq, hstart⟩

/-- A statement captures what its pieces capture. -/
theorem captures_eq (h : st.Spells s body) (hlexed : Lexed body) :
    ((s.bindings st).filterMap fun b => (PersistencePlan.captured s b).map Capture.named) =
      capturesOf body := by
  obtain ⟨before, behind, htext, hstart⟩ := h.exists_text
  obtain ⟨here, htokens, hspan⟩ := h.tokensOf_eq
  have hoffset : here.offset = before.byteSize := by
    rw [← hstart, hspan]
  rw [h.bindings_eq, htokens, scan_eq_map, Source.bindingsOf_move,
    filterMap_map, capturesOf]
  refine filterMap_congr fun b hb => ?_
  rw [Function.comp_apply, hoffset]
  exact captured_move (Source.bindingsOf_fit hlexed.placed_scan hb) htext

/-- A statement is a storing call if its pieces are. -/
theorem isPersistence_eq (h : st.Spells s body) : s.isPersistence st = storesValue body := by
  obtain ⟨here, semi, rest, htokens, hsemi, -⟩ := h.tokens
  have hstarts : Source.startsPersistence (s.tokens.drop st.first) =
      Source.startsPersistence (scan .start false body) := by
    rw [htokens, scan_eq_map]
    cases hscan : scan .start false body with
    | nil =>
      obtain ⟨a, ts, -, hcons, -⟩ := h.isStatement.scan_eq .start
      rw [hscan] at hcons
      cases hcons
    | cons a ts =>
      cases ts with
      | nil => simp [Source.startsPersistence, hsemi]
      | cons b ts => rfl
  rw [Source.isPersistence, storesValue, hstarts, h.kindAt_last]
  rfl

end Statement.Spells

/-! ### The plan of a program -/

/-- The captures of statements, from the pieces that spell them. -/
theorem captures_of_spells (h : Forall₂ (fun st body => st.Spells s body) sts bodies)
    (hlexed : ∀ b ∈ bodies, Lexed b) :
    ((sts.flatMap s.bindings).filterMap fun b =>
      (PersistencePlan.captured s b).map Capture.named) =
      bodies.flatMap capturesOf := by
  induction h with
  | nil => rfl
  | @cons st body sts bodies hst _ ih =>
    rw [flatMap_cons, filterMap_append, flatMap_cons,
      hst.captures_eq (hlexed body mem_cons_self),
      ih fun b hb => hlexed b (mem_cons_of_mem body hb)]

/-- The bindings of statements that follow one another stand in their order. -/
theorem pairwise_pos_bindings (h : Forall₂ (fun st body => st.Spells s body) sts bodies)
    (hordered : sts.Pairwise Statement.Precedes) :
    (sts.flatMap s.bindings).Pairwise fun a b => a.pos ≤ b.pos := by
  have hspells : ∀ st ∈ sts, ∃ body, st.Spells s body := by
    clear hordered
    induction h with
    | nil => exact fun st hst => by cases hst
    | cons hst _ ih =>
      exact forall_mem_cons.2 ⟨⟨_, hst⟩, ih⟩
  have hnamed : Source.NamedIn (sts.flatMap s.bindings) s.tokens := by
    refine Source.NamedIn.flatMap (r := Statement.range) ?_ ?_
      (hordered.imp fun hlt => hlt.last_lt)
    · intro st hst
      obtain ⟨body, hbody⟩ := hspells st hst
      rw [hbody.bindings_eq]
      exact Source.namedIn_bindingsOf _
    · intro st hst
      obtain ⟨body, hbody⟩ := hspells st hst
      obtain ⟨a, ts, -, hscan, -⟩ := hbody.isStatement.scan_eq .start
      have hlast := hbody.last
      rw [← length_scan .start, hscan, length_cons] at hlast
      simp only [Statement.range]
      omega
  exact hnamed.pairwise_pos s.placed

/-- Captures of bindings that stand in order are not moved by sorting. -/
theorem captures_eq_firstOfEach (hstands : ∀ st ∈ sts, st.StandsIn s.tokens)
    (hordered : (sts.flatMap s.bindings).Pairwise fun a b => a.pos ≤ b.pos) :
    PersistencePlan.captures s sts = .ok (PersistencePlan.firstOfEach []
      ((sts.flatMap s.bindings).filterMap (PersistencePlan.captured s))) := by
  obtain ⟨found, hfound⟩ := PersistencePlan.captures_ok hstands
  rw [PersistencePlan.captures_eq hstands] at hfound ⊢
  obtain ⟨os, hos, hsorted⟩ := Checked.bind_eq_ok.1 hfound
  rw [hfound, ← hsorted, PersistencePlan.filterMap_captured hos]
  have hpos : ((sts.flatMap s.bindings).filterMap (PersistencePlan.captured s)).Pairwise
      fun a b => decide (a.pos ≤ b.pos) = true := by
    refine List.Pairwise.filterMap _ ?_ hordered
    intro a b hab c hc d hd
    rw [(PersistencePlan.capture?_name_pos (PersistencePlan.captured_eq_some_iff.1 hc)).2,
      (PersistencePlan.capture?_name_pos (PersistencePlan.captured_eq_some_iff.1 hd)).2]
    simpa using hab
  have hsort := mergeSort_of_pairwise
    (hpos.sublist (PersistencePlan.firstOfEach_sublist [] _))
  exact congrArg Except.ok hsort

theorem applyAll_insertion (text : Text) :
    Edit.applyAll (before ++ behind) [Edit.insertion before.byteSize text] =
      .ok (before ++ text ++ behind) := by
  have hcut : Span.cut ⟨before.byteSize, before.byteSize⟩ (before ++ behind) =
      .ok (before, [], behind) :=
    Span.cut_eq_ok_iff.2 ⟨by simp, rfl, rfl⟩
  rw [Edit.applyAll, mergeSort_singleton]
  simp only [foldlM_cons, foldlM_nil, Edit.apply, Edit.insertion, hcut]
  rfl

/-- The plan of a program without storing calls, when its bindings stand in order. -/
theorem planPersistence_of_ordered {program : Text} {entry : EntryPoint}
    (hentry : (Source.ofText program).entryPoint = some entry)
    (hcalls : ∀ st ∈ (Source.ofText program).bodyStatements entry,
      (Source.ofText program).isPersistence st = false)
    (hordered : (((Source.ofText program).bodyStatements entry).flatMap
      (Source.ofText program).bindings).Pairwise fun a b => a.pos ≤ b.pos)
    {kept : List Capture}
    (hkept : PersistencePlan.firstOfEach []
      ((((Source.ofText program).bodyStatements entry).flatMap
        (Source.ofText program).bindings).filterMap
          (PersistencePlan.captured (.ofText program))) = kept) :
    ∃ text, Edit.applyAll program
        [Edit.insertion entry.bodyStop (PersistencePlan.tail [] kept)] = .ok text ∧
      planPersistence program =
        .ok (some ⟨text, kept.map (·.name), literalsOf (kept.map Capture.named)⟩) := by
  let s := Source.ofText program
  have hcallsNil : (s.bodyStatements entry).filter s.isPersistence = [] := by
    rw [filter_eq_nil_iff]
    intro st hst
    simp [s, hcalls st hst]
  have hall : (s.bodyStatements entry).filter (fun st => !s.isPersistence st) =
      s.bodyStatements entry := by
    rw [filter_eq_self]
    intro st hst
    simp [s, hcalls st hst]
  have hfindings : PersistencePlan.findings s entry = .ok ⟨[], kept⟩ := by
    have hmapM : ([] : List Statement).mapM (PersistencePlan.existing s) = .ok [] := rfl
    rw [PersistencePlan.findings_eq hentry, hcallsNil, hall, hmapM, Checked.ok_bind]
    have hstands : ∀ st ∈ s.bodyStatements entry, st.StandsIn s.tokens :=
      fun st hst => (Source.standsIn_of_mem hst).1
    rw [captures_eq_firstOfEach hstands hordered, hkept]
    rfl
  obtain ⟨found, hfound, hfit⟩ := PersistencePlan.findings_fit hentry
  obtain rfl : ⟨[], kept⟩ = found := Except.ok.inj (hfindings.symm.trans hfound)
  obtain ⟨text, htext⟩ := hfit.applyAll
  refine ⟨text, htext, ?_⟩
  rw [PersistencePlan.planPersistence_of_findings hentry hfound htext]
  simp only [PersistencePlan.storedNames, PersistencePlan.Findings.stored,
    PersistencePlan.Findings.literals, literalsOf, filterMap_map]
  rfl

/-- A program around rows without storing calls stores the names that its rows capture, each
where it is first captured and with the function literal that it has there.  The calls that
store them stand behind the rows. -/
theorem planPersistence_framed {front : Text} (hfront : IsFront front) {rows : List Row}
    (hrows : ∀ r ∈ rows, r.Sound) (hcalls : ∀ b ∈ Row.bodies rows, storesValue b = false) :
    ∃ plan, planPersistence (framed front rows) = .ok (some plan) ∧
      (∃ calls, plan.program =
        front ++ entryOpening ++ textOf (Row.flatten rows) ++ calls ++ "\x7d\n") ∧
      plan.names = (firstNamed ((Row.bodies rows).flatMap capturesOf)).map Prod.fst ∧
      plan.literals = literalsOf (firstNamed ((Row.bodies rows).flatMap capturesOf)) := by
  let s := Source.ofText (framed front rows)
  let entry := framedEntry front rows
  have hspells := spells_framed hfront hrows
  have hlexed : ∀ b ∈ Row.bodies rows, Lexed b := by
    intro b hb
    exact ((Laid.of_rows hrows).lexed_of_mem hb).1
  have hnone : ∀ st ∈ s.bodyStatements entry, s.isPersistence st = false := by
    intro st hst
    obtain ⟨body, hbody, hspelled⟩ := exists_of_forall₂ hspells.flip hst
    rw [hspelled.isPersistence_eq]
    exact hcalls body hbody
  obtain ⟨text, htext, hplan⟩ :=
    planPersistence_of_ordered (entryPoint_framed hfront hrows) hnone
      (pairwise_pos_bindings hspells (s.pairwise_precedes _ _)) rfl
  refine ⟨_, hplan, ⟨_, Except.ok.inj (htext.symm.trans (applyAll_insertion _))⟩, ?_⟩
  have hnamed : (PersistencePlan.firstOfEach [] (((s.bodyStatements entry).flatMap
      s.bindings).filterMap (PersistencePlan.captured s))).map Capture.named =
      firstNamed ((Row.bodies rows).flatMap capturesOf) := by
    rw [map_named_firstOfEach, map_filterMap, captures_of_spells hspells hlexed]
    simp
  rw [← hnamed, map_map]
  exact ⟨rfl, rfl⟩

end Notebook
