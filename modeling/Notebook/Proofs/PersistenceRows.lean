import Notebook.Proofs.DiscardRows

/-!
# Plans of programs made of rows

The plan of a program takes the storing calls out of their rows and puts lines in front of the
bracket that closes the entry function: the calls that store something, and one for every
captured name that has none.  What it does is seen in the pieces of the rows: which of them
are storing calls, what these store, and what the other ones capture.
-/

namespace Notebook

open Lexer List PersistencePlan

variable {body : List Piece} {rows : List Row} {s : Source}

/-! ### Storing calls -/

/-- The name that the pieces of a storing call store. -/
def storedName? (body : List Piece) : Option Text :=
  persistedName? (((scan .start false body).drop 2).take ((kinds false body).length - 3))

/-- The storing calls among statements that store something, by its name. -/
def storedCalls (bodies : List (List Piece)) : List (Text × Text) :=
  (bodies.filter storesValue).filterMap fun b => (storedName? b).map fun n => (n, textOf b)

/-- What the other statements capture. -/
def capturedEntries (bodies : List (List Piece)) : List NamedLiteral :=
  firstNamed ((bodies.filter fun b => !storesValue b).flatMap capturesOf)

/-- The lines that a plan puts at the end: the calls that store something, and one for every
other captured name. -/
def plannedLines (bodies : List (List Piece)) : List Text :=
  (storedCalls bodies).map Prod.snd ++
    (((capturedEntries bodies).map Prod.fst).filter
      (· ∉ (storedCalls bodies).map Prod.fst)).map persistenceCall

theorem persistedName?_move (here : Position) (args : List Token) :
    persistedName? (args.map (Token.move here)) = persistedName? args := by
  unfold persistedName?
  rw [any_map, filter_map, filter_map, getLast?_map, findSome?_map]
  simp only [Function.comp_def, Token.isIdent, Token.move]
  cases (args.filter fun t => t.kind == .ident).getLast? <;> rfl

/-- A storing call has a name, and a parenthesis on both sides. -/
theorem length_of_storesValue (h : storesValue body = true) :
    3 ≤ (kinds false body).length := by
  obtain ⟨hstarts, hlast⟩ := Bool.and_eq_true_iff.1 h
  rw [← map_kind_scan .start] at hlast
  rw [← length_scan .start]
  cases hscan : scan .start false body with
  | nil =>
    rw [hscan] at hstarts
    cases hstarts
  | cons f ts =>
    cases ts with
    | nil =>
      rw [hscan] at hstarts
      cases hstarts
    | cons l ts =>
      cases ts with
      | nil =>
        -- The last of two would open the parenthesis and close it.
        rw [hscan] at hstarts hlast
        simp only [Source.startsPersistence, Bool.and_eq_true, beq_iff_eq] at hstarts
        simp [hstarts.2] at hlast
      | cons c ts =>
        simp only [length_cons]
        omega

/-- A storing call of a program is read off its pieces. -/
theorem Statement.Spells.existing_eq {st : Statement} (h : st.Spells s body)
    (hstores : storesValue body = true) :
    existing s st = .ok ⟨st.span, textOf body, storedName? body⟩ := by
  obtain ⟨here, semi, rest, htokens, -, -⟩ := h.tokens
  have hlength := length_of_storesValue hstores
  have hlast : st.last - (st.first + 2) = (kinds false body).length - 3 := by
    have := h.last
    omega
  have hargs : (s.tokens.drop (st.first + 2)).take (st.last - (st.first + 2)) =
      (((scan .start false body).drop 2).take ((kinds false body).length - 3)).map
        (Token.move here) := by
    rw [← length_scan .start] at hlength
    rw [hlast, ← drop_drop, htokens, scan_eq_map, map_take, map_drop,
      drop_append_of_le_length (by simp; omega), take_append_of_le_length]
    rw [← length_scan .start]
    simp
    omega
  have hin : st.last < s.tokens.length := by
    have hdrop := congrArg List.length htokens
    have hrange := h.last
    rw [length_drop, length_append, length_scan, length_cons] at hdrop
    omega
  rw [PersistencePlan.existing_eq hin, h.text, hargs]
  show Except.ok (Existing.mk _ _ (persistedName? _)) = _
  rw [persistedName?_move, storedName?]

/-! ### Rows without storing calls -/

namespace Row

/-- A row without its storing call. -/
def unstored (r : Row) : Row :=
  if storesValue r.body then ⟨[], r.gap⟩ else r

theorem unstored_of_nil {r : Row} (h : r.body = []) : r.unstored = r := by
  rw [unstored, h]
  rfl

theorem Ended.unstored {r : Row} (h : r.Ended) : r.unstored.Ended := by
  rw [Row.unstored]
  split
  · exact h.shortened (nil_append _).symm
  · exact h

theorem bodies_unstored (rows : List Row) :
    bodies (rows.map unstored) = (bodies rows).filter fun b => !storesValue b := by
  induction rows with
  | nil => rfl
  | cons r rs ih =>
    rw [map_cons, bodies_cons, bodies_cons, ih, filter_append]
    by_cases hnil : r.body = []
    · rw [unstored_of_nil hnil, if_pos hnil]
      rfl
    · cases hstores : storesValue r.body <;> simp [unstored, hstores, hnil]

theorem exists_of_mem_bodies {b : List Piece} (h : b ∈ bodies rows) :
    ∃ r ∈ rows, b ≠ [] ∧ r.body = b := by
  obtain ⟨hb, hne⟩ := mem_filter.1 h
  obtain ⟨r, hr, rfl⟩ := mem_map.1 hb
  exact ⟨r, hr, by simpa using hne, rfl⟩

/-- Rows that are changed alike wherever they stand. -/
theorem remap_eq_map {f : Row → Row} (h : ∀ r, r.body = [] → f r = r) (i : Nat)
    (here : Position) (rows : List Row) :
    remap (fun _ r => f r) i here rows = rows.map f := by
  induction rows generalizing i here with
  | nil => rfl
  | cons r rs ih =>
    rw [remap, ih, map_cons]
    rcases statementAt_cases i here r with ⟨hnil, hnone⟩ | ⟨st, -, hone, -⟩
    · rw [hnone, h r hnil]
      rfl
    · rw [hone]
      rfl

/-- Taking storing calls out of rows. -/
theorem patched_unstored (hrows : ∀ r ∈ rows, r.Ended) {i : Nat} {here : Position}
    (hspells : ∀ q ∈ paired i here rows, q.1.Spells s q.2.body) :
    Patched here.offset (((placed i here rows).filter s.isPersistence).map fun st =>
        Edit.deletion st.span) (textOf (flatten rows))
          (textOf (flatten (rows.map unstored))) := by
  have hedits : ((placed i here rows).filter s.isPersistence).map
    (fun st => Edit.deletion st.span) =
      (placed i here rows).flatMap fun st =>
        if s.isPersistence st then [Edit.deletion st.span] else [] := by
    induction placed i here rows with
    | nil => rfl
    | cons st sts ih =>
      rw [flatMap_cons, ← ih]
      cases hst : s.isPersistence st <;> simp [hst]
  rw [hedits, ← remap_eq_map (fun r => unstored_of_nil) i here]
  refine patched_remap fun q hq => ?_
  obtain ⟨hmem, hne, hstop⟩ := of_mem_paired hq
  rw [(hspells q hq).isPersistence_eq]
  have hbody : textOf q.2.body ≠ [] :=
    fun hnil => hne ((hrows q.2 hmem).lexed.left.textOf_eq_nil hnil)
  cases hstores : storesValue q.2.body with
  | true =>
    have hrow : q.2.unstored = ⟨[], q.2.gap⟩ := if_pos hstores
    rw [hrow]
    exact patched_replaced hbody hstop (nil_append _).symm rfl
  | false =>
    have hrow : q.2.unstored = q.2 := if_neg (by simp [hstores])
    rw [hrow]
    exact .refl _ _

end Row

/-! ### The plan -/

/-- Statements that are storing calls, or are none, with their pieces. -/
theorem forall₂_filter_isPersistence {sts : List Statement} {bodies : List (List Piece)}
    (h : Forall₂ (fun st body => st.Spells s body) sts bodies) (f : Bool → Bool) :
    Forall₂ (fun st body => st.Spells s body)
      (sts.filter fun st => f (s.isPersistence st))
      (bodies.filter fun b => f (storesValue b)) := by
  refine rel_filter (fun st body hst => ?_) h
  show f (s.isPersistence st) = true ↔ f (storesValue body) = true
  rw [hst.isPersistence_eq]

section Enclosed

variable {front back : List Piece} (hfront : IsOpening front) (hback : IsClosing back)
  (hrows : ∀ r ∈ rows, r.Ended)
  (hs : s = .ofText (textOf (front ++ (Row.flatten rows ++ back))))

include hfront hback hrows hs

/-- The storing calls of a body that is made of rows. -/
theorem filter_isPersistence_rows :
    (s.bodyStatements (enclosedEntry front (Row.flatten rows))).filter s.isPersistence =
      ((Row.paired (kinds false front).length (placeAfter front) rows).filter fun q =>
        storesValue q.2.body).map Prod.fst := by
  obtain ⟨hstatements, hspells⟩ := bodyStatements_rows hfront hback hrows hs
  rw [hstatements, ← Row.map_fst_paired, filter_map]
  refine congrArg _ (filter_congr fun q hq => ?_)
  exact (Row.forall_paired_of_forall₂ hspells q hq).isPersistence_eq

theorem existing_rows :
    ((s.bodyStatements (enclosedEntry front (Row.flatten rows))).filter s.isPersistence).mapM
        (existing s) =
      .ok (((Row.paired (kinds false front).length (placeAfter front) rows).filter fun q =>
        storesValue q.2.body).map fun q =>
          ⟨q.1.span, textOf q.2.body, storedName? q.2.body⟩) := by
  obtain ⟨-, hspells⟩ := bodyStatements_rows hfront hback hrows hs
  rw [filter_isPersistence_rows hfront hback hrows hs]
  refine Checked.mapM_of_forall₂ ?_
  rw [forall₂_map_left_iff, forall₂_same]
  intro q hq
  obtain ⟨hq, hstores⟩ := mem_filter.1 hq
  exact (Row.forall_paired_of_forall₂ hspells q hq).existing_eq hstores

/-- The captures of a body that is made of rows. -/
theorem captures_rows : ∃ cs,
    captures s ((s.bodyStatements (enclosedEntry front (Row.flatten rows))).filter fun st =>
        !s.isPersistence st) = .ok cs ∧
      cs.map Capture.named = capturedEntries (Row.bodies rows) := by
  obtain ⟨hstatements, hspells⟩ := bodyStatements_rows hfront hback hrows hs
  rw [← hstatements] at hspells
  have hothers := forall₂_filter_isPersistence hspells not
  have hlexed : ∀ b ∈ (Row.bodies rows).filter fun b => !storesValue b, Lexed b := by
    intro b hb
    obtain ⟨r, hr, -, rfl⟩ := Row.exists_of_mem_bodies (mem_filter.1 hb).1
    exact (hrows r hr).lexed.left
  have hstands : ∀ st ∈ (s.bodyStatements (enclosedEntry front (Row.flatten rows))).filter
      fun st => !s.isPersistence st, st.StandsIn s.tokens :=
    fun st hst => (Source.standsIn_of_mem (mem_filter.1 hst).1).1
  refine ⟨_, captures_eq_firstOfEach hstands (pairwise_pos_bindings hothers ?_), ?_⟩
  · exact (s.pairwise_precedes _ _).filter _
  · rw [map_named_firstOfEach, map_filterMap, captures_of_spells hothers hlexed,
      capturedEntries]
    simp

end Enclosed

/-- The plan of a program that is made of rows: storing calls go, and lines come in behind the
rows. -/
theorem planPersistence_rows {front back : List Piece} (hfront : IsOpening front)
    (hback : IsClosing back) (hrows : ∀ r ∈ rows, r.Ended) :
    planPersistence (textOf (front ++ (Row.flatten rows ++ back))) = .ok (some
      ⟨textOf front ++ textOf (Row.flatten (rows.map Row.unstored)) ++
          (plannedLines (Row.bodies rows)).flatMap bodyLine ++ textOf back,
        addNames ((capturedEntries (Row.bodies rows)).map Prod.fst)
          ((storedCalls (Row.bodies rows)).map Prod.fst),
        literalsOf (capturedEntries (Row.bodies rows))⟩) := by
  let s := Source.ofText (textOf (front ++ (Row.flatten rows ++ back)))
  let entry := enclosedEntry front (Row.flatten rows)
  obtain ⟨hstatements, hspells⟩ := bodyStatements_rows (s := s) hfront hback hrows rfl
  have hentry : s.entryPoint = some entry := entryPoint_rows hfront hback hrows rfl
  have hcalls := existing_rows (s := s) hfront hback hrows rfl
  obtain ⟨cs, hcs, hnamed⟩ := captures_rows (s := s) hfront hback hrows rfl
  let calls : List Existing := ((Row.paired (kinds false front).length (placeAfter front)
    rows).filter fun q => storesValue q.2.body).map fun q =>
      ⟨q.1.span, textOf q.2.body, storedName? q.2.body⟩
  have hfindings : findings s entry = .ok ⟨calls, cs⟩ := by
    rw [findings_eq hentry, hcalls, Checked.ok_bind, hcs]
    rfl
  have hstored : Findings.stored ⟨calls, cs⟩ = storedCalls (Row.bodies rows) := by
    rw [Findings.stored, filterMap_map, storedCalls,
      ← Row.map_body_paired (kinds false front).length (placeAfter front), filter_map,
      filterMap_map]
    rfl
  have hnames : cs.map (·.name) = (capturedEntries (Row.bodies rows)).map Prod.fst := by
    rw [← hnamed, map_map]
    rfl
  have htail : tail (storedCalls (Row.bodies rows)) cs =
      (plannedLines (Row.bodies rows)).flatMap bodyLine := by
    rw [PersistencePlan.tail, plannedLines, flatMap_append, flatMap_map, flatMap_map, hnames]
  have hliterals : Findings.literals ⟨calls, cs⟩ =
      literalsOf (capturedEntries (Row.bodies rows)) := by
    rw [← hnamed, literalsOf, filterMap_map]
    rfl
  have hedits : Findings.edits ⟨calls, cs⟩ entry =
      ((Row.placed (kinds false front).length (placeAfter front) rows).filter
          s.isPersistence).map (fun st => Edit.deletion st.span) ++
        [Edit.insertion (textOf front ++ textOf (Row.flatten rows)).byteSize
          ((plannedLines (Row.bodies rows)).flatMap bodyLine)] := by
    rw [Findings.edits, hstored, htail, ← hstatements,
      filter_isPersistence_rows hfront hback hrows rfl, map_map, map_map,
      ← textOf_append]
    rfl
  have hpatch := Row.patched_unstored hrows (Row.forall_paired_of_forall₂ hspells)
  have hoffset : (placeAfter front).offset = Text.byteSize (textOf front) := by
    simp [placeAfter, Position.start]
  rw [hoffset] at hpatch
  have happly := hpatch.applyAll_insertion (textOf back) (List.Perm.of_eq hedits)
  rw [← textOf_append, ← textOf_append, append_assoc] at happly
  rw [planPersistence_of_findings hentry hfindings happly, hliterals, storedNames,
    hstored, hnames]

end Notebook
