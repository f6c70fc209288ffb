import Notebook.Proofs.BodyRows
import Notebook.Proofs.DeclarationTokens
import Notebook.Proofs.ReadBack

/-!
# Taking the declarations out of any text

Any text falls into rows and a last row that no semicolon ends, even if its brackets are not
balanced and its literals and comments have no end.  When package-level declarations are taken
out, the gaps behind them stay.  A filler in front of a statement has an end of its own, so
what stood on both sides of a declaration is read as before, and the rows that are left are
the rows of the result.

## Main statements

* `exists_divided`: every text has rows
* `Divided.undeclared`: the rows of a text without its declarations
* `splitDeclarations_routes`: the statements of an input are split into declarations and a
  body
-/

namespace Notebook

open Lexer List

variable {x y z : List Piece} {rows : List Row} {here : Position} {r : Row}

/-! ### Pieces that are taken out -/

/-- Pieces behind a filler can be taken out if they do not begin with one. -/
theorem Lexer.Lexed.without (h : Lexed (x ++ (y ++ z)))
    (hx : ∀ p, x.getLast? = some p → p.isFiller = true)
    (hy : ∀ p, y.head? = some p → p.isFiller = false) : Lexed (x ++ z) := by
  cases y with
  | nil => exact h
  | cons q y =>
    have hlast : ∀ p, x.getLast? = some p → p.isSolid = true ∧ p.isClosed = true := by
      intro p hp
      obtain ⟨x', rfl⟩ := getLast?_eq_some_iff.1 hp
      rw [append_assoc] at h
      exact Piece.isSolid_of_isFiller h.right (hx p hp) (hy q rfl)
    exact h.left.append h.right.right (fun p hp => (hlast p hp).2) fun p hp =>
      .inl (hlast p hp).1

/-- Pieces of a text with a line end behind them, though the text may end inside of a
comment. -/
def Lexer.LexedLine (ps : List Piece) : Prop :=
  ∃ qs, ps = qs ++ [lineEnd] ∧ Lexed qs

theorem Lexer.LexedLine.without (h : LexedLine (x ++ (y ++ z))) (hz : z ≠ [])
    (hx : ∀ p, x.getLast? = some p → p.isFiller = true)
    (hy : ∀ p, y.head? = some p → p.isFiller = false) : LexedLine (x ++ z) := by
  obtain ⟨qs, hqs, hlexed⟩ := h
  obtain ⟨z, p, rfl⟩ := (eq_nil_or_concat z).resolve_left hz
  rw [concat_eq_append, ← append_assoc y, ← append_assoc x] at hqs
  obtain ⟨rfl, hp⟩ := append_inj' hqs rfl
  refine ⟨x ++ z, ?_, hlexed.without hx hy⟩
  rw [concat_eq_append, hp, append_assoc]

/-! ### Rows without their declarations -/

/-- Where a statement stands: the number of its first token, and its extent. -/
def Statement.place (st : Statement) : Nat × Span :=
  (st.first, st.span)

namespace Row

/-- A row without the declaration in it. -/
def undeclared (r : Row) : Row :=
  if declares r.body then ⟨[], r.gap⟩ else r

theorem undeclared_eq (h : declares r.body = false) : r.undeclared = r := by
  rw [undeclared, h, if_neg Bool.false_ne_true]

theorem undeclared_of_nil (h : r.body = []) : r.undeclared = r :=
  undeclared_eq (by rw [h]; rfl)

theorem bodies_undeclared (rows : List Row) :
    bodies (rows.map undeclared) = (bodies rows).filter fun b => !declares b := by
  induction rows with
  | nil => rfl
  | cons r rs ih =>
    rw [map_cons, bodies_cons, bodies_cons, filter_append, ih]
    congr 1
    by_cases hnil : r.body = []
    · rw [undeclared_of_nil hnil, if_pos hnil, filter_nil]
    · rw [if_neg hnil, undeclared]
      cases hdeclares : declares r.body with
      | true => simp [hdeclares]
      | false => simp [hdeclares, hnil]

theorem remap_undeclared (i : Nat) (here : Position) (rows : List Row) :
    remap (fun _ => undeclared) i here rows = rows.map undeclared := by
  induction rows generalizing i here with
  | nil => rfl
  | cons r rs ih =>
    rw [remap, ih, map_cons]
    rcases statementAt_cases i here r with ⟨hnil, hnone⟩ | ⟨st, -, hone, -⟩
    · rw [hnone, undeclared_of_nil hnil]
      rfl
    · rw [hone]
      rfl

/-- A row whose statement can be taken out: it begins with a token, and a gap stands behind
it. -/
structure Removable (r : Row) : Prop where
  fillers : ∀ p ∈ r.gap, p.isFiller = true
  front : ∀ p, r.body.head? = some p → p.isFiller = false
  ends : r.body ≠ [] → r.gap ≠ []

theorem SplitsOff.removable (h : r.SplitsOff) : r.Removable where
  fillers := h.fillers
  front := by
    intro p hp
    have hne : r.body ≠ [] := by
      rintro hnil
      rw [hnil] at hp
      cases hp
    exact (h.body.resolve_left hne).1.isFiller_head hp
  ends := by
    intro hne hgap
    have hkinds := (h.body.resolve_left hne).2
    rw [hgap] at hkinds
    exact hkinds rfl

/-- A filler stands in front of every statement, so rows are read back without their
declarations. -/
theorem lexedLine_undeclared (h : ∀ r ∈ rows, r.Removable)
    (hx : ∀ p, x.getLast? = some p → p.isFiller = true)
    (hlexed : LexedLine (x ++ flatten rows)) :
    LexedLine (x ++ flatten (rows.map undeclared)) := by
  -- The induction carries what is in front of the rows, which ends in a filler.
  induction rows generalizing x with
  | nil => exact hlexed
  | cons r rs ih =>
    obtain ⟨hr, hrs⟩ := forall_mem_cons.1 h
    have hends : ∀ y : List Piece,
      (r.gap = [] → ∀ p, y.getLast? = some p → p.isFiller = true) →
        ∀ p, (y ++ r.gap).getLast? = some p → p.isFiller = true := by
      intro y hy p hp
      cases hgap : r.gap.getLast? with
      | none =>
        have hnil := getLast?_eq_none_iff.1 hgap
        rw [hnil, append_nil] at hp
        exact hy hnil p hp
      | some q =>
        rw [getLast?_append, hgap] at hp
        cases hp
        exact hr.fillers p (mem_of_getLast? hgap)
    rw [flatten_cons, pieces, append_assoc] at hlexed
    rw [map_cons, flatten_cons, ← append_assoc, pieces]
    cases hdeclares : declares r.body with
    | true =>
      have hne : r.body ≠ [] := by
        rintro hnil
        rw [hnil] at hdeclares
        cases hdeclares
      have hgap : r.gap ++ flatten rs ≠ [] := fun hnil =>
        hr.ends hne (append_eq_nil_iff.1 hnil).1
      have hwithout := hlexed.without hgap hx hr.front
      rw [← append_assoc] at hwithout
      rw [undeclared, hdeclares, if_pos rfl]
      exact ih hrs (hends x fun _ => hx) hwithout
    | false =>
      rw [undeclared_eq hdeclares, ← append_assoc]
      refine ih hrs (hends (x ++ r.body) fun hgap => ?_) ?_
      · have hnil : r.body = [] := by
          by_contra hne
          exact hr.ends hne hgap
        rw [hnil, append_nil]
        exact hx
      · simpa using hlexed

/-- The last row of a text, whose statement no semicolon ends. -/
structure Unended (r : Row) : Prop where
  gap : ∀ p ∈ r.gap, p.isToken = false
  front : ∀ p, r.body.head? = some p → p.isFiller = false
  ends : r.body ≠ [] → r.gap ≠ []
  places : ∀ i here, (Source.split i .initial (scan here false r.pieces)).map
    Statement.place =
    (r.statementAt i here).map Statement.place

theorem Unended.removable (h : r.Unended) : r.Removable :=
  ⟨fun p hp => Piece.isFiller_of_isToken (h.gap p hp), h.front, h.ends⟩

/-- A row that is a gap of blanks and comments. -/
theorem unended_of_nil {gap : List Piece} (hgap : ∀ p ∈ gap, p.isToken = false) :
    Unended ⟨[], gap⟩ where
  gap := hgap
  front := fun p hp => by cases hp
  ends := fun hne => absurd rfl hne
  places := by
    intro i here
    have hnone : scan here false gap = [] := by
      rw [← map_eq_nil_iff, map_kind_scan, kinds_no_tokens hgap]
    rw [pieces, nil_append, hnone]
    rfl

theorem Unended.undeclared (h : r.Unended) : r.undeclared.Unended := by
  unfold Row.undeclared
  split
  · exact unended_of_nil h.gap
  · exact h

theorem SplitsOff.undeclared (h : r.SplitsOff) : r.undeclared.SplitsOff := by
  unfold Row.undeclared
  split
  · exact ⟨h.fillers, .inl rfl⟩
  · exact h

/-! ### The declarations among the statements of rows -/

/-- Whether a statement is a declaration does not depend on what stands behind its row. -/
theorem SplitsOff.startsDeclaration_eq (h : r.SplitsOff) (hne : r.body ≠ []) (here : Position)
    (us : List Token) :
    Source.startsDeclaration (scan here false r.pieces ++ us) = declares r.body := by
  obtain ⟨hbody, hgap⟩ := h.body.resolve_left hne
  obtain ⟨semi, semis, hsemis, hkinds⟩ :=
    exists_semi h.fillers hgap (here.advance (textOf r.body))
  have hdepth : ((scan here false r.body).map Token.kind).foldl Source.depthAfter 0 = 0 := by
    rw [map_kind_scan]
    exact Mode.foldl_of_run hbody.whole
  have hscan : scan here false r.body ≠ [] := by
    obtain ⟨a, ts, -, hscan, -⟩ := hbody.scan_eq here
    rw [hscan]
    exact cons_ne_nil a ts
  rw [pieces, scan_append, hsemis, append_assoc, cons_append,
    Source.startsDeclaration_append hdepth hscan (hkinds semi mem_cons_self)]
  exact Source.startsDeclaration_congr (by rw [map_kind_scan, map_kind_scan])

theorem Unended.startsDeclaration_eq (h : r.Unended) (hne : r.body ≠ []) (here : Position)
    {us : List Token} (hus : ∀ u ∈ us, u.kind = .eof) :
    Source.startsDeclaration (scan here false r.pieces ++ us) = declares r.body := by
  have hscan : scan here false r.body ≠ [] := by
    obtain ⟨p, body, hbody⟩ := exists_cons_of_ne_nil hne
    have hfiller := h.front p (by rw [hbody]; rfl)
    obtain ⟨k, hk⟩ := Piece.isToken_iff.1 (Piece.isToken_of_isFiller hfiller)
    rw [hbody, scan_cons, Piece.emitted_of_kind hk]
    exact cons_ne_nil _ _
  rw [pieces, scan_append, append_assoc, Source.startsDeclaration_append_ends hscan]
  · exact Source.startsDeclaration_congr (by rw [map_kind_scan, map_kind_scan])
  · intro u hu
    rcases mem_append.1 hu with hu | hu
    · exact .inl (scan_fillers h.removable.fillers _ _ u hu)
    · exact .inr (hus u hu)

theorem map_statementAt {α : Type} {f : Statement → α} {g : List Piece → α} {i : Nat}
    (h : r.body ≠ [] → ∀ st : Statement, st.first = i → f st = g r.body) :
    (r.statementAt i here).map f = (if r.body = [] then [] else [r.body]).map g := by
  unfold statementAt
  split
  · rfl
  next hne => exact congrArg (fun a => [a]) (h hne _ rfl)

/-- The statements of rows are declarations where the pieces of the rows are. -/
theorem declares_placed {tokens us : List Token} {last : Row}
    (hrows : ∀ r ∈ rows, r.SplitsOff) (hlast : last.Unended) {i : Nat}
    (htokens : tokens.drop i = scan here false (flatten (rows ++ [last])) ++ us)
    (hus : ∀ u ∈ us, u.kind = .eof) :
    (placed i here (rows ++ [last])).map
      (fun st => Source.startsDeclaration (tokens.drop st.first)) =
        (bodies (rows ++ [last])).map declares := by
  induction rows generalizing i here with
  | nil =>
    rw [nil_append, flatten_cons, flatten_nil, append_nil] at htokens
    rw [nil_append, placed, placed, append_nil, bodies_cons, bodies_nil,
      append_nil]
    refine map_statementAt fun hne st hst => ?_
    rw [hst, htokens]
    exact hlast.startsDeclaration_eq hne here hus
  | cons r rs ih =>
    obtain ⟨hr, hrs⟩ := forall_mem_cons.1 hrows
    rw [cons_append, flatten_cons, scan_append, hr.pendingAfter_eq,
      append_assoc] at htokens
    rw [cons_append, placed, bodies_cons, map_append, map_append]
    congr 1
    · refine map_statementAt fun hne st hst => ?_
      rw [hst, htokens]
      exact hr.startsDeclaration_eq hne here _
    · refine ih hrs ?_
      rw [← drop_drop, htokens, ← length_scan here, drop_left]

end Row

/-! ### The rows of any text -/

/-- The rows of a text and of a line end behind it, whatever the text is. -/
structure Divided (t : Text) (rows : List Row) (last : Row) : Prop where
  splitsOff : ∀ r ∈ rows, r.SplitsOff
  unended : last.Unended
  flatten : Row.flatten (rows ++ [last]) = Lexer.pieces t ++ [lineEnd]

/-- Every text has rows. -/
theorem exists_divided (t : Text) : ∃ rows last, Divided t rows last := by
  have heof : .eof ∉ kinds false (Lexer.pieces t ++ [lineEnd]) := by
    rw [kinds_append, mem_append, not_or]
    refine ⟨mem_kinds_ne_eof (lexed_pieces t) false, fun hmem => ?_⟩
    have hfiller : ∀ p ∈ [lineEnd], p.isFiller = true := by decide
    cases kinds_fillers hfiller _ _ hmem
  obtain ⟨gap, more, hmore, hgap, hfront⟩ := exists_gap (Lexer.pieces t ++ [lineEnd])
  rw [hmore, kinds_append, pendingAfter_fillers hgap (.inl rfl), mem_append,
    not_or] at heof
  obtain ⟨rows, rest, hrows, rfl, hrest⟩ := exists_splitRows heof.2 hfront
  have hsplits : ∀ r ∈ ⟨[], gap⟩ :: rows, Row.SplitsOff r := by
    intro r hr
    rcases mem_cons.1 hr with rfl | hr
    · exact ⟨hgap, .inl rfl⟩
    · exact (hrows r hr).1
  rcases hrest with rfl | ⟨⟨p, hp, hfiller⟩, m, hrun⟩
  · refine ⟨⟨[], gap⟩ :: rows, ⟨[], []⟩, hsplits, Row.unended_of_nil (by simp), ?_⟩
    rw [hmore]
    simp [Row.pieces]
  · obtain ⟨last, rfl, hne, hlast, hends, hsplit⟩ := Row.exists_unended hp hfiller hrun
    refine ⟨⟨[], gap⟩ :: rows, last, hsplits, ⟨hlast, ?_, ?_, ?_⟩, ?_⟩
    · intro q hq
      rw [Row.pieces, head?_append, hq] at hp
      cases hp
      exact hfiller
    · intro _ hnil
      -- The last piece is the line end, which is no token.
      obtain ⟨q, hq, htoken⟩ := hends hnil
      have hend := congrArg List.getLast? hmore
      rw [getLast?_concat, getLast?_append, getLast?_append, hq] at hend
      cases hend
      cases htoken
    · intro i here
      obtain ⟨st, hst, hfirst, -, hspan⟩ := hsplit i here
      rw [hst, Row.statementAt, if_neg hne, map_singleton, Statement.place,
        hfirst, hspan]
      rfl
    · rw [hmore]
      simp [Row.pieces]

namespace Source

/-- Whether a statement is a package-level declaration depends on its place alone. -/
theorem map_isPackageLevel (s : Source) (sts : List Statement) :
    sts.map s.isPackageLevel =
      (sts.map Statement.place).map fun q => startsDeclaration (s.tokens.drop q.1) := by
  rw [map_map]
  exact map_congr_left fun st _ => isPackageLevel_eq s st

theorem flatMap_removals (s : Source) (sts : List Statement) :
    sts.flatMap (removals s) = (sts.map Statement.place).flatMap fun q =>
      if startsDeclaration (s.tokens.drop q.1) then [Edit.deletion q.2] else [] := by
  rw [flatMap_map]
  refine flatMap_congr fun st _ => ?_
  rw [removals, isPackageLevel_eq]
  rfl

end Source

theorem Span.slice_append {sp : Span} {t r : Text} (h : sp.slice t = .ok r) (u : Text) :
    sp.slice (t ++ u) = .ok r := by
  unfold slice at h ⊢
  cases hcut : sp.cut t with
  | error err =>
    rw [hcut] at h
    cases h
  | ok p =>
    obtain ⟨a, b, c⟩ := p
    obtain ⟨rfl, hstart, hstop⟩ := cut_eq_ok_iff.1 hcut
    rw [hcut] at h
    cases h
    rw [cut_eq_ok_iff.2 ⟨append_assoc _ c u, hstart, hstop⟩]
    rfl

namespace Divided

variable {t : Text} {last : Row}

theorem places (h : Divided t rows last) : (Source.ofText t).statements.map Statement.place =
    (Row.placed 0 .start (rows ++ [last])).map Statement.place := by
  rw [Source.statements_eq_split, ← h.flatten, Row.flatten_append, scan_append,
    Row.SplitsOff.pendingAfter_flatten h.splitsOff, Source.split_rows h.splitsOff,
    Row.placed_append h.splitsOff, map_append, map_append, Row.flatten_cons,
    Row.flatten_nil, append_nil, h.unended.places, Row.placed, Row.placed,
    append_nil]

theorem textOf_flatten (h : Divided t rows last) :
    textOf (Row.flatten (rows ++ [last])) = t ++ ['\n'] := by
  rw [h.flatten, textOf_append, textOf_pieces]
  rfl

/-- The texts of the statements are those of the rows. -/
theorem map_textAt (h : Divided t rows last) :
    (Source.ofText t).statements.map (Source.ofText t).textAt =
      (Row.bodies (rows ++ [last])).map textOf := by
  let s := Source.ofText t
  have hrows : s.statements.mapM (fun st => st.span.slice (t ++ ['\n'])) =
      .ok ((Row.bodies (rows ++ [last])).map textOf) := by
    have hslices := Row.slices_placed (rows ++ [last]) 0
      (show Text.byteSize [] = Position.start.offset from rfl) []
    rw [nil_append, append_nil, h.textOf_flatten] at hslices
    have hplaces : Forall₂ (fun (q : Nat × Span) body => q.2.slice (t ++ ['\n']) =
        .ok (textOf body)) ((Row.placed 0 .start (rows ++ [last])).map Statement.place)
        (Row.bodies (rows ++ [last])) := forall₂_map_left_iff.2 hslices
    rw [← h.places, forall₂_map_left_iff] at hplaces
    exact Checked.mapM_of_forall₂ hplaces
  have htexts : s.statements.mapM (fun st => st.span.slice (t ++ ['\n'])) =
      .ok (s.statements.map s.textAt) := by
    refine Checked.mapM_of_forall₂ (forall₂_same.2 fun st hst => ?_)
    exact Span.slice_append (Source.statementText_eq hst) _
  exact Except.ok.inj (htexts.symm.trans hrows)

/-- The package-level declarations among the statements of the rows. -/
theorem declares_placed (h : Divided t rows last) :
    (Row.placed 0 .start (rows ++ [last])).map (Source.ofText t).isPackageLevel =
      (Row.bodies (rows ++ [last])).map declares := by
  have htokens : (Source.ofText t).tokens.drop 0 =
      scan .start false (Row.flatten (rows ++ [last])) ++
        [.eof (Position.start.advance t)] := by
    rw [drop_zero, Source.tokens_ofText, h.flatten]
  rw [← Row.declares_placed h.splitsOff h.unended htokens (by simp [Token.eof])]
  exact map_congr_left fun st _ => Source.isPackageLevel_eq _ st

theorem map_isPackageLevel (h : Divided t rows last) :
    (Source.ofText t).statements.map (Source.ofText t).isPackageLevel =
      (Row.bodies (rows ++ [last])).map declares := by
  rw [← h.declares_placed, Source.map_isPackageLevel, h.places, ← Source.map_isPackageLevel]

/-- The statements that are no declarations, with their texts. -/
theorem texts_others (h : Divided t rows last) :
    ((Source.ofText t).statements.filter fun st => !(Source.ofText t).isPackageLevel st).map
        (Source.ofText t).textAt =
      (Row.bodies ((rows ++ [last]).map Row.undeclared)).map textOf := by
  have hpairs := congrArg₂ List.zip h.map_textAt h.map_isPackageLevel
  rw [zip_map', zip_map'] at hpairs
  have hothers := congrArg (fun l => (l.filter fun q => !q.2).map Prod.fst) hpairs
  rw [Row.bodies_undeclared]
  simpa [filter_map, Function.comp_def] using hothers

theorem textOf_body_ne_nil (h : Divided t rows last) (hr : r ∈ rows ++ [last])
    (hne : r.body ≠ []) : textOf r.body ≠ [] := by
  obtain ⟨p, body, hbody⟩ := exists_cons_of_ne_nil hne
  have hmem : p ∈ Lexer.pieces t ++ [lineEnd] := by
    rw [← h.flatten]
    refine mem_flatMap.2 ⟨r, hr, mem_append_left _ ?_⟩
    rw [hbody]
    exact mem_cons_self
  have htext : p.text ≠ [] := by
    rcases mem_append.1 hmem with hmem | hmem
    · exact (lexed_pieces t).text_ne_nil hmem
    · rw [mem_singleton.1 hmem]
      exact cons_ne_nil _ _
  rw [hbody, textOf_cons]
  exact fun hnil => htext (append_eq_nil_iff.1 hnil).1

/-- Taking out declarations turns rows into rows without them. -/
theorem patched_undeclared (h : Divided t rows last) :
    Patched 0 ((Source.ofText t).statements.flatMap (removals (.ofText t))) (t ++ ['\n'])
      (textOf (Row.flatten ((rows ++ [last]).map Row.undeclared))) := by
  have hlevels := h.declares_placed
  rw [← Row.map_fst_paired, ← Row.map_body_paired 0 .start, map_map, map_map,
    map_inj_left] at hlevels
  have hpatched : Patched Position.start.offset
      ((Row.placed 0 .start (rows ++ [last])).flatMap (removals (.ofText t)))
      (textOf (Row.flatten (rows ++ [last])))
      (textOf (Row.flatten
        (Row.remap (fun _ => Row.undeclared) 0 .start (rows ++ [last])))) := by
    refine Row.patched_remap fun p hp => ?_
    obtain ⟨hmem, hne, hstop⟩ := Row.of_mem_paired hp
    have hlevel : (Source.ofText t).isPackageLevel p.1 = declares p.2.body := hlevels p hp
    rw [removals, hlevel, Row.undeclared]
    split
    · exact patched_replaced (h.textOf_body_ne_nil hmem hne) hstop
        (nil_append _).symm rfl
    · exact .refl _ _
  rw [h.textOf_flatten, Row.remap_undeclared] at hpatched
  rw [Source.flatMap_removals, h.places, ← Source.flatMap_removals]
  exact hpatched

/-- The rows of a text without its declarations. -/
theorem undeclared (h : Divided t rows last) {body : Text}
    (hbody : Edit.applyAll t ((Source.ofText t).statements.flatMap (removals (.ofText t))) =
      .ok body) : Divided body (rows.map Row.undeclared) last.undeclared := by
  refine ⟨?_, h.unended.undeclared, ?_⟩
  · rw [forall_mem_map]
    exact fun r hr => (h.splitsOff r hr).undeclared
  -- The text is known from the edits, and what is left is read back.
  have hremovable : ∀ r ∈ rows ++ [last], r.Removable := by
    intro r hr
    rcases mem_append.1 hr with hr | hr
    · exact (h.splitsOff r hr).removable
    · rw [mem_singleton.1 hr]
      exact h.unended.removable
  obtain ⟨qs, hqs, hlexed⟩ := Row.lexedLine_undeclared (x := []) hremovable (by simp)
    ⟨Lexer.pieces t, h.flatten, lexed_pieces t⟩
  rw [nil_append] at hqs
  have hpatched : Patched (Text.byteSize []) _ _ _ := h.patched_undeclared
  have happly := hpatched.applyAll [] (List.Perm.refl _)
  rw [nil_append, append_nil, Edit.applyAll_append_right hbody, hqs] at happly
  obtain rfl : textOf qs = body := by
    simpa [lineEnd] using (Except.ok.inj happly).symm
  rw [hlexed, ← hqs, map_append]
  rfl

end Divided

/-- **Routing declarations loses and duplicates nothing.**  The declarations of
`splitDeclarations` are the statements of the input that are `isPackageLevel`, in order and
with their texts; the statements of the body that is left are all the others, in order and
with their texts; and in the body there is nothing more to take out. -/
theorem splitDeclarations_routes (input : Text) :
    let s := Source.ofText input
    ∃ declarations body others, splitDeclarations input = .ok (declarations, body) ∧
      s.texts (s.statements.filter s.isPackageLevel) = .ok (declarations.map (·.source)) ∧
      s.texts (s.statements.filter fun st => !s.isPackageLevel st) = .ok others ∧
      (Source.ofText body).texts (Source.ofText body).statements = .ok others ∧
      splitDeclarations body = .ok ([], body) := by
  intro s
  have htexts : ∀ {s : Source} {sts : List Statement}, (∀ st ∈ sts, st ∈ s.statements) →
      s.texts sts = .ok (sts.map s.textAt) := fun hsts =>
    Checked.mapM_of_forall₂ (forall₂_same.2 fun st hst =>
      Source.statementText_eq (hsts st hst))
  obtain ⟨body, hbody, hsplit⟩ := splitDeclarations_eq input
  obtain ⟨rows, last, hrows⟩ := exists_divided input
  have hleft := hrows.undeclared hbody
  refine ⟨_, body, _, hsplit, ?_, htexts fun st hst => (mem_filter.1 hst).1, ?_, ?_⟩
  · rw [htexts fun st hst => (mem_filter.1 hst).1, Source.map_source_declared?]
  · rw [htexts fun st hst => hst, hleft.map_textAt, hrows.texts_others, map_append]
    rfl
  · refine splitDeclarations_of_none fun st hst => ?_
    have hmem := mem_map_of_mem (f := (Source.ofText body).isPackageLevel) hst
    rw [hleft.map_isPackageLevel] at hmem
    obtain ⟨b, hb, hlevel⟩ := mem_map.1 hmem
    rw [← hlevel]
    have hflat : rows.map Row.undeclared ++ [last.undeclared] =
        (rows ++ [last]).map Row.undeclared := by simp
    rw [hflat, Row.bodies_undeclared] at hb
    simpa using (mem_filter.1 hb).2

end Notebook
