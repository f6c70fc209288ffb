import Notebook.Proofs.DisplayRows
import Notebook.Proofs.ReadBack

/-!
# The program of a turn without its mark

Between assembly and the trial build a program is shown and its mark is taken out.  Both work
on the text of the whole program, but all that comes of it is that some rows of the input are
put into printing calls and others are taken out: declarations and lines that bring variables
back stay as they are, and no mark is found but the one behind the input.

## Main statements

* `isFront_programFront`: declarations that are closed and balanced may stand in front
* `exists_givenRows`: the rows of a trimmed input, with any remark behind it
* `display_strips`: the rows of the program without its mark
-/

namespace Notebook

open Lexer List

variable {k : Kernel} {bs : List (List Piece)} {ds : List Declaration}
  {gap marked plain : List Piece} {given init lead rows : List Row} {ls : List Text}
  {last r : Row} {ending front input shown t : Text}

/-! ### Declarations in front -/

namespace IsBlock

variable {a b : Text}

theorem pieces_append (ha : IsBlock a) :
    Lexer.pieces (a ++ b) = Lexer.pieces a ++ Lexer.pieces b := by
  have hlexed := lexed_append (lexed_pieces a) (lexed_pieces b) ha.closed (ha.seam _)
  rw [Lexed, textOf_append, textOf_pieces, textOf_pieces] at hlexed
  exact hlexed

/-- Blocks, side by side. -/
theorem append (ha : IsBlock a) (hb : IsBlock b) : IsBlock (a ++ b) := by
  refine ⟨?_, ?_, ?_, ?_⟩
  · intro p hp
    rw [ha.pieces_append] at hp
    exact (mem_append.1 hp).elim (ha.closed p) (hb.closed p)
  · intro qs p hp
    rw [ha.pieces_append, getLast?_append] at hp
    cases hlast : (Lexer.pieces b).getLast? with
    | none =>
      rw [hlast] at hp
      exact ha.seam qs p hp
    | some q =>
      rw [hlast] at hp
      cases hp
      exact hb.seam qs p hlast
  · rw [ha.pieces_append, pendingAfter_append, ha.pending, hb.pending]
  · rw [ha.pieces_append, kinds_append, nest_append, ha.nest, ha.pending]
    exact hb.nest

theorem nil : IsBlock [] :=
  Laid.nil.isBlock

end IsBlock

/-- White space at the front changes nothing of what is closed and balanced. -/
theorem trimStart_closed (hclosed : LexicallyClosed t)
    (hnest : nest 0 (kinds false (Lexer.pieces t)) = some 0) :
    LexicallyClosed (Text.trimStart t) ∧
      nest 0 (kinds false (Lexer.pieces (Text.trimStart t))) = some 0 := by
  induction t with
  | nil => exact ⟨hclosed, hnest⟩
  | cons c t ih =>
    cases hc : isBlank c with
    | false => simpa [Text.trimStart, hc] using And.intro hclosed hnest
    | true =>
      rw [LexicallyClosed, pieces_cons, firstPiece_blank hc] at hclosed
      rw [pieces_cons, firstPiece_blank hc] at hnest
      rw [Text.trimStart, dropWhile_cons_of_pos hc]
      exact ih (fun p hp => hclosed p (mem_cons_of_mem _ hp)) hnest

theorem nest_noTokens {ps : List Piece} (h : ∀ p ∈ ps, p.isToken = false) (pending : Bool)
    (depth : Nat) : nest depth (kinds pending ps) = some depth :=
  nest_fillers (fun p hp => Piece.isFiller_of_isToken (h p hp)) pending depth

/-- A closed and balanced text on lines of its own. -/
theorem isBlock_trim (hclosed : LexicallyClosed t) (hbalanced : Balanced t) :
    IsBlock (Text.trim t ++ ['\n']) := by
  obtain ⟨hstart, hnest⟩ := trimStart_closed hclosed (nest_pieces hbalanced)
  obtain ⟨qs, rest, ending, hps, hrest, htrim, hends⟩ :=
    exists_trimmed (lexed_pieces (Text.trimStart t)) hstart
  rw [textOf_pieces] at htrim
  have hqs : ∀ p ∈ qs, p.isClosed = true := fun p hp =>
    hstart p (hps ▸ mem_append_left _ hp)
  have hqslexed : Lexed qs := by
    have := lexed_pieces (Text.trimStart t)
    rw [hps] at this
    exact this.left
  obtain ⟨rest', hending, hlexed, htext⟩ := hends.exists_ending hqslexed hqs (.inl rfl)
  have hpieces : Lexer.pieces (Text.trim t ++ ['\n']) = qs ++ rest' := by
    have : Text.trim t ++ ['\n'] = textOf (qs ++ rest') := by
      rw [Text.trim, htrim, textOf_append, htext]
      simp
    rw [this]
    exact hlexed
  have hnestqs : nest 0 (kinds false qs) = some 0 := by
    rw [hps, kinds_append, nest_append] at hnest
    obtain ⟨d, hd, hback⟩ := Option.bind_eq_some_iff.1 hnest
    rw [nest_noTokens hrest] at hback
    rw [hd, hback]
  refine ⟨?_, ?_, ?_, ?_⟩
  · intro p hp
    rw [hpieces] at hp
    exact (mem_append.1 hp).elim (hqs p) (hending.closed p)
  · intro qs' p hp
    rw [hpieces, getLast?_append] at hp
    cases hlast : rest'.getLast? with
    | none => exact absurd (getLast?_eq_none_iff.1 hlast) hending.ne_nil
    | some q =>
      rw [hlast] at hp
      cases hp
      exact .inl (hending.solid p hlast)
  · rw [hpieces, pendingAfter_append]
    refine pendingAfter_fillers
      (fun p hp => Piece.isFiller_of_isToken (hending.noTokens p hp)) ?_
    cases pendingAfter false qs with
    | false => exact .inl rfl
    | true => exact .inr (kinds_endsLine hending.noTokens hending.endsLine)
  · rw [hpieces, kinds_append, nest_append, hnestqs]
    exact nest_noTokens hending.noTokens _ 0

/-- Declarations that are closed and balanced are a block. -/
theorem isBlock_render (h : ∀ d ∈ ds, LexicallyClosed d.source ∧ Balanced d.source) :
    IsBlock (Declaration.render ds) := by
  have hall : ∀ d ∈ Declaration.importsFirst ds, LexicallyClosed d.source ∧
      Balanced d.source :=
    fun d hd => h d (Declaration.mem_importsFirst.1 hd)
  have hrender : Declaration.render ds =
      (Declaration.importsFirst ds).flatMap fun d => Text.trim d.source ++ ("\n\n" : Text) :=
        rfl
  rw [hrender]
  clear hrender
  generalize Declaration.importsFirst ds = ordered at hall
  induction ordered with
  | nil => exact .nil
  | cons d ds ih =>
    obtain ⟨hd, hds⟩ := forall_mem_cons.1 hall
    have hline : IsBlock ['\n'] := (Laid.blank isBlank_lineFeed).isBlock
    have htrim := (isBlock_trim hd.1 hd.2).append hline
    rw [append_assoc] at htrim
    exact htrim.append (ih hds)

/-- Declarations that are closed and balanced may stand in front of an entry function, if
together they do not hold one. -/
theorem isFront_programFront (h : ∀ d ∈ ds, LexicallyClosed d.source ∧ Balanced d.source)
    (hmain : ¬DeclaresMain (Declaration.render ds)) : IsFront (programFront ds) := by
  have hpackage : Laid (packageLine ++ "\n\n") [Lexer.pieces packageLine] := by
    have := isWhole_packageLine.standsAlone.laid.append (Laid.blank isBlank_lineFeed)
    rwa [textOf_pieces, append_assoc] at this
  refine (hpackage.isBlock.append (isBlock_render h)).isFront ?_
  have hpieces : Lexer.pieces (packageLine ++ "\n\n" ++ Declaration.render ds) =
      Lexer.pieces (packageLine ++ "\n\n") ++ Lexer.pieces (Declaration.render ds) :=
    hpackage.isBlock.pieces_append
  have hpending := hpackage.isBlock.pending
  obtain ⟨rows, hrows, hflat, hbodies⟩ := hpackage
  have hno : ∀ b ∈ Row.bodies rows, NoEntry b := by
    intro b hb
    rw [hbodies] at hb
    rw [mem_singleton.1 hb]
    exact noEntry_of_not_declaresMain (by decide +kernel)
  rw [NoEntry, hpieces, scan_append, hpending, ← hflat, Source.entryIndex_rows hrows hno,
    scan_eq_map, Source.entryIndex_move]
  have hnone :
      Source.entryIndex 0 (scan .start false (Lexer.pieces (Declaration.render ds))) = none :=
    noEntry_of_not_declaresMain hmain
  rw [hnone]
  rfl

/-! ### Lines in the entry function -/

/-- A line end on its own. -/
def lineEndRow : Row := ⟨[], [lineEnd]⟩

/-- A tab on its own. -/
def tabRow : Row := ⟨[], [⟨.blank, ['\t']⟩]⟩

theorem sound_lineEndRow : lineEndRow.Sound :=
  ⟨lexed_cons.2 ⟨reads_blank isBlank_lineFeed _, lexed_nil⟩, by decide, by decide, by decide,
    .inl rfl⟩

theorem sound_tabRow : tabRow.Sound :=
  ⟨lexed_cons.2 ⟨reads_blank (by decide) _, lexed_nil⟩, by decide, by decide, by decide,
    .inl rfl⟩

/-- Statements on lines of their own, as rows. -/
def lineRows (bs : List (List Piece)) : List Row :=
  bs.flatMap fun b => [tabRow, ⟨b, [lineEnd]⟩]

theorem sound_lineRows (h : ∀ b ∈ bs, StandsAlone b) : ∀ r ∈ lineRows bs, r.Sound := by
  intro r hr
  obtain ⟨b, hb, hr⟩ := mem_flatMap.1 hr
  rcases mem_cons.1 hr with rfl | hr
  · exact sound_tabRow
  · rw [mem_singleton.1 hr]
    exact (h b hb).sound

theorem textOf_lineRows (bs : List (List Piece)) :
    textOf (Row.flatten (lineRows bs)) = (bs.map textOf).flatMap bodyLine := by
  induction bs with
  | nil => rfl
  | cons b bs ih =>
    have hcons : lineRows (b :: bs) = [tabRow, ⟨b, [lineEnd]⟩] ++ lineRows bs := rfl
    rw [hcons, Row.flatten_append, textOf_append, ih, map_cons, flatMap_cons]
    simp [Row.pieces, tabRow, lineEnd, bodyLine]

theorem bodies_lineRows (h : ∀ b ∈ bs, b ≠ []) : Row.bodies (lineRows bs) = bs := by
  induction bs with
  | nil => rfl
  | cons b bs ih =>
    have hcons : lineRows (b :: bs) = [tabRow, ⟨b, [lineEnd]⟩] ++ lineRows bs := rfl
    rw [hcons, Row.bodies_append, ih fun b' hb' => h b' (mem_cons_of_mem b hb')]
    simp [Row.bodies_cons, tabRow, h b mem_cons_self]

/-- What stands in an entry function in front of the input. -/
def leadRows (bs : List (List Piece)) : List Row :=
  lineEndRow :: lineRows bs ++ [tabRow]

theorem sound_leadRows (h : ∀ b ∈ bs, StandsAlone b) : ∀ r ∈ leadRows bs, r.Sound := by
  intro r hr
  rw [leadRows, mem_append, mem_cons, mem_singleton] at hr
  rcases hr with (rfl | hr) | rfl
  · exact sound_lineEndRow
  · exact sound_lineRows h r hr
  · exact sound_tabRow

theorem textOf_leadRows (bs : List (List Piece)) :
    textOf (Row.flatten (leadRows bs)) = '\n' ::
      ((bs.map textOf).flatMap bodyLine ++ ['\t']) := by
  rw [leadRows, Row.flatten_append, textOf_append, Row.flatten_cons, textOf_append,
    textOf_lineRows]
  rfl

theorem bodies_leadRows (h : ∀ b ∈ bs, b ≠ []) : Row.bodies (leadRows bs) = bs := by
  rw [leadRows, Row.bodies_append, Row.bodies_cons, bodies_lineRows h]
  simp [lineEndRow, tabRow, Row.bodies]

/-- A row in front of the input holds one of the lines, or nothing. -/
theorem body_of_mem_leadRows (h : r ∈ leadRows bs) : r.body = [] ∨ r.body ∈ bs := by
  rw [leadRows, mem_append, mem_cons, mem_singleton] at h
  rcases h with (rfl | h) | rfl
  · exact .inl rfl
  · obtain ⟨b, hb, h⟩ := mem_flatMap.1 h
    rcases mem_cons.1 h with rfl | h
    · exact .inl rfl
    · rw [mem_singleton.1 h]
      exact .inr hb
  · exact .inl rfl

/-! ### The input in the entry function -/

/-- A statement ends in a token, and not in white space. -/
theorem Row.Sound.exists_body_last (h : r.Sound) (hne : r.body ≠ []) :
    ∃ p ∈ r.body, p.isFiller = false ∧
      ∃ c, (textOf r.body).getLast? = some c ∧ isBlank c = false := by
  have hstatement := (h.body.resolve_left hne).1
  obtain ⟨p, hp⟩ := Option.isSome_iff_exists.1 (getLast?_isSome.2 hne)
  have hmem := mem_of_getLast? hp
  have hspelled := h.spelled (mem_append_left r.gap hmem)
  obtain ⟨k, hk⟩ := Piece.isToken_iff.1 (hstatement.back p hp)
  obtain ⟨qs, hqs⟩ := getLast?_eq_some_iff.1 hp
  obtain ⟨c, hc⟩ := Option.isSome_iff_exists.1
    (getLast?_isSome.2 (h.lexed.text_ne_nil (mem_append_left r.gap hmem)))
  refine ⟨p, hmem, hstatement.isFiller_getLast hp, c, ?_,
    Piece.last_nonblank hspelled (by simp [hk]) (hstatement.isLine_eq_false hp) c hc⟩
  rw [hqs, textOf_append, textOf_cons, textOf_nil, append_nil, getLast?_append, hc]
  rfl

/-- The rows of a trimmed input: rows as they are, and a last one that ends as the input does,
and in any remark.  All but the first hold a statement, and behind the last statement stands
what stood there. -/
theorem exists_givenRows (h : RowsOf input rows) :
    ∃ init last ending, (∀ r ∈ init, r.Sound) ∧ Row.bodies (init ++ [last]) =
      Row.bodies rows ∧
      Text.trim input = textOf (Row.flatten (init ++ [last])) ++ ending ∧
      (∀ r ∈ (init ++ [last]).tail, r.body ≠ []) ∧
      (∀ w, IsRemark w → ∃ rest, textOf rest = ending ++ w ++ ['\n'] ∧
        Row.Sound ⟨last.body, last.gap ++ rest⟩) ∧
      (last.body ≠ [] → textOf last.gap ++ ending = Text.trimEnd (trailing input)) := by
  have hlaid := h.laid.trimStart
  have hclosed := lexicallyClosed_of_lineFeed hlaid.lexicallyClosed
  obtain ⟨rows₁, hrows₁, hflat₁, hbodies₁⟩ := hlaid
  obtain ⟨rows₂, hrows₂, hflat₂, hbodies₂, htail⟩ := Row.exists_joined hrows₁
  rw [hflat₁, pieces_append_lineFeed hclosed] at hflat₂
  obtain ⟨init, r, gap, rs, ending, rfl, hnone, htrim, hends⟩ :=
    Row.exists_ended hrows₂ hflat₂ hclosed
  refine ⟨init, ⟨r.body, gap⟩, ending, fun q hq =>
    hrows₂ q (mem_append_left _ hq), ?_, ?_, ?_, hends, ?_⟩
  · rw [← hbodies₁, ← hbodies₂, Row.bodies_append, Row.bodies_append, Row.bodies_cons,
      Row.bodies_cons, hnone]
    rfl
  · rw [Text.trim, htrim]
    simp [Row.pieces]
  · intro q hq
    cases init with
    | nil => cases hq
    | cons r₀ init =>
      rcases mem_append.1 hq with hq | hq
      · exact htail q (mem_append_left _ hq)
      · rw [mem_singleton.1 hq]
        exact htail r (mem_append_right init mem_cons_self)
  · intro hne
    have hr : r.Sound := hrows₂ r (by simp)
    have hgap := textOf_gap_eq hr (fun q hq => hrows₂ q (by simp [hq])) hflat₂ hne hnone
    have htext : Text.trimStart input =
        textOf (Row.flatten init ++ r.body) ++ trailing (Text.trimStart input) := by
      have hall := congrArg textOf hflat₂
      rw [textOf_append, textOf_pieces, Row.flatten_append, Row.flatten_cons, Row.pieces,
        append_assoc, ← append_assoc, textOf_append, hgap,
        ← append_assoc] at hall
      exact (append_cancel_right hall).symm
    obtain ⟨p, hp, hfiller, c, hc, hblank⟩ := hr.exists_body_last hne
    have hlast : (textOf (Row.flatten init ++ r.body)).getLast? = some c := by
      rw [textOf_append, getLast?_append, hc]
      rfl
    have hpieces : p ∈ Lexer.pieces (Text.trimStart input) := by
      have hmem : p ∈ Lexer.pieces (Text.trimStart input) ++ [lineEnd] := by
        rw [← hflat₂, Row.flatten_append, Row.flatten_cons, Row.pieces]
        simp [hp]
      refine (mem_append.1 hmem).resolve_right fun hline => ?_
      rw [mem_singleton.1 hline] at hfiller
      cases hfiller
    rw [htext, Text.trimEnd_append hlast hblank, trailing_trimStart ⟨p, hpieces, hfiller⟩,
      textOf_append, textOf_append, append_assoc, append_assoc,
      append_assoc] at htrim
    exact (append_cancel_left (append_cancel_left htrim)).symm

/-! ### The last value is shown -/

/-- Behind a display of the input the next row holds a statement. -/
theorem steady_append (hlead : ∀ r ∈ lead, displays r.body = false)
    (hgiven : ∀ r ∈ given.tail, r.body ≠ []) {rs qs : List Row} {q : Row}
    (h : lead ++ given = rs ++ r :: q :: qs) (hdisplays : displays r.body = true) :
    q.body ≠ [] := by
  rcases append_eq_append_iff.1 h with ⟨x, -, hx⟩ | ⟨x, hx, hrest⟩
  · refine hgiven q ?_
    rw [hx]
    cases x <;> simp
  · cases x with
    | nil =>
      rw [nil_append] at hrest
      rw [← hrest] at hgiven
      exact hgiven q (by simp)
    | cons r' x =>
      obtain ⟨rfl, -⟩ := List.cons.inj hrest
      rw [hlead r (hx ▸ mem_append_right _ mem_cons_self)] at hdisplays
      cases hdisplays

/-- Rows in front that capture names or hold no statement stay. -/
theorem shown_append (hkept : ∀ r ∈ lead, r.body = [] ∨ capturesOf r.body ≠ [])
    (h : Forall₂ Shown (lead ++ given) rows) :
    ∃ given', rows = lead ++ given' ∧ Forall₂ Shown given given' := by
  induction lead generalizing rows with
  | nil => exact ⟨rows, rfl, h⟩
  | cons r lead ih =>
    obtain ⟨r', rows', hr, hrows, rfl⟩ := forall₂_cons_left_iff.1 h
    obtain rfl := hr.eq_self (hkept r mem_cons_self)
    obtain ⟨given', rfl, hgiven⟩ := ih (fun q hq => hkept q (mem_cons_of_mem _ hq)) hrows
    exact ⟨given', rfl, hgiven⟩

/-- No storing call comes into rows. -/
theorem storesValue_shown {rows' : List Row} (h : Forall₂ Shown rows rows')
    (hcalls : ∀ b ∈ Row.bodies rows, storesValue b = false) :
    ∀ b ∈ Row.bodies rows', storesValue b = false := by
  induction h with
  | nil => exact hcalls
  | @cons r r' rs rs' hr _ ih =>
    intro b hb
    rw [Row.bodies_cons] at hcalls hb
    rcases mem_append.1 hb with hb | hb
    · split at hb
      · cases hb
      · rw [mem_singleton.1 hb]
        refine hr.storesValue_eq ?_
        by_cases hnil : r.body = []
        · rw [hnil]
          rfl
        · exact hcalls r.body (by simp [hnil])
    · exact ih (fun c hc => hcalls c (mem_append_right _ hc)) b hb

/-- A program with its last value shown, row by row, whoever says how many results a call
has. -/
theorem Kernel.display_framed {σ : Type} {tools : Toolchain σ} {w w' : World σ}
    (hfront : IsFront front) (hrows : ∀ r ∈ init ++ [last], r.Sound)
    (hsteady : ∀ rs r q qs, init ++ [last] = rs ++ r :: q :: qs → displays r.body = true →
      q.body ≠ [])
    {before : Text} (hmark : textOf last.gap = before ++ inputMark ++ "\n")
    {cache : ArityCache}
    (hdisplay : k.display tools (framed front (init ++ [last])) w = .ok (shown, cache, w')) :
    ∃ init' last', shown = framed front (init' ++ [last']) ∧
      (∀ r ∈ init' ++ [last'], r.Sound) ∧
      Forall₂ Shown init init' ∧ Shown last last' ∧ last'.gap = last.gap := by
  obtain ⟨found, hfound, hdisplay⟩ := Checked.bind_eq_ok.1 hdisplay
  cases found with
  | none =>
    cases hdisplay
    exact ⟨init, last, rfl, hrows, forall₂_same.2 fun r _ => .kept r, .kept last, rfl⟩
  | some p =>
    have happlied : ∃ answer, p.apply answer = .ok shown := by
      dsimp only at hdisplay
      cases hquery : p.query? with
      | none =>
        rw [hquery] at hdisplay
        obtain ⟨text, htext, hdisplay⟩ := Checked.bind_eq_ok.1 hdisplay
        cases hdisplay
        exact ⟨none, htext⟩
      | some q =>
        rw [hquery] at hdisplay
        obtain ⟨⟨answer, cache', w₁⟩, -, hdisplay⟩ := Checked.bind_eq_ok.1 hdisplay
        obtain ⟨text, htext, hdisplay⟩ := Checked.bind_eq_ok.1 hdisplay
        cases hdisplay
        exact ⟨answer, htext⟩
    obtain ⟨answer, happly⟩ := happlied
    exact DisplayPlan.apply_framed hfront hrows hsteady hmark hfound happly

/-! ### The mark is taken out -/

theorem mark_notInfix_cons {c : Char} (hc : c ∉ inputMark) :
    inputMark <:+: c :: t ↔ inputMark <:+: t := by
  have hnil : ¬inputMark <:+: [] := by decide
  have := Text.infix_append_cons (a := []) (b := t) hc
  rwa [nil_append, or_iff_right hnil] at this

theorem mark_notInfix_lines (hls : ∀ l ∈ ls, ¬inputMark <:+: l) (ht : ¬inputMark <:+: t) :
    ¬inputMark <:+: ls.flatMap bodyLine ++ t := by
  have htab : '\t' ∉ inputMark := by decide
  have hline : '\n' ∉ inputMark := by decide
  induction ls with
  | nil => exact ht
  | cons l ls ih =>
    have hcons : (l :: ls).flatMap bodyLine ++ t = '\t' ::
        (l ++ '\n' :: (ls.flatMap bodyLine ++ t)) := by
      simp [bodyLine]
    rw [hcons, mark_notInfix_cons htab, Text.infix_append_cons hline, not_or]
    exact ⟨hls l mem_cons_self, ih fun m hm => hls m (mem_cons_of_mem l hm)⟩

/-- What stands in front of the mark holds none, if its parts hold none. -/
theorem mark_notInfix_program (hfront : ¬inputMark <:+: front)
    (hls : ∀ l ∈ ls, ¬inputMark <:+: l) (ht : ¬inputMark <:+: t) :
    ¬inputMark <:+: front ++ entryOpening ++
      ('\n' :: (ls.flatMap bodyLine ++ ['\t'])) ++ t := by
  have hopening : entryOpening = 'f' :: ("unc main() " ++ ['\x7b']) := rfl
  have hassoc : ∀ u lines : Text, front ++ ('f' :: (u ++ ['\x7b'])) ++
    ('\n' :: (lines ++ ['\t'])) ++ t =
      front ++ 'f' :: (u ++ '\x7b' :: '\n' :: (lines ++ '\t' :: t)) := by
    intros
    simp
  have hname : ¬inputMark <:+: ("unc main() " : Text) := by decide
  have hword : 'f' ∉ inputMark := by decide
  have hbrace : '\x7b' ∉ inputMark := by decide
  have hline : '\n' ∉ inputMark := by decide
  have htab : '\t' ∉ inputMark := by decide
  rw [hopening, hassoc, Text.infix_append_cons hword, not_or,
    Text.infix_append_cons hbrace, not_or, mark_notInfix_cons hline]
  refine ⟨hfront, hname, mark_notInfix_lines hls ?_⟩
  rwa [mark_notInfix_cons htab]

theorem mark_notInfix_programFront (h : ∀ d ∈ ds, ¬inputMark <:+: d.source) :
    ¬inputMark <:+: programFront ds := by
  have hline : '\n' ∉ inputMark := by decide
  have hpackage : ¬inputMark <:+: packageLine := by decide
  have hall : ∀ d ∈ Declaration.importsFirst ds, ¬inputMark <:+: d.source := fun d hd =>
    h d (Declaration.mem_importsFirst.1 hd)
  have hrender : ¬inputMark <:+: Declaration.render ds := by
    have heq : Declaration.render ds =
        (Declaration.importsFirst ds).flatMap fun d => Text.trim d.source ++
          ("\n\n" : Text) := rfl
    rw [heq]
    clear heq
    generalize Declaration.importsFirst ds = ordered at hall
    induction ordered with
    | nil => decide
    | cons d ds ih =>
      have hcons : ((d :: ds).flatMap fun d => Text.trim d.source ++ ("\n\n" : Text)) =
          Text.trim d.source ++ '\n' :: '\n' ::
            ds.flatMap fun d => Text.trim d.source ++ ("\n\n" : Text) := by
        simp
      rw [hcons, Text.infix_append_cons hline, mark_notInfix_cons hline, not_or]
      exact ⟨fun htrim => hall d mem_cons_self (htrim.trans Text.infix_trim),
        ih fun e he => hall e (mem_cons_of_mem d he)⟩
  have hfront : programFront ds = packageLine ++ '\n' :: '\n' :: Declaration.render ds := by
    rw [programFront, append_assoc]
    rfl
  rw [hfront, Text.infix_append_cons hline, mark_notInfix_cons hline, not_or]
  exact ⟨hpackage, hrender⟩

/-- The text of a program, up to the end of its last row. -/
theorem framed_concat (front : Text) (bs : List (List Piece)) (given : List Row)
    (body gap rest : List Piece) :
    framed front ((leadRows bs ++ given) ++ [⟨body, gap ++ rest⟩]) =
      front ++ entryOpening ++ ('\n' :: ((bs.map textOf).flatMap bodyLine ++ ['\t'])) ++
        (textOf (Row.flatten given) ++ textOf (body ++ gap)) ++ textOf rest ++ "\x7d\n" := by
  have hassoc : ∀ a b c d e x y : Text, a ++ b ++ (c ++ d ++ (e ++ (x ++ y))) =
      a ++ b ++ c ++ (d ++ (e ++ x)) ++ y := by
    intros
    simp only [append_assoc]
  have hrow : Row.flatten [⟨body, gap ++ rest⟩] = body ++ (gap ++ rest) := by
    simp [Row.pieces]
  rw [framed, Row.flatten_append, Row.flatten_append, hrow, textOf_append, textOf_append,
    textOf_leadRows, textOf_append body, textOf_append gap, hassoc, textOf_append body]

/-- The rows of a program when the mark behind the last one is taken out. -/
theorem stripMark_framed (hfront : ¬inputMark <:+: front)
    (hbs : ∀ b ∈ bs, ¬inputMark <:+: textOf b) {body : List Piece}
    (hmarked : textOf marked = ending ++ (" " ++ inputMark) ++ ['\n'])
    (hplain : textOf plain = ending ++ ['\n'])
    (hfree : ¬inputMark <:+: textOf (Row.flatten given) ++ textOf (body ++ gap) ++ ending) :
    stripMark (framed front ((leadRows bs ++ given) ++ [⟨body, gap ++ marked⟩])) =
      framed front ((leadRows bs ++ given) ++ [⟨body, gap ++ plain⟩]) := by
  have hline : '\n' ∉ inputMark := by decide
  have hend : ¬inputMark <:+: ("\n\x7d\n" : Text) := by decide
  have hbrace : ¬inputMark <:+: ("\x7d\n" : Text) := by decide
  have hlines : ∀ l ∈ bs.map textOf, ¬inputMark <:+: l := by
    intro l hl
    obtain ⟨b, hb, rfl⟩ := mem_map.1 hl
    exact hbs b hb
  let lead : Text :=
    front ++ entryOpening ++ ('\n' :: ((bs.map textOf).flatMap bodyLine ++ ['\t']))
  let mid : Text := textOf (Row.flatten given) ++ textOf (body ++ gap)
  have hbefore : ¬inputMark <:+: lead ++ (mid ++ ending) :=
    mark_notInfix_program hfront hlines hfree
  have hboth : ¬inputMark <:+: lead ++ (mid ++ ending) ++ "\n\x7d\n" := by
    have hcons : lead ++ (mid ++ ending) ++ ("\n\x7d\n" : Text) =
        lead ++ (mid ++ ending) ++ '\n' :: ("\x7d\n" : Text) := rfl
    rw [hcons, Text.infix_append_cons hline, not_or]
    exact ⟨hbefore, hbrace⟩
  have hmarkedText : framed front ((leadRows bs ++ given) ++ [⟨body, gap ++ marked⟩]) =
      lead ++ (mid ++ ending) ++ (" " ++ inputMark) ++ "\n\x7d\n" := by
    have hassoc : ∀ a b e m n x : Text, a ++ b ++ (e ++ m ++ n) ++ x =
        a ++ (b ++ e) ++ m ++ (n ++ x) := by
      intros
      simp only [append_assoc]
    rw [framed_concat, hmarked]
    exact hassoc lead mid ending (" " ++ inputMark) ['\n'] "\x7d\n"
  have hplainText : framed front ((leadRows bs ++ given) ++ [⟨body, gap ++ plain⟩]) =
      lead ++ (mid ++ ending) ++ "\n\x7d\n" := by
    have hassoc : ∀ a b e n x : Text, a ++ b ++ (e ++ n) ++ x = a ++ (b ++ e) ++
        (n ++ x) := by
      intros
      simp only [append_assoc]
    rw [framed_concat, hplain]
    exact hassoc lead mid ending ['\n'] "\x7d\n"
  rw [hmarkedText, hplainText]
  exact stripMark_eq hbefore hend hboth

/-- An input without half a mark holds no mark when its last value is shown. -/
theorem mark_notInfix_shown (hfree : ¬markTail <:+: input) {full last' : Row}
    (htrim : input.trim = textOf (Row.flatten (init ++ [last])) ++ ending)
    (hplain : textOf plain = ending ++ ['\n']) (hshown : Forall₂ Shown init given)
    (hlast : Shown full last') (hbody : full.body = last.body)
    (hsound : ∀ r ∈ given ++ [⟨last'.body, last.gap ++ plain⟩], Row.Sound r) :
    ¬inputMark <:+: textOf (Row.flatten given) ++
      textOf (last'.body ++ last.gap) ++ ending := by
  have hinput : ∀ t, t <:+: input.trim → ¬markTail <:+: t := fun t ht h =>
    hfree (h.trans (ht.trans Text.infix_trim))
  have hrows : ∀ r ∈ given ++ [⟨last'.body, last.gap ++ plain⟩],
      ¬markTail <:+: textOf (Row.pieces r) := by
    intro r hr
    rcases mem_append.1 hr with hr | hr
    · obtain ⟨r₀, hr₀, hshown₀⟩ := exists_of_forall₂ hshown hr
      refine hshown₀.tail_notInfix (hinput _ ?_)
      rw [htrim]
      exact (Row.infix_flatten (mem_append_left _ hr₀)).trans
        (prefix_append _ _).isInfix
    · have hline : '\n' ∉ markTail := by decide
      have hnil : ¬markTail <:+: [] := by decide
      rw [mem_singleton.1 hr, Row.pieces, textOf_append]
      refine hlast.tail_notInfix_append ?_
      have hcons : textOf full.body ++ textOf (last.gap ++ plain) =
          textOf full.body ++ textOf last.gap ++ ending ++ '\n' :: [] := by
        simp [hplain]
      rw [hcons, Text.infix_append_cons hline, or_iff_left hnil]
      refine hinput _ ?_
      rw [htrim, hbody]
      exact ⟨textOf (Row.flatten init), [], by simp [Row.pieces]⟩
  have hmark := Row.mark_notInfix_flatten hsound hrows
  refine fun h => hmark (h.trans ⟨[], ['\n'], ?_⟩)
  simp [Row.pieces, hplain]

/-- What stands behind the last statement of a program, with the mark at its end. -/
theorem textOf_markedGap (hmarked : textOf marked = ending ++ (" " ++ inputMark) ++ ['\n']) :
    textOf (gap ++ marked) = (textOf gap ++ ending) ++ " " ++ inputMark ++ "\n" := by
  have hassoc : ∀ a b c d e : Text, a ++ (b ++ (c ++ d) ++ e) = a ++ b ++ c ++ d ++ e := by
    intros
    simp only [append_assoc]
  rw [textOf_append, hmarked, hassoc]
  rfl

/-- The inside of an entry function, made of the rows in front of the input and those of the
input with the mark behind them. -/
theorem textOf_markedRows {lines : List Text}
    (hlead : textOf (Row.flatten lead) = '\n' :: (lines.flatMap bodyLine ++ ['\t']))
    (htrim : Text.trim input = textOf (Row.flatten (init ++ [last])) ++ ending)
    (hmarked : textOf marked = ending ++ (" " ++ inputMark) ++ ['\n']) :
    textOf (Row.flatten ((lead ++ init) ++ [⟨last.body, last.gap ++ marked⟩])) =
      insideText lines input := by
  have htrim' : input.trim =
      textOf (Row.flatten init) ++ (textOf last.body ++ textOf last.gap) ++ ending := by
    rw [htrim]
    simp [Row.pieces]
  rw [insideText, htrim']
  simp only [Row.flatten_append, Row.flatten_cons, Row.flatten_nil, append_nil,
    textOf_append, Row.pieces, hlead, hmarked, append_assoc, cons_append]
  rfl

/-- A line that captures a name displays nothing. -/
theorem displays_eq_false {b : List Piece} (h : b = [] ∨ capturesOf b ≠ []) :
    displays b = false := by
  cases hd : displays b with
  | false => rfl
  | true =>
    rcases h with rfl | hcaptures
    · cases hd
    · exact absurd (capturesOf_of_displays hd) hcaptures

/-- The rows of a turn's program when its last value is shown and its mark is taken out: the
lines that bring variables back, and the rows of the input, which capture what they
captured. -/
theorem display_strips {σ : Type} {tools : Toolchain σ} {k : Kernel} {w w' : World σ}
    {ds : List Declaration} (hfront : IsFront (programFront ds))
    (hdeclared : ∀ d ∈ ds, ¬inputMark <:+: d.source) {bs : List (List Piece)}
    (hbs : ∀ b ∈ bs, StandsAlone b ∧ capturesOf b ≠ [] ∧ ¬inputMark <:+: textOf b)
    {input : Text} {rows : List Row} (hrows : RowsOf input rows)
    (hfree : ¬markTail <:+: input) {shown : Text} {cache : ArityCache}
    (hdisplay : k.display tools (programText ds ((bs.map textOf).flatMap bodyLine)
      (input.trim ++ " " ++ inputMark)) w = .ok (shown, cache, w')) :
    ∃ given, (∀ r ∈ given, r.Sound) ∧
      stripMark shown = framed (programFront ds) (leadRows bs ++ given) ∧
      (Row.bodies given).flatMap capturesOf = (Row.bodies rows).flatMap capturesOf ∧
      ((∀ b ∈ Row.bodies rows, storesValue b = false) →
        ∀ b ∈ Row.bodies given, storesValue b = false) := by
  obtain ⟨init, last, ending, hinit, hbodies, htrim, htail, hends, -⟩ :=
    exists_givenRows hrows
  obtain ⟨marked, hmarked, hmarkedSound⟩ :=
    hends (" " ++ inputMark) (.inr ⟨" :INPUT", rfl, by decide⟩)
  obtain ⟨plain, hplain, hplainSound⟩ := hends [] (.inl rfl)
  have hlead := sound_leadRows fun b hb => (hbs b hb).1
  let full : Row := ⟨last.body, last.gap ++ marked⟩
  -- The program is made of these rows.
  have hsound : ∀ r ∈ (leadRows bs ++ init) ++ [full], r.Sound := by
    intro r hr
    simp only [mem_append, mem_singleton] at hr
    rcases hr with (hr | hr) | rfl
    · exact hlead r hr
    · exact hinit r hr
    · exact hmarkedSound
  rw [programText_eq (textOf_markedRows (textOf_leadRows bs) htrim hmarked)] at hdisplay
  have hkept : ∀ r ∈ leadRows bs, r.body = [] ∨ capturesOf r.body ≠ [] := by
    intro r hr
    exact (body_of_mem_leadRows hr).imp_right fun hb => (hbs r.body hb).2.1
  have hsteady : ∀ rs r q qs, (leadRows bs ++ init) ++ [full] = rs ++ r :: q :: qs →
      displays r.body = true → q.body ≠ [] := by
    intro rs r q qs hsplit hdisplays
    rw [append_assoc] at hsplit
    refine steady_append ?_ ?_ hsplit hdisplays
    · exact fun r hr => displays_eq_false (hkept r hr)
    · intro r hr
      cases init with
      | nil => cases hr
      | cons r₀ init =>
        rcases mem_append.1 hr with hr | hr
        · exact htail r (mem_append_left _ hr)
        · rw [mem_singleton.1 hr]
          exact htail last (mem_append_right init (mem_singleton_self last))
  obtain ⟨init', last', rfl, hsound', hinitShown, hlastShown, hgap⟩ :=
    Kernel.display_framed hfront hsound hsteady (textOf_markedGap hmarked) hdisplay
  -- Lines that bring variables back capture names, so they stay.
  obtain ⟨given, rfl, hgivenShown⟩ := shown_append hkept hinitShown
  let rest : Row := ⟨last'.body, last.gap ++ plain⟩
  have hrest : rest.Sound := hlastShown.sound_regap hplainSound
  have hgiven : ∀ r ∈ given ++ [rest], r.Sound := by
    intro r hr
    rcases mem_append.1 hr with hr | hr
    · exact hsound' r (mem_append_left _ (mem_append_right _ hr))
    · rw [mem_singleton.1 hr]
      exact hrest
  have hlastRow : last' = ⟨last'.body, last.gap ++ marked⟩ := by
    have hgap' : last'.gap = last.gap ++ marked := hgap
    rw [← hgap']
  have hall : Forall₂ Shown (init ++ [full]) (given ++ [last']) :=
    rel_append hgivenShown (.cons hlastShown .nil)
  have hbodiesShown : Row.bodies (given ++ [rest]) = Row.bodies (given ++ [last']) := by
    rw [Row.bodies_append, Row.bodies_append]
    rfl
  have hbodiesGiven : Row.bodies (init ++ [full]) = Row.bodies rows := by
    rw [← hbodies, Row.bodies_append, Row.bodies_append]
    rfl
  refine ⟨given ++ [rest], hgiven, ?_, ?_, ?_⟩
  · rw [hlastRow, ← append_assoc]
    refine stripMark_framed (mark_notInfix_programFront hdeclared)
      (fun b hb => (hbs b hb).2.2) hmarked
      (by simpa using hplain) ?_
    exact mark_notInfix_shown hfree htrim (by simpa using hplain) hgivenShown
      hlastShown rfl hgiven
  · rw [hbodiesShown, flatMap_capturesOf_shown hall, hbodiesGiven]
  · intro hcalls b hb
    rw [hbodiesShown] at hb
    rw [← hbodiesGiven] at hcalls
    exact storesValue_shown hall hcalls b hb

end Notebook
