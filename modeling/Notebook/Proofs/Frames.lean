import Notebook.Proofs.Demotion
import Notebook.Proofs.Enclosures

/-!
# Programs around rows

A program is a front of package-level rows, and an entry function whose body is made of rows.
The entry function is found where it stands, because no row of the front begins one, and its
body is what stands between its braces, because rows are balanced.  So the statements of the
body are those of its rows.

## Main statements

* `entryPoint_framed`: the entry point of such a program
* `bodyStatements_framed`, `spells_framed`: the statements of its body
-/

namespace Notebook

open Lexer List

variable {bs : List (List Piece)} {rows : List Row} {t : Text}

/-- Pieces that do not begin an entry function. -/
def NoEntry (ps : List Piece) : Prop :=
  Source.entryIndex 0 (scan .start false ps) = none

/-- A text that is read on its own, whatever follows, and whose brackets are balanced. -/
structure IsBlock (t : Text) : Prop where
  closed : LexicallyClosed t
  seam : ∀ qs, Seam (Lexer.pieces t) qs
  pending : pendingAfter false (Lexer.pieces t) = false
  nest : nest 0 (kinds false (Lexer.pieces t)) = some 0

/-- A text in front of an entry function: it is read on its own, whatever follows, its
brackets are balanced, and it begins no entry function. -/
structure IsFront (t : Text) : Prop where
  closed : LexicallyClosed t
  seam : ∀ qs, Seam (Lexer.pieces t) qs
  pending : pendingAfter false (Lexer.pieces t) = false
  nest : nest 0 (kinds false (Lexer.pieces t)) = some 0
  noEntry : NoEntry (Lexer.pieces t)

namespace Source

theorem entryIndex_semis {ts : List Token} (h : ∀ t ∈ ts, t.kind = .semi) (us : List Token) :
    entryIndex 0 (ts ++ us) = (entryIndex 0 us).map (· + ts.length) := by
  induction ts with
  | nil => simp
  | cons t ts ih =>
    obtain ⟨ht, hts⟩ := forall_mem_cons.1 h
    have hstart : startsEntry (t :: (ts ++ us)) = false := by
      cases hs : startsEntry (t :: (ts ++ us)) with
      | false => rfl
      | true =>
        obtain ⟨f, m, l, r, b, rest, heq, hf, -⟩ := startsEntry_iff.1 hs
        rw [← (List.cons.inj heq).1, ht] at hf
        cases hf
    have hdepth : depthAfter 0 t.kind = 0 := by
      rw [ht]
      rfl
    rw [cons_append, entryIndex, hstart, Bool.and_false,
      if_neg Bool.false_ne_true, hdepth, ih hts,
      Option.map_map]
    rfl

/-- An entry function is looked for behind a row that begins none. -/
theorem entryIndex_row {r : Row} (h : r.Sound) (hno : r.body ≠ [] → NoEntry r.body)
    (here : Position) (us : List Token) :
    entryIndex 0 (scan here false r.pieces ++ us) =
      (entryIndex 0 us).map (· + (kinds false r.pieces).length) := by
  have hgap := scan_fillers h.fillers
  rcases h.body with hnil | ⟨hstatement, hne⟩
  · have hpieces : r.pieces = r.gap := by rw [Row.pieces, hnil, nil_append]
    rw [hpieces, entryIndex_semis (hgap here false), length_scan]
  · have hnone : entryIndex 0 (scan here false r.body) = none := by
      rw [scan_eq_map, entryIndex_move]
      exact hno hstatement.ne_nil
    have hnest : nest 0 ((scan here false r.body).map Token.kind) = some 0 := by
      rw [map_kind_scan]
      exact Mode.nest_of_walk hstatement.whole
    have hhead :
      ∀ u, (scan (here.advance (textOf r.body)) (pendingAfter false r.body) r.gap ++
        us).head? = some u → continuesEntry u.kind = false := by
      intro u hu
      cases hscan : scan (here.advance (textOf r.body)) (pendingAfter false r.body) r.gap with
      | nil =>
        refine absurd ?_ hne
        rw [← map_kind_scan, hscan]
        rfl
      | cons semi semis =>
        rw [hscan] at hu
        cases hu
        rw [hgap _ _ u (hscan ▸ mem_cons_self)]
        rfl
    rw [Row.pieces, scan_append, append_assoc, entryIndex_append hnone hhead,
      foldl_depthAfter_of_nest hnest, entryIndex_semis (hgap _ _),
      Option.map_map, length_scan,
      length_scan, kinds_append, length_append]
    congr 1
    funext i
    simp only [Function.comp_apply]
    omega

theorem entryIndex_rows (h : ∀ r ∈ rows, r.Sound) (hno : ∀ b ∈ Row.bodies rows, NoEntry b)
    (here : Position) (us : List Token) :
    entryIndex 0 (scan here false (Row.flatten rows) ++ us) =
      (entryIndex 0 us).map (· + (kinds false (Row.flatten rows)).length) := by
  induction rows generalizing here with
  | nil => simp
  | cons r rs ih =>
    obtain ⟨hr, hrs⟩ := forall_mem_cons.1 h
    rw [Row.bodies_cons] at hno
    have hrow : r.body ≠ [] → NoEntry r.body := fun hne => hno r.body (by simp [hne])
    rw [Row.flatten_cons, scan_append, hr.pendingAfter_eq, append_assoc,
      entryIndex_row hr hrow, ih hrs fun b hb =>
      hno b (mem_append_right _ hb),
      Option.map_map, kinds_append, hr.pendingAfter_eq, length_append]
    congr 1
    funext i
    simp only [Function.comp_apply]
    omega

/-- Rows of a text that begins no entry function begin none. -/
theorem noEntry_of_rows (h : ∀ r ∈ rows, r.Sound) {here : Position} {us : List Token}
    (hnone : entryIndex 0 (scan here false (Row.flatten rows) ++ us) = none) :
    ∀ b ∈ Row.bodies rows, NoEntry b := by
  induction rows generalizing here with
  | nil => exact fun b hb => by cases hb
  | cons r rs ih =>
    obtain ⟨hr, hrs⟩ := forall_mem_cons.1 h
    rw [Row.flatten_cons, scan_append, hr.pendingAfter_eq, append_assoc] at hnone
    obtain ⟨hrow, hrest⟩ := entryIndex_eq_none_of_append hnone
    rw [map_kind_scan, foldl_depthAfter_of_nest hr.ended.nest_eq] at hrest
    intro b hb
    rw [Row.bodies_cons] at hb
    rcases mem_append.1 hb with hb | hb
    · split at hb
      · cases hb
      · rw [mem_singleton.1 hb, NoEntry]
        rw [Row.pieces, scan_append] at hrow
        have := (entryIndex_eq_none_of_append hrow).1
        rwa [scan_eq_map, entryIndex_move] at this
    · exact ih hrs hrest b hb

end Source

/-- Rows are a block. -/
theorem Laid.isBlock (h : Laid t bs) : IsBlock t := by
  obtain ⟨rows, hrows, hflat, rfl⟩ := h
  refine ⟨?_, ?_, ?_, ?_⟩
  · intro p hp
    rw [← hflat] at hp
    exact Row.closed_flatten hrows p hp
  · intro qs
    rw [← hflat]
    exact Row.seam_flatten (Row.ended_of_sound hrows) qs
  · rw [← hflat]
    exact Row.pendingAfter_flatten (Row.ended_of_sound hrows)
  · rw [← hflat]
    exact Row.nest_flatten (Row.ended_of_sound hrows)

theorem IsBlock.isFront (h : IsBlock t) (hno : NoEntry (Lexer.pieces t)) : IsFront t :=
  ⟨h.closed, h.seam, h.pending, h.nest, hno⟩

/-- Rows are a front, if none of them begins an entry function. -/
theorem Laid.isFront (h : Laid t bs) (hno : ∀ b ∈ bs, NoEntry b) : IsFront t := by
  refine h.isBlock.isFront ?_
  obtain ⟨rows, hrows, hflat, rfl⟩ := h
  have hnone := Source.entryIndex_rows hrows hno .start []
  rw [append_nil] at hnone
  rw [NoEntry, ← hflat, hnone]
  rfl

/-! ### The program -/

/-- How an entry function begins. -/
def entryOpening : Text := "func main() \x7b"

/-- The pieces with which an entry function begins. -/
def entryPieces : List Piece :=
  [⟨.token (.keyword .funcKw), "func"⟩, ⟨.blank, " "⟩, ⟨.token .ident, "main"⟩,
    ⟨.token (.opening .paren), "("⟩, ⟨.token (.closing .paren), ")"⟩, ⟨.blank, " "⟩,
    ⟨.token (.opening .brace), "\x7b"⟩]

/-- The brace that closes an entry function. -/
def closingBrace : Piece := ⟨.token (.closing .brace), ['\x7d']⟩

theorem lexed_closingBrace : Lexed [closingBrace] :=
  lexed_cons.2 ⟨reads_cons.2 rfl, lexed_nil⟩

/-- A front and an entry function around rows. -/
def framed (front : Text) (rows : List Row) : Text :=
  front ++ entryOpening ++ textOf (Row.flatten rows) ++ "\x7d\n"

theorem pieces_entryOpening : Lexer.pieces entryOpening = entryPieces := by
  decide +kernel

theorem textOf_entryPieces : textOf entryPieces = entryOpening := by
  decide +kernel

/-- The number of tokens in front of an entry function. -/
def frontCount (front : Text) : Nat :=
  (kinds false (Lexer.pieces front)).length

/-- Where the body of an entry function begins. -/
def bodyPlace (front : Text) : Position :=
  Position.start.advance (front ++ entryOpening)

/-- The entry point of a front and an entry function around rows. -/
def framedEntry (front : Text) (rows : List Row) : EntryPoint where
  openIndex := frontCount front + 4
  closeIndex := frontCount front + 5 + (kinds false (Row.flatten rows)).length
  bodyStart := Text.byteSize (front ++ entryOpening)
  bodyStop := Text.byteSize (front ++ entryOpening ++ textOf (Row.flatten rows))

/-- The pieces of a front and of the beginning of an entry function. -/
def openingOf (front : Text) : List Piece :=
  Lexer.pieces front ++ entryPieces

theorem textOf_openingOf (front : Text) :
    textOf (openingOf front) = front ++ entryOpening := by
  rw [openingOf, textOf_append, textOf_pieces, textOf_entryPieces]

theorem placeAfter_openingOf (front : Text) :
    placeAfter (openingOf front) = bodyPlace front := by
  rw [placeAfter, textOf_openingOf, bodyPlace]

theorem length_kinds_openingOf (front : Text) :
    (kinds false (openingOf front)).length = frontCount front + 5 := by
  rw [openingOf, kinds_append, length_append]
  rfl

theorem framed_eq (front : Text) (rows : List Row) :
    framed front rows =
      textOf (openingOf front ++ (Row.flatten rows ++ [closingBrace, lineEnd])) := by
  rw [framed, textOf_append, textOf_openingOf, textOf_append, append_assoc]
  rfl

theorem framedEntry_eq (front : Text) (rows : List Row) :
    framedEntry front rows = enclosedEntry (openingOf front) (Row.flatten rows) := by
  rw [framedEntry, enclosedEntry, length_kinds_openingOf, textOf_append, textOf_openingOf]
  rfl

/-- The beginning of an entry function behind a front is the first in the text. -/
theorem IsFront.isOpening {front : Text} (h : IsFront front) :
    IsOpening (openingOf front) where
  lexed := by
    refine lexed_append (lexed_pieces front) ?_ h.closed (h.seam _)
    rw [Lexed, textOf_entryPieces, pieces_entryOpening]
  last := ⟨⟨.token (.opening .brace), "\x7b"⟩, by
    rw [openingOf, getLast?_append]
    rfl, rfl⟩
  entry := by
    refine ⟨frontCount front, length_kinds_openingOf front, ?_⟩
    have hstart : ∀ here, Source.startsEntry (scan here false entryPieces) = true := by
      intro here
      rw [scan_eq_map, Source.startsEntry_move]
      decide +kernel
    have hnest : Notebook.nest 0 ((scan .start false (Lexer.pieces front)).map Token.kind) =
        some 0 := by
      rw [map_kind_scan]
      exact h.nest
    obtain ⟨f, m, l, r, b, rest, hscan, hf, -⟩ :=
      Source.startsEntry_iff.1 (hstart (Position.start.advance (textOf (Lexer.pieces front))))
    have hfirst := hstart (Position.start.advance (textOf (Lexer.pieces front)))
    rw [hscan] at hfirst
    have hhead : ∀ u, (f :: m :: l :: r :: b :: rest).head? = some u →
        Source.continuesEntry u.kind = false := by
      rintro u ⟨⟩
      rw [hf]
      rfl
    rw [openingOf, scan_append, h.pending, hscan, Source.entryIndex_append h.noEntry hhead,
      foldl_depthAfter_of_nest hnest, Source.entryIndex, hfirst, length_scan]
    simp [frontCount]

theorem isClosing_closingBrace : IsClosing [closingBrace, lineEnd] :=
  ⟨lexed_cons.2 ⟨reads_cons.2 rfl, lexed_cons.2 ⟨reads_blank isBlank_lineFeed _, lexed_nil⟩⟩,
    closingBrace, .brace, rfl, rfl⟩

section Framed

variable {front : Text} (hfront : IsFront front) (hrows : ∀ r ∈ rows, r.Sound)
include hfront hrows

theorem lexed_framed :
    Lexed (openingOf front ++ (Row.flatten rows ++ [closingBrace, lineEnd])) :=
  hfront.isOpening.lexed_append
    (Row.lexed_flatten_append (Row.ended_of_sound hrows) isClosing_closingBrace.lexed)

/-- The entry function is found where it stands. -/
theorem entryPoint_framed :
    (Source.ofText (framed front rows)).entryPoint = some (framedEntry front rows) := by
  rw [framed_eq, framedEntry_eq]
  exact entryPoint_enclosed hfront.isOpening isClosing_closingBrace
    (lexed_framed hfront hrows)
    (Row.nest_flatten (Row.ended_of_sound hrows))

/-- The tokens of the body. -/
theorem tokens_body_framed :
    ∃ rest, (Source.ofText (framed front rows)).tokens.drop (frontCount front + 5) =
      scan (bodyPlace front) false (Row.flatten rows) ++ rest := by
  have htokens := tokens_body_enclosed hfront.isOpening isClosing_closingBrace
    (lexed_framed hfront hrows)
  rwa [← framed_eq, length_kinds_openingOf, placeAfter_openingOf] at htokens

/-- The statements of the body are those of its rows. -/
theorem bodyStatements_framed :
    (Source.ofText (framed front rows)).bodyStatements (framedEntry front rows) =
      Row.placed (frontCount front + 5) (bodyPlace front) rows := by
  rw [framed_eq, framedEntry_eq,
    bodyStatements_enclosed hfront.isOpening isClosing_closingBrace
      (lexed_framed hfront hrows), length_kinds_openingOf, placeAfter_openingOf,
    Source.split_rows_nil (Row.ended_of_sound hrows)]

/-- The statements of the body are spelled by its rows. -/
theorem spells_framed :
    Forall₂ (fun st body => st.Spells (.ofText (framed front rows)) body)
      ((Source.ofText (framed front rows)).bodyStatements (framedEntry front rows))
      (Row.bodies rows) := by
  obtain ⟨rest, htokens⟩ := tokens_body_framed hfront hrows
  rw [bodyStatements_framed hfront hrows]
  have hsize : (front ++ entryOpening).byteSize = (bodyPlace front).offset := by
    simp [bodyPlace, Position.start]
  exact Row.spells_placed (Row.ended_of_sound hrows) htokens hsize
    ⟨"\x7d\n" ++ ['\n'], by simp [Source.ofText, framed]⟩

end Framed

end Notebook
