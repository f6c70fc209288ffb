import Notebook.Proofs.InputRows

/-!
# Reading the program of a turn

Every stage behind assembly works on the text of the program, and not on what it was made
from.  So the program has to be read as what was put into it: the accumulated declarations
stand in front of the entry function, and the statements of the entry function are first those
that bring variables back and then those of the input.  Nothing runs into its neighbour,
whatever line ends, comments and stray semicolons the parts bring with them, as long as each
part is complete.
-/

namespace Notebook

open Lexer List

variable {d : Declaration} {files : FileTree} {ds : List Declaration} {rows : List Row}
  {lines skipped : List Text} {session : Session} {s : Source} {input : Text}
  {store : ValueStore}

/-- Whether a text holds the beginning of an entry function, outside all brackets. -/
def DeclaresMain (t : Text) : Prop :=
  (Source.entryIndex 0 (Source.ofText t).tokens).isSome = true

instance (t : Text) : Decidable (DeclaresMain t) :=
  inferInstanceAs (Decidable (_ = _))

/-- A session whose variables can be written into a program: their names are identifiers,
their function literals are complete, and their recorded types can stand in brackets. -/
structure Session.Sayable (session : Session) (store : ValueStore) (files : FileTree) :
    Prop where
  names : ∀ n ∈ session.names, IsIdentifier n
  literals : ∀ n ∈ session.names, ∀ l, session.literal? n = some l → IsLiteral l
  types : ∀ n ∈ session.names, session.literal? n = none →
    ∀ t, store.typeTag files n = .ok (.value t) → IsTypeText t

/-- The texts of statements. -/
def Source.texts (s : Source) (statements : List Statement) : Checked (List Text) :=
  statements.mapM s.statementText

/-- Declarations in the order in which a program has them. -/
def Declaration.importsFirst (ds : List Declaration) : List Declaration :=
  ds.filter (·.kind == .importDecl) ++ ds.filter (·.kind != .importDecl)

/-! ### What stands in front of the entry function -/

theorem noEntry_of_not_declaresMain {t : Text} (h : ¬DeclaresMain t) :
    NoEntry (Lexer.pieces t) := by
  rw [DeclaresMain, Option.not_isSome_iff_eq_none, Source.tokens_ofText, scan_append,
    append_assoc] at h
  exact (Source.entryIndex_eq_none_of_append h).1

theorem Declaration.mem_importsFirst : d ∈ importsFirst ds ↔ d ∈ ds := by
  simp only [importsFirst, mem_append, mem_filter, bne]
  cases d.kind == .importDecl <;> simp

theorem Declaration.mem_put {e : Declaration} (h : e ∈ put ds d) : e ∈ ds ∨ e = d := by
  induction ds with
  | nil => exact .inr (mem_singleton.1 h)
  | cons a ds ih =>
    rw [put] at h
    split at h
    · rcases mem_cons.1 h with rfl | h
      · exact .inr rfl
      · exact .inl (mem_cons_of_mem a h)
    · rcases mem_cons.1 h with rfl | h
      · exact .inl mem_cons_self
      · exact (ih h).imp_left (mem_cons_of_mem a)

/-- Each of the accumulated declarations was there before or comes from the input. -/
theorem Declaration.mem_merge {es : List Declaration} (h : d ∈ merge ds es) :
    d ∈ ds ∨ d ∈ es := by
  induction es generalizing ds with
  | nil => exact .inl h
  | cons e es ih =>
    rcases ih h with h | h
    · rcases mem_put h with h | rfl
      · exact .inl h
      · exact .inr mem_cons_self
    · exact .inr (mem_cons_of_mem e h)

/-- The line that every program begins with. -/
def packageLine : Text := "package main"

/-- What stands in front of the entry function of a program. -/
def programFront (ds : List Declaration) : Text :=
  packageLine ++ "\n\n" ++ Declaration.render ds

theorem isWhole_packageLine : IsWhole packageLine :=
  ⟨by decide +kernel, by decide +kernel, ⟨0, 1, ⟨0, 12⟩, some 2⟩, by decide +kernel⟩

/-- The declarations of a program are rows, one for each. -/
theorem laid_programFront (h : ∀ d ∈ ds, StandsAlone (Lexer.pieces d.source)) :
    Laid (programFront ds) (Lexer.pieces packageLine ::
      (Declaration.importsFirst ds).map fun d => Lexer.pieces d.source) := by
  have hline : Laid ['\n'] [] := Laid.blank isBlank_lineFeed
  have hpackage : Laid (packageLine ++ "\n\n") [Lexer.pieces packageLine] := by
    have := isWhole_packageLine.standsAlone.laid.append hline
    rwa [textOf_pieces, append_assoc] at this
  refine Laid.append hpackage ?_
  have hall : ∀ d ∈ Declaration.importsFirst ds, StandsAlone (Lexer.pieces d.source) :=
    fun d hd =>
    h d (Declaration.mem_importsFirst.1 hd)
  have hrender : Declaration.render ds =
      (Declaration.importsFirst ds).flatMap fun d => Text.trim d.source ++ ("\n\n" : Text) :=
        rfl
  rw [hrender]
  clear hrender
  generalize Declaration.importsFirst ds = ordered at hall
  induction ordered with
  | nil => exact Laid.nil
  | cons d ds ih =>
    have hd := (hall d mem_cons_self).laid
    rw [textOf_pieces] at hd
    have htrim := (hd.trim_append (.inl rfl)).append hline
    rw [append_nil, append_assoc] at htrim
    exact htrim.append (ih fun e he => hall e (mem_cons_of_mem d he))

/-! ### What stands in the entry function -/

/-- What brings a variable back: its literal, or else what was stored at its type. -/
theorem mem_rehydrations_cases {r : Text × Text}
    (hr : r ∈ rehydrations session store files skipped) :
    r.1 ∈ session.names ∧
      ((∃ l, session.literal? r.1 = some l ∧ r.2 = replayStatement r.1 l) ∨
        ∃ type, session.literal? r.1 = none ∧ store.typeTag files r.1 = .ok (.value type) ∧
          r.2 = decodeStatement r.1 type) := by
  obtain ⟨name, hname, hr⟩ := mem_filterMap.1 hr
  obtain ⟨text, htext, rfl⟩ := Option.map_eq_some_iff.1 hr
  refine ⟨(mem_filter.1 hname).1, ?_⟩
  have hback : store.rehydration files name (session.literal? name) = .ok text := by
    cases hresult : store.rehydration files name (session.literal? name) with
    | error e =>
      rw [hresult] at htext
      cases htext
    | ok text' =>
      rw [hresult] at htext
      cases htext
      rfl
  unfold ValueStore.rehydration at hback
  split at hback
  next l hl =>
    cases hback
    exact .inl ⟨l, hl, rfl⟩
  next hl =>
    split at hback
    · cases hback
    · cases hback
    next type htype =>
      split at hback
      · cases hback
        exact .inr ⟨type, hl, htype, rfl⟩
      · cases hback

/-- A statement that brings a variable back may stand on a line of its own. -/
theorem standsAlone_of_mem_rehydrations (h : session.Sayable store files) {r : Text × Text}
    (hr : r ∈ rehydrations session store files skipped) : StandsAlone (Lexer.pieces r.2) := by
  obtain ⟨hname, ⟨l, hl, htext⟩ | ⟨type, hl, htype, htext⟩⟩ := mem_rehydrations_cases hr
  · have hline := standsAlone_replay (h.names r.1 hname) (h.literals r.1 hname l hl)
    rw [htext, ← textOf_replay, hline.pieces_textOf]
    exact hline
  · have hline := standsAlone_decode (h.names r.1 hname) (h.types r.1 hname hl type htype)
    rw [htext, ← textOf_decode, hline.pieces_textOf]
    exact hline

/-- The inside of an entry function: lines that bring variables back, then the marked
input. -/
def insideText (lines : List Text) (input : Text) : Text :=
  "\n" ++ lines.flatMap bodyLine ++ "\t" ++ (input.trim ++ " " ++ inputMark) ++ "\n"

theorem laid_insideText (h : ∀ l ∈ lines, StandsAlone (Lexer.pieces l))
    (hrows : RowsOf input rows) :
    Laid (insideText lines input) (lines.map Lexer.pieces ++ Row.bodies rows) := by
  have htab : Laid ['\t'] [] := Laid.blank (by decide)
  have hlines : Laid (lines.flatMap bodyLine) (lines.map Lexer.pieces) := by
    induction lines with
    | nil => exact Laid.nil
    | cons l ls ih =>
      have hl := (h l mem_cons_self).laid
      rw [textOf_pieces] at hl
      have hline : Laid (bodyLine l) [Lexer.pieces l] := by
        rw [bodyLine, append_assoc]
        exact htab.append hl
      exact hline.append (ih fun m hm => h m (mem_cons_of_mem l hm))
  have hmark : Laid (input.trim ++ " " ++ inputMark ++ "\n") (Row.bodies rows) := by
    have := hrows.laid.trim_append (w := " " ++ inputMark)
      (.inr ⟨" :INPUT", rfl, by decide⟩)
    rw [← append_assoc] at this
    exact this
  have hall := (((Laid.blank isBlank_lineFeed).append hlines).append htab).append hmark
  rw [nil_append, append_nil] at hall
  rwa [insideText, append_assoc _ _ "\n".toList]

/-- The text of a program is its front and the entry function around the inside. -/
theorem programText_eq (hrows : textOf (Row.flatten rows) = insideText lines input) :
    programText ds (lines.flatMap bodyLine) (input.trim ++ " " ++ inputMark) =
      framed (programFront ds) rows := by
  have hassoc : ∀ p r o n ls t b c : Text, p ++ r ++ (o ++ n) ++ ls ++ t ++ b ++ (n ++ c) =
      p ++ r ++ o ++ (n ++ ls ++ t ++ b ++ n) ++ c := by
    intros
    simp only [append_assoc]
  have hopening : ("func main() \x7b\n" : Text) = entryOpening ++ "\n" := rfl
  have hclosing : ("\n\x7d\n" : Text) = "\n" ++ "\x7d\n" := rfl
  rw [framed, hrows, insideText, programFront, ← hassoc, ← hopening, ← hclosing]
  rfl

/-- An entry function may stand on a line of its own. -/
theorem standsAlone_entry (h : ∀ r ∈ rows, r.Sound) :
    StandsAlone (entryPieces ++ (Row.flatten rows ++ [closingBrace])) := by
  have hentry : Lexed entryPieces := by
    rw [Lexed, textOf_entryPieces, pieces_entryOpening]
  have hclosed : ∀ p ∈ entryPieces, p.isClosed = true := by decide +kernel
  have hended := Row.ended_of_sound h
  refine ⟨lexed_append hentry (Row.lexed_flatten_append hended lexed_closingBrace)
    hclosed ?_, ?_, ⟨?_, ?_, ?_⟩, ?_⟩
  · rintro p ⟨⟩
    exact .inl rfl
  · exact forall_mem_append.2
      ⟨hclosed, forall_mem_append.2 ⟨Row.closed_flatten h, forall_mem_singleton.2 rfl⟩⟩
  · have hpending : pendingAfter false entryPieces = false := rfl
    have hkinds : Mode.outside.walk (kinds false entryPieces) =
        some ⟨0 + 0 + 1, false, true⟩ := rfl
    have hinside := Mode.walk_of_nest (Row.nest_flatten hended)
      (mem_kinds_ne_eof (Row.lexed_flatten hended) false) 0 false
    rw [kinds_append, hpending, kinds_append, Row.pendingAfter_flatten hended,
      Mode.walk_append, hkinds, Option.bind_some, Mode.walk_append, hinside, Option.bind_some]
    rfl
  · rintro p ⟨⟩
    rfl
  · intro p hp
    rw [getLast?_append, getLast?_append] at hp
    cases hp
    rfl
  · rw [pendingAfter_append, pendingAfter_append]
    rfl

/-- A program is made of the rows of its front, and of the entry function. -/
theorem Laid.framed {front : Text} {fs : List (List Piece)} (h : Laid front fs)
    (hrows : ∀ r ∈ rows, r.Sound) : Laid (Notebook.framed front rows)
      (fs ++ [entryPieces ++ (Row.flatten rows ++ [closingBrace])]) := by
  have := h.append (standsAlone_entry hrows).laid
  rw [textOf_append, textOf_append, textOf_entryPieces] at this
  rw [Notebook.framed]
  simpa [closingBrace] using this

/-! ### The statements of the program -/

/-- The texts of statements that are spelled by pieces. -/
theorem Source.texts_of_spells {sts : List Statement} {bodies : List (List Piece)}
    (h : Forall₂ (fun st body => st.Spells s body) sts bodies) :
    s.texts sts = .ok (bodies.map textOf) :=
  Checked.mapM_of_forall₂ (h.imp fun _ _ hst => hst.text)

/-- Whether a line end behind a statement ends it is decided by the last token. -/
theorem Statement.Spells.pendingAfter_eq {st : Statement} {body : List Piece}
    (h : st.Spells s body) : pendingAfter false body = (s.kindAt st.last).endsStatement := by
  obtain ⟨here, semi, rest, htokens, -, -⟩ := h.tokens
  obtain ⟨qs, q, rfl⟩ := (eq_nil_or_concat body).resolve_left h.isStatement.ne_nil
  rw [concat_eq_append] at *
  obtain ⟨k, hk⟩ := Piece.isToken_iff.1 (h.isStatement.back q (getLast?_concat ..))
  have hlast : s.tokens[st.last]? = some ⟨k, q.text, here.advance (textOf qs)⟩ := by
    have hlen := h.last
    rw [kinds_append, kinds_cons, Piece.emittedKinds, hk, kinds_nil, append_nil,
      length_append, length_singleton, ← length_scan here] at hlen
    have hget := congrArg (fun l => l[(scan here false qs).length]?) htokens
    simp only [getElem?_drop] at hget
    have hindex : st.first + (scan here false qs).length = st.last := by omega
    rw [hindex, scan_append, scan_cons, Piece.emitted_of_kind hk, append_assoc,
      getElem?_append_right (Nat.le_refl _), Nat.sub_self] at hget
    exact hget
  rw [pendingAfter_append, pendingAfter_cons, pendingAfter_nil, Piece.pendingBehind, hk,
    Source.kindAt, hlast]
  rfl

/-- The declarations of an input may stand on lines of their own, and none of them is an entry
function. -/
theorem standsAlone_of_mem_paired (h : RowsOf input rows) (hmain : ¬DeclaresMain input)
    {p : Statement × Row} (hp : p ∈ Row.paired 0 .start rows)
    (hends : ((Source.ofText input).kindAt p.1.last).endsStatement = true) :
    StandsAlone p.2.body ∧ NoEntry p.2.body := by
  have hspells := h.spells p hp
  have hbody : p.2.body ∈ Row.bodies rows := by
    rw [← Row.map_body_paired 0 .start]
    exact mem_map_of_mem hp
  obtain ⟨hlexed, hclosed, hstatement⟩ := h.laid.lexed_of_mem hbody
  refine ⟨⟨hlexed, hclosed, hstatement, hspells.pendingAfter_eq.trans hends⟩, ?_⟩
  rw [DeclaresMain, Option.not_isSome_iff_eq_none, Source.tokens_ofText, ← h.flatten] at hmain
  exact Source.noEntry_of_rows h.sound hmain _ hbody

/-- **The program of a turn is read as what was put into it.**  In the program of `assemble`
an `entryPoint` is found, and its `bodyStatements` are the statements of `bodyOf`: those that
bring variables back, in the order of the names, and then those of the input that are not
`isPackageLevel`, as they are written, but for a `:=` that has become `=`.  In front of the
entry function stand `packageLine` and the merged declarations, imports first. -/
theorem assemble_reads_back {session : Session} {store : ValueStore} {files : FileTree}
    {input : Text} (hsession : session.Sayable store files)
    (hdeclared : ∀ d ∈ session.declarations, IsWhole d.source ∧ ¬DeclaresMain d.source)
    (hclosed : LexicallyClosed input) (hbalanced : Balanced input)
    (hterminated : Terminated input) (hmain : ¬DeclaresMain input)
    (hends : ∀ st ∈ (Source.ofText input).statements,
      (Source.ofText input).isPackageLevel st = true →
        ((Source.ofText input).kindAt st.last).endsStatement = true) :
    ∃ declarations body program entry inside kept texts,
      splitDeclarations input = .ok (declarations, body) ∧
      assemble session store files input = .ok ⟨program, declarations⟩ ∧
      (Source.ofText program).entryPoint = some entry ∧
      (Source.ofText program).slice ⟨entry.bodyStart, entry.bodyStop⟩ = .ok inside ∧
      (Source.ofText program).texts (Source.ofText program).statements = .ok (packageLine ::
        (Declaration.importsFirst (Declaration.merge session.declarations declarations)).map
          (·.source) ++ [entryOpening ++ inside ++ "\x7d"]) ∧
      (Source.ofText program).texts ((Source.ofText program).bodyStatements entry) =
        .ok texts ∧
      (bodyOf session store files body).mapM (BodyStatement.text (.ofText body)) = .ok texts ∧
      (Source.ofText body).texts (Source.ofText body).statements = .ok kept ∧
      (Source.ofText input).texts ((Source.ofText input).statements.filter fun st =>
        !(Source.ofText input).isPackageLevel st) = .ok kept := by
  obtain ⟨rows, hrows⟩ := exists_rowsOf hclosed hbalanced hterminated
  obtain ⟨declarations, body, kept, hsplit, hkept, hsources, hbodies⟩ :=
    splitDeclarations_rows hrows
  obtain ⟨edited, given, hedited, hgiven, htexts⟩ := demotions_rows session hkept
  let lines :=
    (rehydrations session store files (skippedNames (redeclarations session body))).map
      Prod.snd
  have hlines : ∀ l ∈ lines, StandsAlone (Lexer.pieces l) := by
    intro l hl
    obtain ⟨r, hr, rfl⟩ := mem_map.1 hl
    exact standsAlone_of_mem_rehydrations hsession hr
  -- All declarations of the program are complete and none of them is an entry function.
  let merged := Declaration.merge session.declarations declarations
  have hmerged : ∀ d ∈ merged, StandsAlone (Lexer.pieces d.source) ∧
      NoEntry (Lexer.pieces d.source) := by
    intro d hd
    rcases Declaration.mem_merge hd with hd | hd
    · exact ⟨(hdeclared d hd).1.standsAlone, noEntry_of_not_declaresMain (hdeclared d hd).2⟩
    · have hsource : d.source ∈ declarations.map (·.source) := mem_map_of_mem hd
      rw [hsources] at hsource
      obtain ⟨p, hp, hsource⟩ := mem_map.1 hsource
      obtain ⟨hp, hlevel⟩ := mem_filter.1 hp
      have hst : p.1 ∈ (Source.ofText input).statements := by
        rw [hrows.statements]
        exact mem_map_of_mem hp
      obtain ⟨halone, hno⟩ := standsAlone_of_mem_paired hrows hmain hp (hends p.1 hst hlevel)
      rw [← hsource, halone.pieces_textOf]
      exact ⟨halone, hno⟩
  have hfront := laid_programFront fun d hd => (hmerged d hd).1
  have hisFront : IsFront (programFront merged) := by
    refine hfront.isFront fun b hb => ?_
    rcases mem_cons.1 hb with rfl | hb
    · exact noEntry_of_not_declaresMain (by decide +kernel)
    · obtain ⟨d, hd, rfl⟩ := mem_map.1 hb
      exact (hmerged d (Declaration.mem_importsFirst.1 hd)).2
  -- The inside of the entry function is made of rows.
  obtain ⟨inner, hinner, hflat, hinnerBodies⟩ := laid_insideText hlines hgiven
  have hinside : textOf (Row.flatten inner) = insideText lines edited := by
    rw [hflat, textOf_pieces]
  have hprogram : _ = framed (programFront merged) inner := programText_eq hinside
  have hassemble : assemble session store files input =
      .ok ⟨framed (programFront merged) inner, declarations⟩ := by
    rw [← hprogram]
    simp only [assemble_eq, hsplit, hedited, bind, Except.bind, rehydrationLines, lines,
      flatMap_map]
    rfl
  refine ⟨declarations, body, _, _, textOf (Row.flatten inner),
    (Row.bodies kept |>.map textOf), (Row.bodies inner).map textOf, hsplit, hassemble,
    entryPoint_framed hisFront hinner, ?_, ?_, ?_, ?_,
    ?_, ?_⟩
  · have hcut : Span.cut ⟨(framedEntry (programFront merged)
        inner).bodyStart, (framedEntry (programFront merged)
        inner).bodyStop⟩ (framed (programFront merged) inner) =
        .ok (programFront merged ++ entryOpening,
          textOf (Row.flatten inner), "\x7d\n") :=
      Span.cut_eq_ok_iff.2 ⟨rfl, rfl, by simp only [framedEntry, Text.byteSize_append]⟩
    simp only [Source.slice, Span.slice, Source.ofText, hcut]
    rfl
  · have hlaid := hfront.framed hinner
    have hspells :=
      (hlaid.append (Laid.blank isBlank_lineFeed)).statements hlaid.lexicallyClosed
    rw [Source.texts_of_spells hspells]
    simp [closingBrace, textOf_entryPieces, textOf_pieces, Function.comp_def, merged]
  · exact Source.texts_of_spells (spells_framed hisFront hinner)
  · have hback :
      (((rehydrations session store files (skippedNames (redeclarations session body))).map
        fun r => BodyStatement.rehydrated r.1 r.2).mapM (BodyStatement.text (.ofText body))) =
        .ok lines := by
      refine Checked.mapM_of_forall₂ ?_
      rw [forall₂_map_left_iff, forall₂_same]
      exact fun _ _ => rfl
    rw [bodyOf, mapM_append, hback, htexts, hinnerBodies]
    simp [bind, Except.bind, pure, Except.pure, textOf_pieces, Function.comp_def]
  · exact Source.texts_of_spells (hkept.laid.statements hkept.closed)
  · rw [hbodies, map_map, hrows.statements, filter_map]
    refine Checked.mapM_of_forall₂ ?_
    rw [forall₂_map_left_iff]
    refine forall₂_same.2 fun p hp => ?_
    exact (hrows.spells p (mem_filter.1 hp).1).text

/-- A store with a number `x`. -/
def numberStore : FileTree where
  cwd := []
  entries := [(["s"], .directory), (["s", "var-x"], .file []),
    (["s", "var-x.type"], .file (Text.toBytes "int"))]
  inDirectories := by
    unfold InDirectories
    decide

/-- A function and a number come back, the import leaves a semicolon behind, and the function
is assigned to because its old value is read. -/
theorem assemble_reads_back_sample :
    let session : Session := ⟨["f", "x"], [("f", "func() int \x7b return 1 \x7d")],
      [⟨.typeDecl, "T", "type T int"⟩]⟩
    let input : Text := "import \"fmt\"; f := f\ng() // end"
    ∃ program entry declarations inside,
      assemble session ⟨"/s"⟩ numberStore input = .ok ⟨program, declarations⟩ ∧
      (Source.ofText program).entryPoint = some entry ∧
      (Source.ofText program).texts ((Source.ofText program).bodyStatements entry) =
        .ok ["f := func() int \x7b return 1 \x7d",
          "x, _ := _Deserialize[int](\"var-x\")", "f = f", "g()"] ∧
      (Source.ofText program).texts (Source.ofText program).statements =
        .ok ["package main", "import \"fmt\"", "type T int",
          "func main() \x7b" ++ inside ++ "\x7d"] := by
  intro session input
  have hf : IsIdentifier "f" := ⟨⟨'f', [], rfl, by decide, by simp⟩, by decide⟩
  have hx : IsIdentifier "x" := ⟨⟨'x', [], rfl, by decide, by simp⟩, by decide⟩
  have hliteral : IsLiteral "func() int \x7b return 1 \x7d" :=
    ⟨⟨by decide +kernel, by decide +kernel, ⟨0, 7, ⟨0, 23⟩, some 8⟩, by decide +kernel⟩,
      by decide +kernel⟩
  have htype : IsTypeText "int" := ⟨by decide +kernel, by decide +kernel, by decide +kernel⟩
  have hsession : session.Sayable ⟨"/s"⟩ numberStore := by
    refine ⟨?_, ?_, ?_⟩
    · exact forall_mem_cons.2 ⟨hf, forall_mem_singleton.2 hx⟩
    · intro n hn l hl
      rcases mem_cons.1 hn with rfl | hn
      · rw [← Option.some.inj hl]
        exact hliteral
      · rw [mem_singleton.1 hn] at hl
        cases hl
    · intro n hn hnone t ht
      rcases mem_cons.1 hn with rfl | hn
      · cases hnone
      · rw [mem_singleton.1 hn] at ht
        have htag : ValueStore.typeTag ⟨"/s"⟩ numberStore "x" = .ok (.value "int") := by
          decide +kernel
        rw [htag] at ht
        cases ht
        exact htype
  have hdeclared : ∀ d ∈ session.declarations, IsWhole d.source ∧ ¬DeclaresMain d.source := by
    intro d hd
    rw [mem_singleton.1 hd]
    exact ⟨⟨by decide +kernel, by decide +kernel, ⟨0, 2, ⟨0, 10⟩, some 3⟩, by decide +kernel⟩,
      by decide +kernel⟩
  obtain ⟨declarations, body, program, entry, inside, kept, texts, hsplit, hassemble, hentry,
      -, hstatements, hbody, hgiven, -⟩ :=
    @assemble_reads_back session ⟨"/s"⟩ numberStore input hsession hdeclared
      (by decide +kernel) (by decide +kernel) (by decide +kernel) (by decide +kernel)
      (by decide +kernel)
  have hsplit' : splitDeclarations input =
      .ok ([⟨.importDecl, "import \"fmt\"", "import \"fmt\""⟩], "; f := f\ng() // end") := by
    decide +kernel
  obtain ⟨hdeclarations, rfl⟩ := Prod.mk.inj (Except.ok.inj (hsplit.symm.trans hsplit'))
  rw [hdeclarations] at hassemble hstatements
  have hgiven' : (bodyOf session ⟨"/s"⟩ numberStore "; f := f\ng() // end").mapM
      (BodyStatement.text (.ofText "; f := f\ng() // end")) =
      .ok ["f := func() int \x7b return 1 \x7d",
        "x, _ := _Deserialize[int](\"var-x\")", "f = f", "g()"] := by
    decide +kernel
  rw [hgiven'] at hgiven
  cases hgiven
  exact ⟨program, entry, _, inside, hassemble, hentry, hbody, hstatements⟩

end Notebook
