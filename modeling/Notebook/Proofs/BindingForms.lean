import Notebook.Proofs.CapturedLiterals
import Notebook.Proofs.Operands

/-!
# How bindings are written

Names are bound in three ways: by `:=`, by `=`, and in a declaration, alone or in a group with
one specification on each line.  Each of them is written from names and values, and what is
read off the written text are these names and these values in their places.
-/

namespace Notebook

open Lexer List

variable {ps : List Piece} {rows : List Row} {ts us : List Token} {depth : Nat}
  {p sign : Piece} {op : Token} {k : TokenKind}

/-- Names and values, and a type if one is written. -/
structure BindingSpec where
  names : List Text
  type : Option Text
  values : List Text
deriving DecidableEq, Repr

/-- A text whose last token can end a statement. -/
def EndsStatement (t : Text) : Prop :=
  ∃ k ∈ (innerTokens t).getLast?, k.kind.endsStatement = true

instance (t : Text) : Decidable (EndsStatement t) :=
  inferInstanceAs (Decidable (∃ k ∈ _, _))

/-- A text that is one statement, from its first character to its last, with given
bindings. -/
def Source.BindsAlone (t : Text) (bs : List Binding) : Prop :=
  ∃ st, (ofText t).statements = [st] ∧ st.span = ⟨0, t.byteSize⟩ ∧ (ofText t).bindings st = bs

namespace BindingSpec

/-- Names and values that can be written. -/
structure WellFormed (b : BindingSpec) : Prop where
  names_ne : b.names ≠ []
  names : ∀ n ∈ b.names, IsIdentifier n
  type : ∀ t ∈ b.type, IsOperand t ∧
    ∀ k ∈ Source.topLevel 0 (innerTokens t), k.kind ≠ .assign
  values_ne : b.values ≠ []
  values : ∀ e ∈ b.values, IsOperand e
  last : ∀ e ∈ b.values.getLast?, EndsStatement e

/-- The type, with a space in front. -/
def typeText (b : BindingSpec) : Text :=
  b.type.elim [] (' ' :: ·)

/-- A specification in a declaration. -/
def specText (b : BindingSpec) : Text :=
  listed b.names ++ (b.typeText ++ (" = " ++ listed b.values))

/-- The names are defined. -/
def defineText (b : BindingSpec) : Text :=
  listed b.names ++ (" := " ++ listed b.values)

/-- The names are assigned to. -/
def assignText (b : BindingSpec) : Text :=
  listed b.names ++ (" = " ++ listed b.values)

/-- The names are declared. -/
def varText (b : BindingSpec) : Text :=
  "var " ++ b.specText

/-- Names are declared in a group, with one specification on each line. -/
def groupText (bs : List BindingSpec) : Text :=
  "var (\n" ++ ((bs.flatMap fun b => bodyLine b.specText) ++ [')'])

/-- The bindings that are written from an offset on, if so many bytes stand between the names
and the values.  As many values as names are paired with them. -/
def bindingsAt (b : BindingSpec) (start gap : Nat) (define : Bool) : List Binding :=
  let behind := start + (listed b.names).byteSize + gap
  let rhs : Span := ⟨behind, behind + (listed b.values).byteSize⟩
  let own : List (Option Span) :=
    if b.values.length = b.names.length then (spansFrom behind b.values).map some
    else b.names.map fun _ => none
  (b.names.zip ((spansFrom start b.names).map Span.start)).zipWith
    (fun n v => ⟨n.1, n.2, v, some rhs, define⟩) own

/-- The bindings of a specification. -/
def specBindingsAt (b : BindingSpec) (start : Nat) : List Binding :=
  b.bindingsAt start (b.typeText.byteSize + 3) true

/-- The bindings of specifications on lines from an offset on. -/
def groupBindingsAt (start : Nat) : List BindingSpec → List Binding
  | [] => []
  | b :: bs =>
    b.specBindingsAt (start + 1) ++
      groupBindingsAt (start + (bodyLine b.specText).byteSize) bs

end BindingSpec

/-! ### Cutting at assigning tokens -/

namespace Source

/-- The first assigning token outside brackets cuts. -/
theorem cutAssignment_append (h : nest depth (ts.map Token.kind) = some 0)
    (hts : ∀ t ∈ topLevel depth ts, assigns t.kind = false) (hop : assigns op.kind = true) :
    cutAssignment depth (ts ++ op :: us) = some (ts, op, us) := by
  induction ts generalizing depth with
  | nil =>
    cases h
    have hcloses : op.kind.closes = false := by
      cases hk : op.kind <;> simp_all [assigns, TokenKind.closes]
    simp [cutAssignment, hcloses, hop]
  | cons t ts ih =>
    rw [map_cons, nest_cons] at h
    obtain ⟨d, hd, hrest⟩ := Option.bind_eq_some_iff.1 h
    rw [topLevel_cons hd] at hts
    have hnot :
        ¬((if t.kind.closes = true then depth - 1 else depth) = 0 ∧
          assigns t.kind = true) := by
      rintro ⟨hzero, hassigns⟩
      have hmem : t ∈ topLevel depth [t] := by simp [topLevel, hzero]
      rw [hts t (mem_append_left _ hmem)] at hassigns
      cases hassigns
    rw [cons_append, cutAssignment, depth_of_nestStep hd, if_neg hnot,
      ih hrest fun u hu => hts u (mem_append_right _ hu)]
    rfl

/-- The first `=` outside brackets is the one that counts. -/
theorem behindAssign_append (h : nest depth (ts.map Token.kind) = some 0)
    (hts : ∀ t ∈ topLevel depth ts, t.kind ≠ .assign) (hop : op.kind = .assign) :
    behindAssign depth (ts ++ op :: us) = us := by
  induction ts generalizing depth with
  | nil =>
    cases h
    rw [nil_append, behindAssign, if_pos ⟨hop, rfl⟩]
  | cons t ts ih =>
    rw [map_cons, nest_cons] at h
    obtain ⟨d, hd, hrest⟩ := Option.bind_eq_some_iff.1 h
    rw [topLevel_cons hd] at hts
    have hnot : ¬(t.kind = .assign ∧ depth = 0) := by
      rintro ⟨hkind, hzero⟩
      refine hts t (mem_append_left _ ?_) hkind
      exact (mem_topLevel_singleton (by rw [hkind]; rfl)).2 hzero
    rw [cons_append, behindAssign, if_neg hnot, depthAfter_of_nestStep hd,
      ih hrest fun u hu => hts u (mem_append_right _ hu)]

end Source

/-! ### Names -/

/-- The tokens of names with commas between them, without the commas. -/
def nameTokens (here : Position) : List Text → List Token
  | [] => []
  | n :: ns => ⟨.ident, n, here⟩ :: nameTokens ((here.advance n).advance [',', ' ']) ns

/-- Names and their places. -/
theorem map_nameTokens (here : Position) (ns : List Text) :
    (nameTokens here ns).map (fun t => (t.lexeme, t.pos)) =
      ns.zip ((spansFrom here.offset ns).map Span.start) := by
  induction ns generalizing here with
  | nil => rfl
  | cons n ns ih =>
    rw [nameTokens, map_cons, ih, Position.offset_behind_comma]
    rfl

theorem IsIdentifier.scan_pieces {n : Text} (h : IsIdentifier n) (here : Position) :
    scan here false (Lexer.pieces n) = [⟨.ident, n, here⟩] := by
  rw [h.pieces_eq]
  rfl

section Names

variable {ns : List Text} (hne : ns ≠ []) (hns : ∀ n ∈ ns, IsIdentifier n)

include hns in
/-- Two or more names: the first one, a comma, and the others. -/
theorem scan_names {n m : Text} {ms : List Text} (h : ns = n :: m :: ms) (here : Position) :
    scan here false (listPieces ns) = ⟨.ident, n, here⟩ :: ⟨.comma, [','], here.advance n⟩ ::
      scan ((here.advance n).advance [',', ' ']) false (listPieces (m :: ms)) := by
  subst h
  rw [scan_listPieces (fun v hv => (hns v hv).isOperand),
    (hns n mem_cons_self).scan_pieces]
  rfl

include hns in
/-- Among the tokens of names there are only names and commas. -/
theorem kind_of_mem_scan_names (here : Position) :
    ∀ t ∈ scan here false (listPieces ns), t.kind = .ident ∨ t.kind = .comma := by
  induction ns generalizing here with
  | nil => simp [listPieces]
  | cons n ns ih =>
    cases ns with
    | nil =>
      rw [listPieces_singleton, (hns n mem_cons_self).scan_pieces]
      simp
    | cons m ms =>
      rw [scan_names hns rfl]
      intro t ht
      rcases mem_cons.1 ht with rfl | ht
      · exact .inl rfl
      · rcases mem_cons.1 ht with rfl | ht
        · exact .inr rfl
        · exact ih (fun v hv => hns v (mem_cons_of_mem n hv)) _ t ht

include hne hns in
theorem plainNames_listPieces (here : Position) :
    Source.plainNames (scan here false (listPieces ns)) = some (nameTokens here ns) := by
  induction ns generalizing here with
  | nil => exact absurd rfl hne
  | cons n ns ih =>
    cases ns with
    | nil =>
      rw [listPieces_singleton, (hns n mem_cons_self).scan_pieces]
      rfl
    | cons m ms =>
      rw [scan_names hns rfl, Source.plainNames, if_pos ⟨rfl, rfl⟩,
        ih (cons_ne_nil m ms) fun v hv => hns v (mem_cons_of_mem n hv)]
      rfl

include hne hns in
/-- In a specification the names end where no comma follows. -/
theorem specNames_listPieces (here : Position) {rest : List Token}
    (hrest : ∀ t ∈ rest.head?, t.kind ≠ .comma) :
    Source.specNames (scan here false (listPieces ns) ++ rest) = nameTokens here ns := by
  induction ns generalizing here with
  | nil => exact absurd rfl hne
  | cons n ns ih =>
    cases ns with
    | nil =>
      rw [listPieces_singleton, (hns n mem_cons_self).scan_pieces]
      cases rest with
      | nil => rfl
      | cons t ts =>
        rw [cons_append, nil_append, Source.specNames, if_pos rfl,
          if_neg (hrest t rfl)]
        rfl
    | cons m ms =>
      rw [scan_names hns rfl, cons_append, cons_append,
        Source.specNames, if_pos rfl, if_pos rfl, ih (cons_ne_nil m ms) fun v hv =>
        hns v (mem_cons_of_mem n hv)]
      rfl

end Names

/-! ### Names and values -/

theorem length_spansFrom (start : Nat) (ts : List Text) :
    (spansFrom start ts).length = ts.length := by
  induction ts generalizing start with
  | nil => rfl
  | cons t ts ih => rw [spansFrom, length_cons, ih, length_cons]

theorem length_nameTokens (here : Position) (ns : List Text) :
    (nameTokens here ns).length = ns.length := by
  have hlength := congrArg List.length (map_nameTokens here ns)
  rwa [length_map, length_zip, length_map, length_spansFrom,
    Nat.min_self] at hlength

theorem length_partsAt {ts : List Text} (h : ∀ t ∈ ts, IsOperand t) (here : Position) :
    (partsAt here ts).length = ts.length := by
  have hlength := congrArg List.length (Source.map_extent_partsAt h here)
  rwa [length_map, length_map, length_spansFrom] at hlength

namespace BindingSpec

variable {b : BindingSpec}

/-- Names are paired with the values of a list. -/
theorem pairValues_eq (h : b.WellFormed) (here place : Position) {gap : Nat}
    (hplace : place.offset = here.offset + (listed b.names).byteSize + gap) (define : Bool) :
    Source.pairValues (nameTokens here b.names)
      (scan place false (listPieces b.values)) define =
      b.bindingsAt here.offset gap define := by
  have hextent := (isRun_listPieces h.values_ne h.values).extent_scan place
  have hextents := Source.map_extent_partsAt h.values place
  have hnames := length_nameTokens here b.names
  rw [hplace, textOf_listPieces] at hextent
  rw [hplace] at hextents
  rw [Source.pairValues, Source.commaParts_listPieces h.values_ne h.values, hextent]
  simp only [bindingsAt, length_partsAt h.values, hnames, ← map_nameTokens]
  split
  · rw [← hextents, zipWith_map]
  · -- No name has a value of its own, so that the list of values counts by its length alone.
    rw [map_const', ← hnames, ← map_const', zipWith_map, zipWith_self]

end BindingSpec

/-! ### Runs as statements -/

/-- A run is a statement if its first token opens no header and its last one can end it. -/
theorem IsRun.standsAlone (h : IsRun ps) (hp : ps.head? = some p) (hk : p.kind = .token k)
    (hstep : Mode.outside.step k = some .whole) (hpending : pendingAfter false ps = true) :
    StandsAlone ps where
  lexed := h.lexed
  closed := h.closed
  isStatement := by
    refine ⟨?_, ?_, ?_⟩
    · have hclause := h.clause
      have heof : ∀ t ∈ scan .start false ps, t.kind ≠ .eof := fun t ht =>
        kind_ne_eof_of_mem_scan h.lexed ht
      obtain ⟨rest, rfl⟩ := head?_eq_some_iff.1 hp
      rw [← map_kind_scan .start]
      rw [scan_cons, Piece.emitted_of_kind hk] at hclause heof ⊢
      exact hclause.walk_eq (fun t ht => heof t (mem_cons_of_mem _ ht)) hstep
    · intro q hq
      cases hp.symm.trans hq
      exact Piece.isToken_iff.2 ⟨k, hk⟩
    · intro q hq
      obtain ⟨q', l, hq', hl⟩ := h.back
      cases hq'.symm.trans hq
      exact Piece.isToken_iff.2 ⟨l, hl⟩
  pending := hpending

/-- What a statement on its own binds is read off its pieces. -/
theorem StandsAlone.binds {ps : List Piece} (h : StandsAlone ps) {bs : List Binding}
    (hbindings : ∀ here : Position, here.offset = 0 →
      Source.bindingsOf (scan here false ps) = bs) :
    Source.BindsAlone (textOf ps) bs := by
  obtain ⟨st, hst, hspan, -⟩ := h.isWhole.whole
  have hspells := h.laid.statements h.isWhole.closed
  rw [hst] at hspells
  obtain ⟨hspelled, -⟩ := forall₂_cons.1 hspells
  obtain ⟨here, htokens, hspan'⟩ := hspelled.tokensOf_eq
  have hzero : here.offset = 0 := congrArg Span.start (hspan'.symm.trans hspan)
  refine ⟨st, hst, hspan, ?_⟩
  rw [hspelled.bindings_eq, htokens, hbindings here hzero]

/-! ### The pieces of what is written -/

/-- A space. -/
def spaceJoint : List Piece :=
  [⟨.blank, [' ']⟩]

/-- A sign with a space on each side. -/
def signJoint (sign : Piece) : List Piece :=
  spaceJoint ++ sign :: spaceJoint

theorem isJoint_space : IsJoint spaceJoint [] :=
  ⟨lexed_space, by decide, by decide, ⟨' ', rfl, rfl⟩, by decide, by decide⟩

/-- A sign that is read in front of a space may stand between two spaces. -/
theorem lexed_signJoint (h : Reads sign [' ']) : Lexed (signJoint sign) :=
  lexed_cons.2 ⟨reads_blank (by decide) _, lexed_cons.2 ⟨h, lexed_space⟩⟩

theorem isJoint_define : IsJoint (signJoint definePiece) [.define] :=
  ⟨lexed_signJoint (reads_cons.2 rfl), by decide, by decide,
    ⟨' ', rfl, rfl⟩, by decide, by decide⟩

theorem isJoint_equals : IsJoint (signJoint equalsPiece) [.assign] :=
  ⟨lexed_signJoint (reads_cons.2 rfl), by decide, by decide,
    ⟨' ', rfl, rfl⟩, by decide, by decide⟩

theorem head?_listPieces_names {ns : List Text} (hne : ns ≠ [])
    (hns : ∀ n ∈ ns, IsIdentifier n) :
    ∃ n, (listPieces ns).head? = some ⟨.token .ident, n⟩ := by
  obtain ⟨n, ms, rfl⟩ := exists_cons_of_ne_nil hne
  have hn := (hns n mem_cons_self).pieces_eq
  refine ⟨n, ?_⟩
  cases ms with
  | nil => rw [listPieces_singleton, hn]; rfl
  | cons m ms => rw [listPieces_cons_cons, hn]; rfl

theorem scan_spaceJoint (here : Position) (pending : Bool) :
    scan here pending spaceJoint = [] := by
  cases pending <;> rfl

theorem scan_signJoint (hk : sign.kind = .token k) (here : Position) (pending : Bool) :
    scan here pending (signJoint sign) = [⟨k, sign.text, here.advance [' ']⟩] := by
  rw [signJoint, scan_append, scan_spaceJoint, scan_cons, Piece.emitted_of_kind hk,
    scan_spaceJoint]
  rfl

theorem byteSize_signJoint (sign : Piece) :
    Text.byteSize (textOf (signJoint sign)) = Text.byteSize sign.text + 2 := by
  have hspace : Text.byteSize (textOf spaceJoint) = 1 := rfl
  rw [signJoint, textOf_append, textOf_cons, Text.byteSize_append,
    Text.byteSize_append, hspace]
  omega

/-- Pieces that begin with a token. -/
theorem exists_scan_cons (hp : ps.head? = some p) (hk : p.kind = .token k) (here : Position) :
    ∃ ts, scan here false ps = ⟨k, p.text, here⟩ :: ts := by
  obtain ⟨rest, rfl⟩ := head?_eq_some_iff.1 hp
  rw [scan_cons, Piece.emitted_of_kind hk]
  exact ⟨_, rfl⟩

namespace BindingSpec

variable {b : BindingSpec}

/-- The pieces of an assignment with a sign. -/
def assignPieces (sign : Piece) (b : BindingSpec) : List Piece :=
  listPieces b.names ++ (signJoint sign ++ listPieces b.values)

/-- The pieces of the names, and of the type behind them. -/
def namePieces (b : BindingSpec) : List Piece :=
  match b.type with
  | none => listPieces b.names
  | some t => listPieces b.names ++ (spaceJoint ++ Lexer.pieces t)

/-- The pieces of a specification. -/
def specPieces (b : BindingSpec) : List Piece :=
  b.namePieces ++ (signJoint equalsPiece ++ listPieces b.values)

theorem textOf_namePieces (b : BindingSpec) :
    textOf b.namePieces = listed b.names ++ b.typeText := by
  unfold namePieces typeText
  cases b.type with
  | none => rw [textOf_listPieces]; simp
  | some t => rw [textOf_append, textOf_append, textOf_listPieces, textOf_pieces]; rfl

theorem textOf_assignPieces (sign : Piece) (b : BindingSpec) :
    textOf (b.assignPieces sign) =
      listed b.names ++ ((' ' :: (sign.text ++ [' '])) ++ listed b.values) := by
  rw [assignPieces, textOf_append, textOf_append, textOf_listPieces, textOf_listPieces]
  simp [signJoint, spaceJoint]

theorem textOf_specPieces (b : BindingSpec) : textOf b.specPieces = b.specText := by
  rw [specPieces, textOf_append, textOf_append, textOf_namePieces,
    textOf_listPieces, specText, append_assoc]
  rfl

namespace WellFormed

variable (h : b.WellFormed)

include h

theorem isRun_names : IsRun (listPieces b.names) :=
  isRun_listPieces h.names_ne fun n hn => (h.names n hn).isOperand

theorem isRun_values : IsRun (listPieces b.values) :=
  isRun_listPieces h.values_ne h.values

theorem isRun_namePieces : IsRun b.namePieces := by
  unfold namePieces
  split
  · exact h.isRun_names
  next t ht => exact h.isRun_names.join isJoint_space (h.type t ht).1.isRun

theorem isRun_specPieces : IsRun b.specPieces :=
  h.isRun_namePieces.join isJoint_equals h.isRun_values

/-- The last value ends what is written. -/
theorem pendingAfter_values (pending : Bool) :
    pendingAfter pending (listPieces b.values) = true := by
  obtain ⟨e, he⟩ : ∃ e, b.values.getLast? = some e :=
    ⟨_, getLast?_eq_some_getLast h.values_ne⟩
  have hoperand := h.values e (mem_of_getLast? he)
  obtain ⟨q, l, hq, hl⟩ := hoperand.isRun.back
  obtain ⟨front, hfront⟩ := getLast?_eq_some_iff.1 hq
  obtain ⟨k, hk, hends⟩ := h.last e he
  have hkind : k.kind = l := by
    rw [innerTokens, hfront, scan_append, scan_cons, Piece.emitted_of_kind hl, scan_nil,
      append_nil, getLast?_concat] at hk
    cases hk
    rfl
  rw [IsRun.pendingAfter_eq ((getLast?_listPieces h.values he).trans hq) hl, ← hkind, hends]

/-- What is written with a sign between names and values. -/
theorem bindingsOf_assignPieces (hk : sign.kind = .token k)
    (hassigns : Source.assigns k = true) (hplain : k ≠ .opAssign) (here : Position) :
    Source.bindingsOf (scan here false (b.assignPieces sign)) =
      b.bindingsAt here.offset (Text.byteSize sign.text + 2) (k == .define) := by
  have hnames : ∀ t ∈ Source.topLevel 0 (scan here false (listPieces b.names)),
      Source.assigns t.kind = false := by
    intro t ht
    rcases kind_of_mem_scan_names h.names here t
      (Source.mem_of_mem_topLevel ht) with hkind | hkind <;>
      rw [hkind] <;> rfl
  -- A name in front is no keyword, so this is no declaration.
  have hassignment (us : List Token) :
      Source.bindingsOf (scan here false (listPieces b.names) ++ us) =
        Source.assignmentBindings (scan here false (listPieces b.names) ++ us) := by
    obtain ⟨n, hn⟩ := head?_listPieces_names h.names_ne h.names
    obtain ⟨ts, hts⟩ := exists_scan_cons hn rfl here
    rw [hts]
    rfl
  rw [assignPieces, h.isRun_values.scan_join, scan_signJoint hk, hassignment,
    Source.assignmentBindings, singleton_append,
    Source.cutAssignment_append (h.isRun_names.clause_at here).balanced hnames hassigns]
  dsimp only
  rw [if_neg hplain, plainNames_listPieces h.names_ne h.names]
  refine pairValues_eq h here _ ?_ _
  rw [Position.offset_advance, Position.offset_advance, textOf_listPieces, byteSize_signJoint]

/-- In front of the sign of a specification no other one stands outside brackets. -/
theorem ne_assign_of_mem_namePieces (here : Position) :
    ∀ t ∈ Source.topLevel 0 (scan here false b.namePieces), t.kind ≠ .assign := by
  have hnames : ∀ t ∈ Source.topLevel 0 (scan here false (listPieces b.names)),
      t.kind ≠ .assign := by
    intro t ht
    rcases kind_of_mem_scan_names h.names here t
      (Source.mem_of_mem_topLevel ht) with hkind | hkind <;>
      rw [hkind] <;> decide
  unfold namePieces
  split
  · exact hnames
  next e he =>
    obtain ⟨hoperand, hassign⟩ := h.type e he
    rw [hoperand.isRun.scan_join, scan_spaceJoint, nil_append,
      Source.topLevel_append (h.isRun_names.clause_at here).balanced]
    intro t ht
    rcases mem_append.1 ht with ht | ht
    · exact hnames t ht
    · obtain ⟨u, hu, hkind⟩ := Source.exists_inner_of_mem_topLevel ht
      rw [← hkind]
      exact hassign u hu

/-- The names of a specification. -/
theorem specNames_namePieces (here : Position) {sign : Token} (hsign : sign.kind ≠ .comma)
    (us : List Token) :
    Source.specNames (scan here false b.namePieces ++ sign :: us) =
      nameTokens here b.names := by
  unfold namePieces
  split
  · refine specNames_listPieces h.names_ne h.names here ?_
    rintro t ⟨⟩
    exact hsign
  next e he =>
    have hoperand := (h.type e he).1
    rw [hoperand.isRun.scan_join, scan_spaceJoint, nil_append, append_assoc]
    refine specNames_listPieces h.names_ne h.names here ?_
    rw [head?_append_of_ne_nil _ (hoperand.isRun.scan_ne_nil _)]
    exact hoperand.head_ne_comma _

/-- What a specification binds. -/
theorem specBindings_specPieces (here : Position) :
    Source.specBindings (scan here false b.specPieces) = b.specBindingsAt here.offset := by
  rw [specPieces, h.isRun_values.scan_join, scan_signJoint rfl, singleton_append,
    Source.specBindings, h.specNames_namePieces here (by simp),
    Source.behindAssign_append (h.isRun_namePieces.clause_at here).balanced
      (h.ne_assign_of_mem_namePieces here) rfl]
  refine pairValues_eq h here _ ?_ _
  rw [Position.offset_advance, Position.offset_advance, textOf_namePieces, byteSize_signJoint,
    Text.byteSize_append, Nat.add_assoc, Nat.add_assoc, Nat.add_assoc]
  rfl

theorem head?_specPieces : ∃ n, b.specPieces.head? = some ⟨.token .ident, n⟩ := by
  obtain ⟨n, hn⟩ := head?_listPieces_names h.names_ne h.names
  refine ⟨n, ?_⟩
  unfold specPieces namePieces
  split <;> simp [head?_append, hn]

theorem standsAlone_specPieces : StandsAlone b.specPieces := by
  obtain ⟨n, hn⟩ := h.head?_specPieces
  refine h.isRun_specPieces.standsAlone hn rfl rfl ?_
  rw [specPieces, pendingAfter_append, pendingAfter_append, h.pendingAfter_values]

theorem standsAlone_assignPieces {marks : List TokenKind}
    (hsign : IsJoint (signJoint sign) marks) : StandsAlone (b.assignPieces sign) := by
  obtain ⟨n, hn⟩ := head?_listPieces_names h.names_ne h.names
  have hhead : (b.assignPieces sign).head? = some ⟨.token .ident, n⟩ := by
    rw [assignPieces, head?_append, hn]
    rfl
  refine (h.isRun_names.join hsign h.isRun_values).standsAlone hhead rfl rfl ?_
  rw [pendingAfter_append, pendingAfter_append, h.pendingAfter_values]

/-- What a declaration of one specification binds, from the tokens behind its keyword. -/
theorem declarationBindings_specPieces (here : Position) :
    Source.declarationBindings (scan here false b.specPieces) =
      b.specBindingsAt here.offset := by
  obtain ⟨n, hn⟩ := h.head?_specPieces
  obtain ⟨ts, hts⟩ := exists_scan_cons hn rfl here
  rw [← h.specBindings_specPieces here, hts, Source.declarationBindings, if_neg (by simp)]

end WellFormed

/-! ### Declarations -/

/-- The keyword of a declaration. -/
def varPiece : Piece := ⟨.token (.keyword .varKw), "var"⟩

/-- The pieces of a declaration of one specification. -/
def varPieces (b : BindingSpec) : List Piece :=
  [varPiece] ++ (spaceJoint ++ b.specPieces)

theorem isRun_varPiece : IsRun [varPiece] where
  lexed := lexed_cons.2 ⟨reads_cons.2 rfl, lexed_nil⟩
  closed := by decide
  front := ⟨varPiece, _, rfl, rfl⟩
  back := ⟨varPiece, _, rfl, rfl⟩
  clause := ⟨rfl, by decide⟩

theorem textOf_varPieces (b : BindingSpec) : textOf b.varPieces = b.varText := by
  rw [varPieces, textOf_append, textOf_append, textOf_specPieces]
  rfl

theorem WellFormed.standsAlone_varPieces (h : b.WellFormed) : StandsAlone b.varPieces := by
  refine (isRun_varPiece.join isJoint_space h.isRun_specPieces).standsAlone rfl rfl rfl ?_
  rw [pendingAfter_append, pendingAfter_append, specPieces, pendingAfter_append,
    pendingAfter_append, h.pendingAfter_values]

theorem WellFormed.bindingsOf_varPieces (h : b.WellFormed) (here : Position) :
    Source.bindingsOf (scan here false b.varPieces) = b.specBindingsAt (here.offset + 4) := by
  rw [varPieces, h.isRun_specPieces.scan_join, scan_spaceJoint, nil_append]
  have hdeclaration (us : List Token) : Source.bindingsOf (scan here false [varPiece] ++ us) =
      Source.declarationBindings us := rfl
  rw [hdeclaration, h.declarationBindings_specPieces, Position.offset_advance,
    Position.offset_advance]
  rfl

end BindingSpec

/-! ### Groups -/

/-- The bindings of rows of specifications. -/
def Row.specBindings (here : Position) : List Row → List Binding
  | [] => []
  | r :: rs =>
    (if r.body = [] then [] else Source.specBindings (scan here false r.body)) ++
      specBindings (here.advance (textOf r.pieces)) rs

/-- The specifications of rows are read off the tokens of the rows, wherever these stand. -/
theorem Row.flatMap_placed (h : ∀ r ∈ rows, r.Ended) {i : Nat} {here : Position}
    {all : List Token} (hall : all.drop i = scan here false (Row.flatten rows) ++ us) :
    ((Row.placed i here rows).flatMap fun spec =>
      Source.specBindings (Source.part all spec.range)) =
      Row.specBindings here rows := by
  induction rows generalizing i here with
  | nil => rfl
  | cons r rs ih =>
    obtain ⟨hr, hrs⟩ := forall_mem_cons.1 h
    rw [Row.flatten_cons, scan_append, hr.pendingAfter_eq, append_assoc] at hall
    rw [Row.placed, flatMap_append, Row.specBindings]
    congr 1
    · rw [Row.statementAt]
      split
      · rfl
      next hne =>
        -- The statement of the row has the numbers of its tokens among all of them.
        have hbody := (hr.body.resolve_left hne).1
        obtain ⟨a, ts, -, hscan, -⟩ := hbody.scan_eq here
        have hcount : i + (kinds false r.body).length - 1 + 1 - i =
            (scan here false r.body).length := by
          rw [← length_scan here, hscan, length_cons]
          omega
        simp only [flatMap_singleton, Source.part, Statement.range]
        rw [hall, hcount, Row.pieces, scan_append, append_assoc, take_left]
    · refine ih hrs ?_
      rw [← drop_drop, hall, ← length_scan here, drop_left]

/-- The bindings of a group are those of its rows. -/
theorem Source.groupBindings_flatten (h : ∀ r ∈ rows, r.Ended) (here : Position) :
    groupBindings (scan here false (Row.flatten rows)) = Row.specBindings here rows := by
  rw [groupBindings, split_rows_nil h]
  exact Row.flatMap_placed h (append_nil _).symm

namespace BindingSpec

/-- A group up to its first line. -/
def groupFront : List Piece :=
  [varPiece, ⟨.blank, [' ']⟩, ⟨.token (.opening .paren), ['(']⟩, lineEnd]

/-- The rows of a group. -/
def groupRows (bs : List BindingSpec) : List Row :=
  lineRows (bs.map specPieces)

/-- The pieces of a group. -/
def groupPieces (bs : List BindingSpec) : List Piece :=
  groupFront ++ (Row.flatten (groupRows bs) ++ [closingParen])

theorem textOf_groupPieces (bs : List BindingSpec) :
    textOf (groupPieces bs) = groupText bs := by
  have hrows : textOf (Row.flatten (groupRows bs)) = bs.flatMap fun b =>
      bodyLine b.specText := by
    rw [groupRows, textOf_lineRows, map_map, flatMap_map]
    exact flatMap_congr fun b _ => congrArg bodyLine (textOf_specPieces b)
  have hfront : textOf groupFront = "var (\n" := rfl
  have hback : textOf [closingParen] = [')'] := rfl
  unfold groupText
  rw [groupPieces, textOf_append, textOf_append, hrows, hfront, hback]

theorem lexed_groupFront : Lexed groupFront :=
  lexed_cons.2 ⟨reads_cons.2 rfl, lexed_cons.2 ⟨reads_blank (by decide) _,
    lexed_cons.2 ⟨reads_cons.2 rfl,
      lexed_cons.2 ⟨reads_blank isBlank_lineFeed _, lexed_nil⟩⟩⟩⟩

theorem pendingAfter_groupFront : pendingAfter false groupFront = false := rfl

section Group

variable {bs : List BindingSpec} (h : ∀ b ∈ bs, b.WellFormed)

include h

theorem sound_groupRows : ∀ r ∈ groupRows bs, r.Sound := by
  refine sound_lineRows fun ps hps => ?_
  obtain ⟨b, hb, rfl⟩ := mem_map.1 hps
  exact (h b hb).standsAlone_specPieces

theorem specBindings_groupRows (here : Position) :
    Row.specBindings here (groupRows bs) = groupBindingsAt here.offset bs := by
  induction bs generalizing here with
  | nil => rfl
  | cons b bs ih =>
    obtain ⟨hb, hbs⟩ := forall_mem_cons.1 h
    have hcons : groupRows (b :: bs) = tabRow :: ⟨b.specPieces, [lineEnd]⟩ :: groupRows bs :=
      rfl
    have htab : (here.advance (textOf tabRow.pieces)).offset = here.offset + 1 :=
      Position.offset_advance here _
    have hrow : textOf (Row.pieces ⟨b.specPieces, [lineEnd]⟩) = b.specText ++ ['\n'] := by
      rw [Row.pieces, textOf_append, textOf_specPieces]
      rfl
    have hline : ((here.advance (textOf tabRow.pieces)).advance
        (textOf (Row.pieces ⟨b.specPieces, [lineEnd]⟩))).offset =
          here.offset + (bodyLine b.specText).byteSize := by
      rw [← Position.advance_append, Position.offset_advance, hrow, bodyLine,
        append_assoc]
      rfl
    have htabRow : tabRow.body = [] := rfl
    rw [hcons, Row.specBindings, Row.specBindings, if_pos htabRow, nil_append,
      if_neg hb.standsAlone_specPieces.isStatement.ne_nil, hb.specBindings_specPieces,
      ih hbs, htab, hline, groupBindingsAt]

theorem standsAlone_groupPieces : StandsAlone (groupPieces bs) := by
  have hrows := sound_groupRows h
  have hended := Row.ended_of_sound hrows
  have hlexed : Lexed (Row.flatten (groupRows bs) ++ [closingParen]) :=
    Row.lexed_flatten_append hended lexed_closingParen
  have hfront : ∀ p ∈ groupFront, p.isClosed = true := by decide
  refine ⟨lexed_append_of_solid groupFront lexed_groupFront hfront (by decide) hlexed, ?_,
    ⟨?_, ?_, ?_⟩, ?_⟩
  · exact forall_mem_append.2
      ⟨hfront, forall_mem_append.2 ⟨Row.closed_flatten hrows, forall_mem_singleton.2 rfl⟩⟩
  · -- The rows stand in the brackets, where nothing ends a statement.
    have hinner : Mode.walk ⟨1, false, true⟩ (kinds false (Row.flatten (groupRows bs))) =
        some ⟨1, false, true⟩ :=
      Mode.walk_of_nest (Row.nest_flatten hended)
        (mem_kinds_ne_eof (Row.lexed_flatten hended) false) 0 false
    have hopens : Mode.outside.walk (kinds false groupFront) = some ⟨1, false, true⟩ := rfl
    rw [groupPieces, kinds_append, kinds_append, Mode.walk_append, hopens, Option.bind_some,
      Mode.walk_append, pendingAfter_groupFront, hinner, Row.pendingAfter_flatten hended]
    rfl
  · rintro p ⟨⟩
    rfl
  · intro p hp
    rw [groupPieces, ← append_assoc, getLast?_concat] at hp
    cases hp
    rfl
  · rw [groupPieces, pendingAfter_append, pendingAfter_append]
    rfl

theorem bindingsOf_groupPieces (here : Position) :
    Source.bindingsOf (scan here false (groupPieces bs)) =
      groupBindingsAt (here.offset + 6) bs := by
  have hended := Row.ended_of_sound (sound_groupRows h)
  let place := here.advance (textOf groupFront)
  let inner := scan place false (Row.flatten (groupRows bs))
  let closing : Token :=
    ⟨.closing .paren, [')'], place.advance (textOf (Row.flatten (groupRows bs)))⟩
  have hscan : scan here false (groupPieces bs) =
      scan here false groupFront ++ (inner ++ [closing]) := by
    rw [groupPieces, scan_append, pendingAfter_groupFront, scan_append,
      Row.pendingAfter_flatten hended]
    rfl
  let opening : Token := ⟨.opening .paren, ['('], here.advance "var "⟩
  have hdeclaration : Source.bindingsOf (scan here false groupFront ++ (inner ++ [closing])) =
      Source.declarationBindings (opening :: (inner ++ [closing])) := rfl
  have hnest : nest 0 (inner.map Token.kind) = some 0 := by
    rw [map_kind_scan]
    exact Row.nest_flatten hended
  -- The brackets of the specifications are closed among them, so the last one closes the
  -- group.
  have hindex : Source.closingIndex 0 (opening :: (inner ++ [closing])) =
      some (inner.length + 1) := by
    have hopens : Source.closingIndex 0 (opening :: (inner ++ [closing])) =
        (Source.closingIndex (0 + 1) (inner ++ [closing])).map (· + 1) := rfl
    have hcloses : Source.closingIndex (0 + 1) [closing] = some 0 := rfl
    rw [hopens, Source.closingIndex_append hnest, hcloses, Option.map_some, Option.map_some,
      Nat.zero_add]
  rw [hscan, hdeclaration, Source.declarationBindings, if_pos rfl, hindex]
  dsimp only
  rw [Nat.add_sub_cancel, take_left, Source.groupBindings_flatten hended,
    specBindings_groupRows h, Position.offset_advance]
  rfl

end Group

/-! ### Reading back -/

/-- **Bindings are read back as they are written.**  Each written form of a `BindingSpec`
(`defineText`, `assignText`, `varText` and the `groupText` of several) is one statement
(`Source.BindsAlone`), and its bindings are the names in their order and places, each with the
extent of all values and, if there are as many values as names, with the extent of its own. -/
theorem binds_written {b : BindingSpec} (h : b.WellFormed) {bs : List BindingSpec}
    (hbs : ∀ c ∈ bs, c.WellFormed) :
    Source.BindsAlone b.defineText (b.bindingsAt 0 4 true) ∧
      Source.BindsAlone b.assignText (b.bindingsAt 0 3 false) ∧
      Source.BindsAlone b.varText (b.specBindingsAt 4) ∧
      Source.BindsAlone (groupText bs) (groupBindingsAt 6 bs) := by
  refine ⟨?_, ?_, ?_, ?_⟩
  · have htext : textOf (b.assignPieces definePiece) = b.defineText := textOf_assignPieces _ b
    rw [← htext]
    refine (h.standsAlone_assignPieces isJoint_define).binds fun here hzero => ?_
    rw [h.bindingsOf_assignPieces rfl rfl (by decide), hzero]
    rfl
  · have htext : textOf (b.assignPieces equalsPiece) = b.assignText := textOf_assignPieces _ b
    rw [← htext]
    refine (h.standsAlone_assignPieces isJoint_equals).binds fun here hzero => ?_
    rw [h.bindingsOf_assignPieces rfl rfl (by decide), hzero]
    rfl
  · rw [← textOf_varPieces]
    refine h.standsAlone_varPieces.binds fun here hzero => ?_
    rw [h.bindingsOf_varPieces, hzero]
  · rw [← textOf_groupPieces]
    refine (standsAlone_groupPieces hbs).binds fun here hzero => ?_
    rw [bindingsOf_groupPieces hbs, hzero]

/-- Two names with a value each, one of which is a literal on three lines, and two names with
one call for both. -/
theorem binds_written_pairs :
    let b : BindingSpec := ⟨["x", "f"], some "map[k]v", ["1", "func() \x7b\n\tg()\n\x7d"]⟩
    let c : BindingSpec := ⟨["y", "z"], none, ["g(0, 1)"]⟩
    b.WellFormed ∧ c.WellFormed ∧
      Source.BindsAlone "x, f := 1, func() \x7b\n\tg()\n\x7d"
        [⟨"x", 0, some ⟨8, 9⟩, some ⟨8, 26⟩, true⟩,
          ⟨"f", 3, some ⟨11, 26⟩, some ⟨8, 26⟩, true⟩] ∧
      Source.BindsAlone
        "var (\n\ty, z = g(0, 1)\n\tx, f map[k]v = 1, func() \x7b\n\tg()\n\x7d\n)"
        [⟨"y", 7, none, some ⟨14, 21⟩, true⟩, ⟨"z", 10, none, some ⟨14, 21⟩, true⟩,
          ⟨"x", 23, some ⟨38, 39⟩, some ⟨38, 56⟩, true⟩,
          ⟨"f", 26, some ⟨41, 56⟩, some ⟨38, 56⟩, true⟩] := by
  intro b c
  have hletter (l : Char) (hl : l ∈ ['x', 'f', 'y', 'z']) : IsIdentifier [l] := by
    fin_cases hl <;> exact ⟨⟨_, [], rfl, by decide, by simp⟩, by decide⟩
  have hb : b.WellFormed := by
    refine ⟨by decide, ?_, by decide +kernel, by decide, by decide +kernel, by decide +kernel⟩
    intro n hn
    fin_cases hn <;> exact hletter _ (by decide)
  have hc : c.WellFormed := by
    refine ⟨by decide, ?_, by decide +kernel, by decide, by decide +kernel, by decide +kernel⟩
    intro n hn
    fin_cases hn <;> exact hletter _ (by decide)
  have hbs : ∀ d ∈ [c, b], d.WellFormed := by
    intro d hd
    fin_cases hd
    · exact hc
    · exact hb
  obtain ⟨hdefine, -, -, hgroup⟩ := binds_written hb hbs
  have hbindings : b.bindingsAt 0 4 true = [⟨"x", 0, some ⟨8, 9⟩, some ⟨8, 26⟩, true⟩,
      ⟨"f", 3, some ⟨11, 26⟩, some ⟨8, 26⟩, true⟩] := by
    decide +kernel
  have hgrouped : groupBindingsAt 6 [c, b] = [⟨"y", 7, none, some ⟨14, 21⟩, true⟩,
      ⟨"z", 10, none, some ⟨14, 21⟩, true⟩, ⟨"x", 23, some ⟨38, 39⟩, some ⟨38, 56⟩, true⟩,
      ⟨"f", 26, some ⟨41, 56⟩, some ⟨38, 56⟩, true⟩] := by
    decide +kernel
  rw [hbindings] at hdefine
  rw [hgrouped] at hgroup
  exact ⟨hb, hc, hdefine, hgroup⟩

end BindingSpec

end Notebook
