import Notebook.Proofs.DiscardRows

/-!
# What the lines of a session capture

A program begins with the lines that bring the variables of the session back, and its plan is
read off the whole program.  So a variable stays live because the line that brings it back
captures it again: a replayed function literal is captured with its source as it is, and a
decoded value without one.  A comma outside brackets would split the value of a replayed line
in two, and its literal would be lost.

## Main statements

* `capturesOf_replay`, `capturesOf_decode`: what a line captures
* `Session.Replayable.rehydrationLines_eq`: the lines of a program
* `Session.Replayable.flatMap_capturesOf_lines`: they capture the session
-/

namespace Notebook

open Lexer List

variable {ts us : List Token} {depth : Nat} {l n name type : Text}

/-! ### Values between commas -/

namespace Source

/-- Without a comma outside brackets there is one part. -/
theorem cutCommas_eq (h : ∀ t ∈ topLevel depth ts, t.kind ≠ .comma) :
    cutCommas depth ts = [ts] := by
  induction ts generalizing depth with
  | nil => rfl
  | cons t ts ih =>
    obtain ⟨kind, lexeme, start⟩ := t
    have hdepth : depthAfter depth kind =
        if kind.opens then (if kind.closes then depth - 1 else depth) + 1
        else if kind.closes then depth - 1 else depth := by
      cases kind <;> rfl
    rw [topLevel] at h
    have hcomma : ¬(kind = .comma ∧ depth = 0) := by
      rintro ⟨rfl, rfl⟩
      exact h _ mem_cons_self rfl
    have hrest : cutCommas (depthAfter depth kind) ts = [ts] := by
      refine ih fun u hu => h u ?_
      rw [hdepth] at hu
      by_cases hzero : (if kind.closes then depth - 1 else depth) = 0
      · rw [if_pos hzero]
        exact mem_cons_of_mem _ hu
      · rw [if_neg hzero]
        exact hu
    rw [cutCommas, if_neg hcomma, hrest]

theorem commaParts_eq (h : ∀ t ∈ topLevel 0 ts, t.kind ≠ .comma) (hne : ts ≠ []) :
    commaParts ts = [ts] := by
  rw [commaParts, cutCommas_eq h, filter_cons_of_pos (by simpa using hne),
    filter_nil]

theorem mem_topLevel_append {t : Token} (h : t ∈ topLevel depth ts) :
    t ∈ topLevel depth (ts ++ us) := by
  induction ts generalizing depth with
  | nil => cases h
  | cons u ts ih =>
    rw [cons_append, topLevel]
    rw [topLevel] at h
    by_cases hzero : (if u.kind.closes then depth - 1 else depth) = 0
    · rw [if_pos hzero] at h ⊢
      rcases mem_cons.1 h with rfl | h
      · exact mem_cons_self
      · exact mem_cons_of_mem _ (ih h)
    · rw [if_neg hzero] at h ⊢
      exact ih h

/-- Inside brackets nothing is outside them. -/
theorem topLevel_of_nest {behind : Nat} (h : nest depth (ts.map Token.kind) = some behind) :
    topLevel (depth + 1) (ts ++ us) = topLevel (behind + 1) us := by
  induction ts generalizing depth with
  | nil =>
    cases h
    rfl
  | cons t ts ih =>
    obtain ⟨kind, lexeme, start⟩ := t
    rw [map_cons, nest, foldlM_cons] at h
    obtain ⟨next, hnext, h⟩ := Option.bind_eq_some_iff.1 h
    have ih := ih h
    dsimp only [nestStep] at hnext
    rw [cons_append, topLevel]
    dsimp only
    cases hopens : kind.opens
    · cases hcloses : kind.closes
      · simp only [hopens, hcloses, Bool.false_eq_true, if_false, Option.some.injEq] at hnext
        subst hnext
        simpa using ih
      · simp only [hopens, hcloses, Bool.false_eq_true, if_false, if_true] at hnext
        split at hnext
        · cases hnext
        next hdepth =>
          cases hnext
          have hpred : depth - 1 + 1 = depth := Nat.succ_pred hdepth
          rw [hpred] at ih
          simpa [hdepth] using ih
    · have hcloses : kind.closes = false := by
        revert hopens
        cases kind <;> simp [TokenKind.opens, TokenKind.closes]
      simp only [hopens, if_true, Option.some.injEq] at hnext
      subst hnext
      simpa [hcloses] using ih

end Source

/-! ### Replayed function literals -/

/-- A function literal that is complete and one value: no comma stands outside its
brackets. -/
structure IsFunctionValue (l : Text) : Prop extends IsLiteral l where
  single : ∀ t ∈ Source.topLevel 0 (tokenize l), t.kind ≠ .comma

theorem capturesOf_replay (hblank : name ≠ blankName) (hl : IsFunctionValue l) :
    capturesOf (replayFront name ++ Lexer.pieces l) = [(name, some l)] := by
  have hstatement := hl.whole.standsAlone.isStatement
  let behind : Position := Position.start.advance (textOf (replayFront name))
  -- The value is one part, and its extent is the whole literal.
  obtain ⟨a, ts, b, hscan, hlast, hpos, hstop⟩ := hstatement.scan_eq behind
  rw [textOf_pieces] at hstop
  have hparts : Source.commaParts (a :: ts) = [a :: ts] := by
    rw [← hscan, scan_eq_map, Source.commaParts_move, Source.commaParts_eq,
      map_singleton]
    · intro t ht
      refine hl.single t ?_
      rw [tokenize_eq]
      exact Source.mem_topLevel_append ht
    · obtain ⟨a', ts', -, hscan', -⟩ := hstatement.scan_eq .start
      rw [hscan']
      exact cons_ne_nil _ _
  have hextent :
      Source.extent (a :: ts) = some ⟨behind.offset, behind.offset + l.byteSize⟩ := by
    rw [Source.extent, hlast, ← hstop, ← hpos]
    rfl
  have hbindings :
    Source.bindingsOf (scan .start false (replayFront name ++ Lexer.pieces l)) =
      [⟨name, 0, some ⟨behind.offset, behind.offset + l.byteSize⟩,
        some ⟨behind.offset, behind.offset + l.byteSize⟩, true⟩] := by
    have hpending : pendingAfter false (replayFront name) = false := rfl
    rw [scan_append, hpending, hscan]
    have hpaired : ∀ x, Source.pairValues [x] (a :: ts) true =
        [⟨x.lexeme, x.pos, some ⟨behind.offset, behind.offset + l.byteSize⟩,
          some ⟨behind.offset, behind.offset + l.byteSize⟩, true⟩] := by
      intro x
      rw [Source.pairValues, hparts, hextent]
      simp [hextent]
    exact hpaired ⟨.ident, name, .start⟩
  have hslice : (Source.ofText (textOf (replayFront name ++ Lexer.pieces l))).slice
      ⟨behind.offset, behind.offset + l.byteSize⟩ = .ok l := by
    have hcut : Span.cut ⟨behind.offset, behind.offset + l.byteSize⟩
        (textOf (replayFront name ++ Lexer.pieces l)) =
          .ok (textOf (replayFront name), l, []) := by
      refine Span.cut_eq_ok_iff.2 ⟨?_, ?_, ?_⟩
      · rw [textOf_append, textOf_pieces, append_nil]
      · exact (Position.offset_advance ..).trans (Nat.zero_add _)
      · exact congrArg (· + l.byteSize) ((Position.offset_advance ..).trans (Nat.zero_add _))
    show (Span.cut _ (textOf (replayFront name ++ Lexer.pieces l))).map _ = _
    rw [hcut]
    rfl
  have hcaptured :
    PersistencePlan.capture? (.ofText (textOf (replayFront name ++ Lexer.pieces l)))
      ⟨name, 0, some ⟨behind.offset, behind.offset + l.byteSize⟩,
        some ⟨behind.offset, behind.offset + l.byteSize⟩, true⟩ =
          .ok (some ⟨name, 0, some l⟩) := by
    simp only [PersistencePlan.capture?, if_neg hblank, hslice, bind, Except.bind,
      if_neg (trim_ne_nil_of_isFunctionLiteral hl.isFunction), hl.isFunction, if_true]
    rfl
  rw [capturesOf, hbindings, filterMap_cons_some (b := (name, some l)),
    filterMap_nil]
  rw [PersistencePlan.captured_eq_some_iff.2 hcaptured]
  rfl

/-! ### Decoded values -/

theorem capturesOf_decode (hblank : name ≠ blankName) (ht : IsTypeText type) :
    capturesOf (decodeFront name ++ (Lexer.pieces type ++ decodeBack name)) =
      [(name, none)] := by
  let behind : Position := Position.start.advance (textOf (decodeFront name))
  let place (n : Nat) : Position :=
    ((decodeFront name).take n).foldl (fun here p => here.advance p.text) .start
  let called : Token := ⟨.ident, "_Deserialize", place 7⟩
  let square : Token := ⟨.opening .square, ['['], place 8⟩
  let inside := scan behind false (Lexer.pieces type)
  let back := scan (behind.advance (textOf (Lexer.pieces type)))
    (pendingAfter false (Lexer.pieces type)) (decodeBack name)
  -- A comma of the type stands in brackets, so there is one value for two names.
  have hnest : nest 0 (inside.map Token.kind) = some 0 := by
    rw [map_kind_scan]
    exact nest_pieces ht.balanced
  have htop : Source.topLevel 0 (called :: square :: (inside ++ back)) =
      called :: square :: Source.topLevel 1 back := by
    rw [← Source.topLevel_of_nest hnest]
    rfl
  have hparts : Source.commaParts (called :: square :: (inside ++ back)) =
      [called :: square :: (inside ++ back)] := by
    refine Source.commaParts_eq ?_ (cons_ne_nil _ _)
    have hback : ∀ t ∈ Source.topLevel 1 back, t.kind ≠ .comma := by
      have hkinds : (Source.topLevel 1 back).map Token.kind =
          [.closing .square, .opening .paren, .closing .paren] := rfl
      intro t ht hcomma
      have hmem := mem_map_of_mem (f := Token.kind) ht
      rw [hkinds, hcomma] at hmem
      revert hmem
      decide
    intro t ht
    rw [htop] at ht
    rcases mem_cons.1 ht with rfl | ht
    · exact fun h => by cases h
    · rcases mem_cons.1 ht with rfl | ht
      · exact fun h => by cases h
      · exact hback t ht
  obtain ⟨all, hall⟩ : ∃ all,
    Source.extent (called :: square :: (inside ++ back)) = some all :=
    ⟨_, rfl⟩
  have hbindings : ∃ pos, Source.bindingsOf (scan .start false
      (decodeFront name ++ (Lexer.pieces type ++ decodeBack name))) =
      [⟨name, 0, none, some all, true⟩, ⟨blankName, pos, none, some all, true⟩] := by
    have hpending : pendingAfter false (decodeFront name) = false := rfl
    have hpaired :
      ∀ x y, Source.pairValues [x, y] (called :: square :: (inside ++ back)) true =
        [⟨x.lexeme, x.pos, none, some all, true⟩,
          ⟨y.lexeme, y.pos, none, some all, true⟩] := by
      intro x y
      rw [Source.pairValues, hparts, hall]
      rfl
    rw [scan_append, hpending, scan_append]
    exact ⟨_, hpaired ⟨.ident, name, place 0⟩ ⟨.ident, ['_'], place 3⟩⟩
  obtain ⟨pos, hbindings⟩ := hbindings
  rw [capturesOf, hbindings]
  have hname : PersistencePlan.captured
      (.ofText (textOf (decodeFront name ++ (Lexer.pieces type ++ decodeBack name))))
      ⟨name, 0, none, some all, true⟩ = some ⟨name, 0, none⟩ := by
    rw [PersistencePlan.captured_eq_some_iff, PersistencePlan.capture?, if_neg hblank]
  rw [filterMap_cons, hname]
  rfl

/-! ### Sessions whose variables all come back -/

theorem IsIdentifier.notMem {x : Text} (hx : IsIdentifier x) {c : Char}
    (hc : isIdentifierChar c = false) : c ∉ x := by
  intro hmem
  rw [hx.isIdentifierChar_of_mem hmem] at hc
  cases hc

/-- A text without a slash holds no mark. -/
theorem mark_notInfix_of_slash_notMem {t : Text} (h : '/' ∉ t) : ¬inputMark <:+: t :=
  fun hmark => h (hmark.subset (by decide))

theorem mark_notInfix_replay (hname : IsIdentifier name) (hl : ¬inputMark <:+: l) :
    ¬inputMark <:+: textOf (replayFront name ++ Lexer.pieces l) := by
  have hslash : '/' ∉ name ++ [' ', ':'] := by
    simp [hname.notMem (c := '/') (by decide)]
  rw [textOf_replay]
  have htext : replayStatement name l = (name ++ [' ', ':']) ++ '=' :: ' ' :: l := by
    simp [replayStatement]
  rw [htext, Text.infix_append_cons (by decide)]
  rintro (hfront | hback)
  · exact mark_notInfix_of_slash_notMem hslash hfront
  · rcases infix_cons_iff.1 hback with hback | hback
    · obtain ⟨rest, hrest⟩ := hback
      cases hrest
    · exact hl hback

theorem mark_notInfix_decode (hname : IsIdentifier name) (ht : ¬inputMark <:+: type) :
    ¬inputMark <:+: textOf (decodeFront name ++ (Lexer.pieces type ++ decodeBack name)) := by
  have hident := hname.notMem (c := '/') (by decide)
  have hfront : '/' ∉ name ++ ", _ := _Deserialize".toList := by
    simp [hident]
  have hback : '/' ∉ "(\"".toList ++ variableKey name ++ "\")".toList := by
    simp [variableKey, hident]
  have htext : decodeStatement name type = (name ++ ", _ := _Deserialize".toList) ++
      '[' :: (type ++ ']' :: ("(\"".toList ++ variableKey name ++ "\")".toList)) := by
    simp [decodeStatement]
  rw [textOf_decode, htext, Text.infix_append_cons (by decide),
    Text.infix_append_cons (by decide)]
  rintro (h | h | h)
  · exact mark_notInfix_of_slash_notMem hfront h
  · exact ht h
  · exact mark_notInfix_of_slash_notMem hback h

namespace Session

/-- The live names, with their function literals. -/
def entries (session : Session) : List NamedLiteral :=
  session.names.map fun n => (n, session.literal? n)

/-- A session whose variables all come back: a function literal is one complete value, and any
other variable has a type that can stand in brackets and a stored value. -/
structure Replayable (session : Session) (store : ValueStore) (files : FileTree) : Prop where
  nodup : session.names.Nodup
  names : ∀ n ∈ session.names, IsIdentifier n ∧ n ≠ blankName
  keys : (session.literals.map Prod.fst).Sublist session.names
  literals : ∀ p ∈ session.literals, IsFunctionValue p.2 ∧ ¬inputMark <:+: p.2
  values : ∀ n ∈ session.names, session.literal? n = none →
    ∃ type, store.typeTag files n = .ok (.value type) ∧ IsTypeText type ∧
      ¬inputMark <:+: type ∧
      files.pathExists (store.blobPath (variableKey n)) = true

/-- The statement that brings a variable back. -/
def linePieces (session : Session) (store : ValueStore) (files : FileTree) (name : Text) :
    List Piece :=
  match session.literal? name, store.typeTag files name with
  | some l, _ => replayFront name ++ Lexer.pieces l
  | none, .ok (.value type) => decodeFront name ++ (Lexer.pieces type ++ decodeBack name)
  | none, _ => []

/-- The statements that bring the variables of a session back. -/
def lines (session : Session) (store : ValueStore) (files : FileTree) : List (List Piece) :=
  session.names.map (session.linePieces store files)

@[simp] theorem map_fst_entries (session : Session) :
    session.entries.map Prod.fst = session.names := by
  rw [entries, map_map]
  exact map_id session.names

/-- Function literals in the order of their names are found by going through the names. -/
theorem filterMap_lookup_of_sublist {names : List Text} (hnodup : names.Nodup) {ls : Literals}
    (hkeys : (ls.map Prod.fst).Sublist names) :
    names.filterMap (fun n => (ls.find? n).map fun l => (n, l)) = ls := by
  induction names generalizing ls with
  | nil =>
    have hnil : ls = [] := by simpa using sublist_nil.1 hkeys
    rw [hnil]
    rfl
  | cons n names ih =>
    obtain ⟨hn, hdistinct⟩ := nodup_cons.1 hnodup
    cases ls with
    | nil => simp [Literals.find?]
    | cons p ls =>
      obtain ⟨key, l⟩ := p
      rw [map_cons] at hkeys
      by_cases hkey : key = n
      · subst hkey
        have hrest := ih hdistinct (cons_sublist_cons.1 hkeys)
        have hfirst : Literals.find? ((key, l) :: ls) key = some l := by
          simp [Literals.find?]
        rw [filterMap_cons_some (by rw [hfirst, Option.map_some])]
        -- The other names are not this one.
        congr 1
        refine Eq.trans (filterMap_congr fun m hm => ?_) hrest
        have hne : (m == key) = false := by
          simpa using fun heq : m = key => hn (heq ▸ hm)
        rw [Literals.find?, lookup_cons, hne, Literals.find?]
      · have hsub : (key :: ls.map Prod.fst).Sublist names := by
          cases hkeys with
          | cons _ h => exact h
          | cons_cons => exact absurd rfl hkey
        have hnone : Literals.find? ((key, l) :: ls) n = none := by
          rw [Literals.find?, lookup_eq_none_iff]
          intro q hq
          simpa using fun heq : n = q.1 =>
            hn (heq ▸ hsub.subset (mem_map_of_mem (f := Prod.fst) hq))
        rw [filterMap_cons, hnone]
        exact ih hdistinct hsub

variable {session : Session} {store : ValueStore} {files : FileTree}

namespace Replayable

section

variable (h : session.Replayable store files)
include h

theorem literalsOf_entries : literalsOf session.entries = session.literals := by
  rw [literalsOf, entries, filterMap_map]
  exact filterMap_lookup_of_sublist h.nodup h.keys

theorem firstNamed_entries : firstNamed session.entries = session.entries :=
  firstNamed_of_nodup (by rw [map_fst_entries]; exact h.nodup)

/-- A variable comes back by a replayed function literal or by a decoded value. -/
theorem linePieces_cases (hn : n ∈ session.names) :
    (∃ l, session.literal? n = some l ∧ IsFunctionValue l ∧ ¬inputMark <:+: l ∧
      session.linePieces store files n = replayFront n ++ Lexer.pieces l) ∨
    ∃ type, session.literal? n = none ∧ IsTypeText type ∧ ¬inputMark <:+: type ∧
      store.rehydration files n none = .ok (decodeStatement n type) ∧
      session.linePieces store files n =
        decodeFront n ++ (Lexer.pieces type ++ decodeBack n) := by
  cases hl : session.literal? n with
  | some l =>
    have hmem : (n, l) ∈ session.literals :=
      (PersistencePlan.lookup_eq_some_iff_mem (h.nodup.sublist h.keys)).1 hl
    obtain ⟨hvalue, hfree⟩ := h.literals (n, l) hmem
    exact .inl ⟨l, rfl, hvalue, hfree, by rw [linePieces, hl]⟩
  | none =>
    obtain ⟨type, htag, htype, hfree, hblob⟩ := h.values n hn hl
    refine .inr ⟨type, rfl, htype, hfree, ?_, by rw [linePieces, hl, htag]⟩
    simp only [ValueStore.rehydration, htag, hblob, if_true]

theorem standsAlone_linePieces (hn : n ∈ session.names) :
    StandsAlone (session.linePieces store files n) := by
  have hname := (h.names n hn).1
  rcases h.linePieces_cases hn with ⟨l, -, hl, -, hpieces⟩ | ⟨type, -, htype, -, -, hpieces⟩
  · rw [hpieces]
    exact standsAlone_replay hname hl.toIsLiteral
  · rw [hpieces]
    exact standsAlone_decode hname htype

/-- The line that brings a variable back captures it again. -/
theorem capturesOf_linePieces (hn : n ∈ session.names) :
    capturesOf (session.linePieces store files n) = [(n, session.literal? n)] := by
  have hblank := (h.names n hn).2
  rcases h.linePieces_cases hn with ⟨l, hsome, hl, -, hpieces⟩ | ⟨type, hnone, htype,
    -, -, hpieces⟩
  · rw [hpieces, hsome]
    exact capturesOf_replay hblank hl
  · rw [hpieces, hnone]
    exact capturesOf_decode hblank htype

theorem storesValue_linePieces (hn : n ∈ session.names) :
    storesValue (session.linePieces store files n) = false := by
  -- The token behind the name is no parenthesis.
  have hcall : ∀ a b : Bool, (a && false && b) = false := by decide
  rcases h.linePieces_cases hn with ⟨l, -, -, -, hpieces⟩ | ⟨type, -, -, -, -, hpieces⟩
  · rw [hpieces, storesValue, scan_append]
    exact hcall _ _
  · rw [hpieces, storesValue, scan_append]
    exact hcall _ _

theorem mark_notInfix_linePieces (hn : n ∈ session.names) :
    ¬inputMark <:+: textOf (session.linePieces store files n) := by
  have hname := (h.names n hn).1
  rcases h.linePieces_cases hn with ⟨l, -, -, hfree, hpieces⟩ | ⟨type, -, -,
    hfree, -, hpieces⟩
  · rw [hpieces]
    exact mark_notInfix_replay hname hfree
  · rw [hpieces]
    exact mark_notInfix_decode hname hfree

theorem rehydration_eq (hn : n ∈ session.names) :
    store.rehydration files n (session.literal? n) =
      .ok (textOf (session.linePieces store files n)) := by
  rcases h.linePieces_cases hn with ⟨l, hsome, -, -, hpieces⟩ | ⟨type, hnone, -, -,
    hback, hpieces⟩
  · rw [hpieces, hsome, textOf_replay]
    rfl
  · rw [hpieces, hnone, textOf_decode, hback]

/-- The lines that a program begins with. -/
theorem rehydrationLines_eq :
    rehydrationLines session store files [] =
      ((session.lines store files).map textOf).flatMap bodyLine := by
  have hall : session.names.filter (· ∉ ([] : List Text)) = session.names := by
    simp
  have hback : rehydrations session store files [] =
      session.names.map fun n => (n, textOf (session.linePieces store files n)) := by
    rw [rehydrations, hall, ← filterMap_eq_map]
    refine filterMap_congr fun n hn => ?_
    rw [h.rehydration_eq hn]
    rfl
  rw [rehydrationLines, hback, lines, flatMap_map, map_map, flatMap_map]
  rfl

/-- The lines that a program begins with capture the session. -/
theorem flatMap_capturesOf_lines :
    (session.lines store files).flatMap capturesOf = session.entries := by
  rw [lines, flatMap_map, entries, map_eq_flatMap]
  exact flatMap_congr fun n hn => h.capturesOf_linePieces hn

end

end Replayable

end Session

end Notebook
