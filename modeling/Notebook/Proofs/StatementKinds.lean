import Notebook.Proofs.DisplayRows

/-!
# The kind of a statement and its place

What a statement does is seen in its tokens, and the callee of a call is a part of its text.
Only the search for a method looks further than the first two tokens, and it ends in the
statement as well.  So a statement that is copied into another text yields a value there if it
does so here.

A redeclaration yields no value, and it yields none when its `:=` becomes `=`, unless the sign
is read together with another one behind it: `f :== f` becomes the comparison `f == f`.

## Main statements

* `Statement.Spells.hasValue_congr`: a statement that is copied yields a value where the copy
  does
* `exists_sign_of_isValue_demoted`: a redeclaration that has become an assignment yields no
  value, unless a further sign stands behind its `:=`
-/

namespace Notebook

open Lexer List

variable {e : Edit} {as bs ps : List Piece} {p : Piece} {session : Session} {s s' : Source}
  {callee : Span} {st z : Statement}

/-- Whether a statement yields a value: it is an expression, or a call of a function that has
results, where `count` tells how many the function with a text has. -/
def Source.HasValue (s : Source) (count : Text → Option Nat) (st : Statement) : Prop :=
  s.classify st = .expr ∨ ∃ callee text n, s.classify st = .call callee ∧
    s.slice callee = .ok text ∧ count text = some n ∧ 0 < n

theorem Source.HasValue.isValue {count : Text → Option Nat} (h : s.HasValue count st) :
    s.isValue st := by
  rcases h with h | ⟨callee, -, -, h, -⟩
  · exact .inl h
  · exact .inr ⟨callee, h⟩

/-- The kind as it is in a text that begins at offset `n`. -/
def StatementKind.move (n : Nat) : StatementKind → StatementKind
  | .call callee => .call (callee.move n)
  | k => k

theorem StatementKind.move_eq_expr {n : Nat} {k : StatementKind} :
    k.move n = .expr ↔ k = .expr := by
  cases k <;> simp [move]

theorem StatementKind.move_eq_call {n : Nat} {k : StatementKind} :
    k.move n = .call callee ↔ ∃ own, k = .call own ∧ callee = own.move n := by
  cases k <;> simp [move, eq_comm]

namespace Source

/-! ### What the first tokens leave open -/

/-- The kind of the last token. -/
def lastKind (ts : List Token) : TokenKind :=
  (ts.getLast?.map Token.kind).getD .eof

/-- What tokens do whose first ones do not decide it. -/
def openKind (ts : List Token) : StatementKind :=
  if startsDisplay ts then .display
  else if lastKind ts == .inc || lastKind ts == .dec then .assign
  else if (topLevel 0 ts).any fun t => assigns t.kind then .assign
  else if (topLevel 0 ts).tail.any fun t => t.kind == .arrow then .send
  else if lastKind ts == .closing .paren then
    match calleeSpan ts with
    | some callee => .call callee
    | none => .expr
  else .expr

theorem calleeSpan_of_openKind {ts : List Token} (h : openKind ts = .call callee) :
    calleeSpan ts = some callee := by
  unfold openKind at h
  split at h
  · cases h
  split at h
  · cases h
  split at h
  · cases h
  split at h
  · cases h
  split at h
  · cases hspan : calleeSpan ts with
    | none =>
      rw [hspan] at h
      cases h
    | some own =>
      rw [hspan] at h
      cases h
      rfl
  · cases h

section Move

variable (here : Position)

theorem openingIndex_move (depth : Nat) (ts : List Token) :
    openingIndex depth (ts.map (Token.move here)) = openingIndex depth ts := by
  induction ts generalizing depth with
  | nil => rfl
  | cons t ts ih =>
    rw [map_cons, openingIndex, openingIndex, Token.kind_move]
    split
    · rfl
    · dsimp only
      rw [ih]

theorem isCallee_move (depth : Nat) (front : Bool) (ts : List Token) :
    isCallee depth front (ts.map (Token.move here)) = isCallee depth front ts := by
  induction ts generalizing depth front with
  | nil => rfl
  | cons t ts ih =>
    have hlexeme : (t.move here).lexeme = t.lexeme := rfl
    simp only [map_cons, isCallee, Token.kind_move, hlexeme, ih]

theorem calleeSpan_move (ts : List Token) :
    calleeSpan (ts.map (Token.move here)) = (calleeSpan ts).map (Span.move here.offset) := by
  unfold calleeSpan
  rw [← map_reverse, openingIndex_move]
  cases openingIndex 0 ts.reverse with
  | none => rfl
  | some behind =>
    simp only [Option.bind_eq_bind, Option.bind_some, length_map, ← map_take,
      isCallee_move, extent_move]
    split <;> rfl

/-- What tokens do in another place. -/
theorem openKind_move (ts : List Token) :
    openKind (ts.map (Token.move here)) = (openKind ts).move here.offset := by
  have hlast : lastKind (ts.map (Token.move here)) = lastKind ts := by
    rw [lastKind, getLast?_map, Option.map_map]
    rfl
  have hany (f : TokenKind → Bool) (us : List Token) :
      ((us.map (Token.move here)).any fun t => f t.kind) = us.any fun t => f t.kind := by
    rw [any_map]
    rfl
  unfold openKind
  simp only [hlast, startsDisplay_move, topLevel_move, ← map_tail, hany assigns,
    hany (· == .arrow), calleeSpan_move]
  split
  · rfl
  split
  · rfl
  split
  · rfl
  split
  · rfl
  split
  · cases calleeSpan ts <;> rfl
  · rfl

end Move

end Source

/-! ### A statement that is copied -/

namespace Statement.Spells

variable {st' : Statement} {body : List Piece}

section

variable (h : st.Spells s body)
include h

/-- The bracket behind a `func` is closed in the statement. -/
theorem exists_closingIndex (hfunc : s.kindAt st.first = .keyword .funcKw)
    (hparen : s.kindAt (st.first + 1) = .opening .paren) :
    ∃ n, Source.closingIndex 0 (scan .start false body).tail = some n ∧
      n + 2 ≤ (kinds false body).length ∧ s.matching (st.first + 1) =
        some (st.first + (n + 1)) := by
  obtain ⟨here, semi, rest, htokens, hsemi, -⟩ := h.tokens
  obtain ⟨a, ts, -, hscan, -⟩ := h.isStatement.scan_eq here
  have hkinds : kinds false body = (a :: ts).map Token.kind := by
    rw [← hscan, map_kind_scan]
  have ha := h.kindAt_eq (i := 0) (Nat.zero_le _)
  rw [Nat.add_zero, hfunc, hkinds] at ha
  have hafunc : a.kind = .keyword .funcKw := ha.symm
  have hb := h.kindAt_eq (i := 1) (by rw [hkinds]; simp)
  rw [hparen, hkinds] at hb
  cases ts with
  | nil => cases hb
  | cons b us =>
    have hbparen : b.kind = .opening .paren := hb.symm
    have hnest : nest 0 ((b :: us).map Token.kind) = some 0 := by
      have hwhole := Mode.nest_of_walk h.isStatement.whole
      rw [hkinds, map_cons, nest_cons, hafunc] at hwhole
      exact hwhole
    obtain ⟨n, hn, hindex⟩ :=
      Source.exists_closingIndex_cons hbparen (foldl_depthAfter_of_nest hnest)
    have hlt := Source.closingIndex_lt hindex
    have htail : (scan here false body).tail = (scan .start false body).tail.map
        (Token.move here) := by
      rw [scan_eq_map, map_tail]
    rw [hscan, tail_cons] at htail
    refine ⟨n + 1, ?_, ?_, ?_⟩
    · rw [← Source.closingIndex_move here, ← htail, hindex]
    · rw [hkinds, length_map, length_cons]
      omega
    · have hdrop : s.tokens.drop (st.first + 1) = (b :: us) ++ semi :: rest := by
        rw [← drop_drop, htokens, hscan]
        rfl
      rw [Source.matching, hdrop, Source.closingIndex_append_left hindex]
      show some (n + 1 + (st.first + 1)) = _
      congr 1
      omega

/-- Whether a `func` begins a method is seen in the statement. -/
theorem isMethodAt_congr (h' : st'.Spells s' body)
    (hfunc : s.kindAt st.first = .keyword .funcKw)
    (hparen : s.kindAt (st.first + 1) = .opening .paren)
    (hfunc' : s'.kindAt st'.first = .keyword .funcKw)
    (hparen' : s'.kindAt (st'.first + 1) = .opening .paren) :
    s.isMethodAt st.first = s'.isMethodAt st'.first := by
  obtain ⟨n, hn, hlt, hmatching⟩ := h.exists_closingIndex hfunc hparen
  obtain ⟨m, hm, -, hmatching'⟩ := h'.exists_closingIndex hfunc' hparen'
  obtain rfl : n = m := Option.some.inj (hn.symm.trans hm)
  unfold Source.isMethodAt
  rw [hmatching, hmatching']
  simp only [Nat.add_assoc]
  rw [h.kindAt_eq hlt, h'.kindAt_eq hlt]
  -- Behind a name there is one more token, or the semicolon.
  rcases Nat.lt_or_eq_of_le hlt with hlt | heq
  · rw [h.kindAt_eq hlt, h'.kindAt_eq hlt]
  · rw [heq, getElem?_eq_none (Nat.le_refl _)]
    rfl

/-- The first tokens of a statement decide the same wherever it stands. -/
theorem leadingKind?_congr (h' : st'.Spells s' body) :
    s.leadingKind? st = s'.leadingKind? st' := by
  have hpos : 1 ≤ (kinds false body).length := by
    obtain ⟨a, ts, -, hscan, -⟩ := h.isStatement.scan_eq .start
    rw [← length_scan .start, hscan, length_cons]
    omega
  have hfirst : s.kindAt st.first = s'.kindAt st'.first :=
    (h.kindAt_eq (Nat.zero_le _)).trans (h'.kindAt_eq (Nat.zero_le _)).symm
  have hsecond : s.kindAt (st.first + 1) = s'.kindAt (st'.first + 1) :=
    (h.kindAt_eq hpos).trans (h'.kindAt_eq hpos).symm
  have hmethod := h.isMethodAt_congr h'
  unfold Source.leadingKind? Source.leadingKindFrom?
  rw [hfirst, hsecond] at hmethod ⊢
  cases hkind : s'.kindAt st'.first with
  | keyword k =>
    cases k with
    | funcKw =>
      by_cases hparen : s'.kindAt (st'.first + 1) = .opening .paren
      · rw [hmethod hkind hparen hkind hparen]
      · simp only [beq_eq_false_iff_ne.2 hparen, Bool.false_and]
    | _ => rfl
  | opening b => cases b <;> rfl
  | _ => rfl

/-- What a statement does if its first tokens do not decide it. -/
theorem classify_eq (hopen : s.leadingKind? st = none) :
    s.classify st = (Source.openKind (scan .start false body)).move st.span.start := by
  obtain ⟨here, htokens, hspan⟩ := h.tokensOf_eq
  have hlast : Source.lastKind (scan here false body) = s.kindAt st.last := by
    rw [Source.lastKind, ← getLast?_map, map_kind_scan, h.kindAt_last]
    rfl
  have hdisplay : s.isDisplay st = Source.startsDisplay (scan here false body) := by
    rw [h.isDisplay_eq, displays, scan_eq_map here, Source.startsDisplay_move]
  have hstart : st.span.start = here.offset := by rw [hspan]
  rw [hstart, ← Source.openKind_move, ← scan_eq_map, Source.openKind, hlast,
    ← hdisplay, ← htokens]
  unfold Source.classify
  rewrite [hopen]
  rfl

/-- A statement yields a value if its pieces do. -/
theorem hasValue_iff (hlexed : Lexed body) {count : Text → Option Nat} :
    s.HasValue count st ↔ s.leadingKind? st = none ∧
      (Source.openKind (scan .start false body) = .expr ∨
        ∃ callee text n, Source.openKind (scan .start false body) = .call callee ∧
          callee.slice (textOf body) = .ok text ∧ count text = some n ∧ 0 < n) := by
  obtain ⟨before, behind, htext, hstart⟩ := h.exists_text
  have hslice {callee : Span}
    (hcall : Source.openKind (scan .start false body) = .call callee) :
      s.slice (callee.move st.span.start) = callee.slice (textOf body) := by
    have hfits :=
      Source.calleeSpan_fits hlexed.placed_scan (Source.calleeSpan_of_openKind hcall)
    rw [Source.slice, htext, hstart, Span.slice_move hfits]
  constructor
  · intro hvalue
    have hopen := Source.leadingKind?_of_isValue hvalue.isValue
    refine ⟨hopen, ?_⟩
    rw [Source.HasValue, h.classify_eq hopen] at hvalue
    rcases hvalue with hexpr | ⟨callee, text, n, hcall, htext, hcount, hpos⟩
    · exact .inl (StatementKind.move_eq_expr.1 hexpr)
    · obtain ⟨callee, hkind, rfl⟩ := StatementKind.move_eq_call.1 hcall
      exact .inr ⟨callee, text, n, hkind, hslice hkind ▸ htext, hcount, hpos⟩
  · rintro ⟨hopen, hvalue⟩
    rw [Source.HasValue, h.classify_eq hopen]
    rcases hvalue with hexpr | ⟨callee, text, n, hkind, htext, hcount, hpos⟩
    · exact .inl (StatementKind.move_eq_expr.2 hexpr)
    · exact .inr ⟨callee.move st.span.start, text, n,
        StatementKind.move_eq_call.2 ⟨callee, hkind, rfl⟩,
        (hslice hkind).trans htext, hcount, hpos⟩

/-- A statement that is copied yields a value where the copy does. -/
theorem hasValue_congr (h' : st'.Spells s' body) (hlexed : Lexed body)
    {count : Text → Option Nat} : s.HasValue count st ↔ s'.HasValue count st' := by
  rw [h.hasValue_iff hlexed, h'.hasValue_iff hlexed, h.leadingKind?_congr h']

end

end Statement.Spells

/-! ### A redeclaration that becomes an assignment -/

namespace Source

/-- Whether an assigning kind stands outside brackets. -/
def assignsOutside (depth : Nat) : List TokenKind → Bool
  | [] => false
  | k :: ks =>
    let before := if k.closes then depth - 1 else depth
    let behind := if k.opens then before + 1 else before
    (before == 0 && assigns k) || assignsOutside behind ks

theorem any_assigns_topLevel (depth : Nat) (ts : List Token) :
    ((topLevel depth ts).any fun t => assigns t.kind) =
      assignsOutside depth (ts.map Token.kind) := by
  induction ts generalizing depth with
  | nil => rfl
  | cons t ts ih =>
    rw [topLevel, map_cons, assignsOutside]
    generalize (if t.kind.closes = true then depth - 1 else depth) = before
    cases before with
    | zero => rw [if_pos rfl, any_cons, ih, beq_self_eq_true, Bool.true_and]
    | succ before =>
      rw [if_neg (Nat.succ_ne_zero _), ih, beq_eq_false_iff_ne.2 (Nat.succ_ne_zero _),
        Bool.false_and, Bool.false_or]

/-- Which of the assigning kinds it is plays no part. -/
theorem assignsOutside_replaced {a b : TokenKind} (ha : assigns a = true)
    (hb : assigns b = true) (depth : Nat) (ks ls : List TokenKind) :
    assignsOutside depth (ks ++ a :: ls) = assignsOutside depth (ks ++ b :: ls) := by
  have hplain {k : TokenKind} (hk : assigns k = true) :
      k.opens = false ∧ k.closes = false := by
    cases k <;> first | exact ⟨rfl, rfl⟩ | cases hk
  induction ks generalizing depth with
  | nil =>
    simp only [nil_append, assignsOutside, (hplain ha).1, (hplain ha).2, (hplain hb).1,
      (hplain hb).2, ha, hb]
  | cons k ks ih => simp only [cons_append, assignsOutside, ih]

theorem kind_of_mem_plainNames {ts names : List Token} (h : plainNames ts = some names) :
    ∀ t ∈ ts, t.kind = .ident ∨ t.kind = .comma := by
  fun_induction plainNames ts generalizing names with
  | case1 => simp
  | case2 a ha => simp [ha]
  | case3 => cases h
  | case4 a c ts hac ih =>
    obtain ⟨ns, hns, -⟩ := Option.map_eq_some_iff.1 h
    exact forall_mem_cons.2 ⟨.inl hac.1, forall_mem_cons.2 ⟨.inr hac.2, ih hns⟩⟩
  | case5 => cases h

end Source

/-- A statement that is demoted declares a name. -/
theorem any_define_of_demotion? (h : demotion? s session st = some e) :
    (s.bindings st).any (·.define) = true := by
  obtain ⟨r, hr, he⟩ := Option.bind_eq_some_iff.1 h
  simp only [Redeclaration.ofStatement?, Redeclaration.ofBindings?] at hr
  split at hr
  · cases hr
  next hnames =>
    cases hr
    simp only [Bool.or_eq_true, Bool.not_eq_true', Bool.or_eq_false_iff, not_or, not_and,
      Bool.not_eq_false] at hnames
    cases hvar : s.kindAt st.first == .keyword .varKw with
    | false => exact hnames.2 hvar
    | true => simp [hvar] at he

/-- A redeclaration that is demoted is no expression and no call. -/
theorem not_isValue_of_demotion? (h : demotion? s session st = some e) : ¬s.isValue st := by
  intro hvalue
  have hany := any_define_of_demotion? h
  rw [Source.bindings_of_isValue hvalue] at hany
  cases hany

/-- Only an operator is read together with a sign behind it. -/
theorem takesEquals_eq_false (h : Spelled p)
    (hinert : ∀ k, p.kind = .token k → k.isInert = false) : takesEquals p = false := by
  cases hp : takesEquals p with
  | false => rfl
  | true =>
    obtain ⟨c, t, rfl, -, hmem⟩ := eq_mark_of_takesEquals h hp
    exact (signTakers_inert _ hmem).1.symm.trans (hinert _ rfl)

theorem exists_demoted_cons (hp : takesEquals p = false) (ps qs : List Piece) :
    ∃ rest, demoted (p :: ps) qs = p :: rest := by
  unfold demoted
  cases ps with
  | nil => exact ⟨withEquals qs, by simp [hp]⟩
  | cons q ps =>
    rw [getLast?_cons_cons]
    split
    · split
      · exact ⟨_, rfl⟩
      · exact ⟨_, rfl⟩
    next hnone => simp at hnone

/-- A sign is read alone, unless a further one stands behind it. -/
theorem withEquals_eq_or (qs : List Piece) : withEquals qs = equalsPiece :: qs ∨
    ∃ q rest, qs = q :: rest ∧ (q = equalsPiece ∨ q = equalPiece) := by
  cases qs with
  | nil => exact .inl rfl
  | cons q rest =>
    by_cases hq : q = equalsPiece ∨ q = equalPiece
    · exact .inr ⟨q, rest, rfl, hq⟩
    · obtain ⟨hequals, hequal⟩ := not_or.1 hq
      exact .inl (by rw [withEquals, if_neg hequals, if_neg hequal])

/-- No operator in front of a sign is read together with it. -/
theorem demoted_eq (hps : ∀ p ∈ ps, takesEquals p = false) (qs : List Piece) :
    demoted ps qs = ps ++ withEquals qs := by
  unfold demoted
  cases hlast : ps.getLast? with
  | none =>
    rw [getLast?_eq_none_iff] at hlast
    rw [hlast]
    rfl
  | some p =>
    simp only [hps p (mem_of_getLast? hlast)]
    rfl

/-- A sign has a token of its own. -/
theorem kinds_append_sign {k : TokenKind} (hp : p.kind = .token k)
    (hk : k.endsStatement = false) (as bs : List Piece) :
    kinds false (as ++ p :: bs) = kinds false as ++ k :: kinds false bs := by
  rw [kinds_append, kinds_cons, Piece.emittedKinds, Piece.pendingBehind, hp]
  dsimp only
  rw [hk]
  rfl

theorem bne_define_of_mem_kinds (h : ∀ p ∈ ps, p.kind ≠ .token .define) :
    ∀ k ∈ kinds false ps, (k != .define) = true := by
  intro k hk
  rcases exists_of_mem_kinds hk with rfl | ⟨p, hp, hkind⟩
  · rfl
  · exact bne_iff_ne.2 fun heq => h p hp (heq ▸ hkind)

/-- Whether a further sign stands directly behind the first `:=` of a statement, as in
`f :== f`. -/
def Source.signFollows (s : Source) (st : Statement) : Bool :=
  match (s.tokensOf st).dropWhile (·.kind != .define) with
  | t :: u :: _ => t.stop == u.pos && u.lexeme.head? == some '='
  | _ => false

theorem Statement.Spells.signFollows_eq {q : Piece}
    (hst : st.Spells s (as ++ definePiece :: q :: bs))
    (has : ∀ p ∈ as, p.kind ≠ .token .define) (hq : q = equalsPiece ∨ q = equalPiece) :
    s.signFollows st = true := by
  obtain ⟨here, htokens, -⟩ := hst.tokensOf_eq
  have hfront : ∀ t ∈ scan here false as, (t.kind != .define) = true := by
    intro t ht
    refine bne_define_of_mem_kinds has _ ?_
    rw [← map_kind_scan here]
    exact mem_map_of_mem ht
  unfold Source.signFollows
  rw [htokens, scan_append, dropWhile_append_of_pos hfront]
  rcases hq with rfl | rfl <;>
    simp [scan_cons, Piece.emitted, definePiece, equalsPiece, equalPiece,
      Token.stop, Token.pos, Token.size, Nat.add_assoc]

/-- In front of the `:=` of plain names there is no operator. -/
theorem takesEquals_of_isDefinition (hdefines : s.isDefinition st = true)
    (hst : st.Spells s (as ++ definePiece :: bs))
    (has : ∀ p ∈ as, Spelled p ∧ p.kind ≠ .token .define) :
    ∀ p ∈ as, takesEquals p = false := by
  obtain ⟨left, op, right, names, hcut, hop, hnames⟩ :=
    Source.exists_cut_of_isDefinition hdefines
  have hplain := Source.kind_of_mem_plainNames hnames
  -- Both sides are cut at the first `:=`, so the names are the tokens in front of the sign.
  have hleft : left.map Token.kind = kinds false as := by
    obtain ⟨here, htokens, -⟩ := hst.tokensOf_eq
    have hkinds : left.map Token.kind ++ .define :: right.map Token.kind =
        kinds false as ++ .define :: kinds false bs := by
      rw [← kinds_append_sign (p := definePiece) rfl rfl, ← map_kind_scan here, ← htokens,
        Source.eq_of_cutAssignment hcut, map_append, map_cons, hop]
    have hnotLeft : ∀ k ∈ left.map Token.kind, (k != .define) = true := by
      intro k hk
      obtain ⟨t, ht, rfl⟩ := mem_map.1 hk
      rcases hplain t ht with h | h <;> rw [h] <;> rfl
    have hnotAs := bne_define_of_mem_kinds fun p hp => (has p hp).2
    have := congrArg (List.takeWhile (· != .define)) hkinds
    rw [takeWhile_append_of_pos hnotLeft, takeWhile_append_of_pos hnotAs] at this
    simpa using this
  intro p hp
  refine takesEquals_eq_false (has p hp).1 fun k hk => ?_
  have hmem := mem_kinds_of_mem hp hk false
  rw [← hleft] at hmem
  obtain ⟨t, ht, rfl⟩ := mem_map.1 hmem
  rcases hplain t ht with h | h <;> rw [h] <;> rfl

/-- The first tokens of a declaration decide what it is, also when a sign in it changes. -/
theorem leadingKind?_demoted (has : ∀ p ∈ as, Spelled p)
    (hdeclares : s.isDeclaration st = true) (hst : st.Spells s (as ++ definePiece :: bs))
    (hz : z.Spells s' (demoted as bs)) : s'.leadingKind? z = some .decl := by
  have hfirst := hst.kindAt_eq (i := 0) (Nat.zero_le _)
  have hkind : s.kindAt st.first = .keyword .varKw ∨ s.kindAt st.first =
      .keyword .constKw := by
    simpa [Source.isDeclaration] using hdeclares
  cases as with
  | nil =>
    rw [Nat.add_zero, nil_append, kinds_cons] at hfirst
    rw [hfirst] at hkind
    rcases hkind with h | h <;> cases h
  | cons p as =>
    obtain ⟨k, hk, hkinds⟩ := kinds_of_isToken (hst.isStatement.front p rfl) false
      (as ++ definePiece :: bs)
    rw [Nat.add_zero, cons_append, hkinds] at hfirst
    have hfirst : s.kindAt st.first = k := hfirst
    have hp : takesEquals p = false := by
      refine takesEquals_eq_false (has p mem_cons_self) fun l hl => ?_
      obtain rfl : k = l := PieceKind.token.inj (hk.symm.trans hl)
      rw [hfirst] at hkind
      rcases hkind with rfl | rfl <;> rfl
    obtain ⟨rest, hrest⟩ := exists_demoted_cons hp as bs
    rw [hrest] at hz
    obtain ⟨l, hl, hkinds'⟩ := kinds_of_isToken (hz.isStatement.front p rfl) false rest
    obtain rfl : k = l := PieceKind.token.inj (hk.symm.trans hl)
    have hfirst' := hz.kindAt_eq (i := 0) (Nat.zero_le _)
    rw [Nat.add_zero, hkinds'] at hfirst'
    have heq : s'.kindAt z.first = s.kindAt st.first := hfirst'.trans hfirst.symm
    unfold Source.leadingKind? Source.leadingKindFrom?
    rw [heq]
    rcases hkind with h | h <;> rw [h]

/-- A redeclaration that has become an assignment yields no value, unless a further sign
stands behind its `:=`. -/
theorem exists_sign_of_isValue_demoted {r : Row} (hr : r.Sound) (hst : st.Spells s r.body)
    (hd : demotion? s session st = some e) (hz : z.Spells s' (demotedFirst r.body))
    (hvalue : s'.isValue z) :
    ∃ as q bs, r.body = as ++ definePiece :: q :: bs ∧ (∀ p ∈ as, p.kind ≠ .token .define) ∧
      (q = equalsPiece ∨ q = equalPiece) := by
  obtain ⟨as, bs, hbody, has, -⟩ := exists_of_demotion? hr hst hd
  have hspelled : ∀ p ∈ as, Spelled p := fun p hp =>
    hr.spelled (mem_append_left _ (hbody ▸ mem_append_left _ hp))
  rw [hbody] at hst
  rw [hbody, demotedFirst_append has] at hz
  cases hdeclares : s.isDeclaration st with
  | true =>
    have hleading := leadingKind?_demoted hspelled hdeclares hst hz
    rw [Source.leadingKind?_of_isValue hvalue] at hleading
    cases hleading
  | false =>
    have hdefines : s.isDefinition st = true := by
      rw [Source.isDefinition, hdeclares, any_define_of_demotion? hd]
      rfl
    rw [demoted_eq (takesEquals_of_isDefinition hdefines hst fun p hp =>
      ⟨hspelled p hp, has p hp⟩)] at hz
    rcases withEquals_eq_or bs with halone | ⟨q, rest, rfl, hq⟩
    · rw [halone] at hz
      obtain ⟨left, op, right, names, hcut, -, -⟩ :=
        Source.exists_cut_of_isDefinition hdefines
      have hassigns :
          Source.assignsOutside 0 (kinds false (as ++ definePiece :: bs)) = true := by
        obtain ⟨here, htokens, -⟩ := hst.tokensOf_eq
        obtain ⟨t, ht, hassigns⟩ := Source.exists_assigns_of_cutAssignment hcut
        rw [← map_kind_scan here, ← htokens, ← Source.any_assigns_topLevel]
        exact any_eq_true.2 ⟨t, ht, hassigns⟩
      have hnone := Source.any_assigns_of_isValue hvalue
      obtain ⟨here, htokens, -⟩ := hz.tokensOf_eq
      rw [Source.any_assigns_topLevel, htokens, map_kind_scan,
        kinds_append_sign (p := equalsPiece) rfl rfl,
        Source.assignsOutside_replaced (b := .define) rfl rfl,
        ← kinds_append_sign (p := definePiece) rfl rfl, hassigns] at hnone
      cases hnone
    · exact ⟨as, q, rest, hbody, has, hq⟩

end Notebook
