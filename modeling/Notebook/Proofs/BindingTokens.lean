import Notebook.Proofs.InputRows

/-!
# Bindings and the place of a statement

What a statement binds is read off its tokens alone, and off their kinds, spellings and
order.  Where the statement stands changes the places of the names and values and nothing
else.  The names are identifiers of the statement, in the order in which they stand there.

## Main statements

* `Statement.Spells.bindings_eq`: the bindings of a statement of a source
* `Source.bindingsOf_move`: the bindings of tokens in another place
* `Source.namedIn_bindingsOf`: the names of bindings are identifiers, in their order
-/

namespace Notebook

open Lexer List

variable {ts us : List Token} {depth i k : Nat} {s : Source} {st : Statement}

/-- The span as it is in a text that begins at offset `n`. -/
def Span.move (n : Nat) (s : Span) : Span :=
  ⟨n + s.start, n + s.stop⟩

/-- The binding as it is in a text that begins at offset `n`. -/
def Binding.move (n : Nat) (b : Binding) : Binding :=
  { b with
    pos := n + b.pos
    value := b.value.map (Span.move n)
    rhs := b.rhs.map (Span.move n) }

/-- The numbers of the first and the last token of a statement. -/
def Statement.range (st : Statement) : Nat × Nat :=
  (st.first, st.last)

namespace Source

/-- The tokens of a list with numbers from the first to the last of a range. -/
def part (ts : List Token) (r : Nat × Nat) : List Token :=
  (ts.drop r.1).take (r.2 + 1 - r.1)

/-- The bindings of a group of specifications, from the tokens between its parentheses. -/
def groupBindings (ts : List Token) : List Binding :=
  (split 0 .initial ts).flatMap fun spec => specBindings (part ts spec.range)

/-- The bindings of a declaration, from the tokens behind its keyword. -/
def declarationBindings (ts : List Token) : List Binding :=
  match ts with
  | [] => specBindings []
  | t :: us =>
    if t.kind = .opening .paren then
      match closingIndex 0 ts with
      | none => []
      | some n => groupBindings (us.take (n - 1))
    else specBindings ts

/-- The bindings of a statement, from its tokens. -/
def bindingsOf (ts : List Token) : List Binding :=
  match ts with
  | [] => []
  | t :: us =>
    match t.kind with
    | .keyword .varKw | .keyword .constKw => declarationBindings us
    | _ => assignmentBindings ts

/-! ### Numbers of tokens -/

/-- A splitting that has begun elsewhere: it has seen the same kinds, with numbers that are
greater by `k`. -/
structure SplitState.Shifted (k : Nat) (a b : SplitState) : Prop where
  depth : a.depth = b.depth
  header : a.header = b.header
  current : a.current.map (fun c => (c.first, c.last)) =
    b.current.map fun c => (k + c.first, k + c.last)

theorem SplitState.Shifted.isNone_eq {a b : SplitState} (h : a.Shifted k b) :
    a.current.isNone = b.current.isNone := by
  have := congrArg Option.isNone h.current
  simpa using this

theorem SplitState.Shifted.close {a b : SplitState} (h : a.Shifted k b) (m n : Option Nat) :
    (a.close m).map Statement.range = ((b.close n).map Statement.range).map fun r =>
      (k + r.1, k + r.2) := by
  have hcurrent := h.current
  unfold SplitState.close
  cases ha : a.current <;> cases hb : b.current <;> simp_all [Statement.range]

theorem SplitState.Shifted.take {a b : SplitState} (h : a.Shifted k b) {t u : Token}
    (hkind : t.kind = u.kind) : (a.take (k + i) t).Shifted k (b.take i u) := by
  have hcurrent := h.current
  refine ⟨?_, ?_, ?_⟩
  · simp only [SplitState.take, h.depth, hkind]
  · simp only [SplitState.take, SplitState.headerAfter, h.depth, h.header, h.isNone_eq, hkind]
  · unfold SplitState.take
    cases ha : a.current <;> cases hb : b.current <;> simp_all

/-- The splitting of tokens sees their kinds, and counts from where it begins. -/
theorem map_range_split (h : ts.map Token.kind = us.map Token.kind) {a b : SplitState}
    (hab : a.Shifted k b) (i : Nat) :
    (split (k + i) a ts).map Statement.range =
      ((split i b us).map Statement.range).map fun r => (k + r.1, k + r.2) := by
  induction ts generalizing us a b i with
  | nil =>
    obtain rfl : us = [] := by simpa using h.symm
    exact hab.close none none
  | cons t ts ih =>
    cases us with
    | nil => cases h
    | cons u us =>
      obtain ⟨hkind, hkinds⟩ := List.cons.inj h
      have hsplits : a.splitsAt t.kind = b.splitsAt u.kind := by
        simp only [SplitState.splitsAt, hab.depth, hab.header, hkind]
      rw [split, split, hsplits, hkind]
      split
      · exact hab.close none none
      · split
        · have hnext :
              SplitState.Shifted k ⟨a.depth, a.header, none⟩ ⟨b.depth, b.header, none⟩ :=
            ⟨hab.depth, hab.header, rfl⟩
          rw [map_append, map_append, map_append, hab.close _ (some i),
            Nat.add_assoc, ih hkinds hnext]
        · rw [Nat.add_assoc]
          exact ih hkinds (hab.take hkind) (i + 1)

theorem shifted_initial (k : Nat) : SplitState.Shifted k .initial .initial :=
  ⟨rfl, rfl, rfl⟩

theorem runsFrom_zero (ts : List Token) : RunsFrom ts 0 ts := fun j t ht => by
  rwa [Nat.zero_add]

/-- The parts of a statement lie among the tokens that were split. -/
theorem range_of_mem_split (h : st ∈ split 0 .initial ts) :
    st.first ≤ st.last ∧ st.last < ts.length := by
  obtain ⟨hstands, hlt, -⟩ := standsIn_of_mem_split (runsFrom_zero ts)
    (SplitState.open_initial ts 0) h
  exact ⟨hstands.first_le_last, by omega⟩

/-- The specifications of a group are read off the tokens of the group. -/
theorem flatMap_statementsBetween (s : Source) (first stop : Nat) :
    ((s.statementsBetween first stop).flatMap fun spec => specBindings (s.tokensOf spec)) =
      groupBindings ((s.tokens.drop first).take (stop - first)) := by
  let ts := (s.tokens.drop first).take (stop - first)
  have hranges := map_range_split (Eq.refl (ts.map Token.kind)) (shifted_initial first) 0
  have hparts : ∀ spec ∈ split 0 .initial ts,
      part s.tokens (first + spec.first, first + spec.last) = part ts spec.range := by
    intro spec hspec
    obtain ⟨hle, hlt⟩ := range_of_mem_split hspec
    simp only [ts, length_take] at hlt
    simp only [part, Statement.range, ts]
    rw [drop_take, take_take, drop_drop]
    congr 1
    omega
  calc
    _ = ((split (first + 0) .initial ts).map Statement.range).flatMap fun r =>
        specBindings (part s.tokens r) := by
      rw [flatMap_map]
      rfl
    _ = (split 0 .initial ts).flatMap fun spec =>
        specBindings (part s.tokens (first + spec.first, first + spec.last)) := by
      rw [hranges, map_map, flatMap_map]
      rfl
    _ = groupBindings ts := by
      refine flatMap_congr fun spec hspec => ?_
      rw [hparts spec hspec]

/-! ### A statement of a source -/

theorem closingIndex_append_left {n : Nat} (h : closingIndex depth ts = some n)
    (us : List Token) : closingIndex depth (ts ++ us) = some n := by
  induction ts generalizing depth n with
  | nil => cases h
  | cons t ts ih =>
    rw [cons_append, closingIndex]
    rw [closingIndex] at h
    split at h
    next hcloses => rw [if_pos hcloses, h]
    next hcloses =>
      obtain ⟨m, hm, rfl⟩ := Option.map_eq_some_iff.1 h
      rw [if_neg hcloses, ih hm]
      rfl

/-- A bracket that is open in front of tokens, and not behind them, is closed among them. -/
theorem exists_closingIndex (h : (ts.map Token.kind).foldl depthAfter (depth + 1) = 0) :
    ∃ n, closingIndex (depth + 1) ts = some n := by
  induction ts generalizing depth with
  | nil => cases h
  | cons t ts ih =>
    rw [map_cons, foldl_cons] at h
    rw [closingIndex]
    split
    · exact ⟨0, rfl⟩
    next hcloses =>
      -- Only a closing bracket leads back to depth zero.
      obtain ⟨d, hd⟩ : ∃ d, depthAfter (depth + 1) t.kind = d + 1 := by
        unfold depthAfter
        split
        · exact ⟨depth + 1, rfl⟩
        · split
          next hc =>
            have hdepth : depth ≠ 0 := by simpa [hc] using hcloses
            exact ⟨depth - 1, by omega⟩
          · exact ⟨depth, rfl⟩
      rw [hd] at h ⊢
      obtain ⟨n, hn⟩ := ih h
      exact ⟨n + 1, by rw [hn]; rfl⟩

/-- A bracket that begins tokens behind which none is open is closed among them. -/
theorem exists_closingIndex_cons {b : Token} (hb : b.kind = .opening .paren)
    (h : ((b :: us).map Token.kind).foldl depthAfter 0 = 0) :
    ∃ n, closingIndex 1 us = some n ∧ closingIndex 0 (b :: us) = some (n + 1) := by
  have hopens : b.kind.opens = true := by rw [hb]; rfl
  have hcloses : b.kind.closes = false := by rw [hb]; rfl
  have hus : (us.map Token.kind).foldl depthAfter (0 + 1) = 0 := by
    simpa [depthAfter, hopens] using h
  obtain ⟨n, hn⟩ := exists_closingIndex hus
  refine ⟨n, hn, ?_⟩
  rw [closingIndex, hcloses, Bool.false_and, if_neg Bool.false_ne_true, depthAfter, hopens,
    if_pos rfl, hn]
  rfl

/-- The bindings of a declaration whose tokens behind the keyword begin with number `i`. -/
theorem declarationBindings_of_drop {last : Nat} {rest : List Token} {semi : Token}
    (hdrop : s.tokens.drop i = ts ++ semi :: rest) (hsemi : semi.kind = .semi)
    (hlast : last + 1 - i = ts.length) (hnest : nest 0 (ts.map Token.kind) = some 0) :
    (if s.kindAt i = .opening .paren then
      match s.matching i with
      | none => []
      | some close =>
        (s.statementsBetween (i + 1) close).flatMap fun spec => specBindings (s.tokensOf spec)
    else specBindings (s.segment i last)) = declarationBindings ts := by
  have hkind : s.kindAt i = ((ts ++ semi :: rest).head?.map Token.kind).getD .eof := by
    have := congrArg (fun l => l[0]?) hdrop
    simp only [getElem?_drop, Nat.add_zero] at this
    rw [kindAt, this, head?_eq_getElem?]
  have hsegment : s.segment i last = ts := by
    rw [segment, hdrop, hlast, take_left]
  rw [hsegment]
  cases ts with
  | nil =>
    have hne : s.kindAt i ≠ .opening .paren := by
      rw [hkind]
      simp [hsemi]
    rw [if_neg hne]
    rfl
  | cons b us =>
    have hb : s.kindAt i = b.kind := hkind
    rw [hb, declarationBindings]
    by_cases hparen : b.kind = .opening .paren
    · obtain ⟨n, hn, hindex⟩ :=
        exists_closingIndex_cons hparen (foldl_depthAfter_of_nest hnest)
      have hmatching : s.matching i = some (n + 1 + i) := by
        rw [matching, hdrop, closingIndex_append_left hindex]
        rfl
      have hlt := closingIndex_lt hn
      have hinner : s.tokens.drop (i + 1) = us ++ semi :: rest := by
        rw [← drop_drop, hdrop]
        rfl
      have hcount : n + 1 + i - (i + 1) = n := by omega
      rw [if_pos hparen, if_pos hparen, hmatching, hindex]
      dsimp only
      rw [flatMap_statementsBetween, hinner, hcount, Nat.add_sub_cancel,
        take_append_of_le_length (by omega)]
    · rw [if_neg hparen, if_neg hparen]

end Source

/-- The bindings of a statement are read off its tokens. -/
theorem Statement.Spells.bindings_eq {body : List Piece} (h : st.Spells s body) :
    s.bindings st = Source.bindingsOf (s.tokensOf st) := by
  obtain ⟨here, semi, rest, htokens, hsemi, -⟩ := h.tokens
  have htokensOf : s.tokensOf st = scan here false body := by
    rw [Source.tokensOf, Source.segment, htokens, h.last, Nat.add_sub_cancel_left,
      ← length_scan here, take_left]
  have hlen : st.last + 1 - st.first = (scan here false body).length := by
    rw [h.last, Nat.add_sub_cancel_left, length_scan]
  have hnest : nest 0 ((scan here false body).map Token.kind) = some 0 := by
    rw [map_kind_scan]
    exact Mode.nest_of_walk h.isStatement.whole
  obtain ⟨a, ts, -, hscan, -⟩ := h.isStatement.scan_eq here
  rw [hscan] at htokens htokensOf hnest hlen
  have hkind : s.kindAt st.first = a.kind := by
    have := congrArg (fun l => l[0]?) htokens
    simp only [getElem?_drop, Nat.add_zero] at this
    rw [Source.kindAt, this]
    rfl
  have hdrop : s.tokens.drop (st.first + 1) = ts ++ semi :: rest := by
    rw [← drop_drop, htokens]
    rfl
  have hlast : st.last + 1 - (st.first + 1) = ts.length := by
    simp only [length_cons] at hlen
    omega
  -- Only a declaration looks further than the tokens, and its brackets are closed among them.
  have hdeclaration (k : Keyword) (hk : a.kind = .keyword k) :=
    Source.declarationBindings_of_drop hdrop hsemi hlast
      (by simpa [nest_cons, nestStep, hk, TokenKind.opens, TokenKind.closes] using hnest)
  rw [Source.bindings, htokensOf, Source.bindingsOf, hkind]
  cases hk : a.kind with
  | keyword k =>
    cases k with
    | varKw => exact hdeclaration _ hk
    | constKw => exact hdeclaration _ hk
    | _ => rfl
  | _ => rfl

namespace Source

/-! ### Tokens in another place -/

section Move

variable (here : Position)

theorem extent_move (ts : List Token) :
    extent (ts.map (Token.move here)) = (extent ts).map (Span.move here.offset) := by
  unfold extent
  rw [head?_map, getLast?_map]
  cases ts.head? <;> cases ts.getLast? <;> simp [Span.move]

theorem topLevel_move (depth : Nat) (ts : List Token) :
    topLevel depth (ts.map (Token.move here)) = (topLevel depth ts).map
      (Token.move here) := by
  induction ts generalizing depth with
  | nil => rfl
  | cons t ts ih =>
    rw [map_cons, topLevel, topLevel, Token.kind_move, ih]
    by_cases hzero : (if t.kind.closes = true then depth - 1 else depth) = 0
    · rw [if_pos hzero, if_pos hzero]
      rfl
    · rw [if_neg hzero, if_neg hzero]

theorem cutCommas_move (depth : Nat) (ts : List Token) :
    cutCommas depth (ts.map (Token.move here)) =
      (cutCommas depth ts).map (List.map (Token.move here)) := by
  induction ts generalizing depth with
  | nil => rfl
  | cons t ts ih =>
    rw [map_cons, cutCommas, cutCommas, ih, ih, Token.kind_move]
    split
    · rfl
    · cases cutCommas (depthAfter depth t.kind) ts <;> rfl

theorem commaParts_move (ts : List Token) :
    commaParts (ts.map (Token.move here)) = (commaParts ts).map
      (List.map (Token.move here)) := by
  rw [commaParts, cutCommas_move, filter_map, commaParts]
  congr 2
  funext p
  simp

theorem pairValues_move (names values : List Token) (define : Bool) :
    pairValues (names.map (Token.move here)) (values.map (Token.move here)) define =
      (pairValues names values define).map (Binding.move here.offset) := by
  unfold pairValues
  simp only [commaParts_move, length_map, extent_move]
  split
  · simp [zipWith_map, map_zipWith, Binding.move, extent_move]
  · simp [Binding.move]

theorem specNames_move (ts : List Token) :
    specNames (ts.map (Token.move here)) = (specNames ts).map (Token.move here) := by
  fun_induction specNames ts with
  | case1 a c ts ha hc ih => simp [specNames, ha, hc, ih]
  | case2 a c ts ha hc => simp [specNames, ha, hc]
  | case3 a c ts ha => simp [specNames, ha]
  | case4 a ha => simp [specNames, ha]
  | case5 a ha => simp [specNames, ha]
  | case6 => rfl

theorem behindAssign_move (depth : Nat) (ts : List Token) :
    behindAssign depth (ts.map (Token.move here)) =
      (behindAssign depth ts).map (Token.move here) := by
  induction ts generalizing depth with
  | nil => rfl
  | cons t ts ih =>
    rw [map_cons, behindAssign, behindAssign, ih, Token.kind_move]
    split <;> rfl

theorem specBindings_move (ts : List Token) :
    specBindings (ts.map (Token.move here)) =
      (specBindings ts).map (Binding.move here.offset) := by
  rw [specBindings, specNames_move, behindAssign_move, pairValues_move]
  rfl

theorem plainNames_move (ts : List Token) :
    plainNames (ts.map (Token.move here)) = (plainNames ts).map
      (List.map (Token.move here)) := by
  fun_induction plainNames ts with
  | case1 => rfl
  | case2 a ha => simp [plainNames, ha]
  | case3 a ha => simp [plainNames, ha]
  | case4 a c ts h ih => simp [plainNames, h, ih, Function.comp_def]
  | case5 a c ts h => simp [plainNames, h]

theorem cutAssignment_move (depth : Nat) (ts : List Token) :
    cutAssignment depth (ts.map (Token.move here)) = (cutAssignment depth ts).map fun p =>
      (p.1.map (Token.move here), p.2.1.move here, p.2.2.map (Token.move here)) := by
  induction ts generalizing depth with
  | nil => rfl
  | cons t ts ih =>
    obtain ⟨kind, lexeme, start⟩ := t
    have hmove : Token.move here ⟨kind, lexeme, start⟩ = ⟨kind, lexeme, here.move start⟩ :=
      rfl
    rw [map_cons, hmove, cutAssignment, cutAssignment]
    dsimp only
    generalize (if kind.closes = true then depth - 1 else depth) = before
    split
    · rfl
    · rw [ih, Option.map_map, Option.map_map]
      rfl

theorem assignmentBindings_move (ts : List Token) :
    assignmentBindings (ts.map (Token.move here)) =
      (assignmentBindings ts).map (Binding.move here.offset) := by
  unfold assignmentBindings
  rw [cutAssignment_move]
  cases cutAssignment 0 ts with
  | none => rfl
  | some p =>
    obtain ⟨left, op, right⟩ := p
    simp only [Option.map_some, Token.kind_move, plainNames_move]
    split
    · rfl
    · cases plainNames left with
      | none => rfl
      | some names => exact pairValues_move here names right _

theorem part_move (ts : List Token) (r : Nat × Nat) :
    part (ts.map (Token.move here)) r = (part ts r).map (Token.move here) := by
  rw [part, ← map_drop, ← map_take]
  rfl

theorem groupBindings_move (ts : List Token) :
    groupBindings (ts.map (Token.move here)) =
      (groupBindings ts).map (Binding.move here.offset) := by
  have hkinds : (ts.map (Token.move here)).map Token.kind = ts.map Token.kind := by
    rw [map_map]
    rfl
  have hranges := map_range_split hkinds (shifted_initial 0) 0
  simp only [Nat.zero_add, Prod.mk.eta, map_id'] at hranges
  have hgroup : ∀ us : List Token, groupBindings us =
      ((split 0 .initial us).map Statement.range).flatMap fun r =>
        specBindings (part us r) := by
    intro us
    rw [flatMap_map]
    rfl
  rw [hgroup, hranges, hgroup, map_flatMap]
  refine flatMap_congr fun r _ => ?_
  rw [part_move, specBindings_move]

theorem closingIndex_move (depth : Nat) (ts : List Token) :
    closingIndex depth (ts.map (Token.move here)) = closingIndex depth ts := by
  induction ts generalizing depth with
  | nil => rfl
  | cons t ts ih => rw [map_cons, closingIndex, closingIndex, ih, Token.kind_move]

theorem declarationBindings_move (ts : List Token) :
    declarationBindings (ts.map (Token.move here)) =
      (declarationBindings ts).map (Binding.move here.offset) := by
  cases ts with
  | nil => exact specBindings_move here []
  | cons t us =>
    have hindex := closingIndex_move here 0 (t :: us)
    have hspec := specBindings_move here (t :: us)
    rw [map_cons] at hindex hspec ⊢
    simp only [declarationBindings, Token.kind_move, hindex, hspec]
    split
    · cases closingIndex 0 (t :: us) with
      | none => rfl
      | some n =>
        dsimp only
        rw [← map_take, groupBindings_move]
    · rfl

/-- The bindings of tokens in another place. -/
theorem bindingsOf_move (ts : List Token) :
    bindingsOf (ts.map (Token.move here)) = (bindingsOf ts).map
      (Binding.move here.offset) := by
  cases ts with
  | nil => rfl
  | cons t us =>
    have hassignment := assignmentBindings_move here (t :: us)
    rw [map_cons] at hassignment ⊢
    simp only [bindingsOf, Token.kind_move, hassignment, declarationBindings_move]
    split <;> rfl

end Move

/-! ### The names of bindings -/

/-- Bindings whose names are identifiers among tokens, in the order of the tokens. -/
def NamedIn (bs : List Binding) (ts : List Token) : Prop :=
  ∃ ns : List Token, ns.Sublist ts ∧ (∀ n ∈ ns, n.kind = .ident) ∧
    bs.map (fun b => (b.name, b.pos)) = ns.map fun n => (n.lexeme, n.pos)

namespace NamedIn

variable {bs : List Binding}

theorem nil (ts : List Token) : NamedIn [] ts :=
  ⟨[], nil_sublist ts, by simp, rfl⟩

theorem sublist (h : NamedIn bs ts) (hsub : ts.Sublist us) : NamedIn bs us := by
  obtain ⟨ns, hns, hrest⟩ := h
  exact ⟨ns, hns.trans hsub, hrest⟩

/-- Every name is an identifier. -/
theorem exists_token (h : NamedIn bs ts) {b : Binding} (hb : b ∈ bs) :
    ∃ t ∈ ts, t.kind = .ident ∧ t.lexeme = b.name ∧ t.pos = b.pos := by
  obtain ⟨ns, hns, hident, heq⟩ := h
  have hmem : (b.name, b.pos) ∈ ns.map fun n => (n.lexeme, n.pos) :=
    heq ▸ mem_map_of_mem hb
  obtain ⟨n, hn, hpair⟩ := mem_map.1 hmem
  obtain ⟨hname, hpos⟩ := Prod.mk.inj hpair
  exact ⟨n, hns.subset hn, hident n hn, hname, hpos⟩

/-- The names stand in the order of the tokens. -/
theorem pairwise_pos (h : NamedIn bs ts) {t : Text} (hts : Placed t ts) :
    bs.Pairwise fun a b => a.pos ≤ b.pos := by
  obtain ⟨ns, hns, -, heq⟩ := h
  have hpos : bs.map Binding.pos = ns.map Token.pos := by
    have := congrArg (List.map Prod.snd) heq
    simpa [Function.comp_def] using this
  have hordered : (ns.map Token.pos).Pairwise (· ≤ ·) := by
    rw [pairwise_map]
    exact (hts.ordered.sublist hns).imp fun hab => Nat.le_trans (Token.pos_le_stop _) hab
  rw [← hpos, pairwise_map] at hordered
  exact hordered

/-- Bindings of parts that follow one another. -/
theorem flatMap {α : Type} {f : α → List Binding} {r : α → Nat × Nat} {xs : List α}
    (h : ∀ x ∈ xs, NamedIn (f x) (part ts (r x))) (hle : ∀ x ∈ xs, (r x).1 ≤ (r x).2)
    (hordered : xs.Pairwise fun x y => (r x).2 < (r y).1) : NamedIn (xs.flatMap f) ts := by
  -- What is left stands behind the parts that are done.
  suffices hfrom : ∀ k, (∀ x ∈ xs, k ≤ (r x).1) → NamedIn (xs.flatMap f) (ts.drop k) by
    have := hfrom 0 fun _ _ => Nat.zero_le _
    rwa [drop_zero] at this
  induction xs with
  | nil => exact fun k _ => nil _
  | cons x xs ih =>
    intro k hk
    rw [pairwise_cons] at hordered
    obtain ⟨ns, hns, hident, heq⟩ := h x mem_cons_self
    obtain ⟨ms, hms, hident', heq'⟩ := ih (fun y hy => h y (mem_cons_of_mem x hy))
      (fun y hy => hle y (mem_cons_of_mem x hy)) hordered.2 ((r x).2 + 1) hordered.1
    have hx := hle x mem_cons_self
    refine ⟨ns ++ ms, ?_, ?_, ?_⟩
    · have hcut : part ts (r x) ++ ts.drop ((r x).2 + 1) = ts.drop (r x).1 := by
        have hdrop :
            ts.drop ((r x).2 + 1) = (ts.drop (r x).1).drop ((r x).2 + 1 - (r x).1) := by
          rw [drop_drop]
          congr 1
          omega
        rw [part, hdrop, take_append_drop]
      have hsub := hns.append hms
      rw [hcut] at hsub
      refine hsub.trans ?_
      obtain ⟨d, hd⟩ := Nat.exists_eq_add_of_le (hk x mem_cons_self)
      rw [hd, ← drop_drop]
      exact drop_sublist _ _
    · exact forall_mem_append.2 ⟨hident, hident'⟩
    · rw [flatMap_cons, map_append, heq, heq', map_append]

end NamedIn

theorem specNames_spec (ts : List Token) :
    (specNames ts).Sublist ts ∧ ∀ n ∈ specNames ts, n.kind = .ident := by
  fun_induction specNames ts with
  | case1 a c ts ha hc ih =>
    refine ⟨(ih.1.cons c).cons_cons a, ?_⟩
    exact forall_mem_cons.2 ⟨ha, ih.2⟩
  | case2 a c ts ha hc =>
    refine ⟨(nil_sublist _).cons_cons a, ?_⟩
    intro n hn
    rwa [mem_singleton.1 hn]
  | case4 a ha =>
    refine ⟨Sublist.refl _, ?_⟩
    intro n hn
    rwa [mem_singleton.1 hn]
  | _ => exact ⟨nil_sublist _, by simp⟩

theorem plainNames_spec {names : List Token} (h : plainNames ts = some names) :
    names.Sublist ts ∧ ∀ n ∈ names, n.kind = .ident := by
  fun_induction plainNames ts generalizing names with
  | case1 =>
    cases h
    exact ⟨Sublist.refl _, by simp⟩
  | case2 a ha =>
    cases h
    refine ⟨Sublist.refl _, ?_⟩
    intro n hn
    rwa [mem_singleton.1 hn]
  | case4 a c ts hac ih =>
    obtain ⟨ns, hns, rfl⟩ := Option.map_eq_some_iff.1 h
    obtain ⟨hsub, hident⟩ := ih hns
    refine ⟨(hsub.cons c).cons_cons a, ?_⟩
    exact forall_mem_cons.2 ⟨hac.1, hident⟩
  | _ => cases h

theorem map_pairValues (names values : List Token) (define : Bool) :
    (pairValues names values define).map (fun b => (b.name, b.pos)) =
      names.map fun n => (n.lexeme, n.pos) := by
  unfold pairValues
  dsimp only
  split
  next hlen =>
    rw [map_zipWith]
    generalize commaParts values = parts at hlen
    induction names generalizing parts with
    | nil => rfl
    | cons n names ih =>
      cases parts with
      | nil => cases hlen
      | cons p parts => simpa using ih parts (by simpa using hlen)
  · simp [Function.comp_def]

theorem namedIn_specBindings (ts : List Token) : NamedIn (specBindings ts) ts := by
  obtain ⟨hsub, hident⟩ := specNames_spec ts
  exact ⟨specNames ts, hsub, hident, map_pairValues _ _ _⟩

theorem namedIn_assignmentBindings (ts : List Token) :
    NamedIn (assignmentBindings ts) ts := by
  unfold assignmentBindings
  split
  · exact .nil ts
  next left op right hcut =>
    split
    · exact .nil ts
    · split
      · exact .nil ts
      next names hnames =>
        obtain ⟨hsub, hident⟩ := plainNames_spec hnames
        refine ⟨names, hsub.trans ?_, hident, map_pairValues _ _ _⟩
        rw [eq_of_cutAssignment hcut]
        exact sublist_append_left _ _

theorem namedIn_groupBindings (ts : List Token) : NamedIn (groupBindings ts) ts := by
  refine NamedIn.flatMap (fun spec _ => namedIn_specBindings _)
    (fun spec hspec => (range_of_mem_split hspec).1) ?_
  refine (pairwise_split (runsFrom_zero ts) (SplitState.open_initial ts 0)).imp ?_
  exact fun hlt => hlt.last_lt

/-- The names of a statement's bindings are identifiers of the statement. -/
theorem namedIn_bindingsOf (ts : List Token) : NamedIn (bindingsOf ts) ts := by
  unfold bindingsOf
  split
  · exact .nil []
  next t us =>
    have hdeclaration : NamedIn (declarationBindings us) (t :: us) := by
      unfold declarationBindings
      split
      · exact .nil _
      next u vs =>
        split
        · split
          · exact .nil _
          next n _ =>
            exact (namedIn_groupBindings _).sublist
              (((take_sublist _ _).cons u).cons t)
        · exact (namedIn_specBindings _).sublist (sublist_cons_self t _)
    split
    · exact hdeclaration
    · exact hdeclaration
    · exact namedIn_assignmentBindings _

/-- The names of any statement are identifiers of the source. -/
theorem namedIn_bindings (s : Source) (st : Statement) :
    NamedIn (s.bindings st) s.tokens := by
  unfold bindings
  split
  case h_3 => exact (namedIn_assignmentBindings _).sublist (s.segment_sublist _ _)
  all_goals
    split
    · split
      · exact .nil _
      · rw [flatMap_statementsBetween]
        exact (namedIn_groupBindings _).sublist
          ((take_sublist _ _).trans (drop_sublist _ _))
    · exact (namedIn_specBindings _).sublist (s.segment_sublist _ _)

end Source

end Notebook
