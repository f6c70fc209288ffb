import Notebook.Proofs.BindingForms
import Notebook.Proofs.Signatures

/-!
# Declared numbers of results

A function declaration has a name and a signature, and perhaps a receiver in front of the name
and type parameters behind it.  Name and signature are found by a search for the closing
bracket of each group in front of them.  No semicolon stands outside the brackets of a
declaration, and its body ends what an `else` would begin; so declarations in a row are split
into one statement each, and each gives one entry, whatever other statements stand between
them.

A function literal that is bound to a name is a value without a comma outside brackets.  It is
therefore the one value of the name, and its first token is found by its place, since no other
token of the statement begins there.

## Main statements

* `Source.ReadsAt.functionDecl?`: what one declaration gives
* `FunctionForm.walk_tokens`: a declaration is one statement
* `Source.ReadsAt.functionDecls`: what declarations in a row give
* `Source.closureArity_eq`: what a function literal with a name gives
* `functionDecls_and_closureArity`: both, for texts
-/

namespace Notebook

open List

/-! ### Function declarations -/

/-- A function declaration.  It may have a receiver or type parameters. -/
structure FunctionForm where
  name : Text
  receiver : Option Enclosed
  typeParams : Option Enclosed
  signature : Signature

/-- Tokens in brackets, if there are any. -/
def Enclosed.optional (b : Bracket) : Option Enclosed → Wording
  | none => []
  | some e => e.within b

namespace FunctionForm

/-- The tokens of a declaration: `func (receiver) name[typeParams](params) results {body}`. -/
def tokens (f : FunctionForm) : Wording :=
  funcToken :: (Enclosed.optional .paren f.receiver ++
    (.ident, f.name) :: (Enclosed.optional .square f.typeParams ++ f.signature.tokens))

/-- What is read from a declaration: its name, whether it has a receiver, and the number of
its results. -/
def entry (f : FunctionForm) : Text × Bool × Nat :=
  (f.name, f.receiver.isSome, f.signature.results.count)

end FunctionForm

/-- What is kept of a declaration besides its extent. -/
def FunctionDecl.entry (d : FunctionDecl) : Text × Bool × Nat :=
  (d.name, d.receiver, d.results)

namespace Source

variable {s : Source} {i : Nat}

/-- A group that may be missing is passed over, and it is seen whether it is there. -/
theorem ReadsAt.optional {b : Bracket} {e : Option Enclosed}
    {c : TokenKind × Text} {w : Wording} (h : s.ReadsAt i (Enclosed.optional b e ++ c :: w))
    (hc : c.1 ≠ .opening b) :
    (s.kindAt i = .opening b ↔ e.isSome = true) ∧
      s.behindGroup? b i = some (i + (Enclosed.optional b e).length) := by
  cases e with
  | none =>
    have hkind : s.kindAt i = c.1 := ReadsAt.kindAt h
    have hnot : s.kindAt i ≠ .opening b := hkind ▸ hc
    exact ⟨by simp [hnot], if_neg hnot⟩
  | some e =>
    have hread : s.ReadsAt i (e.within b) := (readsAt_append.1 h).1
    have hopens : s.kindAt i = .opening b := ReadsAt.kindAt hread
    have hlength : i + (e.within b).length = i + e.tokens.length + 1 + 1 := by
      simp [Enclosed.within, Nat.add_assoc]
    refine ⟨by simp [hopens], ?_⟩
    rw [behindGroup?, if_pos hopens, hread.matching, Enclosed.optional, hlength]
    rfl

/-- What one declaration gives. -/
theorem ReadsAt.functionDecl? {f : FunctionForm} {st : Statement}
    (h : s.ReadsAt st.first f.tokens) :
    s.functionDecl? st =
      some ⟨f.name, f.receiver.isSome, f.signature.results.count, st.span⟩ := by
  have hreceiver := h.tail
  obtain ⟨hreceives, hnamed⟩ := hreceiver.optional (by simp)
  have hname := (readsAt_append.1 hreceiver).2
  obtain ⟨t, ht, hcontent⟩ := hname.exists_token
  have hident := (kindAt_eq ht).trans (congrArg Prod.fst hcontent)
  have hspelled : t.lexeme = f.name := congrArg Prod.snd hcontent
  -- Behind the type parameters stands the parenthesis of the parameters.
  have htypes := hname.tail
  obtain ⟨-, hparams⟩ := htypes.optional (by simp)
  obtain ⟨hparen, close, hclose, hcount⟩ := ReadsAt.signature (readsAt_append.1 htypes).2
  have hbool : (s.kindAt (st.first + 1) == .opening .paren) = f.receiver.isSome := by
    rw [Bool.eq_iff_iff, beq_iff_eq, hreceives]
  have hplace : s.functionPlace? st = some ⟨f.receiver.isSome,
      st.first + 1 + (Enclosed.optional .paren f.receiver).length, close + 1⟩ := by
    rw [functionPlace?, hnamed, Option.bind_eq_bind, Option.bind_some, if_pos hident, hparams,
      Option.bind_some, if_pos hparen, hclose, hbool]
    rfl
  rw [Source.functionDecl?, hplace, Option.bind_eq_bind, Option.bind_some, ht,
    Option.bind_eq_bind, Option.bind_some, hcount, hspelled]
  rfl

end Source

/-! ### Declarations are statements -/

/-- A group in brackets is taken into a statement.  A body ends a header that is being
read. -/
theorem Enclosed.walk_within {e : Enclosed} {b : Bracket}
    (heof : .eof ∉ (e.within b).map Prod.fst) (reading : Bool) :
    Mode.walk ⟨0, reading, true⟩ ((e.within b).map Prod.fst) =
      some ⟨0, if b = .brace then false else reading, true⟩ := by
  have hinside : .eof ∉ e.tokens.map Prod.fst := by
    intro hmem
    refine heof (mem_cons_of_mem _ ?_)
    rw [map_append]
    exact mem_append_left _ hmem
  have hopen : Mode.step ⟨0, reading, true⟩ (.opening b) =
      some ⟨1, if b = .brace then false else reading, true⟩ := by
    cases b <;> rfl
  have hclose (header : Bool) : Mode.step ⟨1, header, true⟩ (.closing b) =
      some ⟨0, header, true⟩ := by
    cases b <;> rfl
  rw [within, map_cons, Mode.walk_cons, hopen, Option.bind_some, map_append,
    Mode.walk_append, Mode.walk_of_nest e.balanced hinside 0, Option.bind_some,
    map_singleton,
    Mode.walk_cons, hclose]
  rfl

theorem SingleType.exists_walk {type : SingleType} (heof : .eof ∉ type.tokens.map Prod.fst)
    (reading : Bool) :
    ∃ header, Mode.walk ⟨0, reading, true⟩ (type.tokens.map Prod.fst) =
      some ⟨0, header, true⟩ := by
  have hkinds := map_kind_placeholders (type.tokens.map Prod.fst)
  have hnest :
      nest 0 ((placeholders (type.tokens.map Prod.fst)).map Token.kind) = some 0 := by
    rw [hkinds]
    exact type.balanced
  have hwalk := Source.walk_of_single hnest (fun t ht hkind => heof ?_)
    (fun t ht hkind => type.unended ?_) reading
  · rw [hkinds] at hwalk
    exact ⟨_, hwalk⟩
  · rw [← hkinds, ← hkind]
    exact mem_map_of_mem ht
  · rw [← hkinds, ← hkind]
    exact Source.kind_mem_outsideKinds ht

theorem ResultPart.exists_walk {p : ResultPart} (heof : .eof ∉ p.tokens.map Prod.fst)
    (reading : Bool) :
    ∃ header, Mode.walk ⟨0, reading, true⟩ (p.tokens.map Prod.fst) =
      some ⟨0, header, true⟩ := by
  cases p with
  | none => exact ⟨reading, rfl⟩
  | single type => exact SingleType.exists_walk heof reading
  | list groups trailing => exact ⟨_, Enclosed.walk_within heof reading⟩

theorem Enclosed.walk_optional {b : Bracket} {e : Option Enclosed} (hb : b ≠ .brace)
    (heof : .eof ∉ (optional b e).map Prod.fst) :
    Mode.whole.walk ((optional b e).map Prod.fst) = some .whole := by
  cases e with
  | none => rfl
  | some e => exact (walk_within heof false).trans (by rw [if_neg hb]; rfl)

/-- The tokens of a declaration are one statement. -/
theorem FunctionForm.walk_tokens {f : FunctionForm} (heof : .eof ∉ f.tokens.map Prod.fst) :
    Mode.outside.walk (f.tokens.map Prod.fst) = some .whole := by
  simp only [tokens, Signature.tokens, map_cons, map_append, mem_cons,
    mem_append, not_or] at heof
  obtain ⟨-, hreceiver, -, htypes, hparams, hresults, hbody⟩ := heof
  have hfunc : Mode.outside.step funcToken.1 = some .whole := rfl
  have hname : Mode.whole.step .ident = some .whole := rfl
  have hparens : Mode.whole.walk ((f.signature.params.within .paren).map Prod.fst) =
      some .whole :=
    Enclosed.walk_within hparams false
  obtain ⟨header, hheader⟩ := ResultPart.exists_walk hresults false
  have hbraces : Mode.walk ⟨0, header, true⟩ ((f.signature.body.within .brace).map Prod.fst) =
      some .whole := Enclosed.walk_within hbody header
  rw [tokens, Signature.tokens]
  simp only [map_cons, map_append, Mode.walk_cons, Mode.walk_append, hfunc,
    Option.bind_some, Enclosed.walk_optional (by simp) hreceiver, hname,
    Enclosed.walk_optional (by simp) htypes, hparens]
  rw [Mode.whole, hheader]
  exact hbraces

/-! ### Declarations in a row -/

/-- A statement of a text: a function declaration, or one that does not begin like a
function. -/
inductive TopLevelItem where
  | function (f : FunctionForm)
  | other (tokens : Wording) (whole : Mode.outside.run (tokens.map Prod.fst) = some .whole)
      (unlike : (tokens.head?.map Prod.fst) ≠ some (.keyword .funcKw))

namespace TopLevelItem

/-- The tokens of a statement. -/
def tokens : TopLevelItem → Wording
  | function f => f.tokens
  | other tokens _ _ => tokens

/-- What is read from a statement, if it declares a function. -/
def entry? : TopLevelItem → Option (Text × Bool × Nat)
  | function f => some f.entry
  | other _ _ _ => none

theorem run_tokens {item : TopLevelItem} (heof : .eof ∉ item.tokens.map Prod.fst) :
    Mode.outside.run (item.tokens.map Prod.fst) = some .whole := by
  cases item with
  | function f => exact Mode.run_of_walk (FunctionForm.walk_tokens heof)
  | other tokens whole => exact whole

end TopLevelItem

/-- A statement and the semicolons behind it, as they are spelled.  A semicolon that the end
of a line implies has no spelling. -/
structure ItemRow where
  item : TopLevelItem
  semis : List Text
  ended : semis ≠ []

/-- The tokens of a statement and of the semicolons behind it. -/
def ItemRow.tokens (r : ItemRow) : Wording :=
  r.item.tokens ++ r.semis.map fun t => (.semi, t)

namespace Source

variable {s : Source} {i : Nat}

/-- Tokens that make up a statement are split off together with the semicolons behind them. -/
theorem split_of_run {ts semis us : List Token}
    (hrun : Mode.outside.run (ts.map Token.kind) = some .whole) (hne : semis ≠ [])
    (hsemis : ∀ t ∈ semis, t.kind = .semi) (i : Nat) :
    ∃ st : Statement, st.first = i ∧ split i .initial (ts ++ semis ++ us) =
      st :: split (i + (ts ++ semis).length) .initial us := by
  obtain ⟨a, ts, rfl⟩ : ∃ a ts', ts = a :: ts' :=
    exists_cons_of_ne_nil (by rintro rfl; cases hrun)
  obtain ⟨semi, semis, rfl⟩ := exists_cons_of_ne_nil hne
  obtain ⟨b, hb⟩ : ∃ b, (a :: ts).getLast? = some b :=
    Option.isSome_iff_exists.1 (by simp)
  have hsplit := split_statement hrun hb (hsemis semi mem_cons_self) i (semis ++ us)
  rw [split_semis fun t ht => hsemis t (mem_cons_of_mem semi ht)] at hsplit
  have hshape : a :: ts ++ semi :: semis ++ us = a :: ts ++ semi :: (semis ++ us) := by simp
  have hindex : i + (a :: ts ++ semi :: semis).length = i + ts.length + 2 + semis.length := by
    simp only [length_append, length_cons]
    omega
  rw [hshape, hindex, hsplit]
  exact ⟨_, rfl, rfl⟩

/-- One row is split off, and what follows is split from the front of a statement. -/
theorem ReadsAt.split_row {r : ItemRow} (h : s.ReadsAt i r.tokens)
    (heof : .eof ∉ r.tokens.map Prod.fst) :
    ∃ st : Statement, st.first = i ∧ split i .initial (s.tokens.drop i) =
      st :: split (i + r.tokens.length) .initial (s.tokens.drop (i + r.tokens.length)) := by
  obtain ⟨rest, hrest⟩ := h
  obtain ⟨ts, us, htokens, hts, -⟩ := map_eq_append_iff.1 hrest.symm
  have hlength : ts.length = r.tokens.length := by rw [← hts, length_map]
  have hdrop : s.tokens.drop (i + r.tokens.length) = us := by
    rw [← drop_drop, htokens, ← hlength, drop_left]
  rw [hdrop, htokens, ← hlength]
  obtain ⟨as, bs, rfl, has, hbs⟩ := map_eq_append_iff.1 hts
  refine split_of_run ?_ ?_ (fun t ht => ?_) i
  · rw [← Token.map_fst_map_content, has]
    refine r.item.run_tokens fun hmem => heof ?_
    rw [ItemRow.tokens, map_append]
    exact mem_append_left _ hmem
  · rintro rfl
    exact r.ended (map_eq_nil_iff.1 hbs.symm)
  · have hmem : t.content ∈ bs.map Token.content := mem_map_of_mem ht
    rw [hbs] at hmem
    obtain ⟨x, -, hx⟩ := mem_map.1 hmem
    exact (congrArg Prod.fst hx).symm

/-- What declarations in a row give. -/
theorem ReadsAt.functionDecls {rows : List ItemRow}
    (h : s.ReadsAt i (rows.flatMap ItemRow.tokens ++ [(.eof, [])]))
    (heof : .eof ∉ (rows.flatMap ItemRow.tokens).map Prod.fst) :
    (((split i .initial (s.tokens.drop i)).filter fun st =>
        s.kindAt st.first == .keyword .funcKw).filterMap s.functionDecl?).map
          FunctionDecl.entry =
      rows.filterMap fun r => r.item.entry? := by
  induction rows generalizing i with
  | nil =>
    obtain ⟨rest, hrest⟩ := h
    obtain ⟨t, ts, htokens, ht, -⟩ := map_eq_cons_iff.1 hrest.symm
    have hkind : t.kind = .eof := congrArg Prod.fst ht
    rw [htokens, split, if_pos hkind]
    rfl
  | cons r rows ih =>
    rw [flatMap_cons, map_append, mem_append, not_or] at heof
    rw [flatMap_cons, append_assoc] at h
    obtain ⟨hrow, hrows⟩ := readsAt_append.1 h
    obtain ⟨st, rfl, hsplit⟩ := hrow.split_row heof.1
    have hitem : s.ReadsAt st.first r.item.tokens := (readsAt_append.1 hrow).1
    rw [hsplit, filterMap_cons]
    cases hr : r.item with
    | function f =>
      rw [hr] at hitem
      have hfunc : s.kindAt st.first = .keyword .funcKw := ReadsAt.kindAt hitem
      rw [filter_cons_of_pos (by simp [hfunc]), filterMap_cons,
        ReadsAt.functionDecl? (f := f) hitem, map_cons, ih hrows heof.2]
      rfl
    | other tokens whole unlike =>
      rw [hr] at hitem
      obtain ⟨c, w, rfl⟩ : ∃ c w, tokens = c :: w :=
        exists_cons_of_ne_nil (by rintro rfl; cases whole)
      have hother : s.kindAt st.first ≠ .keyword .funcKw := by
        rw [ReadsAt.kindAt (c := c) hitem]
        exact fun hc => unlike (congrArg some hc)
      rw [filter_cons_of_neg (by simp [hother]), ih hrows heof.2]
      rfl

/-- A text has one end. -/
theorem eof_notMem_of_tokenize {t : Text} {w : Wording}
    (h : (tokenize t).map Token.content = w ++ [(.eof, [])]) : .eof ∉ w.map Prod.fst := by
  have htokens : tokenize t = _ := tokens_ofText t
  rw [htokens, map_append] at h
  obtain ⟨hw, -⟩ := append_inj' h rfl
  rw [← hw, Token.map_fst_map_content, Lexer.map_kind_scan]
  intro hmem
  rcases Lexer.exists_of_mem_kinds hmem with hsemi | ⟨p, hp, hkind⟩
  · cases hsemi
  · rcases mem_append.1 hp with hp | hp
    · exact (Lexer.lexed_pieces t).kind_ne hp hkind
    · rw [mem_singleton.1 hp] at hkind
      cases hkind

theorem ofText_functionDecls {t : Text} {rows : List ItemRow}
    (h : (tokenize t).map Token.content = rows.flatMap ItemRow.tokens ++ [(.eof, [])]) :
    (ofText t).functionDecls.map FunctionDecl.entry = rows.filterMap fun r =>
      r.item.entry? := by
  have hread : (ofText t).ReadsAt 0 (rows.flatMap ItemRow.tokens ++ [(.eof, [])]) :=
    h ▸ prefix_rfl
  have hdecls := hread.functionDecls (eof_notMem_of_tokenize h)
  have hall : (ofText t).statements = split 0 .initial ((ofText t).tokens.drop 0) := by
    rw [statements, statementsBetween, drop_zero, Nat.sub_zero, take_length]
  rwa [← hall] at hdecls

end Source

/-! ### Function literals with a name -/

/-- A function literal that is bound to a name: `name := func(params) results {body}`. -/
def closureTokens (name : Text) (f : Signature) : Wording :=
  (.ident, name) :: (.define, [':', '=']) :: funcToken :: f.tokens

/-- No comma stands outside the brackets of a function literal. -/
theorem Signature.comma_notMem (f : Signature) :
    .comma ∉ Source.outsideKinds 0 ((funcToken :: f.tokens).map Prod.fst) := by
  rw [tokens, Source.outsideKinds_function, map_append,
    Source.outsideKinds_append f.results.nest_tokens, Source.outsideKinds_within]
  simpa using f.results.single_tokens.1

namespace Source

variable {s : Source} {st : Statement}

/-- A token that covers something begins in front of those behind it. -/
theorem pos_lt_pos {i j : Nat} {a b : Token} (ha : s.tokens[i]? = some a)
    (hb : s.tokens[j]? = some b) (hij : i < j) (hsemi : a.kind ≠ .semi)
    (heof : a.kind ≠ .eof) :
    a.pos < b.pos := by
  have hmem : a ∈ tokenize s.text := s.tokens_eq ▸ mem_of_getElem? ha
  rcases tokenize_lexeme hmem with ⟨-, hkind⟩ | ⟨c, r, hlexeme, -⟩
  · exact (hkind.elim hsemi heof).elim
  · have hsize : a.pos < a.stop := by
      have := c.utf8Size_pos
      rw [Token.stop, Token.size, hlexeme, Text.byteSize_cons]
      omega
    exact Nat.lt_of_lt_of_le hsize (s.placed.stop_le_pos ha hb hij)

/-- The one binding of a function literal with a name: its value begins with the literal. -/
theorem assignmentBindings_closure {name : Text} {f : Signature} {n d g : Token}
    {ts : List Token} (hname : n.content = (.ident, name))
    (hdefine : d.content = (.define, [':', '=']))
    (hvalue : (g :: ts).map Token.content = funcToken :: f.tokens) :
    ∃ stop, assignmentBindings (n :: d :: g :: ts) =
      [⟨name, n.pos, some ⟨g.pos, stop⟩, some ⟨g.pos, stop⟩, true⟩] := by
  have hident : n.kind = .ident := congrArg Prod.fst hname
  have hspelled : n.lexeme = name := congrArg Prod.snd hname
  have hdefines : d.kind = .define := congrArg Prod.fst hdefine
  have hcut : cutAssignment 0 (n :: d :: g :: ts) = some ([n], d, g :: ts) := by
    have hnest : nest 0 ([n].map Token.kind) = some 0 := by
      rw [map_singleton, hident]
      rfl
    refine cutAssignment_append hnest (fun t ht => ?_) ?_
    · rw [eq_of_mem_topLevel_singleton ht, hident]
      rfl
    · rw [hdefines]
      rfl
  have hparts : commaParts (g :: ts) = [g :: ts] := by
    refine commaParts_eq (fun t ht hcomma => f.comma_notMem ?_) (cons_ne_nil g ts)
    rw [← hvalue, Token.map_fst_map_content, ← hcomma]
    exact kind_mem_outsideKinds ht
  obtain ⟨last, hlast⟩ : ∃ last, (g :: ts).getLast? = some last :=
    Option.isSome_iff_exists.1 (by simp)
  have hextent : extent (g :: ts) = some ⟨g.pos, last.stop⟩ := by
    rw [extent, hlast]
    rfl
  refine ⟨last.stop, ?_⟩
  simp [assignmentBindings, hcut, hdefines, plainNames, hident, pairValues, hparts,
    hextent, hspelled]

/-- What a function literal with a name gives. -/
theorem closureArity_eq {name : Text} {f : Signature}
    (h : (s.tokensOf st).map Token.content = closureTokens name f) :
    s.closureArity st = some (name, f.results.count) := by
  have hread : s.ReadsAt st.first (closureTokens name f) := by
    rw [ReadsAt, ← h]
    exact (List.take_prefix _ _).map _
  have hfunc : s.kindAt (st.first + 2) = .keyword .funcKw := ReadsAt.kindAt hread.tail.tail
  obtain ⟨hparen, close, hclose, hcount⟩ := ReadsAt.signature hread.tail.tail.tail
  obtain ⟨n, ts, htokens, hname, hts⟩ := map_eq_cons_iff.1 h
  obtain ⟨d, ts, rfl, hdefine, hvalue⟩ := map_eq_cons_iff.1 hts
  obtain ⟨g, ts, rfl, -, -⟩ := map_eq_cons_iff.1 hvalue
  obtain ⟨stop, hbindings⟩ := assignmentBindings_closure hname hdefine hvalue
  -- The tokens begin at different places, so the value is found at the third.
  have hident : n.kind = .ident := congrArg Prod.fst hname
  have hdefines : d.kind = .define := congrArg Prod.fst hdefine
  have hat (k : Nat) (t : Token) (ht : (n :: d :: g :: ts)[k]? = some t) :
      s.tokens[st.first + k]? = some t := by
    rw [← htokens, tokensOf, segment, getElem?_take, getElem?_drop] at ht
    split at ht
    · exact ht
    · cases ht
  have hn : n.pos < g.pos :=
    pos_lt_pos (hat 0 n rfl) (hat 2 g rfl) (by omega) (by simp [hident]) (by simp [hident])
  have hd : d.pos < g.pos :=
    pos_lt_pos (hat 1 d rfl) (hat 2 g rfl) (by omega) (by simp [hdefines])
      (by simp [hdefines])
  have hfound : (n :: d :: g :: ts).findIdx? (fun t => t.pos == g.pos) = some 2 := by
    simp [findIdx?_cons, hn.ne, hd.ne]
  rw [closureArity, closurePlace?, htokens, hbindings]
  simp only [head?_cons, Option.bind_eq_bind, Option.bind_some, hfound]
  rw [if_pos ⟨hfunc, hparen⟩, hclose, Option.bind_some, Option.pure_def,
    Option.map_some, hcount]

end Source

/-- **The results that are declared.**  A text whose tokens are those of `ItemRow`s, function
declarations and other statements with semicolons behind each, gives `functionDecls` one entry
for each declaration and in their order: its name, whether it has a receiver, and the number
of its results.  For a function literal that is bound to a name (`closureTokens`),
`closureArity` gives this name and the number of its results. -/
theorem functionDecls_and_closureArity :
    (∀ (t : Text) (rows : List ItemRow),
      (tokenize t).map Token.content = rows.flatMap ItemRow.tokens ++ [(.eof, [])] →
      (Source.ofText t).functionDecls.map FunctionDecl.entry =
        rows.filterMap fun r => r.item.entry?) ∧
    ∀ (s : Source) (st : Statement) (name : Text) (f : Signature),
      (s.tokensOf st).map Token.content = closureTokens name f →
      s.closureArity st = some (name, f.results.count) :=
  ⟨fun _ _ => Source.ofText_functionDecls, fun _ _ _ _ => Source.closureArity_eq⟩

/-- A method with two named results and a comma behind them, a function with a type parameter
and a function type as its result, and a function without results, behind a clause of another
kind. -/
def declarationRows : List ItemRow :=
  let id (x : Text) : TokenKind × Text := (.ident, x)
  let comma : TokenKind × Text := (.comma, ",")
  [⟨.other [(.keyword .packageKw, "package"), id "p"] (by decide) (by decide), [[]], by simp⟩,
   ⟨.function ⟨"f", some ⟨[id "t", (.op, "*"), id "T"], by decide⟩, none,
      ⟨⟨[id "a", comma, id "b", id "int"], by decide⟩,
        .list [⟨⟨[id "x", id "int"], by decide⟩, by simp, by decide⟩,
          ⟨⟨[id "err", id "error"], by decide⟩, by simp, by decide⟩] true,
        ⟨[id "g", (.opening .paren, "("), (.closing .paren, ")"), (.semi, ";"), id "h"],
          by decide⟩⟩⟩,
    [[]], by simp⟩,
   ⟨.function ⟨"k", none, some ⟨[id "K", id "any"], by decide⟩,
      ⟨⟨[], by decide⟩,
        .single ⟨⟨[funcToken, (.opening .paren, "("), id "K", (.closing .paren, ")"),
            (.opening .paren, "("), id "K", comma, id "bool",
            (.closing .paren, ")")], by decide⟩,
          by decide, by decide, by decide⟩,
        ⟨[], by decide⟩⟩⟩,
    [";"], by simp⟩,
   ⟨.function ⟨"n", none, none, ⟨⟨[], by decide⟩, .none, ⟨[], by decide⟩⟩⟩, [[]], by simp⟩]

/-- A clause of another kind and three declarations, two of them on one line. -/
def declarationText : Text :=
  "package p\nfunc (t *T) f(a, b int) (x int, err error,) \x7b g(); h \x7d\n".toList ++
    "func k[K any]() func(K) (K, bool) \x7b\x7d; func n() \x7b\x7d".toList

/-- The three declarations, and a function literal with a pointer as its result. -/
theorem functionDecls_and_closureArity_three :
    (Source.ofText declarationText).functionDecls.map FunctionDecl.entry =
      [(['f'], true, 2), (['k'], false, 1), (['n'], false, 0)] ∧
    (Source.ofText "c := func(a, b int) *T \x7b return nil \x7d").closureArity
      ⟨0, 14, ⟨0, 37⟩, some 15⟩ = some (['c'], 1) := by
  obtain ⟨hdecls, hclosure⟩ := functionDecls_and_closureArity
  have htokens : (tokenize declarationText).map Token.content =
      declarationRows.flatMap ItemRow.tokens ++ [(.eof, [])] := by
    decide +kernel
  refine ⟨(hdecls _ _ htokens).trans rfl, hclosure _ _ ['c']
    ⟨⟨[(.ident, "a"), (.comma, ","), (.ident, "b"), (.ident, "int")], by decide⟩,
      .single ⟨⟨[(.op, "*"), (.ident, "T")], by decide⟩, by decide, by decide, by decide⟩,
      ⟨[(.keyword .returnKw, "return"), (.ident, "nil")], by decide⟩⟩ ?_⟩
  decide +kernel

end Notebook
