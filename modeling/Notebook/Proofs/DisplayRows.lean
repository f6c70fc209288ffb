import Notebook.Proofs.Marks
import Notebook.Proofs.StatementCaptures

/-!
# Showing the last value, row by row

The edits that show the last value wrap one statement and take out displays.  On rows that is
harmless: a statement that is wrapped is an expression or a call and binds no name, neither
does a display, and a display that goes takes nothing with it but a semicolon and blanks of
its own row.  So the program with its last value shown is made of rows again, and they capture
what the rows of the program captured.

## Main statements

* `Row.exists_joined`: rows of which all but the first hold a statement
* `DisplayPlan.apply_framed`: the program with its last value shown
-/

namespace Notebook

open Lexer List

variable {pending : Bool} {printing : List Edit} {body gap gone kept : List Piece}
  {rows : List Row} {sts : List Statement} {ts us : List Token} {i j : Nat}
  {answer : Option Nat} {here place : Position} {r : Row} {s : Source} {st z : Statement}
  {before behind t : Text}

/-! ### Rows without empty ones between them -/

/-- Rows can be put together so that each but the first holds a statement. -/
theorem Row.exists_joined (h : ∀ r ∈ rows, r.Sound) :
    ∃ rows', (∀ r ∈ rows', r.Sound) ∧ flatten rows' = flatten rows ∧
      bodies rows' = bodies rows ∧
      ∀ r ∈ rows'.tail, r.body ≠ [] := by
  induction rows with
  | nil => exact ⟨[], h, rfl, rfl, by simp⟩
  | cons r rs ih =>
    obtain ⟨hr, hrs⟩ := forall_mem_cons.1 h
    obtain ⟨rs', hsound, hflat, hbodies, htail⟩ :=
      ih hrs
    have hcons : ∀ q ∈ r :: rs', q.Sound := by
      exact forall_mem_cons.2 ⟨hr, hsound⟩
    cases rs' with
    | nil => exact ⟨[r],
      hcons, by simp [← hflat], by rw [bodies_cons, bodies_cons, ← hbodies], by simp⟩
    | cons q qs =>
      by_cases hnil : q.body = []
      · have hq := hsound q mem_cons_self
        have hpieces : q.pieces = q.gap := by rw [pieces, hnil, nil_append]
        have hjoined : Row.Sound ⟨r.body, r.gap ++ q.gap⟩ := by
          refine ⟨?_, ?_, ?_, ?_, hr.body.imp_right fun hb => ⟨hb.1, ?_⟩⟩
          · have := lexed_append hr.lexed hq.lexed hr.closed fun p hp =>
              .inl (hr.ended.getLast?_pieces hp).1
            rwa [hpieces, pieces, append_assoc] at this
          · intro p hp
            rw [pieces, ← append_assoc] at hp
            rcases mem_append.1 hp with hp | hp
            · exact hr.closed p hp
            · exact hq.closed p (hpieces ▸ hp)
          · intro p hp
            exact (mem_append.1 hp).elim (hr.fillers p) (hq.fillers p)
          · intro p hp
            simp only [getLast?_append] at hp
            cases hlast : q.gap.getLast? with
            | none =>
              rw [hlast] at hp
              exact hr.solid p hp
            | some p' =>
              rw [hlast] at hp
              cases hp
              exact hq.solid p hlast
          · rw [kinds_append]
            exact append_ne_nil_of_left_ne_nil hb.2 _
        refine ⟨⟨r.body, r.gap ++ q.gap⟩ :: qs, ?_, ?_, ?_, htail⟩
        · intro q' hq'
          rcases mem_cons.1 hq' with rfl | hq'
          · exact hjoined
          · exact hsound q' (mem_cons_of_mem q hq')
        · rw [flatten_cons, flatten_cons r, ← hflat, flatten_cons, hpieces]
          simp [pieces]
        · rw [bodies_cons, bodies_cons, ← hbodies, bodies_cons, if_pos hnil]
          rfl
      · refine ⟨r :: q :: qs, hcons, by rw [flatten_cons, hflat, flatten_cons],
          by rw [bodies_cons, hbodies, bodies_cons], ?_⟩
        intro q' hq'
        rcases mem_cons.1 hq' with rfl | hq'
        · exact hnil
        · exact htail q' hq'

/-! ### Statements that bind no name -/

/-- Whether the pieces of a statement are a display. -/
def displays (body : List Piece) : Bool :=
  Source.startsDisplay (scan .start false body)

namespace Source

theorem startsDisplay_move (here : Position) (ts : List Token) :
    startsDisplay (ts.map (Token.move here)) = startsDisplay ts := by
  match ts with
  | [] => rfl
  | [_] => rfl
  | [_, _] => rfl
  | [_, _, _] => rfl
  | _ :: _ :: _ :: _ :: _ => rfl

/-- A semicolon is no part of the beginning of a display, and neither is a closing bracket. -/
theorem startsDisplay_append {t : Token} (ht : t.kind = .semi ∨ t.kind.closes = true)
    (ts rest : List Token) : startsDisplay (ts ++ t :: rest) = startsDisplay ts := by
  have hident : t.kind ≠ .ident := by rintro h; simp [h, TokenKind.closes] at ht
  have hdot : t.kind ≠ .dot := by rintro h; simp [h, TokenKind.closes] at ht
  have hparen : t.kind ≠ .opening .paren := by rintro h; simp [h, TokenKind.closes] at ht
  rcases ts with _ | ⟨_, _ | ⟨_, _ | ⟨_, _ | _⟩⟩⟩
  · rcases rest with _ | ⟨_, _ | ⟨_, _ | _⟩⟩ <;> simp [startsDisplay, Token.isIdent, hident]
  · rcases rest with _ | ⟨_, _ | _⟩ <;> simp [startsDisplay, hdot]
  · cases rest <;> simp [startsDisplay, hident]
  · simp [startsDisplay, hparen]
  · rfl

/-- A display binds no name: its first name is followed by a dot. -/
theorem bindingsOf_of_startsDisplay (h : startsDisplay ts = true) : bindingsOf ts = [] := by
  unfold startsDisplay at h
  split at h
  next p d f l rest =>
    obtain ⟨pk, pl, ps⟩ := p
    obtain ⟨dk, dl, ds⟩ := d
    simp only [Token.isIdent, Bool.and_eq_true, beq_iff_eq] at h
    obtain ⟨⟨⟨⟨⟨rfl, -⟩, rfl⟩, -⟩, -⟩, -⟩ := h
    have hcut : cutAssignment 0 (⟨.ident, pl, ps⟩ :: ⟨.dot, dl, ds⟩ :: f :: l :: rest) =
        (cutAssignment 0 (f :: l :: rest)).map fun p =>
          (⟨.ident, pl, ps⟩ :: ⟨.dot, dl, ds⟩ :: p.1, p.2) := by
      rw [cutAssignment, cutAssignment]
      simp [assigns, TokenKind.opens, TokenKind.closes, Option.map_map, Function.comp_def]
    rw [bindingsOf]
    simp only [assignmentBindings, hcut]
    cases cutAssignment 0 (f :: l :: rest) with
    | none => rfl
    | some found =>
      simp only [Option.map_some, plainNames]
      split <;> rfl
  · cases h

/-- What is cut at an assigning token has one outside all brackets. -/
theorem exists_assigns_of_cutAssignment {depth : Nat}
    {found : List Token × Token × List Token} (h : cutAssignment depth ts = some found) :
    ∃ t ∈ topLevel depth ts, assigns t.kind = true := by
  induction ts generalizing depth found with
  | nil => cases h
  | cons t ts ih =>
    rw [cutAssignment] at h
    rw [topLevel]
    generalize (if t.kind.closes = true then depth - 1 else depth) = before at h ⊢
    split at h
    next hassigns =>
      rw [if_pos hassigns.1]
      exact ⟨t, mem_cons_self, hassigns.2⟩
    · obtain ⟨rest, hrest, -⟩ := Option.map_eq_some_iff.1 h
      obtain ⟨u, hu, hassigns⟩ := ih hrest
      split
      · exact ⟨u, mem_cons_of_mem t hu, hassigns⟩
      · exact ⟨u, hu, hassigns⟩

/-- What a statement may be that is shown. -/
def isValue (s : Source) (st : Statement) : Prop :=
  s.classify st = .expr ∨ ∃ callee, s.classify st = .call callee

/-- The first tokens of an expression or a call do not decide what it is. -/
theorem leadingKind?_of_isValue (h : s.isValue st) : s.leadingKind? st = none := by
  cases hk : s.leadingKind? st with
  | none => rfl
  | some k =>
    have hclass : s.classify st = k := by
      unfold classify
      rw [hk]
    have hne : s.leadingKind? st ≠ some .expr := by
      unfold leadingKind? leadingKindFrom?
      split
      case h_8 => split <;> try split
                  all_goals simp
      all_goals try split
      all_goals simp
    rcases h with h | ⟨callee, h⟩
    · rw [hclass] at h
      exact absurd (hk.trans (congrArg some h)) hne
    · rw [hclass] at h
      exact absurd (hk.trans (congrArg some h)) (leadingKind?_ne_call s st callee)

/-- An expression or a call has no assigning token outside its brackets. -/
theorem any_assigns_of_isValue (h : s.isValue st) :
    (topLevel 0 (s.tokensOf st)).any (fun t => assigns t.kind) = false := by
  cases hany : (topLevel 0 (s.tokensOf st)).any fun t => assigns t.kind with
  | false => rfl
  | true =>
    exfalso
    have hclass : s.classify st = .display ∨ s.classify st = .assign := by
      unfold classify innerKind
      rw [leadingKind?_of_isValue h]
      simp only [hany, if_true]
      split
      · exact .inl rfl
      · split <;> exact .inr rfl
    rcases h with h | ⟨callee, h⟩ <;> rw [h] at hclass <;> simp at hclass

/-- Expressions and calls bind no name. -/
theorem bindings_of_isValue (h : s.isValue st) : s.bindings st = [] := by
  have hleading := leadingKind?_of_isValue h
  have hnoAssign := any_assigns_of_isValue h
  have hcut : cutAssignment 0 (s.tokensOf st) = none := by
    cases hfound : cutAssignment 0 (s.tokensOf st) with
    | none => rfl
    | some found =>
      obtain ⟨t, ht, hassigns⟩ := exists_assigns_of_cutAssignment hfound
      rw [any_eq_false] at hnoAssign
      exact absurd hassigns (hnoAssign t ht)
  have hassignment : assignmentBindings (s.tokensOf st) = [] := by
    rw [assignmentBindings, hcut]
  unfold leadingKind? leadingKindFrom? at hleading
  unfold bindings
  split
  next hkind =>
    rw [hkind] at hleading
    cases hleading
  next hkind =>
    rw [hkind] at hleading
    cases hleading
  · exact hassignment

end Source

/-- A display captures nothing. -/
theorem capturesOf_of_displays (h : displays body = true) : capturesOf body = [] := by
  rw [capturesOf, Source.bindingsOf_of_startsDisplay h]
  rfl

namespace Statement.Spells

/-- A statement is a display if its pieces are. -/
theorem isDisplay_eq (h : st.Spells s body) : s.isDisplay st = displays body := by
  obtain ⟨here, semi, rest, htokens, hsemi, -⟩ := h.tokens
  rw [Source.isDisplay, htokens, Source.startsDisplay_append (.inl hsemi), scan_eq_map,
    Source.startsDisplay_move, displays]

/-- A statement that is shown captures nothing. -/
theorem capturesOf_of_isValue (h : st.Spells s body) (hlexed : Lexed body)
    (hvalue : s.isValue st) :
    capturesOf body = [] := by
  rw [← h.captures_eq hlexed, Source.bindings_of_isValue hvalue]
  rfl

end Statement.Spells

/-! ### A statement in a printing call -/

/-- The pieces with which a printing call begins. -/
def printFront : List Piece :=
  [⟨.token .ident, "fmt"⟩, ⟨.token .dot, "."⟩, ⟨.token .ident, "Println"⟩,
    ⟨.token (.opening .paren), "("⟩]

/-- The parenthesis that closes a call. -/
def closingParen : Piece := ⟨.token (.closing .paren), [')']⟩

theorem lexed_closingParen : Lexed [closingParen] :=
  lexed_cons.2 ⟨reads_cons.2 rfl, lexed_nil⟩

/-- A statement in a printing call. -/
def printed (body : List Piece) : List Piece :=
  printFront ++ (body ++ [closingParen])

theorem textOf_printed (body : List Piece) :
    textOf (printed body) = "fmt.Println(" ++ textOf body ++ ")" := by
  rw [printed, textOf_append, textOf_append, ← append_assoc]
  rfl

theorem displays_printed (body : List Piece) : displays (printed body) = true := by
  rw [displays, printed, scan_append]
  rfl

theorem storesValue_printed (body : List Piece) : storesValue (printed body) = false := by
  have hstarts : Source.startsPersistence (scan .start false (printed body)) = false := by
    rw [printed, scan_append]
    rfl
  rw [storesValue, hstarts, Bool.false_and]

/-- A gap that ends a statement on its own ends one that a line end would end as well. -/
theorem kinds_pending (h : kinds pending gap ≠ []) : kinds true gap ≠ [] := by
  cases pending with
  | true => exact h
  | false =>
    induction gap with
    | nil => exact h
    | cons p ps ih =>
      rw [kinds_cons] at h ⊢
      unfold Piece.emittedKinds Piece.pendingBehind at h ⊢
      cases hk : p.kind with
      | token k => simp
      | _ =>
        rw [hk] at h
        simp only [Bool.false_and, Bool.false_eq_true, if_false, nil_append,
          Bool.true_and] at h ⊢
        cases hline : Lexer.Piece.endsLine p with
        | true => simp
        | false => simpa using ih h

/-- A parenthesis ends what stands in front of it if that has an end, and anything may stand
behind it. -/
theorem lexed_printed (h : Lexed (body ++ gap))
    (hlast : ∀ p, body.getLast? = some p → p.isClosed = true ∧ p.isLine = false) :
    Lexed (printed body ++ gap) := by
  have hfront : Lexed printFront := by decide +kernel
  have hback : Lexed (closingParen :: gap) := by
    refine lexed_append lexed_closingParen h.right (by decide) ?_
    rintro p ⟨⟩
    exact .inl rfl
  have hseam : Seam body (closingParen :: gap) := by
    intro p hp
    refine .inr ?_
    rintro d ⟨⟩
    refine ⟨by decide, fun hline => ?_⟩
    rw [(hlast p hp).2] at hline
    cases hline
  have hall := lexed_append hfront (h.left.append hback (fun p hp => (hlast p hp).1) hseam)
    (by decide) (by rintro p ⟨⟩; exact .inl rfl)
  simpa [printed] using hall

/-- Balanced pieces in a printing call are a statement. -/
theorem isStatement_printed (hlexed : Lexed body)
    (hnest : nest 0 (kinds false body) = some 0) : IsStatement (printed body) where
  whole := by
    have hpending : pendingAfter false printFront = false := rfl
    have hopen : Mode.outside.walk (kinds false printFront) = some ⟨0 + 0 + 1, false, true⟩ :=
      rfl
    have hinside := Mode.walk_of_nest hnest (mem_kinds_ne_eof hlexed false) 0 false
    have hclosing : ∀ pending, kinds pending [closingParen] = [.closing .paren] :=
      fun _ => rfl
    rw [printed, kinds_append, hpending, kinds_append, Mode.walk_append, hopen,
      Option.bind_some, Mode.walk_append, hinside, Option.bind_some, hclosing]
    rfl
  front := by
    rintro p ⟨⟩
    rfl
  back := by
    intro p hp
    rw [printed, getLast?_append, getLast?_append] at hp
    cases hp
    rfl

theorem pendingAfter_printed (body : List Piece) :
    pendingAfter false (printed body) = true := by
  rw [printed, pendingAfter_append, pendingAfter_append]
  rfl

/-- The last piece of a statement is no comment. -/
theorem IsStatement.isLine_eq_false (h : IsStatement body) {p : Piece}
    (hp : body.getLast? = some p) : p.isLine = false := by
  have htoken := h.back p hp
  cases hline : p.isLine with
  | false => rfl
  | true =>
    simp only [Piece.isLine, Bool.and_eq_true, beq_iff_eq] at hline
    simp [Piece.isToken, hline.1] at htoken

/-- A row stays one when its statement is put into a printing call, if the statement has an
end. -/
theorem Row.Ended.printed {r : Row} (h : r.Ended) (hne : r.body ≠ [])
    (hclosed : ∀ p, r.body.getLast? = some p → p.isClosed = true) :
    Row.Ended ⟨printed r.body, r.gap⟩ := by
  obtain ⟨hstatement, hgap⟩ := h.body.resolve_left hne
  have hlexed := h.lexed
  rw [Row.pieces] at hlexed
  refine ⟨lexed_printed hlexed fun p hp =>
    ⟨hclosed p hp, hstatement.isLine_eq_false hp⟩, h.fillers, h.last,
      .inr ⟨isStatement_printed hlexed.left (Mode.nest_of_walk hstatement.whole), ?_⟩⟩
  simp only [pendingAfter_printed]
  exact kinds_pending hgap

/-- A row stays sound when its statement is put into a printing call. -/
theorem Row.Sound.printed {r : Row} (h : r.Sound) (hne : r.body ≠ []) :
    Row.Sound ⟨printed r.body, r.gap⟩ := by
  have hclosed : ∀ p ∈ r.body, p.isClosed = true := fun p hp =>
    h.closed p (mem_append_left _ hp)
  refine (h.ended.printed hne fun p hp => hclosed p (mem_of_getLast? hp)).sound ?_
  have hfront : ∀ p ∈ printFront, p.isClosed = true := by decide
  intro p hp
  simp only [Row.pieces, Notebook.printed, mem_append, mem_singleton] at hp
  rcases hp with (hp | hp | rfl) | hp
  · exact hfront p hp
  · exact hclosed p hp
  · rfl
  · exact h.closed p (mem_append_right _ hp)

/-- Putting a statement into a printing call. -/
theorem turns_printed {p : Statement × Row} (hp : p ∈ Row.paired i here rows)
    (hrows : ∀ r ∈ rows, r.Sound) :
    Turns [⟨p.1.span, "fmt.Println(" ++ textOf p.2.body ++ ")"⟩] p.1 p.2
      ⟨printed p.2.body, p.2.gap⟩ := by
  obtain ⟨hmem, hne, -⟩ := Row.of_mem_paired hp
  refine turns_replaced hp hrows (nil_append _).symm ((hrows p.2 hmem).printed hne) ?_
  rw [Row.pieces, textOf_append, textOf_printed]

/-! ### A display that is taken out -/

/-- Blanks that stay on their line. -/
def isInline (c : Char) : Bool :=
  c == ' ' || c == '\t'

theorem isInline_eq_false {c : Char} (h : isBlank c = false) : isInline c = false := by
  revert h
  contrapose
  simp only [isInline, Bool.not_eq_false, Bool.or_eq_true, beq_iff_eq]
  rintro (rfl | rfl) <;> decide

/-- The blanks at the front of pieces are pieces. -/
theorem exists_inline {ps : List Piece} (hlexed : Lexed ps)
    (hbehind : ∀ c, behind.head? = some c → isInline c = false) :
    ∃ gone kept, ps = gone ++ kept ∧ (textOf ps ++ behind).takeWhile isInline =
      textOf gone := by
  induction ps with
  | nil =>
    refine ⟨[], [], rfl, ?_⟩
    cases behind with
    | nil => rfl
    | cons c t => simp [hbehind c rfl]
  | cons p ps ih =>
    obtain ⟨hread, hrest⟩ := lexed_cons.1 hlexed
    have hstop : ∀ c t, p.text = c :: t → isInline c = false → ∃ gone kept,
      p :: ps = gone ++ kept ∧
        (textOf (p :: ps) ++ behind).takeWhile isInline = textOf gone := fun c t htext hc =>
      ⟨[], p :: ps, rfl, by simp [htext, hc]⟩
    have htoken : ∀ k, p.kind = .token k → ∃ gone kept, p :: ps = gone ++ kept ∧
        (textOf (p :: ps) ++ behind).takeWhile isInline = textOf gone := by
      intro k hk
      have hmem : p ∈ Lexer.pieces (textOf (p :: ps)) := by
        rw [hlexed]
        exact mem_cons_self
      obtain ⟨c, t, htext, hc⟩ := pieces_token hmem hk
      exact hstop c t htext (isInline_eq_false hc)
    rcases spelled_or_unclosed hread with hspelled | hunclosed
    · cases hspelled with
      | @blank c hc =>
        cases hinline : isInline c with
        | false => exact hstop c [] rfl hinline
        | true =>
          obtain ⟨gone, kept, rfl, htake⟩ := ih hrest
          refine ⟨⟨.blank, [c]⟩ :: gone, kept, rfl, ?_⟩
          rw [textOf_cons, append_assoc, cons_append,
            takeWhile_cons_of_pos hinline, nil_append, htake]
          rfl
      | line => exact hstop '/' _ rfl rfl
      | block => exact hstop '/' _ rfl rfl
      | _ => exact htoken _ rfl
    · generalize textOf ps = rest at hunclosed
      cases hunclosed with
      | block => exact hstop '/' _ rfl rfl
      | quoted => exact htoken _ rfl

/-- A gap that ends a statement does so by a line end, or by a semicolon that is written in
it. -/
theorem exists_terminator (hlexed : Lexed gap) (hne : scan here pending gap ≠ []) :
    ∃ semi rest, scan here pending gap = semi :: rest ∧ (semi.isImpliedSemi = true ∨
      semi.isImpliedSemi = false ∧ ∃ front p back, gap = front ++ p :: back ∧
        semi.stop = here.offset + Text.byteSize (textOf (front ++ [p]))) := by
  induction gap generalizing pending here with
  | nil => exact absurd rfl hne
  | cons p ps ih =>
    obtain ⟨hread, hrest⟩ := lexed_cons.1 hlexed
    rw [scan_cons] at hne ⊢
    rcases p.emitted_cases here pending with ⟨k, hk⟩ | ⟨-, t, ht, himplied, -⟩ | ⟨-, hnone⟩
    · have hwritten : Token.isImpliedSemi ⟨k, p.text, here⟩ = false := by
        simp [Token.isImpliedSemi, reads_text_ne_nil hread]
      refine ⟨⟨k, p.text, here⟩, _, by rw [Piece.emitted_of_kind hk, singleton_append],
        .inr ⟨hwritten, [], p, ps, rfl, ?_⟩⟩
      simp [Token.stop, Token.pos, Token.size]
    · exact ⟨t, _, by rw [ht, singleton_append], .inl himplied⟩
    · rw [hnone, nil_append] at hne ⊢
      obtain ⟨semi, rest, hscan, hcases⟩ := ih hrest hne
      refine ⟨semi, rest, hscan, hcases.imp_right ?_⟩
      rintro ⟨hwritten, front, q, back, rfl, hstop⟩
      refine ⟨hwritten, p :: front, q, back, rfl, ?_⟩
      rw [hstop, Position.offset_advance]
      simp [Nat.add_assoc]

/-- What is left of a gap when its front is taken out. -/
theorem Row.Ended.shortened (h : r.Ended) (hgap : r.gap = gone ++ kept) :
    Row.Ended ⟨[], kept⟩ where
  lexed := by
    have hlexed := h.lexed
    rw [Row.pieces, hgap] at hlexed
    exact hlexed.right.right
  fillers := fun p hp => h.fillers p (hgap ▸ mem_append_right _ hp)
  last := by
    intro p hp
    refine h.last p ?_
    rw [hgap, getLast?_append, hp]
    rfl
  body := .inl rfl

theorem Row.Sound.shortened (h : r.Sound) (hgap : r.gap = gone ++ kept) :
    Row.Sound ⟨[], kept⟩ :=
  (h.ended.shortened hgap).sound fun p hp => h.closed p (by
    rw [Row.pieces, hgap]
    exact mem_append_right _ (mem_append_right _ hp))

/-- What is taken out with a statement is a semicolon and blanks of its own row, if a token
stands behind the row. -/
theorem exists_deletionSpan (hr : r.Ended) (hst : st ∈ r.statementAt j place)
    (htokens : s.tokens.drop j = scan place false r.pieces ++ us)
    (hsize : before.byteSize = place.offset)
    (htext : s.text = before ++ textOf r.pieces ++ behind)
    (hbehind : ∀ c, behind.head? = some c → isInline c = false) :
    ∃ gone kept, r.gap = gone ++ kept ∧ DisplayPlan.deletionSpan s st =
      .ok ⟨st.span.start, st.span.stop + Text.byteSize (textOf gone)⟩ := by
  have hne : r.body ≠ [] := by
    intro hnil
    rw [Row.statementAt, if_pos hnil] at hst
    cases hst
  have hlexed := hr.lexed
  rw [Row.pieces] at hlexed
  obtain ⟨-, hkinds⟩ := hr.body.resolve_left hne
  have hscanne : scan (place.advance (textOf r.body)) (pendingAfter false r.body)
      r.gap ≠ [] := by
    intro hnil
    refine hkinds ?_
    rw [← map_kind_scan, hnil]
    rfl
  obtain ⟨semi, rest, hscan, hcases⟩ := exists_terminator hlexed.right hscanne
  simp only [Row.statementAt, if_neg hne, mem_singleton] at hst
  have hsemi : s.tokenAt (j + (kinds false r.body).length) = .ok semi := by
    have hget := congrArg (fun l => l[(scan place false r.body).length]?) htokens
    simp only [getElem?_drop] at hget
    rw [Row.pieces, scan_append, hscan, append_assoc,
      getElem?_append_right (Nat.le_refl _), Nat.sub_self, length_scan] at hget
    simp only [cons_append, getElem?_cons_zero] at hget
    rw [Source.tokenAt, hget]
  rcases hcases with himplied | ⟨hwritten, front, q, back, hgap, hstop⟩
  · refine ⟨[], r.gap, rfl, ?_⟩
    rw [DisplayPlan.deletionSpan, hst]
    simp [hsemi, himplied, bind, Except.bind, pure, Except.pure]
  · -- The blanks behind the semicolon end in this row.
    have hback : Lexed back := by
      have := hlexed.right
      rw [hgap] at this
      exact (lexed_cons.1 this.right).2
    obtain ⟨gone, kept, rfl, htake⟩ := exists_inline hback hbehind
    have hcut : s.text.cutAt? semi.stop =
        some (before ++ textOf (r.body ++ (front ++ [q])),
          textOf (gone ++ kept) ++ behind) := by
      refine Text.cutAt?_eq_some_iff.2 ⟨?_, ?_⟩
      · rw [htext, Row.pieces, hgap]
        simp
      · rw [hstop, Position.offset_advance, ← hsize]
        simp [Nat.add_assoc]
    refine ⟨front ++ q :: gone, kept, by rw [hgap]; simp, ?_⟩
    have hend : semi.stop + Text.byteSize (textOf gone) =
        st.span.stop + Text.byteSize (textOf (front ++ q :: gone)) := by
      rw [hstop, hst]
      simp [Nat.add_assoc]
    have htake' :
      (textOf (gone ++ kept) ++ behind).takeWhile (fun c => c == ' ' || c == '\t') =
        textOf gone := htake
    rw [← hend, DisplayPlan.deletionSpan]
    rw [hst]
    simp only [hsemi, hwritten, hcut, htake', bind, Except.bind, pure, Except.pure,
      Bool.false_eq_true, if_false]

/-- A display takes a semicolon and blanks of its own row with it, if a token stands behind
the row. -/
theorem turns_dropped {p : Statement × Row} (hp : p ∈ Row.paired i here rows)
    (hrows : ∀ r ∈ rows, r.Sound) (hst : p.1 ∈ p.2.statementAt j place)
    (htokens : s.tokens.drop j = scan place false p.2.pieces ++ us)
    (hsize : before.byteSize = place.offset)
    (htext : s.text = before ++ textOf p.2.pieces ++ behind)
    (hbehind : ∀ c, behind.head? = some c → isInline c = false) :
    ∃ gone kept d, p.2.gap = gone ++ kept ∧ DisplayPlan.deletionSpan s p.1 = .ok d ∧
      Turns [Edit.deletion d] p.1 p.2 ⟨[], kept⟩ := by
  have hr := hrows p.2 (Row.of_mem_paired hp).1
  obtain ⟨gone, kept, hgap, hspan⟩ :=
    exists_deletionSpan hr.ended hst htokens hsize htext hbehind
  exact ⟨gone, kept, _, hgap, hspan, turns_replaced hp hrows hgap (hr.shortened hgap) rfl⟩

/-! ### What becomes of rows -/

/-- What can become of a row when the last value is shown: nothing, or its statement is put
into a printing call, or it is a display that goes. -/
inductive Shown : Row → Row → Prop
  | kept (r : Row) : Shown r r
  | printed {r : Row} (hne : r.body ≠ []) (h : capturesOf r.body = []) :
      Shown r ⟨printed r.body, r.gap⟩
  | dropped {r : Row} {gone kept : List Piece} (hgap : r.gap = gone ++ kept)
      (h : displays r.body = true) : Shown r ⟨[], kept⟩

namespace Shown

variable {r' : Row}

theorem capturesOf_eq (h : Shown r r') : capturesOf r'.body = capturesOf r.body := by
  cases h with
  | kept => rfl
  | printed _ hnone => rw [hnone, capturesOf_of_displays (displays_printed _)]
  | dropped _ hdisplays =>
    rw [capturesOf_of_displays hdisplays]
    rfl

theorem storesValue_eq (h : Shown r r') (hnone : storesValue r.body = false) :
    storesValue r'.body = false := by
  cases h with
  | kept => exact hnone
  | printed => exact storesValue_printed _
  | dropped => rfl

/-- A row that captures a name stays as it is, and so does one without a statement. -/
theorem eq_self (h : Shown r r') (hkept : r.body = [] ∨ capturesOf r.body ≠ []) : r' = r := by
  cases h with
  | kept => rfl
  | printed hne hnone => exact absurd hnone (hkept.resolve_left hne)
  | dropped _ hdisplays =>
    rcases hkept with hnil | hcaptures
    · rw [hnil] at hdisplays
      cases hdisplays
    · exact absurd (capturesOf_of_displays hdisplays) hcaptures

/-- With another gap behind it the row is sound as before. -/
theorem sound_regap (h : Shown r r') (hr : Row.Sound ⟨r.body, gap⟩) :
    Row.Sound ⟨r'.body, gap⟩ := by
  cases h with
  | kept => exact hr
  | printed hne => exact hr.printed hne
  | dropped => exact hr.emptied

/-- Half a mark does not come into a row, whatever stands behind its statement. -/
theorem tail_notInfix_append (h : Shown r r') (hfree : ¬markTail <:+: textOf r.body ++ t) :
    ¬markTail <:+: textOf r'.body ++ t := by
  cases h with
  | kept => exact hfree
  | printed =>
    have hopen : '(' ∉ markTail := by decide
    have hclose : ')' ∉ markTail := by decide
    have hcall : textOf (Notebook.printed r.body) ++ t =
        "fmt.Println" ++ '(' :: (textOf r.body ++ ')' :: t) := by
      rw [textOf_printed]
      simp
    rw [hcall, Text.infix_append_cons hopen, Text.infix_append_cons hclose]
    rintro (hname | hbody | hrest)
    · revert hname
      decide
    · exact hfree (hbody.trans (prefix_append _ _).isInfix)
    · exact hfree (hrest.trans (suffix_append _ _).isInfix)
  | dropped => exact fun hrest => hfree (hrest.trans (suffix_append _ _).isInfix)

theorem tail_notInfix (h : Shown r r') (hfree : ¬markTail <:+: textOf r.pieces) :
    ¬markTail <:+: textOf r'.pieces := by
  cases h with
  | kept => exact hfree
  | printed hne hnone =>
    rw [Row.pieces, textOf_append] at hfree ⊢
    exact (Shown.printed hne hnone).tail_notInfix_append hfree
  | @dropped gone kept hgap _ =>
    have hsuffix : textOf kept <:+ textOf r.pieces :=
      ⟨textOf (r.body ++ gone), by simp [Row.pieces, hgap]⟩
    exact fun hrest => hfree (hrest.trans hsuffix.isInfix)

end Shown

/-- Rows capture what they captured. -/
theorem flatMap_capturesOf_shown {rows' : List Row} (h : Forall₂ Shown rows rows') :
    (Row.bodies rows').flatMap capturesOf = (Row.bodies rows).flatMap capturesOf := by
  have hrow : ∀ b : List Piece, (if b = [] then [] else [b]).flatMap capturesOf =
      capturesOf b := by
    intro b
    split
    next hnil =>
      rw [hnil]
      rfl
    · simp
  induction h with
  | nil => rfl
  | @cons r r' rs rs' hr _ ih =>
    rw [Row.bodies_cons, Row.bodies_cons, flatMap_append, flatMap_append,
      ih, hrow, hrow, hr.capturesOf_eq]

namespace Row

variable {rs qs : List Row}

theorem paired_append (h : ∀ r ∈ rs, r.Ended) :
    paired i here (rs ++ qs) = paired i here rs ++
      paired (i + (kinds false (flatten rs)).length)
        (here.advance (textOf (flatten rs))) qs := by
  induction rs generalizing i here with
  | nil => rfl
  | cons r rs ih =>
    obtain ⟨hr, hrs⟩ := forall_mem_cons.1 h
    rw [cons_append, paired, ih hrs, paired,
      append_assoc, flatten_cons, kinds_append, hr.pendingAfter_eq, length_append,
      textOf_append, Position.advance_append, Nat.add_assoc]

theorem remap_append (g : Statement → Row → Row) (h : ∀ r ∈ rs, r.Ended) :
    remap g i here (rs ++ qs) = remap g i here rs ++
      remap g (i + (kinds false (flatten rs)).length)
        (here.advance (textOf (flatten rs))) qs := by
  induction rs generalizing i here with
  | nil => rfl
  | cons r rs ih =>
    obtain ⟨hr, hrs⟩ := forall_mem_cons.1 h
    rw [cons_append, remap, ih hrs, remap,
      cons_append, flatten_cons, kinds_append, hr.pendingAfter_eq, length_append,
      textOf_append, Position.advance_append, Nat.add_assoc]

theorem forall₂_remap {R : Row → Row → Prop} (hrefl : ∀ r, R r r) {g : Statement → Row → Row}
    (h : ∀ p ∈ paired i here rows, R p.2 (g p.1 p.2)) :
    Forall₂ R rows (remap g i here rows) := by
  induction rows generalizing i here with
  | nil => exact .nil
  | cons r rs ih =>
    refine .cons ?_ (ih fun p hp => h p (mem_append_right _ hp))
    rcases statementAt_cases i here r with ⟨-, hnone⟩ | ⟨st, -, hone, -⟩
    · rw [hnone]
      exact hrefl r
    · rw [hone]
      exact h (st, r) (by simp [paired, hone])

/-- Where the row of a statement stands among the others. -/
theorem exists_of_mem_paired (h : ∀ r ∈ rows, r.Ended) {p : Statement × Row}
    (hp : p ∈ paired i here rows) : ∃ rs qs, rows = rs ++ p.2 :: qs ∧
      p.1 ∈ p.2.statementAt (i + (kinds false (flatten rs)).length)
        (here.advance (textOf (flatten rs))) := by
  induction rows generalizing i here with
  | nil => cases hp
  | cons r rows ih =>
    rcases mem_append.1 hp with hp | hp
    · obtain ⟨st, hst, rfl⟩ := mem_map.1 hp
      exact ⟨[], rows, rfl, hst⟩
    · have hr := h r mem_cons_self
      obtain ⟨rs, qs, rfl, hst⟩ := ih (fun q hq => h q (mem_cons_of_mem r hq)) hp
      refine ⟨r :: rs, qs, rfl, ?_⟩
      rwa [flatten_cons, kinds_append, hr.pendingAfter_eq, length_append, textOf_append,
        Position.advance_append, ← Nat.add_assoc]

/-- The first character of a row with a statement is no blank. -/
theorem Ended.head_eq (h : r.Ended) (hne : r.body ≠ []) :
    ∃ c t, textOf r.pieces = c :: t ∧ isBlank c = false := by
  obtain ⟨q, ps, k, hbody, hk, -⟩ := (h.body.resolve_left hne).1.exists_head
  have hmem : q ∈ Lexer.pieces (textOf r.pieces) := by
    rw [h.lexed, pieces, hbody]
    exact mem_cons_self
  obtain ⟨c, t, htext, hc⟩ := pieces_token hmem hk
  exact ⟨c, t ++ textOf (ps ++ r.gap), by simp [pieces, hbody, htext], hc⟩

end Row

/-! ### The plan of a program around rows -/

/-- The last occurrence does not depend on what stands in front of it. -/
theorem Text.cutLast?_append {needle a b : Text} (h : cutLast? needle t = some (a, b))
    (u : Text) : cutLast? needle (u ++ t) = some (u ++ a, b) := by
  induction u with
  | nil => exact h
  | cons c u ih => rw [cons_append, cutLast?, ih, cons_append]

/-- A sublist of a list without repetitions, as the members of the list that are in it. -/
theorem flatMap_of_sublist {α β : Type} [DecidableEq α] {l s : List α} (h : s.Sublist l)
    (hl : l.Nodup) (f : α → List β) :
    (l.flatMap fun x => if x ∈ s then f x else []) = s.flatMap f := by
  induction h with
  | slnil => rfl
  | @cons s l a hs ih =>
    obtain ⟨ha, hl⟩ := nodup_cons.1 hl
    rw [flatMap_cons, if_neg fun hmem => ha (hs.subset hmem), nil_append, ih hl]
  | @cons_cons s l a hs ih =>
    obtain ⟨ha, hl⟩ := nodup_cons.1 hl
    rw [flatMap_cons, flatMap_cons, if_pos mem_cons_self, ← ih hl]
    congr 1
    refine flatMap_congr fun x hx => ?_
    have hne : x ≠ a := fun heq => ha (heq ▸ hx)
    simp only [mem_cons, hne, false_or]

namespace DisplayPlan

variable {p : DisplayPlan} {program : Text}

/-- The edits of one statement. -/
def editsOf (p : DisplayPlan) (printing : List Edit) (st : Statement) : List Edit :=
  (if st ∈ p.marked.toList then printing else []) ++
    if st ∈ p.dropped printing then
      (deletionSpan p.source st).toOption.toList.map Edit.deletion
    else []

theorem Reads.nodup (h : p.Reads program) : p.statements.Nodup := by
  refine h.pairwise.imp_of_mem fun {a b} ha _ hlt => ?_
  rintro rfl
  have := (h.standsIn ha).first_le_last
  have := hlt.last_lt
  omega

theorem deletions_eq {deletions : List Edit}
    (h : (sts.mapM fun st => do return Edit.deletion (← deletionSpan s st)) = .ok deletions) :
    deletions = sts.flatMap fun st =>
      (deletionSpan s st).toOption.toList.map Edit.deletion := by
  induction sts generalizing deletions with
  | nil =>
    cases h
    rfl
  | cons st sts ih =>
    rw [mapM_cons] at h
    obtain ⟨e, he, h⟩ := Checked.bind_eq_ok.1 h
    obtain ⟨rest, hrest, h⟩ := Checked.bind_eq_ok.1 h
    obtain ⟨d, hd, he⟩ := Checked.bind_eq_ok.1 he
    cases h
    cases he
    rw [flatMap_cons, ← ih hrest, hd]
    rfl

/-- The edits of a plan are those of its statements. -/
theorem edits_perm (h : p.Reads program) {es : List Edit}
    (hprinting : p.wrapEdits answer = .ok printing) (hes : p.edits answer = .ok es) :
    es.Perm (p.statements.flatMap (p.editsOf printing)) := by
  have hmarked :
    (p.statements.flatMap fun st => if st ∈ p.marked.toList then printing else []) =
      printing := by
    cases hm : p.marked with
    | none =>
      rw [wrapEdits, hm] at hprinting
      cases hprinting
      simp
    | some st =>
      have hsub : [st].Sublist p.statements := singleton_sublist.2 (h.marked st hm)
      have := flatMap_of_sublist hsub h.nodup fun _ => printing
      rw [Option.toList_some, this]
      simp
  rw [edits_eq fun st => h.standsIn] at hes
  obtain ⟨printing', hprinting', hes⟩ := Checked.bind_eq_ok.1 hes
  obtain rfl : printing = printing' := Except.ok.inj (hprinting.symm.trans hprinting')
  obtain ⟨deletions, hdeletions, hes⟩ := Checked.bind_eq_ok.1 hes
  cases hes
  rw [deletions_eq hdeletions]
  have hperm := flatMap_append_perm p.statements
    (fun st => if st ∈ p.marked.toList then printing else [])
    (fun st => if st ∈ p.dropped printing then
      (deletionSpan p.source st).toOption.toList.map Edit.deletion else [])
  rwa [hmarked, flatMap_of_sublist (p.dropped_sublist printing) h.nodup] at hperm

/-- What a plan is made of. -/
theorem ofProgram?_spec (hp : ofProgram? program = .ok (some p)) :
    ∃ mark lineStart entry, markOffsets? program = some (mark, lineStart) ∧
      (Source.ofText program).entryPoint = some entry ∧ p.source = .ofText program ∧
      p.statements = (Source.ofText program).bodyStatements entry ∧
      p.marked = markedStatement p.statements mark lineStart ∧
      ∀ st, p.marked = some st → needOf p.source entry st = .ok p.need := by
  rw [ofProgram?_eq] at hp
  simp only at hp
  split at hp
  next mark lineStart entry hmark hentry =>
    refine ⟨mark, lineStart, entry, hmark, hentry, ?_⟩
    split at hp
    next st hst =>
      obtain ⟨need, hneed, hp⟩ := Checked.bind_eq_ok.1 hp
      cases hp
      refine ⟨rfl, rfl, rfl, fun st' hst' => ?_⟩
      obtain rfl : st = st' := Option.some.inj (hst.symm.trans hst')
      exact hneed
    next hnone =>
      cases hp
      exact ⟨rfl, rfl, rfl, fun st hst => absurd (hnone.symm.trans hst) (by simp)⟩
  · cases hp

/-- A statement that is shown yields a value. -/
theorem isValue_of_shows {entry : EntryPoint} (hst : st.StandsIn p.source.tokens)
    (hneed : needOf p.source entry st = .ok p.need) (hshows : p.shows answer = true) :
    p.source.isValue st := by
  rw [needOf_eq hst] at hneed
  split at hneed
  next hclass => exact .inl hclass
  next callee hclass => exact .inr ⟨callee, hclass⟩
  · have hnever : p.need = .never := (Except.ok.inj hneed).symm
    rw [shows, hnever] at hshows
    cases hshows

/-- The last statement stays, unless another one is shown. -/
theorem notMem_dropped (hnodup : p.statements.Nodup) (hlast : p.statements = sts ++ [st])
    (hprinting : ∀ e ∈ printing, e.span = st.span) : st ∉ p.dropped printing := by
  unfold dropped droppedOf
  cases printing with
  | cons e es =>
    rw [mem_filter, hprinting e mem_cons_self]
    simp
  | nil =>
    dsimp only
    rw [hlast] at hnodup ⊢
    have hnot : st ∉ sts := fun hmem =>
      (nodup_append.1 hnodup).2.2 st hmem st (mem_singleton_self st) rfl
    rw [filter_append]
    cases hdisplay : p.source.isDisplay st with
    | true =>
      rw [filter_cons_of_pos hdisplay, filter_nil, dropLast_concat]
      exact fun hmem => hnot (mem_filter.1 hmem).1
    | false =>
      intro hmem
      have := (dropLast_sublist _).subset hmem
      rw [filter_cons_of_neg (by simp [hdisplay]), filter_nil,
        append_nil] at this
      exact hnot (mem_filter.1 this).1

theorem isDisplay_of_mem_dropped (h : st ∈ p.dropped printing) :
    p.source.isDisplay st = true := by
  unfold dropped droppedOf at h
  cases printing with
  | nil => exact (mem_filter.1 ((dropLast_sublist _).subset h)).2
  | cons e es => exact (mem_filter.1 (mem_filter.1 h).1).2

/-- What is printed: nothing, or the marked statement in a printing call. -/
theorem wrapEdits_cases (h : p.wrapEdits answer = .ok printing) :
    printing = [] ∨ ∃ st text, p.marked = some st ∧ p.shows answer = true ∧
      p.source.statementText st = .ok text ∧
      printing = [⟨st.span, "fmt.Println(" ++ text ++ ")"⟩] := by
  unfold wrapEdits at h
  split at h
  next st hst =>
    split at h
    next hshows =>
      obtain ⟨text, htext, h⟩ := Checked.bind_eq_ok.1 h
      cases h
      exact .inr ⟨st, text, hst, hshows, htext, rfl⟩
    · cases h
      exact .inl rfl
  · cases h
    exact .inl rfl

section Framed

variable {front : Text} {init : List Row} {last : Row}

/-- The number of the first token behind rows of a program. -/
def indexBehind (front : Text) (rows : List Row) : Nat :=
  frontCount front + 5 + (kinds false (Row.flatten rows)).length

/-- Where what stands behind rows of a program begins. -/
def placeBehind (front : Text) (rows : List Row) : Position :=
  (bodyPlace front).advance (textOf (Row.flatten rows))

/-- The last mark is that of the last row. -/
theorem cutLast?_framed (hmark : textOf last.gap = before ++ inputMark ++ "\n") :
    Text.cutLast? inputMark (framed front (init ++ [last])) =
      some (front ++ entryOpening ++ textOf (Row.flatten init) ++ textOf last.body ++ before,
        "\n\x7d\n".toList) := by
  have htext : framed front (init ++ [last]) =
      (front ++ entryOpening ++ textOf (Row.flatten init) ++ textOf last.body ++ before) ++
        (inputMark ++ "\n\x7d\n") := by
    rw [framed, Row.flatten_append, textOf_append, Row.flatten_cons, Row.flatten_nil,
      append_nil, Row.pieces, textOf_append, hmark]
    have hassoc : ∀ a b c d m n e : Text, a ++ (b ++ (c ++ (d ++ m ++ n))) ++ e =
        (a ++ b ++ c ++ d) ++ (m ++ (n ++ e)) := by
      intros
      simp only [append_assoc]
    exact hassoc _ _ _ _ _ _ _
  have hcut : Text.cutLast? inputMark (inputMark ++ "\n\x7d\n") =
      some ([], "\n\x7d\n".toList) := by
    decide +kernel
  have hlast := Text.cutLast?_append hcut
    (front ++ entryOpening ++ textOf (Row.flatten init) ++ textOf last.body ++ before)
  rwa [append_nil, ← htext] at hlast

/-- The mark is found in the last row. -/
theorem markOffsets?_framed (hmark : textOf last.gap = before ++ inputMark ++ "\n") :
    ∃ lineStart, markOffsets? (framed front (init ++ [last])) =
      some ((placeBehind front init).offset + Text.byteSize (textOf last.body) +
        before.byteSize,
        lineStart) := by
  have hlast := @cutLast?_framed before front init last hmark
  simp only [markOffsets?, hlast, Option.bind_eq_bind, Option.bind_some, Option.pure_def]
  refine ⟨_, congrArg some (Prod.ext ?_ rfl)⟩
  simp [placeBehind, bodyPlace, Position.start, Nat.add_assoc]

/-- The statements of a program are those of its rows, and the statement of the last row is
last. -/
theorem bodyStatements_concat (hfront : IsFront front)
    (hrows : ∀ r ∈ init ++ [last], r.Sound) :
    (Source.ofText (framed front (init ++ [last]))).bodyStatements
        (framedEntry front (init ++ [last])) =
      Row.placed (frontCount front + 5) (bodyPlace front) init ++
        last.statementAt (indexBehind front init) (placeBehind front init) := by
  rw [bodyStatements_framed hfront hrows, ← Row.map_fst_paired,
    Row.paired_append fun r hr => (hrows r (mem_append_left _ hr)).ended,
    map_append,
    Row.map_fst_paired, Row.map_fst_paired, Row.placed, Row.placed, append_nil]
  rfl

/-- If the last row holds a statement, then no other one is marked. -/
theorem marked_mem (hfront : IsFront front) (hrows : ∀ r ∈ init ++ [last], r.Sound)
    (hmark : textOf last.gap = before ++ inputMark ++ "\n")
    (hp : ofProgram? (framed front (init ++ [last])) = .ok (some p))
    (hst : p.marked = some st)
    (hz : last.statementAt (indexBehind front init) (placeBehind front init) = [z]) :
    st = z := by
  obtain ⟨mark, lineStart, entry, hoffsets, hentry, -, hstatements, hmarked, -⟩ :=
    ofProgram?_spec hp
  obtain ⟨lineStart', hoffsets'⟩ := @markOffsets?_framed before front init last hmark
  rw [hoffsets', Option.some.injEq, Prod.mk.injEq] at hoffsets
  rw [entryPoint_framed hfront hrows, Option.some.injEq] at hentry
  rw [← hentry, bodyStatements_concat hfront hrows, hz] at hstatements
  have hstop : z.span.stop ≤ mark := by
    unfold Row.statementAt at hz
    split at hz
    · cases hz
    · cases hz
      rw [← hoffsets.1]
      exact Nat.le_add_right _ _
  rw [hmarked, hstatements, markedStatement, reverse_append, reverse_singleton,
    singleton_append, find?_cons_of_pos (by simpa using hstop)] at hst
  exact (Option.some.inj (Option.filter_eq_some_iff.1 hst).1).symm

/-- A display that is not in the last row can be taken out with a part of its gap. -/
theorem exists_dropped {rows : List Row} (hfront : IsFront front)
    (hrows : ∀ r ∈ rows, r.Sound)
    (hsteady : ∀ rs r q qs, rows = rs ++ r :: q :: qs → displays r.body = true → q.body ≠ [])
    {q : Statement × Row} (hq : q ∈ Row.paired (frontCount front + 5) (bodyPlace front) rows)
    (hdisplays : displays q.2.body = true) (hnotLast : ∀ rs, rows = rs ++ [q.2] →
      q.1 ∉ q.2.statementAt (indexBehind front rs) (placeBehind front rs)) :
    ∃ gone kept d, q.2.gap = gone ++ kept ∧
      deletionSpan (.ofText (framed front rows)) q.1 = .ok d ∧
      Turns [Edit.deletion d] q.1 q.2 ⟨[], kept⟩ := by
  obtain ⟨rs, qs, hsplit, hst⟩ := Row.exists_of_mem_paired (Row.ended_of_sound hrows) hq
  cases qs with
  | nil => exact absurd hst (hnotLast rs hsplit)
  | cons r qs =>
    have hrs : ∀ r ∈ rs, r.Sound := fun r hr => hrows r (hsplit ▸ mem_append_left _ hr)
    have hr : r.Sound := hrows r (by simp [hsplit])
    obtain ⟨rest, htokens⟩ := tokens_body_framed hfront hrows
    have hdrop : (Source.ofText (framed front rows)).tokens.drop (indexBehind front rs) =
        scan (placeBehind front rs) false q.2.pieces ++
          (scan ((placeBehind front rs).advance (textOf q.2.pieces)) false
            (Row.flatten (r :: qs)) ++ rest) := by
      have hqsound := hrows q.2 (Row.of_mem_paired hq).1
      rw [indexBehind, ← drop_drop, htokens, hsplit, Row.flatten_append,
        Row.flatten_cons, scan_append, Row.pendingAfter_flatten (Row.ended_of_sound hrs),
        scan_append, hqsound.pendingAfter_eq,
        append_assoc, ← length_scan (bodyPlace front), drop_left, append_assoc]
      rfl
    have htext : (Source.ofText (framed front rows)).text =
        (front ++ entryOpening ++ textOf (Row.flatten rs)) ++ textOf q.2.pieces ++
          (textOf (Row.flatten (r :: qs)) ++ "\x7d\n") := by
      simp [Source.ofText, framed, hsplit]
    have hsize : Text.byteSize (front ++ entryOpening ++ textOf (Row.flatten rs)) =
        (placeBehind front rs).offset := by
      simp [placeBehind, bodyPlace, Position.start, Nat.add_assoc]
    refine turns_dropped hq hrows hst hdrop hsize htext ?_
    -- The next row begins with a token.
    obtain ⟨c, t, hhead, hc⟩ := hr.ended.head_eq (hsteady rs q.2 r qs hsplit hdisplays)
    rw [Row.flatten_cons, textOf_append, hhead]
    rintro d ⟨⟩
    exact isInline_eq_false hc

/-- What the plan of a program around rows is made of. -/
theorem ofProgram?_framed (hfront : IsFront front) (hrows : ∀ r ∈ rows, r.Sound)
    (hp : ofProgram? (framed front rows) = .ok (some p)) :
    p.Reads (framed front rows) ∧ p.source = .ofText (framed front rows) ∧
      p.statements = Row.placed (frontCount front + 5) (bodyPlace front) rows ∧
      ∀ st, p.marked = some st → needOf p.source (framedEntry front rows) st =
        .ok p.need := by
  obtain ⟨found, hfound, hreads⟩ := ofProgram?_reads (framed front rows)
  obtain rfl : some p = found := Except.ok.inj (hp.symm.trans hfound)
  obtain ⟨mark, lineStart, entry, -, hentry, hsource, hstatements, -, hneed⟩ :=
    ofProgram?_spec hp
  rw [entryPoint_framed hfront hrows, Option.some.injEq] at hentry
  subst hentry
  rw [bodyStatements_framed hfront hrows] at hstatements
  exact ⟨hreads p rfl, hsource, hstatements, hneed⟩

/-- The statement of the last row stays: it is printed, or nothing is and the last display
stays. -/
theorem notMem_dropped_of_last (hfront : IsFront front)
    (hrows : ∀ r ∈ init ++ [last], r.Sound)
    (hmark : textOf last.gap = before ++ inputMark ++ "\n")
    (hp : ofProgram? (framed front (init ++ [last])) = .ok (some p))
    (hprinting : p.wrapEdits answer = .ok printing)
    (hmem : z ∈ last.statementAt (indexBehind front init) (placeBehind front init)) :
    z ∉ p.dropped printing := by
  have hz : last.statementAt (indexBehind front init) (placeBehind front init) = [z] := by
    rcases Row.statementAt_cases (indexBehind front init) (placeBehind front init) last with
      ⟨-, hnone⟩ | ⟨st, -, hone, -⟩
    · rw [hnone] at hmem
      cases hmem
    · rw [hone] at hmem ⊢
      rw [mem_singleton.1 hmem]
  obtain ⟨hreads, -, hstatements, -⟩ := ofProgram?_framed hfront hrows hp
  rw [← bodyStatements_framed hfront hrows, bodyStatements_concat hfront hrows,
    hz] at hstatements
  refine notMem_dropped hreads.nodup hstatements fun e he => ?_
  rcases wrapEdits_cases hprinting with rfl | ⟨st, text, hst, -, -, rfl⟩
  · cases he
  · rw [mem_singleton.1 he, marked_mem hfront hrows hmark hp hst hz]

/-- The marked statement, if something is printed, is put into a printing call. -/
theorem turns_marked (hfront : IsFront front) (hrows : ∀ r ∈ rows, r.Sound)
    (hp : ofProgram? (framed front rows) = .ok (some p))
    (hprinting : p.wrapEdits answer = .ok printing) {q : Statement × Row}
    (hq : q ∈ Row.paired (frontCount front + 5) (bodyPlace front) rows)
    (hmarked : q.1 ∈ p.marked.toList) (hne : printing ≠ []) :
    Turns (p.editsOf printing q.1) q.1 q.2 ⟨printed q.2.body, q.2.gap⟩ ∧
      Shown q.2 ⟨printed q.2.body, q.2.gap⟩ := by
  have hspelled := Row.forall_paired_of_forall₂
    (bodyStatements_framed hfront hrows ▸ spells_framed hfront hrows) q hq
  obtain ⟨hreads, hsource, -, hneed⟩ := ofProgram?_framed hfront hrows hp
  obtain ⟨hmem, hbody, -⟩ := Row.of_mem_paired hq
  rcases wrapEdits_cases hprinting with hnil | ⟨st, text, hst, hshows, htext, hprints⟩
  · exact absurd hnil hne
  · obtain rfl : q.1 = st := by simpa [hst, eq_comm] using hmarked
    rw [hsource, hspelled.text] at htext
    cases htext
    have hnotDropped : q.1 ∉ p.dropped printing := by
      rw [hprints]
      simp [dropped, droppedOf]
    have hstands := hreads.standsIn (hreads.marked q.1 hst)
    have hvalue := isValue_of_shows hstands (hneed q.1 hst) hshows
    rw [hsource] at hvalue
    refine ⟨?_, .printed hbody
      (hspelled.capturesOf_of_isValue (hrows q.2 hmem).lexed.left hvalue)⟩
    rw [editsOf, if_pos hmarked, if_neg hnotDropped, append_nil, hprints]
    exact turns_printed hq hrows

/-- What the edits of a plan do to each row.  The last row keeps its gap. -/
theorem exists_turns (hfront : IsFront front) (hrows : ∀ r ∈ init ++ [last], r.Sound)
    (hsteady : ∀ rs r q qs, init ++ [last] = rs ++ r :: q :: qs → displays r.body = true →
      q.body ≠ [])
    (hmark : textOf last.gap = before ++ inputMark ++ "\n")
    (hp : ofProgram? (framed front (init ++ [last])) = .ok (some p))
    (hprinting : p.wrapEdits answer = .ok printing) {q : Statement × Row}
    (hq : q ∈ Row.paired (frontCount front + 5) (bodyPlace front) (init ++ [last])) :
    ∃ r', Turns (p.editsOf printing q.1) q.1 q.2 r' ∧ Shown q.2 r' ∧
      (q ∈ Row.paired (indexBehind front init) (placeBehind front init) [last] →
        r'.gap = q.2.gap) := by
  have hspelled := Row.forall_paired_of_forall₂
    (bodyStatements_framed hfront hrows ▸ spells_framed hfront hrows) q hq
  obtain ⟨-, hsource, -, -⟩ := ofProgram?_framed hfront hrows hp
  by_cases hshown : q.1 ∈ p.marked.toList ∧ printing ≠ []
  · obtain ⟨hturns, hprinted⟩ := turns_marked hfront hrows hp hprinting hq hshown.1 hshown.2
    exact ⟨_, hturns, hprinted, fun _ => rfl⟩
  · have hfirst : (if q.1 ∈ p.marked.toList then printing else []) = [] := by
      by_cases hmarked : q.1 ∈ p.marked.toList
      · rw [if_pos hmarked]
        exact Classical.not_not.1 fun hne => hshown ⟨hmarked, hne⟩
      · exact if_neg hmarked
    by_cases hdropped : q.1 ∈ p.dropped printing
    · have hdisplays : displays q.2.body = true := by
        rw [← hspelled.isDisplay_eq, ← isDisplay_of_mem_dropped hdropped, hsource]
      have hnotLast : ∀ rs, init ++ [last] = rs ++ [q.2] →
          q.1 ∉ q.2.statementAt (indexBehind front rs) (placeBehind front rs) := by
        intro rs hrs hst
        obtain ⟨rfl, hlastRow⟩ := append_inj' hrs rfl
        rw [← (List.cons.inj hlastRow).1] at hst
        exact notMem_dropped_of_last hfront hrows hmark hp hprinting hst hdropped
      obtain ⟨gone, kept, d, hgap, hd, hturn⟩ :=
        exists_dropped hfront hrows hsteady hq hdisplays hnotLast
      refine ⟨⟨[], kept⟩, ?_, .dropped hgap hdisplays, ?_⟩
      · rw [editsOf, hfirst, if_pos hdropped, hsource, hd]
        exact hturn
      · intro hmemLast
        obtain ⟨st, hst, rfl⟩ : ∃ st ∈ last.statementAt (indexBehind front init)
            (placeBehind front init), (st, last) = q := by
          simpa [Row.paired] using hmemLast
        exact absurd hdropped (notMem_dropped_of_last hfront hrows hmark hp hprinting hst)
    · refine ⟨q.2, ?_, .kept q.2, fun _ => rfl⟩
      rw [editsOf, hfirst, if_neg hdropped]
      exact turns_nil (hrows q.2 (Row.of_mem_paired hq).1)

/-- The program with its last value shown, row by row.  The last row keeps its gap, and the
mark in it. -/
theorem apply_framed (hfront : IsFront front) (hrows : ∀ r ∈ init ++ [last], r.Sound)
    (hsteady : ∀ rs r q qs, init ++ [last] = rs ++ r :: q :: qs → displays r.body = true →
      q.body ≠ [])
    (hmark : textOf last.gap = before ++ inputMark ++ "\n")
    (hp : ofProgram? (framed front (init ++ [last])) = .ok (some p)) {shown : Text}
    (happly : p.apply answer = .ok shown) :
    ∃ init' last', shown = framed front (init' ++ [last']) ∧
      (∀ r ∈ init' ++ [last'], r.Sound) ∧
      Forall₂ Shown init init' ∧ Shown last last' ∧ last'.gap = last.gap := by
  let i := frontCount front + 5
  let here := bodyPlace front
  have hinit : ∀ r ∈ init, r.Ended := fun r hr => (hrows r (mem_append_left _ hr)).ended
  obtain ⟨hreads, hsource, hstatements, -⟩ := ofProgram?_framed hfront hrows hp
  obtain ⟨es, hes, hshown⟩ := Checked.bind_eq_ok.1 happly
  obtain ⟨printing, hprinting, -⟩ := wrapEdits_spec hreads answer
  have hperm := edits_perm hreads hprinting hes
  have hturns : ∀ q ∈ Row.paired i here (init ++ [last]), ∃ r',
      Turns (p.editsOf printing q.1) q.1 q.2 r' ∧ Shown q.2 r' ∧
        (q ∈ Row.paired (indexBehind front init) (placeBehind front init) [last] →
          r'.gap = q.2.gap) :=
    fun q hq => exists_turns hfront hrows hsteady hmark hp hprinting hq
  -- The rows behind the edits are given by a function of statement and row.
  have : Nonempty Row := ⟨⟨[], []⟩⟩
  choose! g hg using hturns
  have happlied := @Row.applyAll_remap es (init ++ [last]) i here (front ++ entryOpening)
    (fun st r => g (st, r)) (p.editsOf printing) "\x7d\n"
    (by simp [here, bodyPlace, Position.start])
    (fun q hq => (hg q hq).1) (by rwa [hstatements] at hperm)
  have hsound := @Row.sound_remap (init ++ [last]) i here (fun st r => g (st, r))
    (p.editsOf printing) hrows (fun q hq => (hg q hq).1)
  rw [hsource] at hshown
  have heq := Except.ok.inj (hshown.symm.trans happlied)
  rw [Row.remap_append _ hinit] at heq hsound
  have hpaired := @Row.paired_append i here init [last] hinit
  have hinitShown :
      Forall₂ Shown init (Row.remap (fun st r => g (st, r)) i here init) := by
    refine Row.forall₂_remap Shown.kept fun q hq => ?_
    exact (hg q (hpaired ▸ mem_append_left _ hq)).2.1
  have hlastShown : Forall₂ (fun r r' => Shown r r' ∧ r'.gap = r.gap) [last]
      (Row.remap (fun st r => g (st, r)) (indexBehind front init)
        (placeBehind front init) [last]) := by
    refine Row.forall₂_remap (fun r => ⟨.kept r, rfl⟩) fun q hq => ?_
    have hq' := hg q (hpaired ▸ mem_append_right _ hq)
    exact ⟨hq'.2.1, hq'.2.2 hq⟩
  obtain ⟨last', hlast'⟩ : ∃ r, Row.remap (fun st r => g (st, r)) (indexBehind front init)
      (placeBehind front init) [last] = [r] := ⟨_, rfl⟩
  rw [hlast', forall₂_cons] at hlastShown
  have hlastRow :
    Row.remap (fun st r => g (st, r)) (i + (kinds false (Row.flatten init)).length)
      (here.advance (textOf (Row.flatten init))) [last] = [last'] := hlast'
  rw [hlastRow] at heq hsound
  exact ⟨_, last', heq, hsound, hinitShown, hlastShown.1.1, hlastShown.1.2⟩

end Framed

end DisplayPlan

end Notebook
