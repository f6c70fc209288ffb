import Mathlib.Data.List.Induction
import Notebook.Proofs.Rows

/-!
# Cutting a text into rows

A complete text falls into rows: its comments and quoted literals have an end, its brackets
are balanced, and its last statement is ended.  The pieces are walked through until a
semicolon ends the statement that has begun; blanks and comments in front of that semicolon,
and all fillers behind it, are the gap.  What remains at the end of the walk would be a
statement that nothing ends.

## Main statements

* `exists_splitRows`: any pieces fall into rows, and a rest that no semicolon ends
* `exists_endedRows`, `exists_rows`: what can be said of the rows if the brackets are balanced
* `exists_laid`: a complete text is made of rows
-/

namespace Notebook

open Lexer List

variable {pending : Bool} {gap ps rest : List Piece} {rows : List Row} {m : Mode} {e : Nat}
  {p : Piece} {t : Text}

/-- A text whose last statement, if there is one, is ended by a semicolon. -/
def Terminated (t : Text) : Prop :=
  ∀ st, (Source.ofText t).statements.getLast? = some st → st.terminator ≠ none

instance (t : Text) : Decidable (Terminated t) :=
  match h : (Source.ofText t).statements.getLast? with
  | none => .isTrue fun st hst => by rw [h] at hst; cases hst
  | some st =>
    decidable_of_iff (st.terminator ≠ none)
      ⟨fun hne st' hst' => by rw [h] at hst'; cases hst'; exact hne, fun hall => hall st h⟩

/-- Walking through pieces, either all of them are taken in, or one of them ends the
statement. -/
theorem run_or_split (heof : .eof ∉ kinds pending ps) :
    (∃ n, m.run (kinds pending ps) = some n) ∨
      ∃ a p b n, ps = a ++ p :: b ∧ m.run (kinds pending a) = some n ∧ n.depth = 0 ∧
        n.header = false ∧ p.emittedKinds (pendingAfter pending a) = [.semi] := by
  induction ps generalizing m pending with
  | nil => exact .inl ⟨m, rfl⟩
  | cons p ps ih =>
    rw [kinds_cons, mem_append, not_or] at heof
    -- What the rest of the pieces does is the same with this piece in front.
    have hcons : ∀ m₁ : Mode, m.run (p.emittedKinds pending) = some m₁ →
        (∃ n, m.run (kinds pending (p :: ps)) = some n) ∨
          ∃ a q b n, p :: ps = a ++ q :: b ∧ m.run (kinds pending a) = some n ∧ n.depth = 0 ∧
            n.header = false ∧ q.emittedKinds (pendingAfter pending a) = [.semi] := by
      intro m₁ hrun
      rcases ih (m := m₁) heof.2 with ⟨n, hn⟩ | ⟨a, q, b, n, rfl, hn, hrest⟩
      · exact .inl ⟨n, by rw [kinds_cons, Mode.run_append, hrun]; exact hn⟩
      · refine .inr ⟨p :: a, q, b, n, rfl, ?_, hrest⟩
        rw [kinds_cons, Mode.run_append, hrun]
        exact hn
    have hlen : p.emittedKinds pending = [] ∨ ∃ k, p.emittedKinds pending = [k] := by
      unfold Piece.emittedKinds
      cases p.kind with
      | token k => exact .inr ⟨k, rfl⟩
      | blank => dsimp only; split <;> simp
      | comment => dsimp only; split <;> simp
    rcases hlen with hnil | ⟨k, hk⟩
    · exact hcons m (by rw [hnil]; rfl)
    · have hne : k ≠ .eof := fun h => heof.1 (by rw [hk, h]; exact mem_singleton_self _)
      cases hpass : m.pass k with
      | none =>
        obtain ⟨rfl, hdepth, hheader⟩ := Mode.pass_eq_none hpass hne
        exact .inr ⟨[], p, ps, m, rfl, rfl, hdepth, hheader, hk⟩
      | some m₁ => exact hcons m₁ (by rw [hk, Mode.run_cons, hpass]; rfl)

/-- Blanks and comments at the end of pieces do not belong to a statement. -/
theorem exists_body {a : List Piece} (ha : ∃ p ∈ a, p.isToken = true) :
    ∃ body gap, a = body ++ gap ∧ (∃ p, body.getLast? = some p ∧ p.isToken = true) ∧
      ∀ p ∈ gap, p.isToken = false := by
  induction a using reverseRecOn with
  | nil =>
    obtain ⟨p, hp, -⟩ := ha
    cases hp
  | append_singleton a p ih =>
    cases hp : p.isToken with
    | true => exact ⟨a ++ [p], [], by simp, ⟨p, getLast?_concat, hp⟩, by simp⟩
    | false =>
      have ha' : ∃ q ∈ a, q.isToken = true := by
        obtain ⟨q, hq, htoken⟩ := ha
        rcases mem_append.1 hq with hq | hq
        · exact ⟨q, hq, htoken⟩
        · rw [mem_singleton.1 hq, hp] at htoken
          cases htoken
      obtain ⟨body, gap, rfl, hlast, hgap⟩ := ih ha'
      refine ⟨body, gap ++ [p], by simp, hlast, ?_⟩
      intro q hq
      rcases mem_append.1 hq with hq | hq
      · exact hgap q hq
      · rw [mem_singleton.1 hq, hp]

theorem Piece.isFiller_of_isToken (h : p.isToken = false) : p.isFiller = true := by
  unfold isToken at h
  unfold isFiller
  cases hk : p.kind with
  | token k =>
    rw [hk] at h
    cases h
  | _ => rfl

theorem Piece.isToken_of_isFiller (h : p.isFiller = false) : p.isToken = true := by
  cases ht : p.isToken with
  | true => rfl
  | false => rw [isFiller_of_isToken ht] at h; cases h

/-- A filler that is no line comment is solid. -/
theorem Piece.isSolid_of_not_isLine (hp : p.isFiller = true) (hline : p.isLine = false) :
    p.isSolid = true := by
  unfold isFiller at hp
  unfold isSolid
  cases hkind : p.kind with
  | blank => rfl
  | comment => simp [hline]
  | token k =>
    rw [hkind] at hp
    obtain rfl : k = .semi := by simpa using hp
    rfl

/-- A filler in front of a token other than a semicolon has an end and is solid: a line
comment would have to be followed by a line end, and a comment without an end by nothing. -/
theorem Piece.isSolid_of_isFiller {q : Piece} {qs : List Piece} (h : Lexed (p :: q :: qs))
    (hp : p.isFiller = true) (hq : q.isFiller = false) :
    p.isSolid = true ∧ p.isClosed = true := by
  obtain ⟨hread, hlexed⟩ := lexed_cons.1 h
  obtain ⟨k, hk⟩ := Piece.isToken_iff.1 (Piece.isToken_of_isFiller hq)
  have hmem : q ∈ Lexer.pieces (textOf (q :: qs)) := by
    rw [hlexed]
    exact mem_cons_self
  obtain ⟨c, r, hcr, hblank⟩ := pieces_token hmem hk
  have htext : textOf (q :: qs) = c :: (r ++ textOf qs) := by
    rw [textOf_cons, hcr, cons_append]
  obtain ⟨hclosed, hline⟩ := hread.closed_of_head (by simp [htext]) (by
    rw [htext]
    rintro ⟨⟩
    cases hblank)
  exact ⟨isSolid_of_not_isLine hp hline, hclosed⟩

/-- Fillers in front of a row, or at the end, are solid where they end. -/
theorem solid_getLast {gap ps : List Piece} (h : Lexed (gap ++ ps))
    (hgap : ∀ p ∈ gap, p.isFiller = true) (hps : ∀ p, ps.head? = some p → p.isFiller = false)
    (hlast : ∀ p, (gap ++ ps).getLast? = some p → p.isFiller = true →
      p.isSolid = true ∧ p.isClosed = true) :
    ∀ p, gap.getLast? = some p → p.isSolid = true ∧ p.isClosed = true := by
  intro p hp
  have hfiller := hgap p (mem_of_getLast? hp)
  obtain ⟨gap', rfl⟩ := getLast?_eq_some_iff.1 hp
  cases ps with
  | nil => exact hlast p (by rw [append_nil, getLast?_concat]) hfiller
  | cons q qs =>
    rw [append_assoc] at h
    exact Piece.isSolid_of_isFiller h.right hfiller (hps q rfl)

/-- Fillers at the front of pieces, and a rest that begins with a token. -/
theorem exists_gap (ps : List Piece) :
    ∃ gap rest, ps = gap ++ rest ∧ (∀ p ∈ gap, p.isFiller = true) ∧
      ∀ p, rest.head? = some p → p.isFiller = false := by
  refine ⟨ps.takeWhile Piece.isFiller, ps.dropWhile Piece.isFiller,
    takeWhile_append_dropWhile.symm, fun p hp => mem_takeWhile_imp hp, ?_⟩
  intro p hp
  have := head?_dropWhile_not Piece.isFiller ps
  rw [hp] at this
  simpa using this

/-- A piece that stands for a semicolon is a filler. -/
theorem Piece.isFiller_of_emittedKinds (h : p.emittedKinds pending = [.semi]) :
    p.isFiller = true := by
  unfold emittedKinds at h
  unfold isFiller
  cases hk : p.kind with
  | token k => simpa [hk] using h
  | _ => rfl

/-- Fillers that are taken in, up to where a statement can end, imply no semicolon. -/
theorem kinds_eq_nil_of_run (hgap : ∀ p ∈ gap, p.isFiller = true) {n : Mode}
    (hrun : m.run (kinds pending gap) = some n) (hdepth : n.depth = 0)
    (hheader : n.header = false) : kinds pending gap = [] ∧ m = n := by
  have hnil : kinds pending gap = [] := by
    by_contra hne
    obtain ⟨hd, hh, hnot⟩ := Mode.run_semis (kinds_fillers hgap _) hne hrun
    exact hnot ⟨hd ▸ hdepth, hh ▸ hheader⟩
  rw [hnil] at hrun
  exact ⟨hnil, Option.some.inj hrun⟩

/-- A walk through pieces that begin with a token is at the end of a statement if it is
outside of brackets and headers. -/
theorem Mode.eq_whole (hp : ps.head? = some p) (htoken : p.isToken = true)
    (hrun : Mode.outside.run (kinds false ps) = some m) (hdepth : m.depth = 0)
    (hheader : m.header = false) : m = .whole := by
  obtain ⟨qs, rfl⟩ := head?_eq_some_iff.1 hp
  obtain ⟨k, hk⟩ := Piece.isToken_iff.1 htoken
  have hkinds : kinds false (p :: qs) ≠ [] := by simp [kinds_cons, Piece.emittedKinds, hk]
  have hinside := Mode.inside_of_run hrun (.inl hkinds)
  cases m
  simp_all [Mode.whole]

/-- One row at the front of pieces that begin with a statement, if something ends it. -/
theorem exists_row (heof : .eof ∉ kinds false ps) (hp : ps.head? = some p)
    (hfront : p.isFiller = false) :
    (∃ m, Mode.outside.run (kinds false ps) = some m) ∨
      ∃ r rest, ps = r.pieces ++ rest ∧ Row.SplitsOff r ∧ r.body ≠ [] ∧
        ∀ q, rest.head? = some q → q.isFiller = false := by
  have htoken := Piece.isToken_of_isFiller hfront
  refine (run_or_split (m := .outside) heof).imp_right ?_
  rintro ⟨a, semi, b, n, rfl, hrun, hdepth, hheader, hsemi⟩
  have hsemifiller := Piece.isFiller_of_emittedKinds hsemi
  -- The first piece is a token that is taken in.
  have ha : a.head? = some p := by
    cases a with
    | nil =>
      cases hp
      rw [hsemifiller] at hfront
      cases hfront
    | cons q a => exact hp
  obtain ⟨body, gap, rfl, ⟨last, hbody, hlasttoken⟩, hgap⟩ :=
    exists_body ⟨p, mem_of_mem_head? ha, htoken⟩
  obtain ⟨more, rest, rfl, hmore, hrest⟩ := exists_gap b
  have hbodyhead : body.head? = some p := by
    obtain ⟨body', rfl⟩ := getLast?_eq_some_iff.1 hbody
    cases body' with
    | nil => exact ha
    | cons q qs => exact ha
  -- Blanks and comments in front of the semicolon imply none of their own.
  rw [kinds_append, Mode.run_append] at hrun
  obtain ⟨m, hm, hgaprun⟩ := Option.bind_eq_some_iff.1 hrun
  have hgapfiller : ∀ q ∈ gap, q.isFiller = true := fun q hq =>
    Piece.isFiller_of_isToken (hgap q hq)
  obtain ⟨hgapkinds, rfl⟩ := kinds_eq_nil_of_run hgapfiller hgaprun hdepth hheader
  have hwhole : m = .whole := Mode.eq_whole hbodyhead htoken hm hdepth hheader
  have hfillers : ∀ q ∈ gap ++ semi :: more, q.isFiller = true := by
    simp only [mem_append, mem_cons]
    rintro q (hq | rfl | hq)
    · exact hgapfiller q hq
    · exact hsemifiller
    · exact hmore q hq
  refine ⟨⟨body, gap ++ semi :: more⟩, rest, by simp [Row.pieces],
    ⟨hfillers, .inr ⟨⟨hwhole ▸ hm, ?_, ?_⟩, ?_⟩⟩, ?_, hrest⟩
  · intro q hq
    rw [hbodyhead] at hq
    cases hq
    exact htoken
  · intro q hq
    rw [hbody] at hq
    cases hq
    exact hlasttoken
  · rw [pendingAfter_append] at hsemi
    rw [kinds_append, hgapkinds, kinds_cons, hsemi]
    simp
  · rintro rfl
    cases hbodyhead

/-- Pieces that begin with a statement fall into rows with a statement each, and a rest that
no semicolon ends. -/
theorem exists_splitRows (heof : .eof ∉ kinds false ps)
    (hfront : ∀ p, ps.head? = some p → p.isFiller = false) :
    ∃ rows rest, (∀ r ∈ rows, Row.SplitsOff r ∧ r.body ≠ []) ∧ ps = Row.flatten rows ++ rest ∧
      (rest = [] ∨ (∃ p, rest.head? = some p ∧ p.isFiller = false) ∧
        ∃ m, Mode.outside.run (kinds false rest) = some m) := by
  -- The induction is on the number of pieces: each step takes a row off the front.
  induction hn : ps.length using Nat.strongRecOn generalizing ps with
  | ind n ih =>
    cases ps with
    | nil => exact ⟨[], [], by simp, rfl, .inl rfl⟩
    | cons p qs =>
      rcases exists_row heof rfl (hfront p rfl) with hrun | ⟨r, more, heq, hr, hne, hmore⟩
      · exact ⟨[], p :: qs, by simp, rfl, .inr ⟨⟨p, rfl, hfront p rfl⟩, hrun⟩⟩
      · rw [heq] at heof hn ⊢
        have hpos : 0 < r.pieces.length := length_pos_iff.2 (by simp [Row.pieces, hne])
        rw [length_append] at hn
        rw [kinds_append, hr.pendingAfter_eq, mem_append, not_or] at heof
        obtain ⟨rows, rest, hrows, hrest, hend⟩ := ih more.length (by omega) heof.2 hmore rfl
        refine ⟨r :: rows, rest, ?_, by rw [hrest]; simp, hend⟩
        exact forall_mem_cons.2 ⟨⟨hr, hne⟩, hrows⟩

/-- Rows that hold statements, and something in front of which fillers are solid, begin with
no filler. -/
theorem Row.head_flatten (hrows : ∀ r ∈ rows, r.SplitsOff ∧ r.body ≠ [])
    (hrest : ∀ p, rest.head? = some p → p.isFiller = false) :
    ∀ p, (flatten rows ++ rest).head? = some p → p.isFiller = false := by
  cases rows with
  | nil => exact hrest
  | cons r rs =>
    obtain ⟨hr, hne⟩ := hrows r mem_cons_self
    obtain ⟨q, qs, hq⟩ := exists_cons_of_ne_nil hne
    have hbody := (hr.body.resolve_left hne).1
    intro p hp
    rw [flatten_cons, Row.pieces, hq] at hp
    cases hp
    exact hbody.isFiller_head (by rw [hq]; rfl)

/-- Rows that are read back, and close only what they open, may stand in front of anything. -/
theorem Row.ended_of_splitsOff (h : Lexed (flatten rows ++ rest))
    (hlast : ∀ p, (flatten rows ++ rest).getLast? = some p → p.isFiller = true →
      p.isSolid = true ∧ p.isClosed = true)
    (hnest : nest 0 (kinds false (flatten rows ++ rest)) = some e)
    (hrows : ∀ r ∈ rows, r.SplitsOff ∧ r.body ≠ [])
    (hrest : ∀ p, rest.head? = some p → p.isFiller = false) :
    (∀ r ∈ rows, r.Ended) ∧ nest 0 (kinds false rest) = some e := by
  induction rows with
  | nil => exact ⟨by simp, hnest⟩
  | cons r rs ih =>
    obtain ⟨hr, hne⟩ := hrows r mem_cons_self
    have hrs : ∀ q ∈ rs, q.SplitsOff ∧ q.body ≠ [] := fun q hq =>
      hrows q (mem_cons_of_mem r hq)
    obtain ⟨hbody, hgap⟩ := hr.body.resolve_left hne
    rw [flatten_cons, append_assoc] at h hlast hnest
    rw [kinds_append, nest_append] at hnest
    obtain ⟨d, hd, hnest⟩ := Option.bind_eq_some_iff.1 hnest
    rw [Row.pieces, kinds_append, nest_append] at hd
    obtain ⟨d', hd', hd⟩ := Option.bind_eq_some_iff.1 hd
    have hended : r.Ended := by
      refine ⟨h.left, hr.fillers, ?_, .inr ⟨hbody.isStatement hd', hgap⟩⟩
      rw [Row.pieces, append_assoc] at h hlast
      refine solid_getLast h.right hr.fillers (head_flatten hrs hrest) fun q hq => hlast q ?_
      rw [getLast?_append, hq]
      rfl
    have hzero : d = 0 := by
      have hpieces := hended.nest_eq
      rw [Row.pieces, kinds_append, nest_append, hd', Option.bind_some, hd] at hpieces
      exact Option.some.inj hpieces
    rw [hzero, hended.pendingAfter_eq] at hnest
    obtain ⟨hrest, hnest⟩ := ih h.right
      (fun p hp => hlast p (by rw [getLast?_append, hp]; rfl)) hnest hrs
    refine ⟨?_, hnest⟩
    exact forall_mem_cons.2 ⟨hended, hrest⟩

section

variable (h : Lexed ps)
  (hlast : ∀ p, ps.getLast? = some p → p.isFiller = true →
    p.isSolid = true ∧ p.isClosed = true)
  (hnest : nest 0 (kinds false ps) = some e)
include h hlast hnest

/-- Pieces that close only what they open fall into rows that may stand in front of
anything. -/
theorem exists_statementRows (hfront : ∀ p, ps.head? = some p → p.isFiller = false) :
    ∃ rows rest, (∀ r ∈ rows, Row.Ended r ∧ r.body ≠ []) ∧ ps = Row.flatten rows ++ rest ∧
      (rest = [] ∨ (∃ p, rest.head? = some p ∧ p.isFiller = false) ∧
        ∃ m, Mode.outside.walk (kinds false rest) = some m) := by
  obtain ⟨rows, rest, hrows, rfl, hrest⟩ := exists_splitRows (mem_kinds_ne_eof h false) hfront
  have hhead : ∀ p, rest.head? = some p → p.isFiller = false := by
    rcases hrest with rfl | ⟨⟨q, hq, hfiller⟩, -⟩
    · simp
    · rintro p hp
      rw [hq] at hp
      cases hp
      exact hfiller
  obtain ⟨hended, hnest⟩ := Row.ended_of_splitsOff h hlast hnest hrows hhead
  refine ⟨rows, rest, fun r hr => ⟨hended r hr, (hrows r hr).2⟩, rfl, ?_⟩
  exact hrest.imp_right fun ⟨hp, m, hm⟩ => ⟨hp, m, Mode.walk_of_run hm hnest⟩

/-- Every list of pieces falls into rows, of which all but the first hold a statement, and a
rest that no semicolon ends. -/
theorem exists_endedRows :
    ∃ rows rest, (∀ r ∈ rows, Row.Ended r) ∧ (∀ r ∈ rows.tail, r.body ≠ []) ∧
      ps = Row.flatten rows ++ rest ∧
      (rest = [] ∨ (∃ p, rest.head? = some p ∧ p.isFiller = false) ∧
        ∃ m, Mode.outside.walk (kinds false rest) = some m) := by
  obtain ⟨gap, more, rfl, hgap, hmore⟩ := exists_gap ps
  have hgapended : Row.Ended ⟨[], gap⟩ :=
    ⟨h.left, hgap, solid_getLast h hgap hmore hlast, .inl rfl⟩
  have hpending : pendingAfter false gap = false := hgapended.pendingAfter_eq
  have hgapnest : nest 0 (kinds false gap) = some 0 := hgapended.nest_eq
  rw [kinds_append, nest_append, hgapnest, hpending] at hnest
  obtain ⟨rows, rest, hrows, rfl, hrest⟩ := exists_statementRows h.right
    (fun p hp => hlast p (by rw [getLast?_append, hp]; rfl)) hnest hmore
  refine ⟨⟨[], gap⟩ :: rows, rest, ?_, fun r hr => (hrows r hr).2, ?_, hrest⟩
  · intro q hq
    rcases mem_cons.1 hq with rfl | hq
    · exact hgapended
    · exact (hrows q hq).1
  · simp [Row.pieces]

end

/-- Pieces that all have an end fall into sound rows. -/
theorem exists_rows (h : Lexed ps) (hclosed : ∀ p ∈ ps, p.isClosed = true)
    (hlast : ∀ p, ps.getLast? = some p → p.isSolid = true)
    (hnest : nest 0 (kinds false ps) = some e) :
    ∃ rows rest, (∀ r ∈ rows, Row.Sound r) ∧ ps = Row.flatten rows ++ rest ∧
      (rest = [] ∨ (∃ p, rest.head? = some p ∧ p.isFiller = false) ∧
        ∃ m, Mode.outside.walk (kinds false rest) = some m) := by
  obtain ⟨rows, rest, hrows, -, rfl, hrest⟩ := exists_endedRows h
    (fun p hp _ => ⟨hlast p hp, hclosed p (mem_of_getLast? hp)⟩) hnest
  refine ⟨rows, rest, fun r hr => (hrows r hr).sound fun p hp => ?_, rfl, hrest⟩
  exact hclosed p (mem_append_left _ (mem_flatMap.2 ⟨r, hr, hp⟩))

/-- Tokens that are all taken in make one statement, and nothing ends it. -/
theorem Source.split_unended {a b : Token} {ts : List Token}
    (h : Mode.outside.run ((a :: ts).map Token.kind) = some m)
    (hb : (a :: ts).getLast? = some b) (i : Nat) :
    split i .initial (a :: ts) = [⟨i, i + ts.length, ⟨a.pos, b.stop⟩, none⟩] := by
  have hmode : SplitState.initial.mode.run ((a :: ts).map Token.kind) = some m := h
  have hsplit := (split_append hmode i []).1
  rw [append_nil] at hsplit
  rw [hsplit, split, SplitState.close, SplitState.current_takeAll_initial hb]

/-- A statement that nothing ends has no semicolon behind it. -/
theorem Source.split_dangling (hp : rest.head? = some p) (hfiller : p.isFiller = false)
    (hrun : Mode.outside.run (kinds false rest) = some m) (i : Nat) (here : Position) :
    ∃ st, split i .initial (scan here false rest) = [st] ∧ st.first = i ∧
      st.terminator = none ∧
      st.span.start = here.offset ∧
      ∃ b, (scan here false rest).getLast? = some b ∧ st.span.stop = b.stop := by
  obtain ⟨qs, rfl⟩ := head?_eq_some_iff.1 hp
  obtain ⟨k, hk⟩ := Piece.isToken_iff.1 (Piece.isToken_of_isFiller hfiller)
  rw [← map_kind_scan here] at hrun
  rw [scan_cons, Piece.emitted_of_kind hk, singleton_append] at hrun ⊢
  have hb := getLast?_eq_some_getLast (cons_ne_nil (⟨k, p.text, here⟩ : Token)
    (scan (here.advance p.text) (p.pendingBehind false) qs))
  exact ⟨_, split_unended hrun hb i, rfl, rfl, rfl, _, hb, rfl⟩

/-- The end of a text opens and closes no bracket. -/
theorem balanced_iff : Balanced t ↔ nest 0 (kinds false (Lexer.pieces t)) = some 0 := by
  have hend : ∀ d, nest d ((endTokens (Position.start.advance t)
      (pendingAfter false (Lexer.pieces t))).map Token.kind) = some d := by
    refine nest_of_no_brackets ?_
    unfold endTokens
    cases pendingAfter false (Lexer.pieces t) <;>
      simp [Token.impliedSemi, Token.eof] <;> decide
  rw [Balanced, tokenize_eq, map_append, map_kind_scan, nest_append]
  cases nest 0 (kinds false (Lexer.pieces t)) with
  | none => rfl
  | some d => rw [Option.bind_some, hend]

theorem nest_pieces (h : Balanced t) : nest 0 (kinds false (Lexer.pieces t)) = some 0 :=
  balanced_iff.1 h

/-- A complete text, and a line end behind it, are made of rows. -/
theorem exists_laid (hclosed : LexicallyClosed t) (hbalanced : Balanced t)
    (hterminated : Terminated t) : ∃ bodies, Laid (t ++ ['\n']) bodies := by
  have hpieces := pieces_append_lineFeed hclosed
  have hnest : nest 0 (kinds false (Lexer.pieces t ++ [lineEnd])) = some 0 := by
    rw [kinds_append, nest_append, nest_pieces hbalanced]
    exact nest_fillers (by simp [lineEnd, Piece.isFiller]) _ _
  have hlexed : Lexed (Lexer.pieces t ++ [lineEnd]) := hpieces ▸ lexed_pieces _
  have hclosed' : ∀ p ∈ Lexer.pieces t ++ [lineEnd], p.isClosed = true := by
    exact forall_mem_append.2 ⟨hclosed, forall_mem_singleton.2 rfl⟩
  have hlast : ∀ p, (Lexer.pieces t ++ [lineEnd]).getLast? = some p → p.isSolid = true := by
    intro p hp
    rw [getLast?_concat] at hp
    cases hp
    rfl
  obtain ⟨rows, rest, hrows, hflat, hrest⟩ := exists_rows hlexed hclosed' hlast hnest
  rcases hrest with rfl | ⟨⟨p, hp, hfiller⟩, m, hm⟩
  · rw [append_nil] at hflat
    exact ⟨Row.bodies rows, rows, hrows, by rw [hpieces, hflat], rfl⟩
  · -- A rest would be a last statement without an end.
    exfalso
    obtain ⟨st, hst, -, hnone, -⟩ := Source.split_dangling hp hfiller (Mode.run_of_walk hm)
      (0 + (kinds false (Row.flatten rows)).length)
        (Position.start.advance (textOf (Row.flatten rows)))
    refine hterminated st ?_ hnone
    have hended := Row.ended_of_sound hrows
    rw [Source.statements_eq_split, hflat, scan_append, Row.pendingAfter_flatten hended,
      Source.split_rows (Row.splitsOff_of_ended hended), hst, getLast?_concat]

end Notebook
