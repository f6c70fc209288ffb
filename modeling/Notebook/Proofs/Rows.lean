import Mathlib.Data.List.Forall2
import Notebook.Proofs.Scanning
import Notebook.Proofs.Statements

/-!
# Texts as rows of statements

A text that is complete falls into rows: the pieces of a statement, and behind them a gap of
blanks, comments and semicolons that ends the statement.  Rows are independent of each other.
Whatever stands in front of a row, its statement is split off there and nothing else is;
whatever stands behind it, its pieces are read as they are.  So rows can be taken out, changed
and put together, and the statements of the result are known.

## Main statements

* `Source.split_rows`: the statements of rows
* `Laid.append`: texts made of rows, side by side
* `Laid.statements`: their statements
* `exists_laid`: every complete text is made of rows
-/

namespace Notebook

open Lexer List

variable {pending : Bool} {gap ps : List Piece} {rows : List Row} {ts us : List Token}
  {ks : List TokenKind} {m n : Mode} {e i : Nat} {p : Piece} {here : Position} {r : Row}
  {s : Source} {before t : Text} {a b : Token} {k : TokenKind}

/-! ### The splitting by kinds -/

/-- What the splitting remembers: the depth, whether a header is being read, and whether a
statement has begun. -/
structure Mode where
  depth : Nat
  header : Bool
  inside : Bool
deriving DecidableEq, Repr

namespace Mode

/-- At the front of a statement. -/
def outside : Mode := ⟨0, false, false⟩

/-- Where a statement may end. -/
def whole : Mode := ⟨0, false, true⟩

/-- Whether a header is being read behind a token. -/
def headerAfter (m : Mode) (k : TokenKind) : Bool :=
  if k == .opening .brace && m.depth == 0 then false
  else if Source.SplitState.opensHeader k && !m.inside then true
  else if k == .keyword .elseKw && m.depth == 0 then true
  else m.header

/-- Takes a token into the statement, unless it ends it or closes what is not open. -/
def step (m : Mode) (k : TokenKind) : Option Mode :=
  if k = .eof ∨ (k = .semi ∧ m.depth = 0 ∧ m.header = false) then none
  else (nestStep m.depth k).map fun d => ⟨d, m.headerAfter k, true⟩

/-- Takes tokens into the statement. -/
def walk (m : Mode) (ks : List TokenKind) : Option Mode :=
  ks.foldlM step m

@[simp] theorem walk_nil (m : Mode) : m.walk [] = some m := rfl

theorem walk_cons (m : Mode) (k : TokenKind) (ks : List TokenKind) :
    m.walk (k :: ks) = (m.step k).bind fun n => n.walk ks :=
  foldlM_cons

theorem walk_append (m : Mode) (ks ls : List TokenKind) :
    m.walk (ks ++ ls) = (m.walk ks).bind fun n => n.walk ls :=
  foldlM_append

/-- What a step does that is taken. -/
theorem step_eq_some (h : m.step k = some n) :
    k ≠ .eof ∧ ¬(k = .semi ∧ m.depth = 0 ∧ m.header = false) ∧
      nestStep m.depth k = some n.depth ∧ n.header = m.headerAfter k ∧ n.inside = true := by
  unfold step at h
  split at h
  · cases h
  next hends =>
    obtain ⟨d, hd, rfl⟩ := Option.map_eq_some_iff.1 h
    exact ⟨fun he => hends (.inl he), fun hs => hends (.inr hs), hd, rfl, rfl⟩

/-- Takes a token into the statement, unless it ends it.  A bracket that closes nothing is
ignored. -/
def pass (m : Mode) (k : TokenKind) : Option Mode :=
  if k = .eof ∨ (k = .semi ∧ m.depth = 0 ∧ m.header = false) then none
  else some ⟨Source.depthAfter m.depth k, m.headerAfter k, true⟩

/-- Takes tokens into the statement, whatever their brackets. -/
def run (m : Mode) (ks : List TokenKind) : Option Mode :=
  ks.foldlM pass m

@[simp] theorem run_nil (m : Mode) : m.run [] = some m := rfl

theorem run_cons (m : Mode) (k : TokenKind) (ks : List TokenKind) :
    m.run (k :: ks) = (m.pass k).bind fun n => n.run ks :=
  foldlM_cons

theorem run_append (m : Mode) (ks ls : List TokenKind) :
    m.run (ks ++ ls) = (m.run ks).bind fun n => n.run ls :=
  foldlM_append

theorem pass_eq_some (h : m.pass k = some n) :
    k ≠ .eof ∧ ¬(k = .semi ∧ m.depth = 0 ∧ m.header = false) ∧
      n = ⟨Source.depthAfter m.depth k, m.headerAfter k, true⟩ := by
  unfold pass at h
  split at h
  · cases h
  next hends =>
    exact ⟨fun he => hends (.inl he), fun hs => hends (.inr hs), (Option.some.inj h).symm⟩

/-- A token that cannot be taken in ends the statement. -/
theorem pass_eq_none (h : m.pass k = none) (heof : k ≠ .eof) :
    k = .semi ∧ m.depth = 0 ∧ m.header = false := by
  unfold pass at h
  split at h
  next hends => exact hends.resolve_left heof
  · cases h

theorem pass_of_step (h : m.step k = some n) : m.pass k = some n := by
  obtain ⟨heof, hsemi, hdepth, hheader, hinside⟩ := step_eq_some h
  rw [pass, if_neg (not_or.2 ⟨heof, hsemi⟩), depthAfter_of_nestStep hdepth,
    ← hheader, ← hinside]

theorem run_of_walk (h : m.walk ks = some n) : m.run ks = some n := by
  induction ks generalizing m with
  | nil => exact h
  | cons k ks ih =>
    rw [walk_cons] at h
    obtain ⟨m₁, hstep, hwalk⟩ := Option.bind_eq_some_iff.1 h
    rw [run_cons, pass_of_step hstep]
    exact ih hwalk

/-- Tokens that close only what is open are taken in without being looked at. -/
theorem walk_of_run (h : m.run ks = some n) (hnest : nest m.depth ks = some e) :
    m.walk ks = some n := by
  induction ks generalizing m with
  | nil => exact h
  | cons k ks ih =>
    rw [run_cons] at h
    rw [nest_cons] at hnest
    obtain ⟨m₁, hpass, hrun⟩ := Option.bind_eq_some_iff.1 h
    obtain ⟨d, hd, hks⟩ := Option.bind_eq_some_iff.1 hnest
    obtain ⟨heof, hsemi, rfl⟩ := pass_eq_some hpass
    rw [depthAfter_of_nestStep hd] at hrun
    rw [walk_cons, step, if_neg (not_or.2 ⟨heof, hsemi⟩), hd]
    exact ih hrun hks

theorem nest_of_walk (h : m.walk ks = some n) : nest m.depth ks = some n.depth := by
  induction ks generalizing m with
  | nil =>
    cases h
    rfl
  | cons k ks ih =>
    rw [walk_cons] at h
    obtain ⟨m₁, hstep, hwalk⟩ := Option.bind_eq_some_iff.1 h
    rw [nest_cons, (step_eq_some hstep).2.2.1]
    exact ih hwalk

theorem inside_of_run (h : m.run ks = some n) (hks : ks ≠ [] ∨ m.inside = true) :
    n.inside = true := by
  induction ks generalizing m with
  | nil =>
    cases h
    exact hks.resolve_left fun hne => hne rfl
  | cons k ks ih =>
    rw [run_cons] at h
    obtain ⟨m₁, hpass, hrun⟩ := Option.bind_eq_some_iff.1 h
    obtain ⟨-, -, rfl⟩ := pass_eq_some hpass
    exact ih hrun (.inr rfl)

theorem foldl_of_run (h : m.run ks = some n) :
    ks.foldl Source.depthAfter m.depth = n.depth := by
  induction ks generalizing m with
  | nil =>
    cases h
    rfl
  | cons k ks ih =>
    rw [run_cons] at h
    obtain ⟨m₁, hpass, hrun⟩ := Option.bind_eq_some_iff.1 h
    obtain ⟨-, -, rfl⟩ := pass_eq_some hpass
    exact ih hrun

/-- Semicolons that are taken in stand in brackets or in a header, and change nothing. -/
theorem run_semis (hks : ∀ k ∈ ks, k = .semi) (hne : ks ≠ []) (h : m.run ks = some n) :
    n.depth = m.depth ∧ n.header = m.header ∧ ¬(m.depth = 0 ∧ m.header = false) := by
  induction ks generalizing m with
  | nil => exact absurd rfl hne
  | cons k ks ih =>
    obtain rfl := hks k mem_cons_self
    rw [run_cons] at h
    obtain ⟨m₁, hpass, hrun⟩ := Option.bind_eq_some_iff.1 h
    obtain ⟨-, hnot, rfl⟩ := pass_eq_some hpass
    cases ks with
    | nil =>
      cases hrun
      exact ⟨rfl, rfl, fun hm => hnot ⟨rfl, hm⟩⟩
    | cons l ls =>
      obtain ⟨hd, hh, -⟩ := ih (fun k hk => hks k (mem_cons_of_mem _ hk)) (by simp) hrun
      exact ⟨hd, hh, fun hm => hnot ⟨rfl, hm⟩⟩

/-- Inside brackets all balanced tokens are taken in. -/
theorem walk_of_nest {d : Nat} (h : nest d ks = some e) (heof : .eof ∉ ks) (n : Nat)
    (header : Bool) : walk ⟨d + n + 1, header, true⟩ ks = some ⟨e + n + 1, header, true⟩ := by
  induction ks generalizing d with
  | nil =>
    cases h
    rfl
  | cons k ks ih =>
    rw [nest_cons] at h
    obtain ⟨f, hf, hks⟩ := Option.bind_eq_some_iff.1 h
    have hne : k ≠ .eof := fun hk => heof (hk ▸ mem_cons_self)
    have hheader : headerAfter ⟨d + (n + 1), header, true⟩ k = header := by
      simp [headerAfter]
    have hstep : step ⟨d + n + 1, header, true⟩ k = some ⟨f + n + 1, header, true⟩ := by
      unfold step
      rw [if_neg (by simp [hne]), Nat.add_assoc, nestStep_add hf, hheader, Nat.add_assoc]
      rfl
    rw [walk_cons, hstep]
    exact ih hks (fun hmem => heof (mem_cons_of_mem k hmem))

end Mode

namespace Source

namespace SplitState

/-- What a state remembers apart from the extent of the statement. -/
def mode (st : SplitState) : Mode := ⟨st.depth, st.header, st.current.isSome⟩

/-- Takes tokens into the current statement, the first of which has number `i`. -/
def takeAll (i : Nat) (st : SplitState) : List Token → SplitState
  | [] => st
  | t :: ts => takeAll (i + 1) (st.take i t) ts

theorem mode_take {st : SplitState} {t : Token} (i : Nat) (h : st.mode.pass t.kind = some m) :
    (st.take i t).mode = m := by
  obtain ⟨-, -, rfl⟩ := Mode.pass_eq_some h
  have hheader : st.headerAfter t.kind = st.mode.headerAfter t.kind := by
    unfold headerAfter Mode.headerAfter mode
    cases st.current <;> rfl
  rw [← hheader]
  simp [SplitState.take, mode]

theorem splitsAt_eq_false {st : SplitState} (h : st.mode.pass k = some m) :
    st.splitsAt k = false := by
  obtain ⟨-, hnot, -⟩ := Mode.pass_eq_some h
  simp only [mode] at hnot
  by_contra hsplit
  simp only [splitsAt, Bool.not_eq_false, Bool.and_eq_true, beq_iff_eq,
    Bool.not_eq_true'] at hsplit
  exact hnot ⟨hsplit.1.1, hsplit.1.2, hsplit.2⟩

theorem current_takeAll {st : SplitState} {c : OpenStatement} (hc : st.current = some c)
    (hb : ts.getLast? = some b) (i : Nat) :
    (takeAll i st ts).current =
      some ⟨c.first, i + ts.length - 1, ⟨c.span.start, b.stop⟩⟩ := by
  induction ts generalizing i st c with
  | nil => cases hb
  | cons t ts ih =>
    have hcur : (st.take i t).current = some ⟨c.first, i, ⟨c.span.start, t.stop⟩⟩ := by
      simp [SplitState.take, hc]
    cases ts with
    | nil =>
      cases hb
      exact hcur
    | cons u us =>
      rw [takeAll, ih hcur (by rwa [getLast?_cons_cons] at hb)]
      simp only [length_cons, Option.some.injEq, OpenStatement.mk.injEq,
        and_true, true_and]
      omega

/-- The extent of a statement all of whose tokens are taken in. -/
theorem current_takeAll_initial (hb : (a :: ts).getLast? = some b) (i : Nat) :
    (takeAll i .initial (a :: ts)).current = some ⟨i, i + ts.length, ⟨a.pos, b.stop⟩⟩ := by
  cases ts with
  | nil =>
    cases hb
    rfl
  | cons u us =>
    rw [takeAll, current_takeAll (c := ⟨i, i, ⟨a.pos, a.stop⟩⟩) rfl
      (by rwa [getLast?_cons_cons] at hb)]
    simp only [length_cons, Option.some.injEq, OpenStatement.mk.injEq,
      and_true, true_and]
    omega

end SplitState

open SplitState

/-- Tokens that are taken in end no statement. -/
theorem split_append {st : SplitState} (h : st.mode.run (ts.map Token.kind) = some m)
    (i : Nat) (us : List Token) :
    split i st (ts ++ us) = split (i + ts.length) (takeAll i st ts) us ∧
      (takeAll i st ts).mode = m := by
  induction ts generalizing i st with
  | nil => exact ⟨rfl, Option.some.inj h⟩
  | cons t ts ih =>
    rw [map_cons, Mode.run_cons] at h
    obtain ⟨m₁, hpass, hrun⟩ := Option.bind_eq_some_iff.1 h
    rw [← mode_take i hpass] at hrun
    obtain ⟨hsplit, hmode⟩ := ih hrun (i + 1)
    refine ⟨?_, hmode⟩
    rw [cons_append, split, if_neg (Mode.pass_eq_some hpass).1, splitsAt_eq_false hpass,
      if_neg Bool.false_ne_true, hsplit, length_cons, Nat.add_assoc, Nat.add_comm 1]
    rfl

/-- Semicolons at the front of a statement are passed over. -/
theorem split_semis (h : ∀ t ∈ ts, t.kind = .semi) (i : Nat) (us : List Token) :
    split i .initial (ts ++ us) = split (i + ts.length) .initial us := by
  induction ts generalizing i with
  | nil => rfl
  | cons t ts ih =>
    obtain ⟨ht, hts⟩ := forall_mem_cons.1 h
    rw [cons_append, split, if_neg (by rw [ht]; simp), if_pos (by rw [ht]; rfl)]
    have hinitial :
      (⟨SplitState.initial.depth, SplitState.initial.header, none⟩ : SplitState) =
      .initial := rfl
    rw [hinitial, ih hts, length_cons,
      Nat.add_assoc, Nat.add_comm 1]
    rfl

/-- A semicolon behind whole tokens ends their statement. -/
theorem split_statement {semi : Token}
    (h : Mode.outside.run ((a :: ts).map Token.kind) = some .whole)
    (hb : (a :: ts).getLast? = some b) (hsemi : semi.kind = .semi) (i : Nat)
    (us : List Token) :
    split i .initial ((a :: ts) ++ semi :: us) =
      ⟨i, i + ts.length, ⟨a.pos, b.stop⟩, some (i + ts.length + 1)⟩ ::
        split (i + ts.length + 2) .initial us := by
  have hinitial : SplitState.initial.mode.run ((a :: ts).map Token.kind) = some .whole := h
  obtain ⟨hsplit, hmode⟩ := split_append hinitial i (semi :: us)
  have hcur := current_takeAll_initial hb i
  have hdepth : (takeAll i .initial (a :: ts)).depth = 0 := congrArg Mode.depth hmode
  have hheader : (takeAll i .initial (a :: ts)).header = false := congrArg Mode.header hmode
  rw [hsplit, split, if_neg (by rw [hsemi]; simp),
    if_pos (by simp [splitsAt, hsemi, hdepth, hheader]), close, hcur, hdepth, hheader]
  rfl

end Source

/-! ### Rows -/

namespace Piece

/-- Blanks, comments and semicolons. -/
def isFiller (p : Piece) : Bool :=
  match p.kind with
  | .token k => k == .semi
  | _ => true

/-- Whether a piece is a token. -/
def isToken (p : Piece) : Bool :=
  match p.kind with
  | .token _ => true
  | _ => false

theorem isToken_iff : p.isToken = true ↔ ∃ k, p.kind = .token k := by
  unfold isToken
  cases p.kind <;> simp

theorem emittedKinds_of_isFiller (h : p.isFiller = true) (pending : Bool) :
    ∀ k ∈ p.emittedKinds pending, k = .semi := by
  unfold isFiller at h
  unfold emittedKinds
  cases hk : p.kind with
  | token k =>
    rw [hk] at h
    simpa using h
  | blank => dsimp only; split <;> simp
  | comment => dsimp only; split <;> simp

end Piece

namespace Lexer

/-- A token is made by a piece of its kind, or is an implied semicolon. -/
theorem exists_of_mem_kinds (h : k ∈ kinds pending ps) :
    k = .semi ∨ ∃ p ∈ ps, p.kind = .token k := by
  induction ps generalizing pending with
  | nil => cases h
  | cons p ps ih =>
    rcases mem_append.1 h with h | h
    · unfold Piece.emittedKinds at h
      split at h
      next hk => exact .inr ⟨p, mem_cons_self, by rw [hk, mem_singleton.1 h]⟩
      · split at h
        · exact .inl (mem_singleton.1 h)
        · cases h
    · exact (ih h).imp_right fun ⟨q, hq, hk⟩ => ⟨q, mem_cons_of_mem p hq, hk⟩

theorem mem_kinds_of_mem (hp : p ∈ ps) (hk : p.kind = .token k) (pending : Bool) :
    k ∈ kinds pending ps := by
  obtain ⟨as, bs, rfl⟩ := append_of_mem hp
  rw [kinds_append, kinds_cons, Piece.emittedKinds, hk]
  simp

section

variable (h : ∀ p ∈ gap, p.isFiller = true)
include h

theorem kinds_fillers (pending : Bool) : ∀ k ∈ kinds pending gap, k = .semi := by
  intro k hk
  rcases exists_of_mem_kinds hk with rfl | ⟨p, hp, hkind⟩
  · rfl
  · simpa [Piece.isFiller, hkind] using h p hp

theorem scan_fillers (here : Position) (pending : Bool) :
    ∀ t ∈ scan here pending gap, t.kind = .semi := by
  intro t ht
  refine kinds_fillers h pending _ ?_
  rw [← map_kind_scan here]
  exact mem_map_of_mem ht

/-- Fillers that end a statement begin with a semicolon, and only semicolons follow. -/
theorem exists_semi (hne : kinds pending gap ≠ []) (here : Position) :
    ∃ semi semis, scan here pending gap = semi :: semis ∧ ∀ t ∈ semi :: semis,
      t.kind = .semi := by
  obtain ⟨semi, semis, hsemis⟩ : ∃ semi semis, scan here pending gap = semi :: semis := by
    refine exists_cons_of_ne_nil fun hnil => hne ?_
    rw [← map_kind_scan here, hnil]
    rfl
  exact ⟨semi, semis, hsemis, hsemis ▸ scan_fillers h here pending⟩

/-- Fillers leave the depth as it is. -/
theorem nest_fillers (pending : Bool) (depth : Nat) :
    nest depth (kinds pending gap) = some depth := by
  refine nest_of_no_brackets (fun k hk => ?_) depth
  rw [kinds_fillers h pending k hk]
  decide

/-- Behind a semicolon no further one is implied. -/
theorem pendingAfter_fillers (hsemi : pending = false ∨ kinds pending gap ≠ []) :
    pendingAfter pending gap = false := by
  induction gap generalizing pending with
  | nil => exact hsemi.resolve_right fun hne => hne rfl
  | cons p ps ih =>
    rw [pendingAfter_cons]
    refine ih (fun q hq => h q (mem_cons_of_mem p hq)) ?_
    have hp := h p mem_cons_self
    rw [kinds_cons] at hsemi
    unfold Piece.isFiller at hp
    unfold Piece.pendingBehind Piece.emittedKinds at *
    cases hk : p.kind with
    | token k =>
      rw [hk] at hp
      obtain rfl : k = .semi := by simpa using hp
      exact .inl rfl
    | blank =>
      simp only [hk] at hsemi ⊢
      cases pending <;> cases hline : Piece.endsLine p <;> simp_all
    | comment =>
      simp only [hk] at hsemi ⊢
      cases pending <;> cases hline : Piece.endsLine p <;> simp_all

end

theorem mem_kinds_ne_eof (h : Lexed ps) (pending : Bool) : .eof ∉ kinds pending ps := by
  intro hmem
  rcases exists_of_mem_kinds hmem with heq | ⟨p, hp, hkind⟩
  · cases heq
  · exact h.kind_ne hp hkind

end Lexer

/-- Pieces that make up one statement, from its first token to its last. -/
structure IsStatement (ps : List Piece) : Prop where
  whole : Mode.outside.walk (kinds false ps) = some .whole
  front : ∀ p, ps.head? = some p → p.isToken = true
  back : ∀ p, ps.getLast? = some p → p.isToken = true

/-- Pieces that are split off as one statement, whatever their brackets. -/
structure IsSplitOff (ps : List Piece) : Prop where
  whole : Mode.outside.run (kinds false ps) = some .whole
  front : ∀ p, ps.head? = some p → p.isToken = true
  back : ∀ p, ps.getLast? = some p → p.isToken = true

theorem IsSplitOff.ne_nil (h : IsSplitOff ps) : ps ≠ [] := by
  rintro rfl
  cases h.whole

theorem IsStatement.isSplitOff (h : IsStatement ps) : IsSplitOff ps :=
  ⟨Mode.run_of_walk h.whole, h.front, h.back⟩

theorem IsStatement.ne_nil (h : IsStatement ps) : ps ≠ [] :=
  h.isSplitOff.ne_nil

/-- Pieces that close only what they open are one statement if they are split off as one. -/
theorem IsSplitOff.isStatement (h : IsSplitOff ps)
    (hnest : nest 0 (kinds false ps) = some e) : IsStatement ps :=
  ⟨Mode.walk_of_run h.whole hnest, h.front, h.back⟩

/-- No filler begins a statement. -/
theorem IsSplitOff.isFiller_head (h : IsSplitOff ps) (hp : ps.head? = some p) :
    p.isFiller = false := by
  obtain ⟨k, hk⟩ := Piece.isToken_iff.1 (h.front p hp)
  obtain ⟨qs, rfl⟩ := head?_eq_some_iff.1 hp
  have hwhole := h.whole
  rw [kinds_cons, Piece.emittedKinds, hk, singleton_append, Mode.run_cons] at hwhole
  obtain ⟨m, hpass, -⟩ := Option.bind_eq_some_iff.1 hwhole
  have hsemi : k ≠ .semi := fun hsemi => (Mode.pass_eq_some hpass).2.1 ⟨hsemi, rfl, rfl⟩
  simpa [Piece.isFiller, hk] using hsemi

/-- The pieces of a statement and the gap behind it.  Without a statement it is a gap
alone. -/
structure Row where
  body : List Piece
  gap : List Piece
deriving DecidableEq, Repr

namespace Row

/-- All pieces of a row. -/
def pieces (r : Row) : List Piece :=
  r.body ++ r.gap

/-- A row that stands for itself: it can be read back, its gap ends in a piece behind which
anything may stand, and if it holds a statement then the gap ends it. -/
structure Sound (r : Row) : Prop where
  lexed : Lexed r.pieces
  closed : ∀ p ∈ r.pieces, p.isClosed = true
  fillers : ∀ p ∈ r.gap, p.isFiller = true
  solid : ∀ p, r.gap.getLast? = some p → p.isSolid = true
  body : r.body = [] ∨ IsStatement r.body ∧ kinds (pendingAfter false r.body) r.gap ≠ []

/-- A row that may stand in front of anything, though a literal in it may end with its line:
it can be read back, its gap ends in a piece that has an end and behind which anything may
stand, and if it holds a statement then the gap ends it. -/
structure Ended (r : Row) : Prop where
  lexed : Lexed r.pieces
  fillers : ∀ p ∈ r.gap, p.isFiller = true
  last : ∀ p, r.gap.getLast? = some p → p.isSolid = true ∧ p.isClosed = true
  body : r.body = [] ∨ IsStatement r.body ∧ kinds (pendingAfter false r.body) r.gap ≠ []

/-- A row whose statement is split off: if it holds one then the gap ends it. -/
structure SplitsOff (r : Row) : Prop where
  fillers : ∀ p ∈ r.gap, p.isFiller = true
  body : r.body = [] ∨ IsSplitOff r.body ∧ kinds (pendingAfter false r.body) r.gap ≠ []

theorem Ended.splitsOff (h : r.Ended) : r.SplitsOff where
  fillers := h.fillers
  body := h.body.imp_right fun hbody => ⟨hbody.1.isSplitOff, hbody.2⟩

theorem splitsOff_of_ended (h : ∀ r ∈ rows, r.Ended) : ∀ r ∈ rows, r.SplitsOff :=
  fun r hr => (h r hr).splitsOff

theorem Sound.ended (h : r.Sound) : r.Ended where
  lexed := h.lexed
  fillers := h.fillers
  last := fun p hp =>
    ⟨h.solid p hp, h.closed p (mem_append_right _ (mem_of_getLast? hp))⟩
  body := h.body

theorem Ended.sound (h : r.Ended) (hclosed : ∀ p ∈ r.pieces, p.isClosed = true) : r.Sound :=
  ⟨h.lexed, hclosed, h.fillers, fun p hp => (h.last p hp).1, h.body⟩

theorem ended_of_sound (h : ∀ r ∈ rows, r.Sound) : ∀ r ∈ rows, r.Ended :=
  fun r hr => (h r hr).ended

/-- The pieces of rows. -/
def flatten (rows : List Row) : List Piece :=
  rows.flatMap pieces

/-- The statements in rows. -/
def bodies (rows : List Row) : List (List Piece) :=
  (rows.map body).filter fun b => !b.isEmpty

/-- The statement of a row whose first token has number `i` and stands at `here`. -/
def statementAt (i : Nat) (here : Position) (r : Row) : List Statement :=
  if r.body = [] then []
  else
    let n := (kinds false r.body).length
    [⟨i, i + n - 1, ⟨here.offset, here.offset + Text.byteSize (textOf r.body)⟩, some (i + n)⟩]

/-- The statements of rows, one behind the other. -/
def placed (i : Nat) (here : Position) : List Row → List Statement
  | [] => []
  | r :: rs =>
    statementAt i here r ++
      placed (i + (kinds false r.pieces).length) (here.advance (textOf r.pieces)) rs

@[simp] theorem flatten_nil : flatten [] = [] := rfl

@[simp] theorem flatten_cons (r : Row) (rs : List Row) :
    flatten (r :: rs) = r.pieces ++ flatten rs := rfl

@[simp] theorem flatten_append (rs qs : List Row) :
    flatten (rs ++ qs) = flatten rs ++ flatten qs :=
  flatMap_append

theorem infix_flatten (h : r ∈ rows) : textOf r.pieces <:+: textOf (flatten rows) := by
  obtain ⟨rs, qs, rfl⟩ := append_of_mem h
  exact ⟨textOf (flatten rs), textOf (flatten qs), by simp⟩

@[simp] theorem bodies_nil : bodies [] = [] := rfl

theorem bodies_cons (r : Row) (rs : List Row) :
    bodies (r :: rs) = (if r.body = [] then [] else [r.body]) ++ bodies rs := by
  unfold bodies
  rw [map_cons, filter_cons]
  cases r.body <;> simp

@[simp] theorem bodies_append (rs qs : List Row) :
    bodies (rs ++ qs) = bodies rs ++ bodies qs := by
  simp [bodies]

theorem SplitsOff.pendingAfter_eq (h : r.SplitsOff) :
    pendingAfter false r.pieces = false := by
  rw [pieces, pendingAfter_append]
  refine pendingAfter_fillers h.fillers ?_
  rcases h.body with hnil | ⟨-, hgap⟩
  · rw [hnil]
    exact .inl rfl
  · exact .inr hgap

namespace Ended

theorem pendingAfter_eq (h : r.Ended) : pendingAfter false r.pieces = false :=
  h.splitsOff.pendingAfter_eq

theorem nest_eq (h : r.Ended) : nest 0 (kinds false r.pieces) = some 0 := by
  have hgap : ∀ pending, nest 0 (kinds pending r.gap) = some 0 := fun pending =>
    nest_fillers h.fillers pending 0
  rw [pieces, kinds_append, nest_append]
  rcases h.body with hnil | ⟨hstatement, -⟩
  · rw [hnil]
    exact hgap false
  · have hbody : nest 0 (kinds false r.body) = some 0 := Mode.nest_of_walk hstatement.whole
    rw [hbody]
    exact hgap _

end Ended

theorem Sound.pendingAfter_eq (h : r.Sound) : pendingAfter false r.pieces = false :=
  h.ended.pendingAfter_eq

/-! ### Reading rows back -/

theorem closed_flatten (h : ∀ r ∈ rows, r.Sound) : ∀ p ∈ flatten rows, p.isClosed = true := by
  intro p hp
  obtain ⟨r, hr, hp⟩ := mem_flatMap.1 hp
  exact (h r hr).closed p hp

/-- The last piece of a row is solid and has an end. -/
theorem Ended.getLast?_pieces (h : r.Ended) (hp : r.pieces.getLast? = some p) :
    p.isSolid = true ∧ p.isClosed = true := by
  cases hgap : r.gap.getLast? with
  | some q =>
    rw [pieces, getLast?_append, hgap] at hp
    cases hp
    exact h.last p hgap
  | none =>
    -- Only a row without a statement has no gap.
    rw [getLast?_eq_none_iff] at hgap
    rcases h.body with hnil | ⟨-, hne⟩
    · rw [pieces, hnil, hgap] at hp
      cases hp
    · rw [hgap] at hne
      exact absurd rfl hne

/-- The last piece of rows is that of a row. -/
theorem getLast?_flatten (h : ∀ r ∈ rows, r.Ended) (hp : (flatten rows).getLast? = some p) :
    p.isSolid = true ∧ p.isClosed = true := by
  induction rows with
  | nil => cases hp
  | cons r rs ih =>
    rw [flatten_cons, getLast?_append] at hp
    cases hlast : (flatten rs).getLast? with
    | none =>
      rw [hlast] at hp
      exact (h r mem_cons_self).getLast?_pieces hp
    | some q =>
      rw [hlast] at hp
      cases hp
      exact ih (fun q hq => h q (mem_cons_of_mem r hq)) hlast

/-- Rows may stand in front of anything. -/
theorem seam_flatten (h : ∀ r ∈ rows, r.Ended) (qs : List Piece) : Seam (flatten rows) qs :=
  fun _ hp => .inl (getLast?_flatten h hp).1

theorem lexed_flatten_append (h : ∀ r ∈ rows, r.Ended) {qs : List Piece} (hqs : Lexed qs) :
    Lexed (flatten rows ++ qs) := by
  induction rows with
  | nil => exact hqs
  | cons r rs ih =>
    obtain ⟨hr, hrs⟩ := forall_mem_cons.1 h
    rw [flatten_cons, append_assoc]
    exact hr.lexed.append (ih hrs)
      (fun p hp => (hr.getLast?_pieces hp).2) fun p hp => .inl (hr.getLast?_pieces hp).1

theorem lexed_flatten (h : ∀ r ∈ rows, r.Ended) : Lexed (flatten rows) := by
  have := lexed_flatten_append h lexed_nil
  rwa [append_nil] at this

theorem SplitsOff.pendingAfter_flatten (h : ∀ r ∈ rows, r.SplitsOff) :
    pendingAfter false (flatten rows) = false := by
  induction rows with
  | nil => rfl
  | cons r rs ih =>
    rw [flatten_cons, pendingAfter_append, (h r mem_cons_self).pendingAfter_eq]
    exact ih fun q hq => h q (mem_cons_of_mem r hq)

theorem pendingAfter_flatten (h : ∀ r ∈ rows, r.Ended) :
    pendingAfter false (flatten rows) = false :=
  SplitsOff.pendingAfter_flatten (splitsOff_of_ended h)

theorem nest_flatten (h : ∀ r ∈ rows, r.Ended) :
    nest 0 (kinds false (flatten rows)) = some 0 := by
  induction rows with
  | nil => rfl
  | cons r rs ih =>
    obtain ⟨hr, hrs⟩ := forall_mem_cons.1 h
    rw [flatten_cons, kinds_append, nest_append, hr.nest_eq, hr.pendingAfter_eq]
    exact ih hrs

end Row

/-! ### The statements of rows -/

theorem Piece.emitted_of_kind (h : p.kind = .token k) (here : Position) (pending : Bool) :
    p.emitted here pending = [⟨k, p.text, here⟩] := by
  unfold Piece.emitted
  rw [h]

/-- What one piece makes: a token of its own, a semicolon that is implied where the piece
begins, or nothing. -/
theorem Piece.emitted_cases (p : Piece) (here : Position) (pending : Bool) :
    (∃ k, p.kind = .token k) ∨
      (p.isToken = false ∧ ∃ t : Token, p.emitted here pending = [t] ∧
        t.isImpliedSemi = true ∧
        t.stop = here.offset) ∨
      (p.isToken = false ∧ p.emitted here pending = []) := by
  unfold Piece.emitted Piece.isToken
  cases p.kind with
  | token k => exact .inl ⟨k, rfl⟩
  | _ =>
    refine .inr ?_
    dsimp only
    split
    · exact .inl ⟨rfl, _, rfl, rfl, rfl⟩
    · exact .inr ⟨rfl, rfl⟩

/-- The tokens of pieces from a token to a token go from the first piece to the last. -/
theorem Lexer.scan_ends {q : Piece} {l : TokenKind} (hp : ps.head? = some p)
    (hk : p.kind = .token k) (hq : ps.getLast? = some q) (hl : q.kind = .token l)
    (here : Position) :
    ∃ a ts b, scan here false ps = a :: ts ∧ (a :: ts).getLast? = some b ∧
      a.pos = here.offset ∧ b.stop = here.offset + Text.byteSize (textOf ps) := by
  obtain ⟨qs, rfl⟩ := head?_eq_some_iff.1 hp
  obtain ⟨rs, heq⟩ := getLast?_eq_some_iff.1 hq
  have hlast : (scan here false (p :: qs)).getLast? =
      some ⟨l, q.text, here.advance (textOf rs)⟩ := by
    rw [heq, scan_append, scan_cons, Piece.emitted_of_kind hl, scan_nil, append_nil,
      getLast?_concat]
  rw [scan_cons, Piece.emitted_of_kind hk] at hlast
  refine ⟨⟨k, p.text, here⟩, _, _, by rw [scan_cons, Piece.emitted_of_kind hk]; rfl,
    hlast, rfl, ?_⟩
  rw [heq]
  simp [Token.stop, Token.pos, Token.size, Nat.add_assoc]

/-- The tokens of a statement go from its first piece to its last. -/
theorem IsSplitOff.scan_eq (h : IsSplitOff ps) (here : Position) :
    ∃ a ts b, scan here false ps = a :: ts ∧ (a :: ts).getLast? = some b ∧
      a.pos = here.offset ∧ b.stop = here.offset + Text.byteSize (textOf ps) := by
  obtain ⟨p, qs, rfl⟩ := exists_cons_of_ne_nil h.ne_nil
  obtain ⟨k, hk⟩ := Piece.isToken_iff.1 (h.front p rfl)
  obtain ⟨q, hq⟩ : ∃ q, (p :: qs).getLast? = some q :=
    ⟨_, getLast?_eq_some_getLast h.ne_nil⟩
  obtain ⟨l, hl⟩ := Piece.isToken_iff.1 (h.back q hq)
  exact scan_ends rfl hk hq hl here

theorem IsStatement.scan_eq (h : IsStatement ps) (here : Position) :
    ∃ a ts b, scan here false ps = a :: ts ∧ (a :: ts).getLast? = some b ∧
      a.pos = here.offset ∧ b.stop = here.offset + Text.byteSize (textOf ps) :=
  h.isSplitOff.scan_eq here

namespace Source

/-- The statement of a row, whatever follows. -/
theorem split_row (h : r.SplitsOff) (i : Nat) (here : Position) (us : List Token) :
    split i .initial (scan here false r.pieces ++ us) =
      r.statementAt i here ++ split (i + (kinds false r.pieces).length) .initial us := by
  rcases h.body with hnil | ⟨hstatement, hne⟩
  · have hpieces : r.pieces = r.gap := by rw [Row.pieces, hnil, nil_append]
    rw [hpieces, split_semis (scan_fillers h.fillers here false), length_scan,
      Row.statementAt, if_pos hnil, nil_append]
  · obtain ⟨a, ts, b, hscan, hb, hpos, hstop⟩ := hstatement.scan_eq here
    -- The first semicolon of the gap ends the statement, and the others are passed over.
    obtain ⟨semi, semis, hsemis, hkinds⟩ :=
      exists_semi h.fillers hne (here.advance (textOf r.body))
    have hrun : Mode.outside.run ((a :: ts).map Token.kind) = some .whole := by
      rw [← hscan, map_kind_scan]
      exact hstatement.whole
    have hlen : (kinds false r.body).length = ts.length + 1 := by
      rw [← length_scan here, hscan, length_cons]
    have hgaplen : (kinds (pendingAfter false r.body) r.gap).length = semis.length + 1 := by
      rw [← length_scan (here.advance (textOf r.body)), hsemis, length_cons]
    rw [Row.pieces, scan_append, hscan, hsemis, append_assoc,
      cons_append (a := semi),
      split_statement hrun hb (hkinds semi mem_cons_self),
      split_semis fun t ht => hkinds t (mem_cons_of_mem semi ht), Row.statementAt,
      if_neg hstatement.ne_nil, kinds_append, length_append, hlen, hgaplen, hpos, hstop]
    have hnext : i + (ts.length + 1 + (semis.length + 1)) = i + ts.length + 2 +
        semis.length := by
      omega
    rw [hnext]
    rfl

/-- The statements of rows, whatever follows. -/
theorem split_rows (h : ∀ r ∈ rows, r.SplitsOff) (i : Nat) (here : Position)
    (us : List Token) :
    split i .initial (scan here false (Row.flatten rows) ++ us) =
      Row.placed i here rows ++
        split (i + (kinds false (Row.flatten rows)).length) .initial us := by
  induction rows generalizing i here with
  | nil => rfl
  | cons r rs ih =>
    obtain ⟨hr, hrs⟩ := forall_mem_cons.1 h
    rw [Row.flatten_cons, scan_append, hr.pendingAfter_eq, append_assoc, split_row hr,
      ih hrs, Row.placed,
      append_assoc, kinds_append,
      hr.pendingAfter_eq, length_append, Nat.add_assoc]

theorem split_rows_nil (h : ∀ r ∈ rows, r.Ended) (i : Nat) (here : Position) :
    split i .initial (scan here false (Row.flatten rows)) = Row.placed i here rows := by
  have hsplit := split_rows (Row.splitsOff_of_ended h) i here []
  rw [append_nil] at hsplit
  rw [hsplit]
  exact append_nil _

end Source

/-- A statement of a source whose tokens are those of pieces, with a semicolon behind them. -/
structure Statement.Spells (st : Statement) (s : Source) (body : List Piece) : Prop where
  isStatement : IsStatement body
  tokens : ∃ here semi rest, s.tokens.drop st.first = scan here false body ++ semi :: rest ∧
    semi.kind = .semi ∧ st.span = ⟨here.offset, here.offset + Text.byteSize (textOf body)⟩
  last : st.last + 1 = st.first + (kinds false body).length
  terminator : st.terminator = some (st.last + 1)
  text : s.statementText st = .ok (textOf body)

namespace Row

/-- The statement of a row is spelled by the row.  The text may lack the line end behind
it. -/
theorem spells_statementAt (h : r.Ended)
    (htokens : s.tokens.drop i = scan here false r.pieces ++ us)
    (hsize : before.byteSize = here.offset)
    (htext : before ++ textOf r.pieces <+: s.text ++ ['\n']) {st : Statement}
    (hst : st ∈ r.statementAt i here) : r.body ≠ [] ∧ st.Spells s r.body := by
  rcases h.body with hnil | ⟨hstatement, hne⟩
  · rw [statementAt, if_pos hnil] at hst
    cases hst
  · refine ⟨hstatement.ne_nil, ?_⟩
    rw [statementAt, if_neg hstatement.ne_nil, mem_singleton] at hst
    subst hst
    obtain ⟨a, ts, b, hscan, -⟩ := hstatement.scan_eq here
    have hpos : 0 < (kinds false r.body).length := by
      rw [← length_scan here, hscan]
      simp
    obtain ⟨semi, semis, hsemis, hkinds⟩ :=
      exists_semi h.fillers hne (here.advance (textOf r.body))
    refine ⟨hstatement,
      ⟨here, semi, semis ++ us, ?_, hkinds semi mem_cons_self, rfl⟩, ?_, ?_, ?_⟩
    · rw [htokens, pieces, scan_append, hsemis, append_assoc, cons_append]
    · simp only
      omega
    · simp only [Option.some.injEq]
      omega
    · -- The gap is not empty, so the statement does not reach into the added line end.
      have hgap : textOf r.gap ≠ [] := by
        intro hnil
        have hlexed : Lexed r.gap := by
          have := h.lexed
          rw [pieces] at this
          exact this.right
        rw [hlexed.textOf_eq_nil hnil] at hne
        exact hne rfl
      obtain ⟨c, gap, hc⟩ := exists_cons_of_ne_nil hgap
      have hbody : before ++ textOf r.body <+: s.text := by
        rw [pieces, textOf_append, hc, ← append_assoc] at htext
        refine prefix_of_prefix_length_le ((prefix_append _ _).trans htext)
          (prefix_append _ _) ?_
        have := htext.length_le
        simp only [length_append, length_cons, length_nil] at this ⊢
        omega
      obtain ⟨behind, hbehind⟩ := hbody
      have hcut : Span.cut ⟨here.offset, here.offset + Text.byteSize (textOf r.body)⟩ s.text =
          .ok (before, textOf r.body, behind) :=
        Span.cut_eq_ok_iff.2 ⟨hbehind.symm, hsize.symm, by rw [hsize]⟩
      simp only [Source.statementText, Source.slice, Span.slice, hcut]
      rfl

/-- The statements of rows are spelled by the rows, in order. -/
theorem spells_placed (h : ∀ r ∈ rows, r.Ended)
    (htokens : s.tokens.drop i = scan here false (flatten rows) ++ us)
    (hsize : before.byteSize = here.offset)
    (htext : before ++ textOf (flatten rows) <+: s.text ++ ['\n']) :
    Forall₂ (fun st body => st.Spells s body) (placed i here rows) (bodies rows) := by
  induction rows generalizing i here before with
  | nil => exact .nil
  | cons r rs ih =>
    obtain ⟨hr, hrs⟩ := forall_mem_cons.1 h
    rw [flatten_cons, scan_append, hr.pendingAfter_eq, append_assoc] at htokens
    rw [flatten_cons, textOf_append, ← append_assoc] at htext
    rw [placed, bodies_cons]
    refine rel_append ?_ (ih hrs ?_ ?_ htext)
    · have hspells : ∀ st ∈ r.statementAt i here, r.body ≠ [] ∧ st.Spells s r.body := fun _ =>
        spells_statementAt hr htokens hsize ((prefix_append _ _).trans htext)
      by_cases hnil : r.body = []
      · rw [statementAt, if_pos hnil, if_pos hnil]
        exact .nil
      · rw [if_neg hnil]
        rw [statementAt, if_neg hnil] at hspells ⊢
        exact .cons (hspells _ (mem_singleton_self _)).2 .nil
    · rw [← drop_drop, htokens, ← length_scan here, drop_left]
    · simp [hsize]

end Row

/-! ### Texts made of rows -/

/-- A text that is made of rows, with the statements in them. -/
def Laid (t : Text) (bodies : List (List Piece)) : Prop :=
  ∃ rows, (∀ r ∈ rows, r.Sound) ∧ Row.flatten rows = Lexer.pieces t ∧ Row.bodies rows = bodies

namespace Laid

variable {u : Text} {bs cs : List (List Piece)}

theorem nil : Laid [] [] :=
  ⟨[], by simp, by simp, rfl⟩

/-- Sound rows make up their text. -/
theorem of_rows (h : ∀ r ∈ rows, r.Sound) :
    Laid (textOf (Row.flatten rows)) (Row.bodies rows) :=
  ⟨rows, h, (Row.lexed_flatten (Row.ended_of_sound h)).symm, rfl⟩

theorem append (ht : Laid t bs) (hu : Laid u cs) : Laid (t ++ u) (bs ++ cs) := by
  obtain ⟨rows, hrows, hpieces, rfl⟩ := ht
  obtain ⟨rows', hrows', hpieces', rfl⟩ := hu
  have hall : ∀ r ∈ rows ++ rows', r.Sound := by
    exact forall_mem_append.2 ⟨hrows, hrows'⟩
  have := of_rows hall
  rwa [Row.flatten_append, textOf_append, hpieces, hpieces', textOf_pieces, textOf_pieces,
    Row.bodies_append] at this

theorem lexicallyClosed (h : Laid t bs) : LexicallyClosed t := by
  obtain ⟨rows, hrows, hpieces, -⟩ := h
  intro p hp
  rw [← hpieces] at hp
  exact Row.closed_flatten hrows p hp

end Laid

/-- The line feed that ends a line. -/
def lineEnd : Piece := ⟨.blank, ['\n']⟩

theorem isBlank_lineFeed : isBlank '\n' = true := by
  decide

/-- A line end may stand behind a closed text. -/
theorem pieces_append_lineFeed (h : LexicallyClosed t) :
    Lexer.pieces (t ++ ['\n']) = Lexer.pieces t ++ [lineEnd] := by
  have hlexed : Lexed (Lexer.pieces t ++ [lineEnd]) := by
    refine lexed_append (lexed_pieces t)
      (lexed_cons.2 ⟨reads_blank isBlank_lineFeed _, lexed_nil⟩) h ?_
    intro p hp
    refine .inr fun d hd => ?_
    cases hd
    exact ⟨by decide, fun _ => rfl⟩
  have htext : textOf (Lexer.pieces t ++ [lineEnd]) = t ++ ['\n'] := by
    rw [textOf_append, textOf_pieces]
    rfl
  rw [← htext]
  exact hlexed

namespace Source

theorem split_append_eof {eof : Token} (heof : eof.kind = .eof) (i : Nat) (st : SplitState) :
    split i st (ts ++ [eof]) = split i st ts := by
  induction ts generalizing i st with
  | nil => simp [split, heof]
  | cons t ts ih =>
    rw [cons_append, split, split, ih, ih]

/-- The tokens of a text are those of its pieces and of a line end, and the end token. -/
theorem tokens_ofText (t : Text) :
    (ofText t).tokens = scan .start false (Lexer.pieces t ++ [lineEnd]) ++
      [.eof (Position.start.advance t)] := by
  have htokens : (ofText t).tokens = tokenize t := rfl
  rw [htokens, tokenize_eq, scan_append, textOf_pieces, append_assoc]
  congr 1
  unfold endTokens
  cases pendingAfter false (Lexer.pieces t) <;> rfl

/-- A line end at the end of a text is there for the splitting, written or not. -/
theorem statements_eq_split (t : Text) :
    (ofText t).statements = split 0 .initial
      (scan .start false (Lexer.pieces t ++ [lineEnd])) := by
  rw [statements, statementsBetween, drop_zero, Nat.sub_zero, take_length,
    tokens_ofText, split_append_eof rfl]

end Source

/-- The statements of a text that is made of rows, up to a line end. -/
theorem Laid.statements {bs : List (List Piece)} (h : Laid (t ++ ['\n']) bs)
    (ht : LexicallyClosed t) :
    Forall₂ (fun st body => st.Spells (.ofText t) body)
      (Source.ofText t).statements bs := by
  obtain ⟨rows, hrows, hpieces, rfl⟩ := h
  rw [pieces_append_lineFeed ht] at hpieces
  have hended := Row.ended_of_sound hrows
  rw [Source.statements_eq_split, ← hpieces, Source.split_rows_nil hended]
  have htokens : (Source.ofText t).tokens.drop 0 =
      scan .start false (Row.flatten rows) ++ [.eof (Position.start.advance t)] := by
    rw [drop_zero, Source.tokens_ofText, hpieces]
  have htext : [] ++ textOf (Row.flatten rows) <+: (Source.ofText t).text ++ ['\n'] := by
    rw [nil_append, hpieces, textOf_append, textOf_pieces]
    exact prefix_rfl
  exact Row.spells_placed hended htokens rfl htext

end Notebook
