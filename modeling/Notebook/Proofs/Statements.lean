import Notebook.Proofs.Tokens
import Notebook.Source.Statement

/-!
# Where statements stand

The statements of a run of tokens stand in it: their numbers are numbers of tokens, their
extent goes from the first token to the last, and they follow one another.  The splitting is a
walk over the tokens with a statement that is not ended yet; `SplitState.Open` is what the
walk keeps of it.

## Main statements

* `Source.standsIn_of_mem`, `Source.pairwise_precedes`: the statements of a source
* `Source.fits_of_standsIn`, `Source.stop_le_start`: their extents fit the text and are in
  order
* `Source.matching_lt`, `Source.entryPoint_spec`: brackets and the entry point
-/

namespace Notebook

open List

variable {e : EntryPoint} {tokens ts : List Token} {depth i j : Nat} {s : Source}
  {st x : Statement} {t : Token}

/-- A statement as it stands in a list of tokens. -/
structure Statement.StandsIn (st : Statement) (tokens : List Token) : Prop where
  first_le_last : st.first ≤ st.last
  /-- The extent goes from the first to the last token, and the first one covers something. -/
  extent : ∃ a b, tokens[st.first]? = some a ∧ tokens[st.last]? = some b ∧
    st.span = ⟨a.pos, b.stop⟩ ∧ a.kind ≠ .semi ∧ a.kind ≠ .eof
  terminator : ∀ i, st.terminator = some i →
    st.last < i ∧ ∃ semi, tokens[i]? = some semi ∧ semi.kind = .semi

/-- Tokens that stand one behind the other in a list, the first with number `i`. -/
def RunsFrom (tokens : List Token) (i : Nat) (ts : List Token) : Prop :=
  ∀ j t, ts[j]? = some t → tokens[i + j]? = some t

theorem RunsFrom.head (h : RunsFrom tokens i (t :: ts)) : tokens[i]? = some t :=
  h 0 t rfl

theorem RunsFrom.tail (h : RunsFrom tokens i (t :: ts)) : RunsFrom tokens (i + 1) ts := by
  intro j u hu
  rw [show i + 1 + j = i + (j + 1) by omega]
  exact h (j + 1) u (by simpa using hu)

/-- A statement that ends, with the semicolon behind it, before another begins. -/
structure Statement.Precedes (a b : Statement) : Prop where
  last_lt : a.last < b.first
  terminator_lt : ∀ i, a.terminator = some i → i < b.first

namespace Source

namespace SplitState

/-- What the splitting keeps: the statement that is not ended yet stands in the tokens before
number `i`, and without one the walk is outside brackets and headers. -/
structure Open (st : SplitState) (tokens : List Token) (i : Nat) : Prop where
  current : ∀ c, st.current = some c → c.last < i ∧
    Statement.StandsIn ⟨c.first, c.last, c.span, none⟩ tokens
  outside : st.current = none → st.depth = 0 ∧ st.header = false

/-- The number of the first token that the next statement can have. -/
def floor (st : SplitState) (i : Nat) : Nat :=
  st.current.elim i (·.first)

theorem open_initial (tokens : List Token) (i : Nat) : Open .initial tokens i :=
  ⟨by simp [initial], by simp [initial]⟩

/-- Taking a token in that does not end the statement keeps the walk. -/
theorem Open.take {st : SplitState} (h : Open st tokens i) (ht : tokens[i]? = some t)
    (heof : t.kind ≠ .eof) (hsplit : st.splitsAt t.kind = false) :
    Open (st.take i t) tokens (i + 1) := by
  refine ⟨?_, by simp [SplitState.take]⟩
  intro c hc
  cases hcur : st.current with
  | none =>
    -- Outside brackets and headers a semicolon would have ended the statement.
    have hsemi : t.kind ≠ .semi := by
      intro hsemi
      simp [splitsAt, hsemi, h.outside hcur] at hsplit
    obtain rfl : ⟨i, i, ⟨t.pos, t.stop⟩⟩ = c := by simpa [SplitState.take, hcur] using hc
    exact ⟨Nat.lt_succ_self i, Nat.le_refl i, ⟨t, t, ht, ht, rfl, hsemi, heof⟩, by simp⟩
  | some d =>
    obtain ⟨hlt, hle, ⟨a, b, ha, hb, hspan, hsemi, hne⟩, -⟩ := h.current d hcur
    obtain rfl : ⟨d.first, i, ⟨d.span.start, t.stop⟩⟩ = c := by
      simpa [SplitState.take, hcur] using hc
    refine ⟨Nat.lt_succ_self i, ?_, ⟨a, t, ha, ht, ?_, hsemi, hne⟩, by simp⟩
    · simp only at hle ⊢
      omega
    · simp only at hspan ⊢
      rw [hspan]

/-- A token that ends the statement is a semicolon, and leaves the walk outside. -/
theorem Open.split {st : SplitState} {k : TokenKind} (tokens : List Token) (i : Nat)
    (hsplit : st.splitsAt k = true) :
    k = .semi ∧ Open ⟨st.depth, st.header, none⟩ tokens i := by
  simp only [splitsAt, Bool.and_eq_true, beq_iff_eq, Bool.not_eq_true'] at hsplit
  obtain ⟨⟨hsemi, hdepth⟩, hheader⟩ := hsplit
  exact ⟨hsemi, by simp, fun _ => ⟨hdepth, hheader⟩⟩

theorem Open.floor_le {st : SplitState} (h : Open st tokens i) : st.floor i ≤ i := by
  cases hcur : st.current with
  | none => simp [floor, hcur]
  | some c =>
    obtain ⟨hlt, hstands⟩ := h.current c hcur
    have hle : c.first ≤ c.last := hstands.first_le_last
    simp only [floor, hcur, Option.elim]
    omega

/-- A statement that is ended stands in the tokens. -/
theorem Open.standsIn_of_mem_close {st : SplitState} (h : Open st tokens i)
    {terminator : Option Nat}
    (hterm : ∀ j, terminator = some j →
      i = j ∧ ∃ semi, tokens[j]? = some semi ∧ semi.kind = .semi)
    (hx : x ∈ st.close terminator) :
    x.StandsIn tokens ∧ x.last < i ∧ x.terminator = terminator ∧ st.floor i ≤ x.first := by
  cases hcur : st.current with
  | none => simp [close, hcur] at hx
  | some c =>
    obtain rfl : x = ⟨c.first, c.last, c.span, terminator⟩ := by simpa [close, hcur] using hx
    obtain ⟨hlt, hstands⟩ := h.current c hcur
    refine ⟨⟨hstands.first_le_last, hstands.extent, ?_⟩, hlt, rfl, by simp [floor, hcur]⟩
    intro j hj
    obtain ⟨rfl, hsemi⟩ := hterm j hj
    exact ⟨hlt, hsemi⟩

theorem pairwise_close (st : SplitState) (terminator : Option Nat) :
    (st.close terminator).Pairwise Statement.Precedes := by
  cases hcur : st.current <;> simp [close, hcur]

end SplitState

open SplitState

/-- The statements of a walk stand in the tokens, no earlier than the walk and within its
tokens. -/
theorem standsIn_of_mem_split {st : SplitState} (hts : RunsFrom tokens i ts)
    (h : Open st tokens i) (hx : x ∈ split i st ts) :
    x.StandsIn tokens ∧ x.last < i + ts.length ∧ st.floor i ≤ x.first := by
  induction ts generalizing i st with
  | nil =>
    obtain ⟨hstands, hlt, -, hfloor⟩ := h.standsIn_of_mem_close (by simp) hx
    exact ⟨hstands, hlt, hfloor⟩
  | cons t ts ih =>
    rw [length_cons]
    rw [split] at hx
    split at hx
    · obtain ⟨hstands, hlt, -, hfloor⟩ := h.standsIn_of_mem_close (by simp) hx
      exact ⟨hstands, by omega, hfloor⟩
    next heof =>
      split at hx
      next hsplit =>
        -- A semicolon ends the statement, and the walk goes on outside.
        obtain ⟨hsemi, hopen⟩ := Open.split tokens (i + 1) hsplit
        rcases mem_append.1 hx with hx | hx
        · obtain ⟨hstands, hlt, -, hfloor⟩ := h.standsIn_of_mem_close
            (by rintro j ⟨⟩; exact ⟨rfl, t, hts.head, hsemi⟩) hx
          exact ⟨hstands, by omega, hfloor⟩
        · obtain ⟨hstands, hlt, hfloor⟩ := ih hts.tail hopen hx
          have hle := h.floor_le
          simp only [floor, Option.elim] at hfloor hle ⊢
          exact ⟨hstands, by omega, by omega⟩
      next hsplit =>
        -- Any other token is taken in, and the statement begins where it began.
        obtain ⟨hstands, hlt, hfloor⟩ :=
          ih hts.tail (h.take hts.head heof (by simpa using hsplit)) hx
        refine ⟨hstands, by omega, ?_⟩
        cases hcur : st.current <;> simpa [floor, SplitState.take, hcur] using hfloor

/-- The statements of a walk follow one another. -/
theorem pairwise_split {st : SplitState} (hts : RunsFrom tokens i ts) (h : Open st tokens i) :
    (split i st ts).Pairwise Statement.Precedes := by
  induction ts generalizing i st with
  | nil => exact pairwise_close st none
  | cons t ts ih =>
    rw [split]
    split
    · exact pairwise_close st none
    next heof =>
      split
      next hsplit =>
        obtain ⟨hsemi, hopen⟩ := Open.split tokens (i + 1) hsplit
        refine pairwise_append.2 ⟨pairwise_close st (some i), ih hts.tail hopen, ?_⟩
        intro x hx y hy
        obtain ⟨-, hlt, hterm, -⟩ := h.standsIn_of_mem_close
          (by rintro j ⟨⟩; exact ⟨rfl, t, hts.head, hsemi⟩) hx
        -- What the walk finds behind the semicolon begins behind it.
        obtain ⟨-, -, hfloor⟩ := standsIn_of_mem_split hts.tail hopen hy
        simp only [floor, Option.elim] at hfloor
        refine ⟨by omega, ?_⟩
        intro j hj
        rw [hterm] at hj
        cases hj
        omega
      next hsplit => exact ih hts.tail (h.take hts.head heof (by simpa using hsplit))

/-! ### The statements of a source -/

theorem runsFrom_drop_take (tokens : List Token) (i n : Nat) :
    RunsFrom tokens i ((tokens.drop i).take n) := by
  intro j t h
  rw [getElem?_take] at h
  split at h
  · rwa [getElem?_drop] at h
  · cases h

theorem kindAt_eq (h : s.tokens[i]? = some t) : s.kindAt i = t.kind := by
  rw [kindAt, h]
  rfl

theorem standsIn_of_mem {first stop : Nat} (h : st ∈ s.statementsBetween first stop) :
    st.StandsIn s.tokens ∧ first ≤ st.first ∧ st.last < stop ∧ st.last < s.tokens.length := by
  obtain ⟨hstands, hlt, hfloor⟩ :=
    standsIn_of_mem_split (runsFrom_drop_take s.tokens first _)
      (open_initial s.tokens first) h
  have hle := hstands.first_le_last
  simp only [floor, initial, Option.elim] at hfloor
  rw [length_take, length_drop] at hlt
  exact ⟨hstands, hfloor, by omega, by omega⟩

theorem pairwise_precedes (s : Source) (first stop : Nat) :
    (s.statementsBetween first stop).Pairwise Statement.Precedes :=
  pairwise_split (runsFrom_drop_take s.tokens first _) (open_initial s.tokens first)

theorem placed (s : Source) : Placed s.text s.tokens := by
  rw [s.tokens_eq]
  exact tokenize_placed s.text

/-- The extent of a statement fits the text. -/
theorem fits_of_standsIn (h : st.StandsIn s.tokens) : st.span.Fits s.text := by
  obtain ⟨a, b, ha, hb, hspan, -, -⟩ := h.extent
  rw [hspan]
  exact s.placed.fits ha hb h.first_le_last

/-- A statement ends before one that it precedes begins. -/
theorem stop_le_start {y : Statement} (hx : x.StandsIn s.tokens) (hy : y.StandsIn s.tokens)
    (hxy : x.Precedes y) : x.span.stop ≤ y.span.start := by
  obtain ⟨_, b, -, hb, hxspan, -, -⟩ := hx.extent
  obtain ⟨a, _, ha, -, hyspan, -, -⟩ := hy.extent
  rw [hxspan, hyspan]
  exact s.placed.stop_le_pos hb ha hxy.last_lt

/-- The extents of statements follow one another. -/
theorem pairwise_ordered (s : Source) (first stop : Nat) :
    (s.statementsBetween first stop).Pairwise fun x y => x.span.stop ≤ y.span.start := by
  refine (s.pairwise_precedes first stop).imp_of_mem ?_
  intro x y hx hy hxy
  exact stop_le_start (standsIn_of_mem hx).1 (standsIn_of_mem hy).1 hxy

/-- The tokens of a statement lie in its extent. -/
theorem token_bounds (h : st.StandsIn s.tokens) (ht : t ∈ s.tokensOf st) :
    st.span.start ≤ t.pos ∧ t.stop ≤ st.span.stop := by
  obtain ⟨a, b, ha, hb, hspan, -, -⟩ := h.extent
  obtain ⟨j, hj⟩ := getElem?_of_mem ht
  have hlt : j < st.last + 1 - st.first := by
    have := (List.getElem?_eq_some_iff.1 hj).1
    simp only [tokensOf, segment, length_take, length_drop] at this
    omega
  have hi : s.tokens[st.first + j]? = some t := runsFrom_drop_take s.tokens st.first _ j t hj
  rw [hspan]
  constructor
  · rcases Nat.eq_zero_or_pos j with rfl | hpos
    · cases ha.symm.trans hi
      exact Nat.le_refl _
    · exact Nat.le_trans a.pos_le_stop (s.placed.stop_le_pos ha hi (by omega))
  · rcases Nat.eq_or_lt_of_le (show st.first + j ≤ st.last by omega) with heq | hlt
    · cases (heq ▸ hi).symm.trans hb
      exact Nat.le_refl _
    · exact Nat.le_trans (s.placed.stop_le_pos hi hb hlt) b.pos_le_stop

/-- The text of a statement can be read. -/
theorem statementText_ok (h : st.StandsIn s.tokens) : ∃ r, s.statementText st = .ok r :=
  (fits_of_standsIn h).slice

/-! ### Brackets and the entry point -/

theorem closingIndex_lt (h : closingIndex depth ts = some j) : j < ts.length := by
  induction ts generalizing depth j with
  | nil => simp [closingIndex] at h
  | cons t ts ih =>
    rw [closingIndex] at h
    split at h
    · cases h
      simp
    · obtain ⟨k, hk, rfl⟩ := Option.map_eq_some_iff.1 h
      have := ih hk
      simpa using this

/-- A closing bracket is a token, and stands no earlier than the search begins. -/
theorem matching_lt (h : s.matching i = some j) : i ≤ j ∧ j < s.tokens.length := by
  obtain ⟨k, hk, rfl⟩ := Option.map_eq_some_iff.1 h
  have := closingIndex_lt hk
  rw [length_drop] at this
  omega

/-- The bracket that closes an opening one stands behind it. -/
theorem lt_of_matching (ht : s.tokens[i]? = some t) (hopens : t.kind.opens = true)
    (h : s.matching i = some j) : i < j := by
  obtain ⟨k, hk, rfl⟩ := Option.map_eq_some_iff.1 h
  obtain ⟨hi, rfl⟩ := List.getElem?_eq_some_iff.1 ht
  rw [drop_eq_getElem_cons hi, closingIndex] at hk
  have hcloses : s.tokens[i].kind.closes = false := by
    revert hopens
    cases s.tokens[i].kind <;> simp [TokenKind.opens, TokenKind.closes]
  simp only [hcloses, Bool.false_and, Bool.false_eq_true, if_false] at hk
  obtain ⟨n, -, rfl⟩ := Option.map_eq_some_iff.1 hk
  omega

theorem startsEntry_of_entryIndex (h : entryIndex depth ts = some i) :
    startsEntry (ts.drop i) = true := by
  induction ts generalizing depth i with
  | nil => simp [entryIndex] at h
  | cons t ts ih =>
    rw [entryIndex] at h
    split at h
    next hstart =>
      cases h
      exact (Bool.and_eq_true_iff.1 hstart).2
    · obtain ⟨k, hk, rfl⟩ := Option.map_eq_some_iff.1 h
      simpa using ih hk

/-- The fifth token of an entry function is its opening brace. -/
theorem exists_brace_of_entryIndex (h : entryIndex 0 s.tokens = some i) :
    ∃ brace, s.tokens[i + 4]? = some brace ∧ brace.kind.opens = true := by
  have hstart := startsEntry_of_entryIndex h
  have hdrop : s.tokens[i + 4]? = (s.tokens.drop i)[4]? := by rw [getElem?_drop]
  rw [hdrop]
  revert hstart
  unfold startsEntry
  split
  next f m l r b rest heq =>
    intro hstart
    simp only [Bool.and_eq_true, beq_iff_eq] at hstart
    exact ⟨b, by simp [heq], by simp [hstart.2, TokenKind.opens]⟩
  next => simp

/-- The brackets of an entry function are tokens, and its body stands between them. -/
theorem entryPoint_spec (h : s.entryPoint = some e) :
    e.openIndex < e.closeIndex ∧ ∃ o c, s.tokens[e.openIndex]? = some o ∧
      s.tokens[e.closeIndex]? = some c ∧ e.bodyStart = o.stop ∧ e.bodyStop = c.pos := by
  simp only [entryPoint, Option.bind_eq_bind, Option.bind_eq_some_iff, Option.pure_def,
    Option.some.injEq] at h
  obtain ⟨i, hi, close, hclose, o, ho, c, hc, rfl⟩ := h
  obtain ⟨brace, hbrace, hopens⟩ := exists_brace_of_entryIndex hi
  exact ⟨lt_of_matching hbrace hopens hclose, o, c, ho, hc, rfl, rfl⟩

/-- A statement of the entry function stands in its body. -/
theorem body_bounds (he : s.entryPoint = some e) (hst : st ∈ s.bodyStatements e) :
    e.bodyStart ≤ st.span.start ∧ st.span.stop ≤ e.bodyStop := by
  obtain ⟨-, o, c, ho, hc, hstart, hstop⟩ := entryPoint_spec he
  obtain ⟨hstands, hfirst, hlast, -⟩ := standsIn_of_mem hst
  obtain ⟨a, b, ha, hb, hspan, -, -⟩ := hstands.extent
  rw [hspan, hstart, hstop]
  exact ⟨s.placed.stop_le_pos ho ha (by omega), s.placed.stop_le_pos hb hc hlast⟩

/-- The body of an entry function begins and ends between characters. -/
theorem isBoundary_body (he : s.entryPoint = some e) :
    s.text.IsBoundary e.bodyStart ∧ s.text.IsBoundary e.bodyStop := by
  obtain ⟨-, o, c, ho, hc, hstart, hstop⟩ := entryPoint_spec he
  rw [hstart, hstop]
  exact ⟨(s.placed.standsIn o (mem_of_getElem? ho)).isBoundary_stop,
    (s.placed.standsIn c (mem_of_getElem? hc)).isBoundary_pos⟩

end Source

end Notebook
